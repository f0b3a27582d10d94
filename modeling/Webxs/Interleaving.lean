import Mathlib.Algebra.BigOperators.Group.Finset.Basic
import Mathlib.Algebra.Order.BigOperators.Group.Finset
import Mathlib.Data.Fintype.Basic
import Mathlib.Logic.Function.Basic
import Mathlib.Tactic.Ring

/-!
# Runs of a step function, and counting threads

`Runs next ok s₀` are the states a partial step function `next` reaches from `s₀` by steps
that all meet `ok`; `Reachable` asks nothing of the steps. A property that holds at the
start and is kept by each allowed step holds in every state (`Runs.invariant`), and a
schedule that runs through puts its last state among them (`runs_of_runSchedule`).

Threads are the elements of a finite type `ι`, their places a function on it. `tally w f`
adds the weight of every thread's place; `tally_update` is how it changes when one thread
moves, so a counter that the code keeps can be compared with the threads it counts.
-/

namespace Interleaving

/-! ## Runs -/

section Runs

variable {σ α : Type*} {next : σ → α → Option σ} {ok : σ → α → Prop} {s₀ : σ}

/-- The states that `next` reaches from `s₀` by steps that meet `ok`. -/
inductive Runs (next : σ → α → Option σ) (ok : σ → α → Prop) (s₀ : σ) : σ → Prop
  | start : Runs next ok s₀ s₀
  | step {s t : σ} (a : α) : Runs next ok s₀ s → ok s a → next s a = some t →
      Runs next ok s₀ t

/-- The states that `next` reaches from `s₀`. -/
abbrev Reachable (next : σ → α → Option σ) (s₀ : σ) : σ → Prop :=
  Runs next (fun _ _ => True) s₀

/-- A property of `s₀` kept by every allowed step holds in every state of a run. -/
theorem Runs.invariant {I : σ → Prop} {s : σ} (h : Runs next ok s₀ s) (h₀ : I s₀)
    (hstep : ∀ s a t, I s → ok s a → next s a = some t → I t) : I s := by
  induction h with
  | start => exact h₀
  | step a _ hok hn ih => exact hstep _ a _ ih hok hn

/-- Asking less of the steps allows every run there was. -/
theorem Runs.mono {ok' : σ → α → Prop} {s : σ} (h : Runs next ok s₀ s)
    (himp : ∀ s a, ok s a → ok' s a) : Runs next ok' s₀ s := by
  induction h with
  | start => exact .start
  | step a _ hok hn ih => exact .step a ih (himp _ _ hok) hn

/-- Take the steps of a schedule in order, each of them allowed. -/
def runSchedule (next : σ → α → Option σ) (ok : σ → α → Prop) [∀ s a, Decidable (ok s a)] :
    σ → List α → Option σ
  | s, [] => some s
  | s, a :: as =>
    if ok s a then
      match next s a with
      | some t => runSchedule next ok t as
      | none => none
    else none

theorem runs_of_runSchedule [∀ s a, Decidable (ok s a)] {s t : σ} {as : List α}
    (hs : Runs next ok s₀ s) (h : runSchedule next ok s as = some t) : Runs next ok s₀ t := by
  induction as generalizing s with
  | nil =>
    obtain rfl := Option.some.inj h
    exact hs
  | cons a as ih =>
    unfold runSchedule at h
    split_ifs at h with hok
    cases hn : next s a with
    | none => simp [hn] at h
    | some u =>
      simp only [hn] at h
      exact ih (.step a hs hok hn) h

/-- A schedule that runs through to a state with `P` puts such a state among the runs. -/
theorem exists_runs_of_runSchedule [∀ s a, Decidable (ok s a)] {P : σ → Prop} [DecidablePred P]
    (as : List α) (h : (runSchedule next ok s₀ as).any (fun s => decide (P s)) = true) :
    ∃ s, Runs next ok s₀ s ∧ P s := by
  obtain ⟨s, hs, hP⟩ := (Option.any_eq_true _ _).mp h
  exact ⟨s, runs_of_runSchedule .start hs, of_decide_eq_true hP⟩

end Runs

/-! ## Counting threads -/

section Tally

variable {ι P : Type*} [Fintype ι]

/-- The sum of the weights of all threads' places. -/
def tally (w : P → ℕ) (f : ι → P) : ℕ :=
  ∑ i, w (f i)

theorem le_tally (w : P → ℕ) (f : ι → P) (i : ι) : w (f i) ≤ tally w f :=
  Finset.single_le_sum (f := fun i => w (f i)) (fun _ _ => Nat.zero_le _) (Finset.mem_univ i)

theorem tally_eq_zero {w : P → ℕ} {f : ι → P} (h : ∀ i, w (f i) = 0) : tally w f = 0 :=
  Finset.sum_eq_zero fun i _ => h i

theorem tally_congr {w w' : P → ℕ} {f : ι → P} (h : ∀ i, w (f i) = w' (f i)) :
    tally w f = tally w' f :=
  Finset.sum_congr rfl fun i _ => h i

theorem exists_of_tally_pos {w : P → ℕ} {f : ι → P} (h : 0 < tally w f) : ∃ i, 0 < w (f i) := by
  by_contra hn
  simp only [not_exists, Nat.not_lt, Nat.le_zero] at hn
  rw [tally_eq_zero hn] at h
  exact absurd h (Nat.lt_irrefl 0)

variable [DecidableEq ι]

/-- How a tally changes when thread `i` moves to `x`. -/
theorem tally_update (w : P → ℕ) (f : ι → P) (i : ι) (x : P) :
    tally w (Function.update f i x) + w (f i) = tally w f + w x := by
  have hrest : ∑ j ∈ Finset.univ.erase i, w (Function.update f i x j) =
      ∑ j ∈ Finset.univ.erase i, w (f j) :=
    Finset.sum_congr rfl fun j hj => by
      rw [Function.update_of_ne (Finset.ne_of_mem_erase hj)]
  have h₁ := Finset.add_sum_erase Finset.univ (fun j => w (Function.update f i x j))
    (Finset.mem_univ i)
  have h₂ := Finset.add_sum_erase Finset.univ (fun j => w (f j)) (Finset.mem_univ i)
  simp only [Function.update_self] at h₁
  simp only [tally, ← h₁, ← h₂, hrest]
  ring

/-- Two threads of positive weight weigh at most the whole tally. -/
theorem add_le_tally (w : P → ℕ) (f : ι → P) {i j : ι} (hij : i ≠ j) :
    w (f i) + w (f j) ≤ tally w f := by
  have h₂ := Finset.add_sum_erase Finset.univ (fun j => w (f j)) (Finset.mem_univ i)
  have hj := Finset.single_le_sum (f := fun j => w (f j)) (fun _ _ => Nat.zero_le _)
    (Finset.mem_erase.mpr ⟨hij.symm, Finset.mem_univ j⟩)
  simp only [tally, ← h₂]
  exact Nat.add_le_add_left hj _

end Tally

/-! ## Threads over a shared state -/

section Threads

variable {ι S P A : Type*}

/-- The shared state and the place of each thread. -/
structure Config (ι S P : Type*) where
  /-- What all threads read and write. -/
  shared : S
  /-- Where each thread is, with its local variables. -/
  pc : ι → P

variable [DecidableEq ι]

/-- Thread `i` takes the step `a` of `loc`, the others stay where they are. -/
def threadNext (loc : ι → A → S → P → Option (S × P)) (c : Config ι S P) (ia : ι × A) :
    Option (Config ι S P) :=
  (loc ia.1 ia.2 c.shared (c.pc ia.1)).map fun r =>
    ⟨r.1, Function.update c.pc ia.1 r.2⟩

variable {loc : ι → A → S → P → Option (S × P)}

theorem threadNext_eq_some {c c' : Config ι S P} {i : ι} {a : A}
    (h : threadNext loc c (i, a) = some c') :
    ∃ s' p', loc i a c.shared (c.pc i) = some (s', p') ∧ c' = ⟨s', Function.update c.pc i p'⟩ := by
  simp only [threadNext, Option.map_eq_some_iff] at h
  obtain ⟨⟨s', p'⟩, hloc, rfl⟩ := h
  exact ⟨s', p', hloc, rfl⟩

/-- A counter that each step of a run changes by the weight its thread gains counts the
threads by weight. -/
theorem Runs.counter_eq_tally_of [Fintype ι] {ok : Config ι S P → ι × A → Prop}
    {c₀ c : Config ι S P} (h : Runs (threadNext loc) ok c₀ c) (κ : S → ℤ) (w : P → ℕ)
    (h₀ : κ c₀.shared = tally w c₀.pc)
    (hloc : ∀ c i a s' p', Runs (threadNext loc) ok c₀ c →
      loc i a c.shared (c.pc i) = some (s', p') → κ s' + w (c.pc i) = κ c.shared + w p') :
    κ c.shared = tally w c.pc := by
  induction h with
  | start => exact h₀
  | @step c _ ia hc _ hn ih =>
    obtain ⟨s', p', hl, rfl⟩ := threadNext_eq_some hn
    have hκ := hloc c ia.1 ia.2 s' p' hc hl
    have ht := tally_update w c.pc ia.1 p'
    simp only
    omega

/-- A counter that each step changes by the weight its thread gains counts the threads
by weight in every state of a run. -/
theorem Runs.counter_eq_tally [Fintype ι] {ok : Config ι S P → ι × A → Prop}
    {c₀ c : Config ι S P} (h : Runs (threadNext loc) ok c₀ c) (κ : S → ℤ) (w : P → ℕ)
    (h₀ : κ c₀.shared = tally w c₀.pc)
    (hloc : ∀ i a s p s' p', loc i a s p = some (s', p') → κ s' + w p = κ s + w p') :
    κ c.shared = tally w c.pc :=
  h.counter_eq_tally_of κ w h₀ fun _ i a _ _ _ hl => hloc i a _ _ _ _ hl

end Threads

end Interleaving
