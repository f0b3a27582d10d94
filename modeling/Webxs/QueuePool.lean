import Webxs.QueueWakeup

/-!
# The size of the worker pool

A push creates a worker if it finds `qCreated` below `qMaxActive`, and equal to `qActive`. But
nothing counts `qCreated` up, and `qActive` is counted up by the worker itself when it starts. So
every push that makes its tests before the first worker starts creates one, and later pushes create
none. `workers_le` : the pool stays below its limit in a run in which a push passes its tests only
while fewer threads than the limit are on their way to be workers.
-/

open Interleaving

namespace Webxs

namespace Queue

variable {ι α : Type*}

/-- On the way to be a worker : a worker that is to be created, or is to count itself. -/
def Pc.inFlight : Pc α → ℕ
  | .kick .create | .exec .start => 1
  | _ => 0

/-- A worker. -/
def Pc.workers : Pc α → ℕ
  | .exec _ | .pause _ | .pop .worker _ => 1
  | _ => 0

/-- A worker, or one that is to be created. -/
def Pc.pooled (p : Pc α) : ℕ :=
  p.inFlight + p.actives

theorem Pc.workers_le_pooled (p : Pc α) : p.workers ≤ p.pooled := by
  cases p with
  | exec e => cases e <;> exact le_rfl
  | pause q => exact le_rfl
  | pop who p => cases who <;> exact le_rfl
  | _ => exact Nat.zero_le _

theorem Pc.pooled_of_worker {p : Pc α} (h : p.Worker) : p.pooled = 1 := by
  cases p with
  | exec e => cases e <;> rfl
  | pause q => rfl
  | pop who p =>
    cases who with
    | worker => rfl
    | thread b => exact h.elim
  | _ => exact h.elim

section Fintype

variable [Fintype ι]

/-- The threads on their way to be workers : passed the tests, created, or started and not counted
in `qActive`. -/
def inFlight (c : State ι α) : ℕ :=
  c.shared.pool.starting + tally Pc.inFlight c.pc

/-- The workers that were created and have not ended. -/
def workers (c : State ι α) : ℕ :=
  c.shared.pool.starting + tally Pc.workers c.pc

/-- A push that is at the last of its tests, and passes it, is not one too many. -/
def Admits (c : State ι α) (ia : ι × Act ι α) : Prop :=
  c.pc ia.1 = .kick (.activeCreated c.shared.pool.qActive) →
    (inFlight c : ℤ) < c.shared.pool.qMaxActive

instance [DecidableEq α] (c : State ι α) (ia : ι × Act ι α) : Decidable (Admits c ia) := by
  unfold Admits
  infer_instance

variable [DecidableEq ι] {i : ι} {a : Act ι α} {s s' : Shared ι α} {p p' : Pc α}

/-- Only the last test of a push adds to the pool. -/
theorem pooled_step (h : step i a s p = some (s', p')) :
    s'.pool.starting + p'.pooled = s.pool.starting + p.pooled ∨
      p = .kick (.activeCreated s.pool.qActive) ∧
        s'.pool.starting + p'.pooled = s.pool.starting + p.pooled + 1 := by
  by_cases hw : p.Worker
  · obtain ⟨hw', -, hstart, -⟩ := frame_of_worker h hw
    rw [Pc.pooled_of_worker hw, Pc.pooled_of_worker hw', hstart]
    exact .inl rfl
  cases steps_of_step h with
  | start hpos =>
    left
    simp only [Pc.pooled, Pc.inFlight, Pc.actives]
    omega
  | push first p =>
    obtain ⟨n, hpool, -, -, hp | ⟨-, hp | ⟨p', hp⟩⟩⟩ := frame_queuePush s p <;>
      rw [hpool, hp] <;> exact .inl rfl
  | pop first who p =>
    cases who with
    | worker => exact (hw trivial).elim
    | thread b =>
      obtain ⟨-, ⟨d, hp⟩ | ⟨p', hp⟩⟩ := frame_queuePop (.thread b) s.ring p <;> rw [hp] <;>
        exact .inl rfl
  | kick first hk =>
    rename_i k
    cases k <;> simp only [queueKick] at hk <;> (try split_ifs at hk) <;>
      simp only [Option.some.injEq, Prod.mk.injEq, reduceCtorEq] at hk <;>
      obtain ⟨rfl, rfl⟩ := hk <;>
      first
      | exact .inl rfl
      | exact .inr ⟨by rw [← ‹_ = s.pool.qActive›], rfl⟩
  | exec | pause | spurious => exact (hw trivial).elim
  | _ => exact .inl rfl

theorem activeCreated_step (h : step i a s p = some (s', p')) {n : ℤ}
    (hp : p' = .kick (.activeCreated n)) : n = s.pool.qCreated := by
  cases steps_of_step h with
  | push first p =>
    obtain ⟨m, -, -, -, hp' | ⟨-, hp' | ⟨p', hp'⟩⟩⟩ := frame_queuePush s p <;> simp [hp'] at hp
  | pop first who p =>
    obtain ⟨-, ⟨d, hp'⟩ | ⟨p', hp'⟩⟩ := frame_queuePop who s.ring p <;> rw [hp'] at hp
    · cases who <;> cases d <;> cases hp
    · cases hp
  | exec first e =>
    obtain ⟨-, ⟨e', hp'⟩ | hp' | ⟨hp', -⟩⟩ := frame_queueExec s e <;> simp [hp'] at hp
  | pause first hq =>
    obtain ⟨-, rfl | ⟨q', rfl⟩⟩ := frame_queuePause hq <;> cases hp
  | kick first hk =>
    rename_i k
    cases k <;> simp only [queueKick] at hk <;> (try split_ifs at hk) <;>
      simp only [Option.some.injEq, Prod.mk.injEq, reduceCtorEq] at hk <;>
      obtain ⟨rfl, rfl⟩ := hk <;> simp at hp
    exact hp.symm
  | _ => cases hp

/-- What is known of the pool. -/
structure Bounded (m : ℤ) (c : State ι α) : Prop where
  qCreated : c.shared.pool.qCreated = 0
  qMaxActive : c.shared.pool.qMaxActive = m
  activeCreated : ∀ i n, c.pc i = .kick (.activeCreated n) → n = 0
  pooled : (c.shared.pool.starting + tally Pc.pooled c.pc : ℤ) ≤ m

variable {ok : State ι α → ι × Act ι α → Prop} {qSpace : ℕ} {m : ℤ} {c c' : State ι α}
  {ia : ι × Act ι α}

/-- With no worker counted in `qActive`, the pool consists of those in flight. -/
theorem inFlight_eq (h : Runs next ok (init qSpace m) c) (h0 : c.shared.pool.qActive = 0) :
    inFlight c = c.shared.pool.starting + tally Pc.pooled c.pc := by
  have hactive := actives_eq_tally h
  have hzero : ∀ i, (c.pc i).actives = 0 := fun i => by
    have := le_tally Pc.actives c.pc i
    omega
  rw [inFlight]
  congr 1
  exact tally_congr fun i => by rw [Pc.pooled, hzero i, Nat.add_zero]

theorem Bounded.next (hb : Bounded m c) (h : Runs next ok (init qSpace m) c) (hok : Admits c ia)
    (hn : next c ia = some c') : Bounded m c' := by
  obtain ⟨i, a⟩ := ia
  obtain ⟨s', p', hl, rfl⟩ := threadNext_eq_some hn
  obtain ⟨hcr, hmax⟩ := const_step hl
  have htally := tally_update Pc.pooled c.pc i p'
  have hpooled := hb.pooled
  refine ⟨hcr.trans hb.qCreated, hmax.trans hb.qMaxActive, fun j n hj => ?_, ?_⟩
  · dsimp only at hj
    by_cases hji : j = i
    · subst hji
      rw [Function.update_self] at hj
      exact (activeCreated_step hl hj).trans hb.qCreated
    · rw [Function.update_of_ne hji] at hj
      exact hb.activeCreated j n hj
  · dsimp only
    obtain hsame | ⟨hp, hgrow⟩ := pooled_step hl
    · omega
    · have hflight := hok hp
      have h0 := hb.activeCreated i _ hp
      rw [inFlight_eq h h0, hb.qMaxActive] at hflight
      push_cast at hflight
      omega

/-- The pool stays below its limit, if no push passes its tests while the limit is in flight. -/
theorem workers_le (qSpace : ℕ) (m : ℤ) (hm : 1 ≤ m) (c : State ι α)
    (h : Runs next Admits (init qSpace m) c) : (workers c : ℤ) ≤ m := by
  have hb : Bounded m c := by
    induction h with
    | start =>
      have hzero : tally Pc.pooled (init qSpace m : State ι α).pc = 0 := tally_eq_zero fun _ => rfl
      refine ⟨rfl, rfl, by simp [init], ?_⟩
      rw [hzero]
      simp only [init]
      omega
    | step ia hr hok hn ih => exact ih.next hr hok hn
  have hpooled := hb.pooled
  have hle : tally Pc.workers c.pc ≤ tally Pc.pooled c.pc :=
    Finset.sum_le_sum fun i _ => (c.pc i).workers_le_pooled
  rw [workers]
  push_cast
  omega

end Fintype

/-- One push, and the worker it creates. -/
theorem workers_le_one : ∃ c : State (Fin 2) ℕ, workers c = 1 ∧ (workers c : ℤ) ≤ 1 := by
  obtain ⟨c, hc, hw⟩ : ∃ c : State (Fin 2) ℕ, Runs next Admits (init 4 1) c ∧ workers c = 1 :=
    exists_runs_of_runSchedule
      ((0, .push 7 true) :: List.replicate 16 (0, .go true) ++ [(1, .start)]) (by decide)
  exact ⟨c, hw, workers_le 4 1 le_rfl c hc⟩

/-- Two pushes make their tests before a worker starts. -/
theorem two_workers : ∃ c : State (Fin 2) ℕ, Reachable next (init 4 1) c ∧ ¬(workers c : ℤ) ≤ 1 :=
  exists_runs_of_runSchedule
    ((0, .push 7 true) :: List.replicate 16 (0, .go true) ++
      (1, .push 8 true) :: List.replicate 16 (1, .go true)) (by decide)

end Queue

end Webxs
