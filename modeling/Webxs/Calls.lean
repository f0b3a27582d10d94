import Mathlib.Data.List.Basic

/-!
# Sequences of calls

`step s i` is a call on the state `s` with the input `i` : what it returns and the state after it,
or `none` if it goes wrong. `Calls.run` makes one call for each input of a list and keeps what each
returned with the state after it; `Calls.Along P` says that each call is made where `P` allows it.

What an observer computes from the returns is a fold over them. `Calls.run_foldl` : if the states
are related to what the observer has, and each allowed call goes through and keeps the relation,
then a run goes through and the relation holds at its end. `Calls.foldl_of_run` is the same for a
run that is known to go through.
-/

namespace Calls

variable {σ ι ρ τ : Type*} {step : σ → ι → Option (ρ × σ)}

/-- One call for each input : what it returned, with the state after it. -/
def run (step : σ → ι → Option (ρ × σ)) : σ → List ι → Option (List (ρ × σ))
  | _, [] => some []
  | s, i :: is => (step s i).bind fun r => (run step r.2 is).map fun rs => r :: rs

/-- The state after the calls. -/
def last (s : σ) : List (ρ × σ) → σ
  | [] => s
  | r :: rs => last r.2 rs

/-- Each call is made on a state and with an input that meet `P`. -/
def Along (step : σ → ι → Option (ρ × σ)) (P : σ → ι → Prop) : σ → List ι → Prop
  | _, [] => True
  | s, i :: is => P s i ∧ ∀ r, step s i = some r → Along step P r.2 is

variable {P : σ → ι → Prop} {R : σ → τ → Prop} {g : τ → ρ × σ → τ}

instance decidableAlong [∀ s i, Decidable (P s i)] :
    ∀ (is : List ι) (s : σ), Decidable (Along step P s is)
  | [], _ => .isTrue trivial
  | i :: is, s =>
    match h : step s i with
    | none => decidable_of_iff (P s i) ⟨fun hp => ⟨hp, by simp [h]⟩, And.left⟩
    | some r =>
      have := decidableAlong is r.2
      decidable_of_iff (P s i ∧ Along step P r.2 is)
        ⟨fun hp => ⟨hp.1, fun r' hr => by rw [h] at hr; cases hr; exact hp.2⟩,
          fun hp => ⟨hp.1, hp.2 r h⟩⟩

/-- A condition that all inputs meet holds along every run. -/
theorem along_of_forall {Q : ι → Prop} {is : List ι} (h : ∀ i ∈ is, Q i) (s : σ) :
    Along step (fun _ => Q) s is := by
  induction is generalizing s with
  | nil => trivial
  | cons i is ih =>
    exact ⟨h i (by simp), fun r _ => ih (fun j hj => h j (by simp [hj])) r.2⟩

theorem along_imp {Q : σ → ι → Prop} (hPQ : ∀ s i, P s i → Q s i) {is : List ι} {s : σ}
    (h : Along step P s is) : Along step Q s is := by
  induction is generalizing s with
  | nil => trivial
  | cons i is ih => exact ⟨hPQ s i h.1, fun r hr => ih (h.2 r hr)⟩

theorem along_and {Q : σ → ι → Prop} {is : List ι} {s : σ} (h : Along step P s is)
    (h' : Along step Q s is) : Along step (fun s i => P s i ∧ Q s i) s is := by
  induction is generalizing s with
  | nil => trivial
  | cons i is ih => exact ⟨⟨h.1, h'.1⟩, fun r hr => ih (h.2 r hr) (h'.2 r hr)⟩

/-- A fold that keeps what `f` says of the last return too. -/
theorem foldl_last {β : Type*} (f : ρ × σ → β) (rs : List (ρ × σ)) : ∀ (t : τ) (b : β),
    rs.foldl (fun (x : τ × β) r => (g x.1 r, f r)) (t, b) =
      (rs.foldl g t, (rs.getLast?.map f).getD b) := by
  induction rs with
  | nil => exact fun _ _ => rfl
  | cons r rs ih =>
    intro t b
    rw [List.foldl_cons, ih, List.foldl_cons, List.getLast?_cons]
    cases rs.getLast? <;> rfl

/-- Calls that go through and keep a relation with what an observer has make a run that does. -/
theorem run_foldl (hstep : ∀ s t i, R s t → P s i → ∃ r, step s i = some r ∧ R r.2 (g t r))
    {is : List ι} {s : σ} {t : τ} (ht : R s t) (ha : Along step P s is) :
    ∃ rs s', run step s is = some rs ∧ R s' (rs.foldl g t) := by
  induction is generalizing s t with
  | nil => exact ⟨[], s, rfl, ht⟩
  | cons i is ih =>
    obtain ⟨hp, ha⟩ := ha
    obtain ⟨r, hr, hrt⟩ := hstep s t i ht hp
    obtain ⟨rs, s', hrs, hs'⟩ := ih hrt (ha r hr)
    exact ⟨r :: rs, s', by simp [run, hr, hrs], hs'⟩

/-- The same up to the first call that meets `Q`, if there is one. -/
theorem run_until {Q : σ → τ → ι → Prop}
    (hstep : ∀ s t i, R s t → P s i → (∃ r, step s i = some r ∧ R r.2 (g t r)) ∨ Q s t i)
    {is : List ι} {s : σ} {t : τ} (ht : R s t) (ha : Along step P s is) :
    ∃ js ks rs, is = js ++ ks ∧ run step s js = some rs ∧ R (last s rs) (rs.foldl g t) ∧
      ∀ i ∈ ks.head?, Q (last s rs) (rs.foldl g t) i := by
  induction is generalizing s t with
  | nil => exact ⟨[], [], [], rfl, rfl, ht, fun _ hi => absurd hi (Option.not_mem_none _)⟩
  | cons i is ih =>
    obtain ⟨hp, ha⟩ := ha
    obtain ⟨r, hr, hrt⟩ | hq := hstep s t i ht hp
    · obtain ⟨js, ks, rs, rfl, hrs, hlast⟩ := ih hrt (ha r hr)
      exact ⟨i :: js, ks, r :: rs, rfl, by simp [run, hr, hrs], hlast⟩
    · refine ⟨[], i :: is, [], rfl, rfl, ht, fun j hj => ?_⟩
      obtain rfl := Option.some.inj hj
      exact hq

/-- The same for a run that goes through. -/
theorem foldl_of_run (hstep : ∀ s t i r, R s t → P s i → step s i = some r → R r.2 (g t r))
    {is : List ι} {rs : List (ρ × σ)} {s : σ} {t : τ} (ht : R s t) (ha : Along step P s is)
    (hrs : run step s is = some rs) : ∃ s', R s' (rs.foldl g t) := by
  induction is generalizing s t rs with
  | nil =>
    cases hrs
    exact ⟨s, ht⟩
  | cons i is ih =>
    obtain ⟨hp, ha⟩ := ha
    cases hr : step s i with
    | none => simp [run, hr] at hrs
    | some r =>
      simp only [run, hr, Option.bind_some, Option.map_eq_some_iff] at hrs
      obtain ⟨rs, hrs, rfl⟩ := hrs
      exact ih (t := g t r) (hstep s t i r ht hp hr) (ha r hr) hrs

/-- What every call keeps holds after each call of a run. -/
theorem forall_of_run {I : σ → Prop} (hstep : ∀ s i r, I s → step s i = some r → I r.2)
    {is : List ι} {rs : List (ρ × σ)} {s : σ} (hs : I s) (hrs : run step s is = some rs) :
    ∀ r ∈ rs, I r.2 := by
  induction is generalizing s rs with
  | nil =>
    cases hrs
    simp
  | cons i is ih =>
    obtain ⟨r, hr, hrs⟩ := Option.bind_eq_some_iff.mp hrs
    obtain ⟨rs', hrs', rfl⟩ := Option.map_eq_some_iff.mp hrs
    have hr' := hstep s i r hs hr
    exact List.forall_mem_cons.mpr ⟨hr', ih hr' hrs'⟩

/-- If what a call keeps is kept exactly where `P` allows the call, and is lost for an observer of
`G` elsewhere, then `G` holds after each call of a run iff each call is allowed. -/
theorem forall_iff_along {I G : σ → Prop} (hG : ∀ s, I s → G s)
    (hstep : ∀ s i, I s → ∃ r, step s i = some r ∧ (P s i → I r.2) ∧ (¬P s i → ¬G r.2))
    {is : List ι} {s : σ} (hs : I s) :
    (∃ rs, run step s is = some rs ∧ ∀ r ∈ rs, G r.2) ↔ Along step P s is := by
  induction is generalizing s with
  | nil => exact iff_of_true ⟨[], rfl, by simp⟩ trivial
  | cons i is ih =>
    obtain ⟨r, hr, hkeep, hlose⟩ := hstep s i hs
    constructor
    · rintro ⟨rs, hrs, hall⟩
      simp only [run, hr, Option.bind_some, Option.map_eq_some_iff] at hrs
      obtain ⟨rs, hrs, rfl⟩ := hrs
      rw [List.forall_mem_cons] at hall
      have hp : P s i := by
        by_contra hp
        exact hlose hp hall.1
      refine ⟨hp, fun r' hr' => ?_⟩
      obtain rfl := Option.some.inj (hr.symm.trans hr')
      exact (ih (hkeep hp)).mp ⟨rs, hrs, hall.2⟩
    · rintro ⟨hp, ha⟩
      obtain ⟨rs, hrs, hall⟩ := (ih (hkeep hp)).mpr (ha r hr)
      exact ⟨r :: rs, by simp [run, hr, hrs],
        List.forall_mem_cons.mpr ⟨hG _ (hkeep hp), hall⟩⟩

/-- The same for a run that goes through, where a call with `I` need not, over inputs that meet
`Q`. -/
theorem forall_iff_along_of_run {I G : σ → Prop} {Q : ι → Prop}
    (hstep : ∀ s i r, I s → Q i → step s i = some r →
      (P s i → I r.2 ∧ G r.2) ∧ (¬P s i → ¬G r.2))
    {is : List ι} (hQ : ∀ i ∈ is, Q i) {rs : List (ρ × σ)} {s : σ} (hs : I s)
    (hrs : run step s is = some rs) :
    (∀ r ∈ rs, G r.2) ↔ Along step P s is := by
  induction is generalizing s rs with
  | nil =>
    cases hrs
    exact iff_of_true (by simp) trivial
  | cons i is ih =>
    obtain ⟨r, hr, hrs⟩ := Option.bind_eq_some_iff.mp hrs
    obtain ⟨rs, hrs', rfl⟩ := Option.map_eq_some_iff.mp hrs
    obtain ⟨hi, his⟩ := List.forall_mem_cons.mp hQ
    obtain ⟨hkeep, hlose⟩ := hstep s i r hs hi hr
    rw [List.forall_mem_cons]
    constructor
    · rintro ⟨hg, hall⟩
      have hp : P s i := by
        by_contra hp
        exact hlose hp hg
      refine ⟨hp, fun r' hr' => ?_⟩
      obtain rfl := Option.some.inj (hr.symm.trans hr')
      exact (ih his (hkeep hp).1 hrs').mp hall
    · rintro ⟨hp, ha⟩
      exact ⟨(hkeep hp).2, (ih his (hkeep hp).1 hrs').mpr (ha r hr)⟩

end Calls
