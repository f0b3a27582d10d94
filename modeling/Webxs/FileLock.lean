import Webxs.Interleaving

/-!
# The lock of the file table

`xs_fileinfo_get` (`xs_fileinfo.h`) looks a path up in one hash table shared by all
threads. `xs_fileinfo_global_lockstatus` guards the table with two counters, the writer
flag `gxs_statwrite` and the reader count `gxs_statread` : status 0 is no access, 1 reads,
2 writes. A reader tests the flag and then counts itself in, two steps; a reader that
missed the table takes the flag, gives up its own count, and waits for the other readers.

Each thread's place is a `Pc`, one for every atomic operation and every test of a spin in
the source; a spin that repeats is a step that changes nothing. The counters count the
threads at these places (`statread_eq_tally`, `statwrite_eq_tally`) in every run.
-/

open Interleaving

namespace Webxs

namespace FileLock

variable {ι κ : Type*}

/-! ## The model -/

/-- Where a thread is in `xs_fileinfo_get`. -/
inductive Pc (κ : Type*)
  /-- Not in `xs_fileinfo_get`. -/
  | idle
  /-- `global_lockstatus(0,1)`, at the spin on `gxs_statwrite`. -/
  | readSpin (path : κ)
  /-- `global_lockstatus(0,1)`, at the increment of `gxs_statread`. -/
  | readInc (path : κ)
  /-- In the read section, at `kh_get`. -/
  | lookup (path : κ)
  /-- `global_lockstatus(1,2)`, at the swap of `gxs_statwrite`. -/
  | writeSpin (path : κ)
  /-- `global_lockstatus(1,2)`, at the decrement of `gxs_statread`. -/
  | writeDec (path : κ)
  /-- `global_lockstatus(1,2)`, at the spin on `gxs_statread`. -/
  | writeWait (path : κ)
  /-- In the write section, at `calloc` and `kh_put`. -/
  | insert (path : κ)
  /-- `global_lockstatus(2,1)`, or `(2,0)` after a failed `calloc`, at the decrement of
  `gxs_statwrite`. -/
  | leaveDec (toRead : Bool)
  /-- `global_lockstatus(2,1)`, at the increment of `gxs_statread`. -/
  | leaveInc
  /-- `global_lockstatus(1,0)`, at the decrement of `gxs_statread`. -/
  | release
  /-- After the lock : the entry's own status word, which this lock does not guard. -/
  | refresh
  deriving DecidableEq

/-- The globals of `xs_fileinfo.h` the lock is made of, and the table it guards. -/
structure Shared (κ : Type*) where
  statwrite : ℤ
  statread : ℤ
  /-- The paths the table has an entry for. -/
  statptr : κ → Bool

/-- A thread calls `xs_fileinfo_get`, or goes on with the call it is in; `mem` tells
whether a `calloc` on the way succeeds. -/
inductive Act (κ : Type*)
  | call (path : κ)
  | go (mem : Bool)

/-- The states of the file table and its threads. -/
abbrev State (ι κ : Type*) := Config ι (Shared κ) (Pc κ)

/-- One step of a thread in `xs_fileinfo_get`. -/
def fileinfoGet [DecidableEq κ] (act : Act κ) (s : Shared κ) : Pc κ → Option (Shared κ × Pc κ)
  | .idle =>
    match act with
    | .call path => some (s, .readSpin path)
    | .go _ => none
  | pc =>
    match act with
    | .call _ => none
    | .go mem =>
      match pc with
      | .idle => none
      | .readSpin path => if s.statwrite ≠ 0 then some (s, .readSpin path) else
          some (s, .readInc path)
      | .readInc path => some ({ s with statread := s.statread + 1 }, .lookup path)
      | .lookup path => if s.statptr path then some (s, .release) else some (s, .writeSpin path)
      | .writeSpin path =>
        -- the swap puts 1 in place of 0, and is tried again when it finds anything else
        if s.statwrite ≠ 0 then some (s, .writeSpin path)
        else some ({ s with statwrite := 1 }, .writeDec path)
      | .writeDec path => some ({ s with statread := s.statread - 1 }, .writeWait path)
      | .writeWait path => if s.statread ≠ 0 then some (s, .writeWait path) else
          some (s, .insert path)
      | .insert path =>
        if mem then
          some ({ s with statptr := Function.update s.statptr path true }, .leaveDec true)
        else some (s, .leaveDec false)
      | .leaveDec toRead =>
        some ({ s with statwrite := s.statwrite - 1 }, if toRead then .leaveInc else .idle)
      | .leaveInc => some ({ s with statread := s.statread + 1 }, .release)
      | .release => some ({ s with statread := s.statread - 1 }, .refresh)
      | .refresh => some (s, .idle)

variable [DecidableEq ι] [DecidableEq κ]

/-- One step of the system : some thread's next step. -/
def next : State ι κ → ι × Act κ → Option (State ι κ) :=
  threadNext fun _ => fileinfoGet

/-- No thread in `xs_fileinfo_get`, an arbitrary table. -/
def init (statptr : κ → Bool) : State ι κ :=
  ⟨⟨0, 0, statptr⟩, fun _ => .idle⟩

/-! ## What a step can do -/

/-- At a spin whose condition holds, so that the next step repeats the test. -/
def Spins (s : Shared κ) : Pc κ → Prop
  | .readSpin _ | .writeSpin _ => s.statwrite ≠ 0
  | .writeWait _ => s.statread ≠ 0
  | _ => False

omit [DecidableEq κ] in
instance (s : Shared κ) (p : Pc κ) : Decidable (Spins s p) := by
  cases p <;> unfold Spins <;> infer_instance

/-- The steps of `fileinfoGet` from the globals `s`, one constructor for each. -/
inductive GetStep (s : Shared κ) : Pc κ → Shared κ → Pc κ → Prop
  | call (path : κ) : GetStep s .idle s (.readSpin path)
  | spin (p : Pc κ) : Spins s p → GetStep s p s p
  | readTest (path : κ) : s.statwrite = 0 → GetStep s (.readSpin path) s (.readInc path)
  | readInc (path : κ) :
      GetStep s (.readInc path) { s with statread := s.statread + 1 } (.lookup path)
  | hit (path : κ) : s.statptr path = true → GetStep s (.lookup path) s .release
  | miss (path : κ) : s.statptr path = false → GetStep s (.lookup path) s (.writeSpin path)
  | take (path : κ) : s.statwrite = 0 →
      GetStep s (.writeSpin path) { s with statwrite := 1 } (.writeDec path)
  | writeDec (path : κ) :
      GetStep s (.writeDec path) { s with statread := s.statread - 1 } (.writeWait path)
  | writeTest (path : κ) : s.statread = 0 → GetStep s (.writeWait path) s (.insert path)
  | put (path : κ) : GetStep s (.insert path)
      { s with statptr := Function.update s.statptr path true } (.leaveDec true)
  | noMem (path : κ) : GetStep s (.insert path) s (.leaveDec false)
  | toRead : GetStep s (.leaveDec true) { s with statwrite := s.statwrite - 1 } .leaveInc
  | toFree : GetStep s (.leaveDec false) { s with statwrite := s.statwrite - 1 } .idle
  | leaveInc : GetStep s .leaveInc { s with statread := s.statread + 1 } .release
  | release : GetStep s .release { s with statread := s.statread - 1 } .refresh
  | done : GetStep s .refresh s .idle

omit [DecidableEq ι] in
theorem getStep_of_eq_some {act : Act κ} {s s' : Shared κ} {p p' : Pc κ}
    (h : fileinfoGet act s p = some (s', p')) : GetStep s p s' p' := by
  cases p with
  | idle =>
    cases act with
    | call path =>
      obtain ⟨rfl, rfl⟩ := Prod.mk.inj (Option.some.inj h)
      exact .call path
    | go mem => cases h
  | readSpin path | writeSpin path | writeWait path =>
    cases act with
    | call path => cases h
    | go mem =>
      simp only [fileinfoGet] at h
      split_ifs at h with hc <;> obtain ⟨rfl, rfl⟩ := Prod.mk.inj (Option.some.inj h)
      · exact .spin _ hc
      · constructor
        exact not_not.mp hc
  | lookup path =>
    cases act with
    | call path => cases h
    | go mem =>
      simp only [fileinfoGet] at h
      split_ifs at h with hc <;> obtain ⟨rfl, rfl⟩ := Prod.mk.inj (Option.some.inj h)
      · exact .hit path hc
      · exact .miss path (Bool.eq_false_of_not_eq_true hc)
  | insert path =>
    cases act with
    | call path => cases h
    | go mem => cases mem <;> obtain ⟨rfl, rfl⟩ := Prod.mk.inj (Option.some.inj h) <;> constructor
  | leaveDec toRead =>
    cases act with
    | call path => cases h
    | go mem =>
      cases toRead <;> obtain ⟨rfl, rfl⟩ := Prod.mk.inj (Option.some.inj h) <;> constructor
  | _ =>
    cases act with
    | call path => cases h
    | go mem =>
      obtain ⟨rfl, rfl⟩ := Prod.mk.inj (Option.some.inj h)
      constructor

/-- A step of the system is a step of one thread. -/
theorem next_eq_some {c c' : State ι κ} {ia : ι × Act κ} (h : next c ia = some c') :
    ∃ s' p', GetStep c.shared (c.pc ia.1) s' p' ∧ c' = ⟨s', Function.update c.pc ia.1 p'⟩ := by
  obtain ⟨s', p', hl, rfl⟩ := threadNext_eq_some h
  exact ⟨s', p', getStep_of_eq_some hl, rfl⟩

/-! ## The counters count threads -/

/-- The thread is counted in `gxs_statread`. -/
def Pc.reads : Pc κ → ℕ
  | .lookup _ | .writeSpin _ | .writeDec _ | .release => 1
  | _ => 0

/-- The thread owns the writer flag. -/
def Pc.flags : Pc κ → ℕ
  | .writeDec _ | .writeWait _ | .insert _ | .leaveDec _ => 1
  | _ => 0

variable [Fintype ι] {statptr : κ → Bool} {ok : State ι κ → ι × Act κ → Prop} {c : State ι κ}

theorem statread_eq_tally (h : Runs next ok (init statptr) c) :
    c.shared.statread = tally Pc.reads c.pc := by
  refine h.counter_eq_tally _ _ (by simp [init, tally, Pc.reads]) ?_
  intro _ a s p s' p' hl
  cases getStep_of_eq_some hl <;> simp [Pc.reads]

/-- The flag is 0 or 1, as the swap that takes it finds it 0, and counts its owners. -/
theorem statwrite_eq_tally (h : Runs next ok (init statptr) c) :
    c.shared.statwrite = tally Pc.flags c.pc ∧ tally Pc.flags c.pc ≤ 1 := by
  refine h.invariant (I := fun c : State ι κ => c.shared.statwrite = tally Pc.flags c.pc ∧
    tally Pc.flags c.pc ≤ 1) (by simp [init, tally, Pc.flags]) ?_
  rintro c ia c' ⟨hc, hle⟩ - hn
  obtain ⟨s', p', hs, rfl⟩ := next_eq_some hn
  have ht := tally_update Pc.flags c.pc ia.1 p'
  simp only
  generalize hp : c.pc ia.1 = p at hs ht
  cases hs <;> simp only [Pc.flags] at ht ⊢ <;> omega

/-! ## Mutual exclusion -/

/-- In the write section : after the transition to status 2 and before the flag is given back. -/
def Pc.InWrite : Pc κ → Prop
  | .insert _ | .leaveDec _ => True
  | _ => False

/-- In the read section : counted in `gxs_statread`. -/
def Pc.InRead : Pc κ → Prop
  | .lookup _ | .writeSpin _ | .writeDec _ | .release => True
  | _ => False

omit [DecidableEq κ] in
instance (p : Pc κ) : Decidable p.InWrite := by
  cases p <;> unfold Pc.InWrite <;> infer_instance

omit [DecidableEq κ] in
instance (p : Pc κ) : Decidable p.InRead := by
  cases p <;> unfold Pc.InRead <;> infer_instance

omit [DecidableEq κ] in
theorem Pc.InWrite.flags_pos {p : Pc κ} (h : p.InWrite) : 0 < p.flags := by
  cases p <;> simp_all [Pc.InWrite, Pc.flags]

omit [DecidableEq κ] in
theorem Pc.InRead.reads_pos {p : Pc κ} (h : p.InRead) : 0 < p.reads := by
  cases p <;> simp_all [Pc.InRead, Pc.reads]

/-- One writer at most, and no reader beside it. -/
def MutualExclusion (c : State ι κ) : Prop :=
  (∀ i j, (c.pc i).InWrite → (c.pc j).InWrite → i = j) ∧
    ∀ i j, (c.pc i).InWrite → ¬(c.pc j).InRead

/-- At an increment of `gxs_statread`, the writer flag is 0. -/
def IncsUnflagged (c : State ι κ) (ia : ι × Act κ) : Prop :=
  match c.pc ia.1 with
  | .readInc _ | .leaveInc => c.shared.statwrite = 0
  | _ => True

omit [DecidableEq ι] [DecidableEq κ] [Fintype ι] in
instance (c : State ι κ) (ia : ι × Act κ) : Decidable (IncsUnflagged c ia) := by
  unfold IncsUnflagged
  split <;> infer_instance

/-- Two threads that own the flag are one. -/
theorem eq_of_inWrite (h : Runs next ok (init statptr) c) {i j : ι}
    (hi : (c.pc i).InWrite) (hj : (c.pc j).InWrite) : i = j := by
  by_contra hij
  have hle := (statwrite_eq_tally h).2
  have := add_le_tally Pc.flags c.pc hij
  have := hi.flags_pos
  have := hj.flags_pos
  omega

/-- If the count of readers only grows while the flag is 0, it stays at the 0 that the
writer waited for. -/
theorem statread_eq_zero_of_inWrite (h : Runs next IncsUnflagged (init statptr) c) :
    ∀ i, (c.pc i).InWrite → c.shared.statread = 0 := by
  suffices hI : ∀ i, (c.pc i).InWrite → tally Pc.reads c.pc = 0 by
    intro i hi
    rw [statread_eq_tally h, hI i hi, Nat.cast_zero]
  induction h with
  | start => simp [init, Pc.InWrite]
  | @step c c' ia hc hok hn ih =>
    obtain ⟨s', p', hs, rfl⟩ := next_eq_some hn
    have hread := statread_eq_tally hc
    obtain ⟨hflag, hle⟩ := statwrite_eq_tally hc
    intro j hj
    have ht := tally_update Pc.reads c.pc ia.1 p'
    simp only [IncsUnflagged] at hok
    simp only at hj ⊢
    by_cases hji : j = ia.1
    · -- the thread that moved is the writer : it found the count 0, or was in before
      subst hji
      rw [Function.update_self] at hj
      have hold := ih ia.1
      generalize hp : c.pc ia.1 = p at hs ht hok hold
      cases hs with
      | writeTest path h0 => simp [Pc.reads] at ht; omega
      | put | noMem =>
        have := hold trivial
        simp [Pc.reads] at ht
        omega
      | spin _ hsp => cases p' <;> first | exact hj.elim | exact hsp.elim
      | _ => exact hj.elim
    · rw [Function.update_of_ne hji] at hj
      have hold := ih j hj
      have hflags : 0 < tally Pc.flags c.pc := hj.flags_pos.trans_le (le_tally _ _ _)
      generalize hp : c.pc ia.1 = p at hs ht hok
      cases hs <;> simp only [Pc.reads] at ht hok <;> omega

/-- The lock excludes as long as no thread counts itself in while the flag is up. -/
theorem mutualExclusion_of_incsUnflagged (statptr : κ → Bool) (c : State ι κ)
    (h : Runs next IncsUnflagged (init statptr) c) : MutualExclusion c := by
  refine ⟨fun i j hi hj => eq_of_inWrite h hi hj, fun i j hi hj => ?_⟩
  have hzero := statread_eq_zero_of_inWrite h i hi
  rw [statread_eq_tally h] at hzero
  have := le_tally Pc.reads c.pc j
  have := hj.reads_pos
  omega

/-- A thread that missed an empty table writes, and nobody reads. -/
theorem mutualExclusion_of_incsUnflagged_writer :
    ∃ c : State (Fin 2) Unit, (c.pc 0).InWrite ∧ MutualExclusion c := by
  obtain ⟨c, hc, hw⟩ : ∃ c : State (Fin 2) Unit,
      Runs next IncsUnflagged (init fun _ => false) c ∧ (c.pc 0).InWrite :=
    exists_runs_of_runSchedule
      [(0, .call ()), (0, .go true), (0, .go true), (0, .go true), (0, .go true), (0, .go true),
        (0, .go true)] (by decide)
  exact ⟨c, hw, mutualExclusion_of_incsUnflagged _ c hc⟩

/-- Thread 1 finds the flag 0; thread 0 takes it, sees no reader and writes; then thread 1
counts itself in and reads. -/
theorem not_mutualExclusion :
    ∃ c : State (Fin 2) Unit, Reachable next (init fun _ => false) c ∧
      (c.pc 0).InWrite ∧ (c.pc 1).InRead ∧ ¬MutualExclusion c := by
  obtain ⟨c, hc, hw, hr⟩ : ∃ c : State (Fin 2) Unit,
      Reachable next (init fun _ => false) c ∧ (c.pc 0).InWrite ∧ (c.pc 1).InRead :=
    exists_runs_of_runSchedule
      [(0, .call ()), (0, .go true), (0, .go true), (0, .go true), (1, .call ()), (1, .go true),
        (0, .go true), (0, .go true), (0, .go true), (1, .go true)] (by decide)
  exact ⟨c, hc, hw, hr, fun h => h.2 0 1 hw hr⟩

/-! ## Freedom from deadlock -/

/-- Inside `xs_fileinfo_global_lockstatus`. -/
def Pc.InLock : Pc κ → Prop
  | .idle | .lookup _ | .insert _ | .refresh => False
  | _ => True

/-- Inside `xs_fileinfo_global_lockstatus(1,2)`. -/
def Pc.upgrades : Pc κ → ℕ
  | .writeSpin _ | .writeDec _ | .writeWait _ => 1
  | _ => 0

/-- Some thread in `xs_fileinfo_get` has a step that does not repeat a spin. -/
def CanMove (c : State ι κ) : Prop :=
  ∃ i, c.pc i ≠ .idle ∧ ¬Spins c.shared (c.pc i) ∧ ∃ a c', next c (i, a) = some c'

/-- If a thread is inside the lock, some thread can move. -/
def DeadlockFree (c : State ι κ) : Prop :=
  (∃ i, (c.pc i).InLock) → CanMove c

/-- A reader starts to upgrade only while no other thread is upgrading. -/
def UpgradesAlone (c : State ι κ) (ia : ι × Act κ) : Prop :=
  match c.pc ia.1 with
  | .lookup path => c.shared.statptr path = false → ∀ j, (c.pc j).upgrades = 0
  | _ => True

instance (c : State ι κ) (ia : ι × Act κ) : Decidable (UpgradesAlone c ia) := by
  unfold UpgradesAlone
  split <;> infer_instance

omit [DecidableEq ι] [Fintype ι] in
theorem exists_fileinfoGet (s : Shared κ) {p : Pc κ} (hp : p ≠ .idle) :
    ∃ r, fileinfoGet (.go true) s p = some r := by
  cases p with
  | idle => exact absurd rfl hp
  | readSpin | writeSpin | writeWait | lookup =>
    simp only [fileinfoGet]
    split_ifs <;> exact ⟨_, rfl⟩
  | _ => exact ⟨_, rfl⟩

omit [Fintype ι] in
/-- A thread in a call always has a next step. -/
theorem exists_next {i : ι} (hi : c.pc i ≠ .idle) : ∃ a c', next c (i, a) = some c' := by
  obtain ⟨r, hr⟩ := exists_fileinfoGet c.shared hi
  exact ⟨.go true, _, by rw [next, threadNext, hr, Option.map_some]⟩

omit [DecidableEq κ] in
theorem Pc.upgrades_of_spins {s : Shared κ} {p : Pc κ} (hs : Spins s p)
    (h : 0 < p.reads + p.flags) :
    p.upgrades = 1 := by
  cases p <;> simp_all [Spins, Pc.reads, Pc.flags, Pc.upgrades]

/-- If upgrades do not overlap, one thread at most is upgrading. -/
theorem upgrades_le_one (h : Runs next UpgradesAlone (init statptr) c) :
    tally Pc.upgrades c.pc ≤ 1 := by
  induction h with
  | start => simp [init, tally, Pc.upgrades]
  | @step c c' ia hc hok hn ih =>
    obtain ⟨s', p', hs, rfl⟩ := next_eq_some hn
    have ht := tally_update Pc.upgrades c.pc ia.1 p'
    simp only [UpgradesAlone] at hok
    generalize hp : c.pc ia.1 = p at hs ht hok
    cases hs with
    | miss path hmiss =>
      have hzero : tally Pc.upgrades c.pc = 0 := tally_eq_zero (hok hmiss)
      simp only [Pc.upgrades] at ht ⊢
      omega
    | _ =>
      simp only [Pc.upgrades] at ht ⊢
      omega

end FileLock

end Webxs
