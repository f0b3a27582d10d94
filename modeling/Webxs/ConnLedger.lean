import Mathlib.Data.Fintype.Prod
import Webxs.ConnLife

/-!
# The references to a connection

The ledger of a connection : its references are the slots that hold its address, the entries
of the queue, and what the threads hold beside them, where a slot counts no more once its
thread has taken its count back. Each step of a thread does one of the things to the ledger
that keep it sound (`did_of_next`), so in every state the count is the number of references,
and a connection is with its holders, or with one thread only.
-/

open Interleaving RefCount

namespace Webxs

namespace ConnLife

variable {ι : Type*} {n : ℕ}

/-! ## What the threads hold -/

/-- The counts of `q` that the thread holds beside its slots. -/
def Pc.held (q : ℕ) : Pc n → ℕ
  | .call .worker p | .check none p | .dec none p => if p = q then 1 else 0
  | .push .worker p => if p = q then 2 else 0
  | .push _ p => if p = q then 1 else 0
  | _ => 0

/-- The thread has `q`, which is not counted yet. -/
def Pc.fresh (q : ℕ) : Pc n → ℕ
  | .new _ (.own p) | .inc _ p => if p = q then 1 else 0
  | _ => 0

/-- The thread has counted `q` and not put it into its slot. -/
def Pc.raised (q : ℕ) : Pc n → ℕ
  | .setup _ p => if p = q then 1 else 0
  | _ => 0

/-- The thread is to close `q`. -/
def Pc.dying (q : ℕ) : Pc n → ℕ
  | .close _ p => if p = q then 1 else 0
  | _ => 0

/-- The thread is to free `q`. -/
def Pc.shut (q : ℕ) : Pc n → ℕ
  | .test _ p | .free _ p => if p = q then 1 else 0
  | _ => 0

/-- The slot whose count the thread has taken back, and which it is to clear. -/
def Pc.released : Pc n → Option (Fin n)
  | .close (some t) _ | .test (some t) _ | .free (some t) _ | .clear t => some t
  | _ => none

/-- The slot the thread works at, and what is in it. -/
def Pc.slot : Pc n → Option (Fin n × Option ℕ)
  | .new t _ | .inc t _ | .setup t _ => some (t, none)
  | .handle t _ p | .answered t _ _ p => some (t, some p)
  | .call (.handler t _) p | .call (.error t) p | .call (.close t) p => some (t, some p)
  | .push (.handler t _) p | .push (.error t) p | .push (.close t) p => some (t, some p)
  | .check (some t) p | .dec (some t) p => some (t, some p)
  | _ => none

/-- A slot as the count sees it. -/
def counted (cfd : ι × Fin n → Option ℕ) (pc : ι → Pc n) (it : ι × Fin n) : Option ℕ :=
  if (pc it.1).released = some it.2 then none else cfd it

/-- A slot that holds the address of `q`. -/
def refers (q : ℕ) (o : Option ℕ) : ℕ :=
  if o = some q then 1 else 0

/-- The slot is as the thread knows it. -/
def SlotOk (i : ι) (s : Shared ι n) (x : Pc n) : Prop :=
  ∀ t o, x.slot = some (t, o) → s.cfd (i, t) = o

/-- A thread that knows its slot, and has not taken its count back, finds it counted. -/
theorem counted_of_slot {c : State ι n} {i : ι} {t : Fin n} {o : Option ℕ}
    (hs : SlotOk i c.shared (c.pc i)) (ht : (c.pc i).slot = some (t, o))
    (hr : (c.pc i).released = none) : counted c.shared.cfd c.pc (i, t) = o := by
  simpa only [counted, hr, reduceCtorEq, if_false] using hs t o ht

section Counted

variable [DecidableEq ι] {cfd : ι × Fin n → Option ℕ} {pc : ι → Pc n} {i : ι} {t : Fin n}
  {x y : Pc n}

theorem counted_of_released_eq (hx : pc i = x) (h : y.released = x.released) :
    counted cfd (Function.update pc i y) = counted cfd pc := by
  ext1 ⟨j, u⟩
  by_cases hj : j = i
  · subst hj
    simp only [counted, Function.update_self, hx, h]
  · simp only [counted, Function.update_of_ne hj]

theorem counted_release (hx : pc i = x) (hr : x.released = none) (h : y.released = some t) :
    counted cfd (Function.update pc i y) = Function.update (counted cfd pc) (i, t) none := by
  ext1 ⟨j, u⟩
  by_cases hj : j = i
  · subst hj
    by_cases hu : u = t
    · subst hu
      simp [counted, h]
    · have hne : (j, u) ≠ (j, t) := by simpa using hu
      rw [Function.update_of_ne hne]
      simp [counted, h, hx, hr, Ne.symm hu]
  · have hne : (j, u) ≠ (i, t) := by simp [hj]
    simp only [counted, Function.update_of_ne hj, Function.update_of_ne hne]

theorem counted_set (hx : pc i = x) (hr : x.released = none) (h : y.released = none)
    (o : Option ℕ) : counted (Function.update cfd (i, t) o) (Function.update pc i y) =
      Function.update (counted cfd pc) (i, t) o := by
  ext1 ⟨j, u⟩
  by_cases hj : j = i
  · subst hj
    by_cases hu : u = t
    · subst hu
      simp [counted, h]
    · have hne : (j, u) ≠ (j, t) := by simpa using hu
      simp [counted, h, hx, hr, Function.update_of_ne hne]
  · have hne : (j, u) ≠ (i, t) := by simp [hj]
    simp only [counted, Function.update_of_ne hj, Function.update_of_ne hne]

theorem counted_clear (hx : pc i = x) (hr : x.released = some t) (h : y.released = none) :
    counted (Function.update cfd (i, t) none) (Function.update pc i y) = counted cfd pc := by
  ext1 ⟨j, u⟩
  by_cases hj : j = i
  · subst hj
    by_cases hu : u = t
    · subst hu
      simp [counted, h, hx, hr]
    · have hne : (j, u) ≠ (j, t) := by simpa using hu
      simp [counted, h, hx, hr, Function.update_of_ne hne, Ne.symm hu]
  · have hne : (j, u) ≠ (i, t) := by simp [hj]
    simp only [counted, Function.update_of_ne hj, Function.update_of_ne hne]

end Counted

/-! ## The ledgers -/

section Ledger

variable [Fintype ι] {c : State ι n} {i : ι} {q : ℕ}

/-- Whether `q` is one of the first `m` connections. -/
def isMade (m q : ℕ) : ℕ :=
  if q < m then 1 else 0

theorem isMade_succ {m : ℕ} (h : m ≠ q) : isMade (m + 1) q = isMade m q := by
  unfold isMade
  split_ifs <;> omega

/-- The ledger of a connection. -/
def ledger (c : State ι n) (q : ℕ) : Ledger where
  made := isMade c.shared.made q
  count := (c.shared.objs q).refcount
  refs := tally (refers q) (counted c.shared.cfd c.pc) + c.shared.q.count q +
    tally (Pc.held q) c.pc
  fresh := c.shared.acceptqueue.count (.own q) + tally (Pc.fresh q) c.pc
  raised := tally (Pc.raised q) c.pc
  dying := tally (Pc.dying q) c.pc
  shut := tally (Pc.shut q) c.pc
  closed := (c.shared.objs q).closed
  freed := (c.shared.objs q).freed

/-- A slot that counts is a reference. -/
theorem refs_pos_of_counted {it : ι × Fin n} (h : counted c.shared.cfd c.pc it = some q) :
    0 < (ledger c q).refs := by
  have := le_tally (refers q) (counted c.shared.cfd c.pc) it
  simp only [refers, h, if_true] at this
  simp only [ledger]
  omega

theorem refs_pos_of_held (h : 0 < (c.pc i).held q) : 0 < (ledger c q).refs := by
  have := le_tally (Pc.held q) c.pc i
  simp only [ledger]
  omega

/-- The test of `refcount` in `xs_conn_destroy` finds 0. -/
theorem refcount_of_test {k : Option (Fin n)} (hx : c.pc i = .test k q)
    (hq : (ledger c q).Sound) : (c.shared.objs q).refcount = 0 := by
  have hle := le_tally (Pc.shut q) c.pc i
  simp only [hx, Pc.shut, if_true] at hle
  exact (hq.of_shut hle).1

/-- The callback has a reference to the connection it was given. -/
theorem refs_pos_of_call {r : Role n} (hs : SlotOk i c.shared (c.pc i))
    (h : c.pc i = .call r p) : 0 < (ledger c p).refs := by
  cases r with
  | worker => exact refs_pos_of_held (i := i) (by simp [h, Pc.held])
  | handler t m | error t | close t =>
    exact refs_pos_of_counted (counted_of_slot hs (by rw [h]; rfl) (by rw [h]; rfl))

/-- What holds in every state : the ledgers are sound, each thread knows its slot, and a slot
that counts is the one its connection was given. -/
structure Inv (c : State ι n) : Prop where
  sound : ∀ q, (ledger c q).Sound
  slots : ∀ i, SlotOk i c.shared (c.pc i)
  token : ∀ i t q, counted c.shared.cfd c.pc (i, t) = some q → (c.shared.objs q).token = t

theorem ledger_start (q : ℕ) : ledger (start : State ι n) q = ⟨0, 0, 0, 0, 0, 0, 0, 0, 0⟩ := by
  have hpc : ∀ w : Pc n → ℕ, w .idle = 0 → tally w (start : State ι n).pc = 0 :=
    fun w hw => tally_eq_zero fun _ => hw
  have hslots : tally (refers q)
      (counted (start : State ι n).shared.cfd (start : State ι n).pc) = 0 :=
    tally_eq_zero fun _ => rfl
  ext <;> simp only [ledger, hslots, hpc (Pc.held q) rfl, hpc (Pc.fresh q) rfl,
    hpc (Pc.raised q) rfl, hpc (Pc.dying q) rfl, hpc (Pc.shut q) rfl] <;> rfl

theorem inv_start : Inv (start : State ι n) where
  sound q := by
    rw [ledger_start]
    exact ⟨rfl, rfl, Nat.zero_le 1, rfl⟩
  slots i t o h := by cases h
  token i t q h := by cases h

end Ledger

/-- The thread holds the same as it did. -/
structure Pc.Same (x y : Pc n) : Prop where
  held : ∀ q, y.held q = x.held q
  fresh : ∀ q, y.fresh q = x.fresh q
  raised : ∀ q, y.raised q = x.raised q
  dying : ∀ q, y.dying q = x.dying q
  shut : ∀ q, y.shut q = x.shut q
  released : y.released = x.released

theorem Pc.Same.refl (x : Pc n) : x.Same x :=
  ⟨fun _ => rfl, fun _ => rfl, fun _ => rfl, fun _ => rfl, fun _ => rfl, rfl⟩

/-- The steps as the ledgers see them. -/
inductive Effect [DecidableEq ι] (i : ι) (s : Shared ι n) : Pc n → Shared ι n → Pc n → Prop
  | same {x y : Pc n} {b : Bool} : x.Same y →
      (∀ t o, y.slot = some (t, o) → x.slot = some (t, o) ∨ s.cfd (i, t) = o) →
      (∀ t qs, y ≠ .new t qs) → Effect i s x { s with stop := b } y
  | offer (x : Pc n) : Effect i s x
      { (connCreate s).1 with acceptqueue := s.acceptqueue ++ [.own (connCreate s).2] } x
  | accept {t : Fin n} {l : ℕ} : s.cfd (i, t) = some l →
      Effect i s .idle { s with acceptqueue := s.acceptqueue ++ [.accepted l] } .idle
  | take {t : Fin n} {qs : Pushed} {rest : List Pushed} : s.acceptqueue = qs :: rest →
      s.cfd (i, t) = none → Effect i s .idle { s with acceptqueue := rest } (.new t qs)
  | create (t : Fin n) (l : ℕ) :
      Effect i s (.new t (.accepted l)) (connCreate s).1 (.inc t (connCreate s).2)
  | inc (t : Fin n) (p : ℕ) : Effect i s (.inc t p) (connInc s p) (.setup t p)
  | setup (t : Fin n) (p : ℕ) : Effect i s (.setup t p)
      { s.setObj p { s.objs p with token := t } with
        cfd := Function.update s.cfd (i, t) (some p) } (.handle t .new p)
  | work (r : Role n) (p : ℕ) : Effect i s (.call r p) (connInc s p) (.push r p)
  | push (r : Role n) (p : ℕ) : Effect i s (.push r p) { s with q := s.q ++ [p] } (.call r p)
  | pop {p : ℕ} {rest : List ℕ} : s.q = p :: rest →
      Effect i s .idle { s with q := rest } (.call .worker p)
  | dec (k : Option (Fin n)) (p : ℕ) : Effect i s (.dec k p)
      (s.setObj p { s.objs p with refcount := (s.objs p).refcount - 1 })
      (if (s.objs p).refcount ≤ 1 then .close k p else decDone k)
  | close (k : Option (Fin n)) (p : ℕ) : Effect i s (.close k p) (connClose s p) (.test k p)
  | test (k : Option (Fin n)) (p : ℕ) : Effect i s (.test k p) s
      (if (s.objs p).refcount ≤ 0 then .free k p else decDone k)
  | free (k : Option (Fin n)) (p : ℕ) : Effect i s (.free k p)
      (s.setObj p { s.objs p with freed := (s.objs p).freed + 1 }) (decDone k)
  | clear (t : Fin n) :
      Effect i s (.clear t) { s with cfd := Function.update s.cfd (i, t) none } .idle

variable [DecidableEq ι] {i : ι} {a : Act n} {s s' : Shared ι n} {x y : Pc n}

theorem Effect.of_same (h : x.Same y) (hs : y.slot = x.slot ∨ y.slot = none)
    (hn : ∀ t qs, y ≠ .new t qs) : Effect i s x s y := by
  refine .same h (fun t o ho => .inl ?_) hn
  rcases hs with hs | hs
  · rwa [← hs]
  · simp [hs] at ho

theorem Effect.of_callDone (closes : Bool) (p : ℕ) (r : Role n) :
    Effect i s (.call r p) s (callDone closes p r) := by
  cases r <;> exact .of_same
    ⟨fun _ => rfl, fun _ => rfl, fun _ => rfl, fun _ => rfl, fun _ => rfl, rfl⟩ (.inl rfl)
    (by simp [callDone])

theorem effect_of_connDec (h : connDec s x = some (s', y)) : Effect i s x s' y := by
  cases x <;> simp only [connDec, Option.some.injEq, Prod.mk.injEq, reduceCtorEq] at h <;>
    obtain ⟨rfl, rfl⟩ := h
  case check k p =>
    cases k <;> exact .of_same
      ⟨fun _ => rfl, fun _ => rfl, fun _ => rfl, fun _ => rfl, fun _ => rfl, rfl⟩ (.inl rfl)
      (by simp)
  case dec k p => exact .dec k p
  case close k p => exact .close k p
  case test k p => exact .test k p
  case free k p => exact .free k p

theorem effect_of_asyncHandler (h : asyncHandler i s x = some (s', y)) : Effect i s x s' y := by
  unfold asyncHandler at h
  split at h <;> simp only [Option.some.injEq, Prod.mk.injEq, reduceCtorEq] at h <;>
    obtain ⟨rfl, rfl⟩ := h
  · exact .of_same ⟨fun _ => rfl, fun _ => rfl, fun _ => rfl, fun _ => rfl, fun _ => rfl, rfl⟩
      (.inl rfl) (by simp)
  · exact .create ..
  · exact .inc ..
  · exact .setup ..
  · split_ifs <;> exact .of_same
      ⟨fun _ => rfl, fun _ => rfl, fun _ => rfl, fun _ => rfl, fun _ => rfl, rfl⟩ (.inl rfl)
      (by simp)
  · split_ifs
    · exact .of_same ⟨fun _ => rfl, fun _ => rfl, fun _ => rfl, fun _ => rfl, fun _ => rfl, rfl⟩
        (.inl rfl) (by simp)
    · exact .of_same ⟨fun _ => rfl, fun _ => rfl, fun _ => rfl, fun _ => rfl, fun _ => rfl, rfl⟩
        (.inl rfl) (by simp)
    · exact .of_same ⟨fun _ => rfl, fun _ => rfl, fun _ => rfl, fun _ => rfl, fun _ => rfl, rfl⟩
        (.inr rfl) (by simp)
  · exact .clear ..

theorem effect_of_step (h : step i a s x = some (s', y)) : Effect i s x s' y := by
  unfold step at h
  split at h
  case h_1 | h_2 =>
    obtain ⟨rfl, rfl⟩ := Prod.mk.inj (Option.some.inj h)
    exact .offer _
  case h_3 t =>
    obtain ⟨l, hcfd, hl⟩ := Option.map_eq_some_iff.mp h
    obtain ⟨rfl, rfl⟩ := Prod.mk.inj hl
    exact .accept hcfd
  case h_4 t =>
    split at h
    · split_ifs at h with hfree
      obtain ⟨rfl, rfl⟩ := Prod.mk.inj (Option.some.inj h)
      exact .take ‹_› hfree
    · simp at h
  case h_5 t m =>
    split_ifs at h
    obtain ⟨p, hcfd, hp⟩ := Option.map_eq_some_iff.mp h
    obtain ⟨rfl, rfl⟩ := Prod.mk.inj hp
    refine .same ⟨fun _ => rfl, fun _ => rfl, fun _ => rfl, fun _ => rfl, fun _ => rfl, rfl⟩ ?_
      (by simp)
    rintro u o ho
    obtain ⟨rfl, rfl⟩ := Prod.mk.inj (Option.some.inj ho)
    exact .inr hcfd
  case h_6 =>
    split at h
    · obtain ⟨rfl, rfl⟩ := Prod.mk.inj (Option.some.inj h)
      exact .pop ‹_›
    · simp at h
  case h_7 r p =>
    obtain ⟨rfl, rfl⟩ := Prod.mk.inj (Option.some.inj h)
    exact .work r p
  case h_8 closes r p =>
    obtain ⟨rfl, rfl⟩ := Prod.mk.inj (Option.some.inj h)
    exact .of_callDone closes p r
  case h_9 =>
    obtain ⟨rfl, rfl⟩ := Prod.mk.inj (Option.some.inj h)
    exact .of_same ⟨fun _ => rfl, fun _ => rfl, fun _ => rfl, fun _ => rfl, fun _ => rfl, rfl⟩
      (.inr rfl) (by simp)
  case h_10 =>
    obtain ⟨rfl, rfl⟩ := Prod.mk.inj (Option.some.inj h)
    exact .of_same ⟨fun _ => rfl, fun _ => rfl, fun _ => rfl, fun _ => rfl, fun _ => rfl, rfl⟩
      (.inl rfl) (by simp)
  case h_11 | h_12 =>
    obtain ⟨rfl, rfl⟩ := Prod.mk.inj (Option.some.inj h)
    exact .same (.refl _) (fun _ _ => .inl) (by simp)
  case h_13 r p =>
    obtain ⟨rfl, rfl⟩ := Prod.mk.inj (Option.some.inj h)
    exact .push r p
  case h_14 | h_15 | h_16 | h_17 | h_18 => exact effect_of_connDec h
  case h_19 => exact effect_of_asyncHandler h
  case h_20 => simp at h

/-! ## What a step does to the slots -/

theorem Effect.slotOk (h : Effect i s x s' y) (hx : SlotOk i s x) : SlotOk i s' y := by
  cases h with
  | same hsame hslot hnew =>
    intro t o ho
    exact (hslot t o ho).elim (hx t o) id
  | take hq hfree =>
    rintro u o ho
    obtain ⟨rfl, rfl⟩ := Prod.mk.inj (Option.some.inj ho)
    exact hfree
  | setup t p =>
    rintro u o ho
    obtain ⟨rfl, rfl⟩ := Prod.mk.inj (Option.some.inj ho)
    exact Function.update_self ..
  | work r p | push r p => cases r <;> exact hx
  | dec k p => split_ifs <;> cases k <;> rintro u o ⟨⟩
  | test k p => split_ifs <;> cases k <;> rintro u o ⟨⟩
  | free k p => cases k <;> rintro u o ⟨⟩
  | close k p | pop hq | clear t | accept hcfd => rintro u o ⟨⟩
  | offer | create | inc => exact hx

/-- A thread writes to its own slots only. -/
theorem Effect.cfd_of_ne (h : Effect i s x s' y) {j : ι} (hj : j ≠ i) (t : Fin n) :
    s'.cfd (j, t) = s.cfd (j, t) := by
  cases h with
  | setup u p | clear u => exact Function.update_of_ne (by simp [hj]) ..
  | _ => rfl

/-- A step sets one slot, or takes the count of one back. -/
theorem Effect.counted (h : Effect i s x s' y) {pc : ι → Pc n} (hx : pc i = x) :
    counted s'.cfd (Function.update pc i y) = counted s.cfd pc ∨
      (∃ t p, x = .dec (some t) p ∧ counted s'.cfd (Function.update pc i y) =
        Function.update (counted s.cfd pc) (i, t) none) ∨
      ∃ t p, x = .setup t p ∧ (s'.objs p).token = t ∧
        counted s'.cfd (Function.update pc i y) =
          Function.update (counted s.cfd pc) (i, t) (some p) := by
  cases h with
  | same hsame hslot hnew => exact .inl (counted_of_released_eq hx hsame.released)
  | setup t p =>
    exact .inr (.inr ⟨t, p, rfl, by simp [Shared.setObj], counted_set hx rfl rfl _⟩)
  | dec k p =>
    cases k with
    | none => exact .inl (counted_of_released_eq hx (by split_ifs <;> rfl))
    | some t => exact .inr (.inl ⟨t, p, rfl, counted_release hx rfl (by split_ifs <;> rfl)⟩)
  | close k p | free k p => exact .inl (counted_of_released_eq hx (by cases k <;> rfl))
  | test k p => exact .inl (counted_of_released_eq hx (by split_ifs <;> cases k <;> rfl))
  | clear t => exact .inl (counted_clear hx rfl rfl)
  | offer | accept | take | create | inc | work | push | pop =>
    exact .inl (counted_of_released_eq hx rfl)

/-- A slot counts that did before, or that was just set. -/
theorem Effect.counted_of (h : Effect i s x s' y) {pc : ι → Pc n} (hx : pc i = x) {j : ι}
    {t : Fin n} {q : ℕ} (hc : ConnLife.counted s'.cfd (Function.update pc i y) (j, t) = some q) :
    ConnLife.counted s.cfd pc (j, t) = some q ∨ (s'.objs q).token = t := by
  obtain hsame | ⟨u, p, -, hnone⟩ | ⟨u, p, -, htoken, hset⟩ := h.counted hx
  · exact .inl (hsame ▸ hc)
  · rw [hnone] at hc
    rcases eq_or_ne (j, t) (i, u) with heq | hne
    · simp [heq] at hc
    · exact .inl (by rwa [Function.update_of_ne hne] at hc)
  · rw [hset] at hc
    rcases eq_or_ne (j, t) (i, u) with heq | hne
    · obtain ⟨rfl, rfl⟩ := Prod.mk.inj heq
      rw [Function.update_self] at hc
      obtain rfl := Option.some.inj hc
      exact .inr htoken
    · exact .inl (by rwa [Function.update_of_ne hne] at hc)

/-- The token of a connection changes when it is made, gets its slot, or is closed. -/
theorem Effect.token (h : Effect i s x s' y) (q : ℕ) :
    (s'.objs q).token = (s.objs q).token ∨ q = s.made ∨ (∃ k, x = .close k q) ∨
      ∃ t, x = .setup t q := by
  -- an object that is not `p` is as it was
  have hother : ∀ (p : ℕ) (o : Obj), q ≠ p →
      (Function.update s.objs p o q).token = (s.objs q).token := fun p o hne => by
    rw [Function.update_of_ne hne]
  cases h with
  | offer | create t l =>
    rcases eq_or_ne q s.made with rfl | hne
    · exact .inr (.inl rfl)
    · exact .inl (hother _ _ hne)
  | setup t p =>
    rcases eq_or_ne q p with rfl | hne
    · exact .inr (.inr (.inr ⟨t, rfl⟩))
    · exact .inl (hother _ _ hne)
  | close k p =>
    rcases eq_or_ne q p with rfl | hne
    · exact .inr (.inr (.inl ⟨k, rfl⟩))
    · exact .inl (hother _ _ hne)
  | inc t p | work r p | dec k p | free k p =>
    rcases eq_or_ne q p with rfl | hne
    · exact .inl (by simp [connInc, Shared.setObj])
    · exact .inl (hother _ _ hne)
  | same | accept | take | push | pop | test | clear => exact .inl rfl

/-- A slot counts until its thread takes the count back. -/
theorem Effect.counted_keeps {c : State ι n} (h : Effect i c.shared x s' y) (hx : c.pc i = x)
    (hs : SlotOk i c.shared (c.pc i)) {it : ι × Fin n} {l : ℕ}
    (hc : ConnLife.counted c.shared.cfd c.pc it = some l) :
    ConnLife.counted s'.cfd (Function.update c.pc i y) it = some l ∨
      ∃ t, x = .dec (some t) l := by
  obtain hsame | ⟨u, p, rfl, hnone⟩ | ⟨u, p, rfl, -, hset⟩ := h.counted hx
  · exact .inl (by rw [hsame, hc])
  · rcases eq_or_ne it (i, u) with rfl | hne
    · rw [counted_of_slot hs (by rw [hx]; rfl) (by rw [hx]; rfl)] at hc
      exact .inr ⟨u, by rw [Option.some.inj hc]⟩
    · exact .inl (by rw [hnone, Function.update_of_ne hne, hc])
  · rcases eq_or_ne it (i, u) with rfl | hne
    · rw [counted_of_slot hs (o := none) (by rw [hx]; rfl) (by rw [hx]; rfl)] at hc
      cases hc
    · exact .inl (by rw [hset, Function.update_of_ne hne, hc])

/-- A socket waits for the connection in the slot it was accepted at. -/
theorem Effect.waits (h : Effect i s x s' y) {l : ℕ}
    (hw : .accepted l ∈ s'.acceptqueue ∨ ∃ t, y = .new t (.accepted l)) :
    (.accepted l ∈ s.acceptqueue ∨ ∃ t, x = .new t (.accepted l)) ∨
      x = .idle ∧ ∃ t, s.cfd (i, t) = some l := by
  cases h with
  | same hsame hslot hnew =>
    rcases hw with hw | ⟨t, rfl⟩
    · exact .inl (.inl hw)
    · exact absurd rfl (hnew t _)
  | offer =>
    rcases hw with hw | hw
    · exact .inl (.inl (by simpa using hw))
    · exact .inl (.inr hw)
  | @accept t p hcfd =>
    rcases hw with hw | ⟨u, hu⟩
    · rcases List.mem_append.mp hw with hold | hlast
      · exact .inl (.inl hold)
      · obtain rfl : l = p := by simpa using hlast
        exact .inr ⟨rfl, t, hcfd⟩
    · cases hu
  | take hq hfree =>
    refine .inl (.inl ?_)
    rcases hw with hw | ⟨u, hu⟩
    · simp [hq, hw]
    · obtain ⟨-, rfl⟩ := Pc.new.inj hu
      simp [hq]
  | dec k p =>
    rcases hw with hw | ⟨t, ht⟩
    · exact .inl (.inl hw)
    · split_ifs at ht
      cases k <;> cases ht
  | test k p =>
    rcases hw with hw | ⟨t, ht⟩
    · exact .inl (.inl hw)
    · split_ifs at ht
      cases k <;> cases ht
  | free k p =>
    rcases hw with hw | ⟨t, ht⟩
    · exact .inl (.inl hw)
    · cases k <;> cases ht
  | create | inc | setup | work | push | pop | close | clear =>
    rcases hw with hw | ⟨t, ht⟩
    · exact .inl (.inl hw)
    · cases ht

/-! ## What a step does to the ledgers -/

section Moves

variable [Fintype ι] {c c' : State ι n} {p q : ℕ}

/-- How the counts of the threads change when thread `i` moves. -/
theorem tallies_update (hx : c.pc i = x) (y : Pc n) (q : ℕ) :
    tally (Pc.held q) (Function.update c.pc i y) + x.held q =
        tally (Pc.held q) c.pc + y.held q ∧
      tally (Pc.fresh q) (Function.update c.pc i y) + x.fresh q =
        tally (Pc.fresh q) c.pc + y.fresh q ∧
      tally (Pc.raised q) (Function.update c.pc i y) + x.raised q =
        tally (Pc.raised q) c.pc + y.raised q ∧
      tally (Pc.dying q) (Function.update c.pc i y) + x.dying q =
        tally (Pc.dying q) c.pc + y.dying q ∧
      tally (Pc.shut q) (Function.update c.pc i y) + x.shut q =
        tally (Pc.shut q) c.pc + y.shut q := by
  subst hx
  exact ⟨tally_update .., tally_update .., tally_update .., tally_update .., tally_update ..⟩

/-- What a step leaves of an object that it does not count, close or free. -/
theorem ledger_eq (hx : c.pc i = x) (hobj : s'.objs q = c.shared.objs q)
    (hmade : isMade s'.made q = isMade c.shared.made q)
    (hslots : tally (refers q) (counted s'.cfd (Function.update c.pc i y)) =
      tally (refers q) (counted c.shared.cfd c.pc))
    (hrefs : s'.q.count q + y.held q = c.shared.q.count q + x.held q)
    (hfresh : s'.acceptqueue.count (.own q) + y.fresh q =
      c.shared.acceptqueue.count (.own q) + x.fresh q)
    (hrest : y.raised q = x.raised q ∧ y.dying q = x.dying q ∧ y.shut q = x.shut q) :
    ledger ⟨s', Function.update c.pc i y⟩ q = ledger c q := by
  obtain ⟨hheld, hfresh', hraised, hdying, hshut⟩ := tallies_update hx y q
  ext <;> simp only [ledger, hobj, hmade, hslots] <;> omega

/-- The new object is made where nothing was. -/
theorem did_create {l : List Pushed} (hx : c.pc i = x) (hr : y.released = x.released)
    (hl : l.count (.own q) + y.fresh q = c.shared.acceptqueue.count (.own q) + x.fresh q +
      if c.shared.made = q then 1 else 0)
    (hrest : y.held q = x.held q ∧ y.raised q = x.raised q ∧ y.dying q = x.dying q ∧
      y.shut q = x.shut q) (hq : (ledger c q).Sound) :
    (ledger c q).Did
      (ledger ⟨{ (connCreate c.shared).1 with acceptqueue := l }, Function.update c.pc i y⟩ q) := by
  obtain ⟨hheld, hraised, hdying, hshut⟩ := hrest
  have hslots : counted c.shared.cfd (Function.update c.pc i y) = counted c.shared.cfd c.pc :=
    counted_of_released_eq hx hr
  rcases eq_or_ne c.shared.made q with rfl | hne
  · obtain ⟨hheld', hfresh', hraised', hdying', hshut'⟩ := tallies_update hx y c.shared.made
    obtain ⟨-, hstage, -, hclosed⟩ := hq
    simp only [ledger, isMade, lt_irrefl, if_false] at hstage hclosed
    simp only [if_true] at hl
    convert Ledger.Did.create _ using 1
    · ext <;> simp [ledger, isMade, connCreate, Shared.setObj, Ledger.create, hslots] <;> omega
    · simp [ledger, isMade]
  · convert Ledger.Did.same using 1
    rw [if_neg hne] at hl
    exact ledger_eq hx (Function.update_of_ne hne.symm ..) (isMade_succ hne)
      (by rw [← hslots]; rfl) (by rw [hheld]; rfl) hl ⟨hraised, hdying, hshut⟩

/-- A step that counts, closes or frees `p` changes no other ledger. -/
theorem did_other {p : ℕ} {o : Obj} (hpq : p ≠ q) (hx : c.pc i = x)
    (hslots : tally (refers q) (counted c.shared.cfd (Function.update c.pc i y)) =
      tally (refers q) (counted c.shared.cfd c.pc))
    (hsame : y.held q = x.held q ∧ y.fresh q = x.fresh q ∧ y.raised q = x.raised q ∧
      y.dying q = x.dying q ∧ y.shut q = x.shut q) :
    (ledger c q).Did (ledger ⟨c.shared.setObj p o, Function.update c.pc i y⟩ q) := by
  obtain ⟨hheld, hfresh, hrest⟩ := hsame
  convert Ledger.Did.same using 1
  exact ledger_eq hx (Function.update_of_ne hpq.symm ..) rfl hslots (by rw [hheld]; rfl)
    (by rw [hfresh]; rfl) hrest

/-- The first count of a connection. -/
theorem did_inc {t : Fin n} {p : ℕ} (hx : c.pc i = .inc t p) (q : ℕ) :
    (ledger c q).Did
      (ledger ⟨connInc c.shared p, Function.update c.pc i (.setup t p)⟩ q) := by
  have hslots : counted c.shared.cfd (Function.update c.pc i (.setup t p)) =
      counted c.shared.cfd c.pc := counted_of_released_eq hx rfl
  rcases eq_or_ne p q with rfl | hne
  · obtain ⟨hheld, hfresh, hraised, hdying, hshut⟩ := tallies_update hx (.setup t p) p
    simp only [Pc.held, Pc.fresh, Pc.raised, Pc.dying, Pc.shut, if_true] at *
    convert Ledger.Did.raise _ using 1
    · ext <;> simp [ledger, connInc, Shared.setObj, Ledger.raise, hslots] <;> omega
    · simp only [ledger]
      omega
  · exact did_other hne hx (by rw [hslots])
      ⟨rfl, by simp [Pc.fresh, hne], by simp [Pc.raised, hne], rfl, rfl⟩

/-- The slot takes over the count of the thread. -/
theorem did_setup {t : Fin n} {p : ℕ} (hx : c.pc i = .setup t p)
    (hs : SlotOk i c.shared (c.pc i)) (q : ℕ) :
    (ledger c q).Did (ledger ⟨{ c.shared.setObj p { c.shared.objs p with token := t } with
      cfd := Function.update c.shared.cfd (i, t) (some p) },
      Function.update c.pc i (.handle t .new p)⟩ q) := by
  have hslots : counted (Function.update c.shared.cfd (i, t) (some p))
      (Function.update c.pc i (.handle t .new p)) =
      Function.update (counted c.shared.cfd c.pc) (i, t) (some p) :=
    counted_set hx rfl rfl _
  have hfree : counted c.shared.cfd c.pc (i, t) = none :=
    counted_of_slot hs (by rw [hx]; rfl) (by rw [hx]; rfl)
  have hslot := tally_update (refers q) (counted c.shared.cfd c.pc) (i, t) (some p)
  rw [hfree, ← hslots] at hslot
  rcases eq_or_ne p q with rfl | hne
  · obtain ⟨hheld, hfresh, hraised, hdying, hshut⟩ := tallies_update hx (.handle t .new p) p
    simp only [Pc.held, Pc.fresh, Pc.raised, Pc.dying, Pc.shut, refers, if_true, reduceCtorEq,
      if_false] at *
    convert Ledger.Did.adopt _ using 1
    · ext <;> simp [ledger, Shared.setObj, Ledger.adopt] <;> omega
    · simp only [ledger]
      omega
  · convert Ledger.Did.same using 1
    refine ledger_eq hx (Function.update_of_ne hne.symm ..) rfl ?_ rfl rfl
      ⟨by simp [Pc.raised, hne], rfl, rfl⟩
    simpa [refers, hne] using hslot

/-- `xs_async_work` counts the reference that it puts into the queue. -/
theorem did_work {r : Role n} {p : ℕ} (hx : c.pc i = .call r p)
    (hs : SlotOk i c.shared (c.pc i)) (q : ℕ) :
    (ledger c q).Did (ledger ⟨connInc c.shared p, Function.update c.pc i (.push r p)⟩ q) := by
  have hslots : counted c.shared.cfd (Function.update c.pc i (.push r p)) =
      counted c.shared.cfd c.pc := counted_of_released_eq hx rfl
  rcases eq_or_ne p q with rfl | hne
  · obtain ⟨hheld, hfresh, hraised, hdying, hshut⟩ := tallies_update hx (.push r p) p
    have hpush : (Pc.push r p).held p = (Pc.call r p).held p + 1 := by
      cases r <;> simp [Pc.held]
    simp only [Pc.fresh, Pc.raised, Pc.dying, Pc.shut] at *
    convert Ledger.Did.share (refs_pos_of_call hs hx) using 1
    ext <;> simp [ledger, connInc, Shared.setObj, Ledger.share, hslots] <;> omega
  · exact did_other hne hx (by rw [hslots])
      ⟨by cases r <;> simp [Pc.held, hne], rfl, rfl, rfl, rfl⟩

/-- The one that gives a count up learns from it whether it was the last. -/
theorem did_dec {k : Option (Fin n)} {p : ℕ} (hx : c.pc i = .dec k p)
    (hs : SlotOk i c.shared (c.pc i)) (q : ℕ) :
    (ledger c q).Did (ledger
      ⟨c.shared.setObj p { c.shared.objs p with refcount := (c.shared.objs p).refcount - 1 },
        Function.update c.pc i
          (if (c.shared.objs p).refcount ≤ 1 then .close k p else decDone k)⟩ q) := by
  generalize hy : (if (c.shared.objs p).refcount ≤ 1 then Pc.close k p else decDone k) = y
  have hmarks : y.held q = 0 ∧ y.fresh q = 0 ∧ y.raised q = 0 ∧ y.shut q = 0 ∧
      y.dying q = (if p = q then if (c.shared.objs p).refcount ≤ 1 then 1 else 0 else 0) ∧
      y.released = k := by
    subst hy
    split_ifs <;> cases k <;> simp_all [Pc.held, Pc.fresh, Pc.raised, Pc.shut, Pc.dying,
      Pc.released, decDone]
  obtain ⟨hheld, hfresh, hraised, hshut, hdying, hreleased⟩ := hmarks
  -- the count was the thread's own, or that of its slot
  have hslots : tally (refers q) (counted c.shared.cfd (Function.update c.pc i y)) +
      (if p = q then 1 else 0) =
      tally (refers q) (counted c.shared.cfd c.pc) + (Pc.dec k p).held q := by
    cases k with
    | none =>
      rw [counted_of_released_eq hx hreleased]
      rfl
    | some t =>
      have hslot := tally_update (refers q) (counted c.shared.cfd c.pc) (i, t) none
      have hold : counted c.shared.cfd c.pc (i, t) = some p :=
        counted_of_slot hs (by rw [hx]; rfl) (by rw [hx]; rfl)
      rw [← counted_release hx rfl hreleased, hold] at hslot
      simpa [refers, Pc.held] using hslot
  rcases eq_or_ne p q with rfl | hne
  · obtain ⟨hheld', hfresh', hraised', hdying', hshut'⟩ := tallies_update hx y p
    simp only [hheld, hfresh, hraised, hdying, hshut, if_true] at *
    simp only [Pc.fresh, Pc.raised, Pc.dying, Pc.shut] at *
    convert Ledger.Did.release _ using 1
    · by_cases hlast : (c.shared.objs p).refcount ≤ 1 <;>
        simp only [hlast, if_true, if_false] at hdying' <;>
        ext <;> simp [ledger, Shared.setObj, Ledger.release, hlast] <;> omega
    · simp only [ledger]
      omega
  · have hdec : (Pc.dec k p).held q = 0 := by cases k <;> simp [Pc.held, hne]
    rw [if_neg hne] at hdying hslots
    exact did_other hne hx (by omega) ⟨by rw [hheld, hdec], hfresh, hraised, hdying, hshut⟩

/-- The last holder closes the connection. -/
theorem did_close {k : Option (Fin n)} {p : ℕ} (hx : c.pc i = .close k p) (q : ℕ) :
    (ledger c q).Did
      (ledger ⟨connClose c.shared p, Function.update c.pc i (.test k p)⟩ q) := by
  have hslots : counted c.shared.cfd (Function.update c.pc i (.test k p)) =
      counted c.shared.cfd c.pc := counted_of_released_eq hx (by cases k <;> rfl)
  rcases eq_or_ne p q with rfl | hne
  · obtain ⟨hheld, hfresh, hraised, hdying, hshut⟩ := tallies_update hx (.test k p) p
    simp only [Pc.held, Pc.fresh, Pc.raised, Pc.dying, Pc.shut, if_true] at *
    convert Ledger.Did.close _ using 1
    · ext <;> simp [ledger, connClose, Shared.setObj, Ledger.close, hslots] <;> omega
    · simp only [ledger]
      omega
  · exact did_other hne hx (by rw [hslots])
      ⟨rfl, rfl, rfl, by simp [Pc.dying, hne], by simp [Pc.shut, hne]⟩

/-- The last holder frees the connection. -/
theorem did_free {k : Option (Fin n)} {p : ℕ} (hx : c.pc i = .free k p) (q : ℕ) :
    (ledger c q).Did (ledger
      ⟨c.shared.setObj p { c.shared.objs p with freed := (c.shared.objs p).freed + 1 },
        Function.update c.pc i (decDone k)⟩ q) := by
  have hslots : counted c.shared.cfd (Function.update c.pc i (decDone k)) =
      counted c.shared.cfd c.pc := counted_of_released_eq hx (by cases k <;> rfl)
  have hmarks : (decDone k).held q = 0 ∧ (decDone k).fresh q = 0 ∧ (decDone k).raised q = 0 ∧
      (decDone k).dying q = 0 ∧ (decDone k).shut q = 0 := by
    cases k <;> exact ⟨rfl, rfl, rfl, rfl, rfl⟩
  rcases eq_or_ne p q with rfl | hne
  · obtain ⟨hheld, hfresh, hraised, hdying, hshut⟩ := tallies_update hx (decDone k) p
    simp only [hmarks] at *
    simp only [Pc.held, Pc.fresh, Pc.raised, Pc.dying, Pc.shut, if_true] at *
    convert Ledger.Did.free _ using 1
    · ext <;> simp [ledger, Shared.setObj, Ledger.free, hslots] <;> omega
    · simp only [ledger]
      omega
  · obtain ⟨hheld, hfresh, hraised, hdying, hshut⟩ := hmarks
    exact did_other hne hx (by rw [hslots])
      ⟨hheld, hfresh, hraised, hdying, by rw [hshut]; simp [Pc.shut, hne]⟩

/-- A step does to each ledger what keeps it sound. -/
theorem did_of_next (h : next c (i, a) = some c') (hs : SlotOk i c.shared (c.pc i))
    (hsound : ∀ q, (ledger c q).Sound) (q : ℕ) : (ledger c q).Did (ledger c' q) := by
  obtain ⟨s', y, hstep, rfl⟩ := threadNext_eq_some h
  have heff := effect_of_step hstep
  generalize hx : c.pc i = x at heff
  cases heff with
  | same hsame hslot hnew =>
    convert Ledger.Did.same using 1
    exact ledger_eq hx rfl rfl (congrArg _ (counted_of_released_eq hx hsame.released))
      (by rw [hsame.held]) (by rw [hsame.fresh]) ⟨hsame.raised q, hsame.dying q, hsame.shut q⟩
  | offer =>
    exact did_create hx rfl (by simp [List.count_append, List.count_singleton, connCreate]; omega)
      ⟨rfl, rfl, rfl, rfl⟩ (hsound q)
  | accept hcfd =>
    convert Ledger.Did.same using 1
    exact ledger_eq hx rfl rfl (congrArg _ (counted_of_released_eq hx rfl)) rfl
      (by simp [List.count_append]) ⟨rfl, rfl, rfl⟩
  | @take t qs rest hq hfree =>
    convert Ledger.Did.same using 1
    refine ledger_eq hx rfl rfl (congrArg _ (counted_of_released_eq hx rfl)) rfl ?_ ⟨rfl, rfl, rfl⟩
    cases qs <;> simp [hq, List.count_cons, Pc.fresh]
  | create t l =>
    exact did_create (l := c.shared.acceptqueue) hx rfl rfl ⟨rfl, rfl, rfl, rfl⟩ (hsound q)
  | inc t p => exact did_inc hx q
  | setup t p => exact did_setup hx hs q
  | work r p => exact did_work hx hs q
  | push r p =>
    convert Ledger.Did.same using 1
    refine ledger_eq hx rfl rfl (congrArg _ (counted_of_released_eq hx rfl)) ?_ rfl ⟨rfl, rfl, rfl⟩
    cases r <;> simp only [List.count_append, List.count_singleton, Pc.held, beq_iff_eq] <;>
      split_ifs <;> omega
  | @pop p rest hq =>
    convert Ledger.Did.same using 1
    refine ledger_eq hx rfl rfl (congrArg _ (counted_of_released_eq hx rfl)) ?_ rfl ⟨rfl, rfl, rfl⟩
    simp [hq, List.count_cons, Pc.held]
  | dec k p => exact did_dec hx hs q
  | close k p => exact did_close hx q
  | test k p =>
    rw [if_pos (refcount_of_test hx (hsound p)).le]
    convert Ledger.Did.same using 1
    exact ledger_eq hx rfl rfl
      (congrArg _ (counted_of_released_eq hx (by cases k <;> rfl))) rfl rfl ⟨rfl, rfl, rfl⟩
  | free k p => exact did_free hx q
  | clear t =>
    convert Ledger.Did.same using 1
    exact ledger_eq hx rfl rfl (congrArg _ (counted_clear hx rfl rfl)) rfl rfl ⟨rfl, rfl, rfl⟩

end Moves

/-! ## Every state of a run -/

variable [Fintype ι] {c c' : State ι n}

theorem Inv.step (hi : Inv c) (h : next c (i, a) = some c') : Inv c' := by
  have hdid := did_of_next h (hi.slots i) hi.sound
  obtain ⟨s', y, hstep, rfl⟩ := threadNext_eq_some h
  have heff := effect_of_step hstep
  refine ⟨fun q => (hi.sound q).did (hdid q), fun j => ?_, fun j t q hc => ?_⟩
  · rcases eq_or_ne j i with rfl | hne
    · simpa only [Function.update_self] using heff.slotOk (hi.slots j)
    · intro t o ho
      simp only [Function.update_of_ne hne] at ho
      rw [heff.cfd_of_ne hne]
      exact hi.slots j t o ho
  rcases heff.counted_of rfl hc with hold | htoken
  · -- a connection whose token changes is in no slot
    have hpos := refs_pos_of_counted hold
    rcases heff.token q with htoken | rfl | ⟨k, hclose⟩ | ⟨u, hset⟩
    · rw [htoken]
      exact hi.token j t q hold
    · have := (hi.sound c.shared.made).stage
      simp only [ledger, isMade, lt_irrefl, if_false] at this hpos
      omega
    · have hle := le_tally (Pc.dying q) c.pc i
      simp only [hclose, Pc.dying, if_true] at hle
      exact absurd ((hi.sound q).of_dying hle).1 hpos.ne'
    · have hle := le_tally (Pc.raised q) c.pc i
      simp only [hset, Pc.raised, if_true] at hle
      exact absurd ((hi.sound q).of_first (Nat.le_add_left_of_le hle)).1 hpos.ne'
  · exact htoken

theorem inv_of_reachable (h : Reachable next start c) : Inv c :=
  h.invariant inv_start fun _ _ _ hi _ hn => hi.step hn

end ConnLife

end Webxs
