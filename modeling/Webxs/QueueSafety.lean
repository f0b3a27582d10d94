import Mathlib.Data.Nat.ModEq
import Webxs.Queue

/-!
# What the queue hands out

With the elements numbered in the order their slots were reserved, `pushed[t]` belongs in
slot `t % qSpace`, and the three indices are the counts of reserved, published and popped
elements modulo `qSpace`. This is lost in two ways : a push reserves a slot of a full ring
(a blocking push that finds no room swaps `qWriteInd` all the same, and two pushes can pass
the test of `qDepth` together), or a pop claims the slot it copied after `qReadInd` went
round once and came back (`Fits` rules both out).

While neither happens, the pops return the elements pushed, each once and in order
(`queueSafe_of_fits`). A stalled pop returns an element twice (`not_queueSafe`).
-/

open Interleaving

namespace Webxs

namespace Queue

variable {ι α : Type*}

/-! ## Indices of a ring -/

theorem eq_of_mod_eq {q a b : ℕ} (h : a % q = b % q) (hab : a ≤ b) (hb : b < a + q) : a = b := by
  have hd : q ∣ b - a := (Nat.modEq_iff_dvd' hab).mp h
  have := Nat.eq_zero_of_dvd_of_lt hd (by omega)
  omega

theorem nextInd_mod {q : ℕ} (hq : 0 < q) (t : ℕ) : nextInd q (t % q) = (t + 1) % q := by
  have hlt := Nat.mod_lt t hq
  rw [nextInd, Nat.add_mod t 1 q]
  rcases Nat.lt_or_ge 1 q with h1 | h1
  · rw [Nat.mod_eq_of_lt h1]
    split_ifs with h
    · rw [h, Nat.mod_self]
    · exact (Nat.mod_eq_of_lt (by omega)).symm
  · obtain rfl : q = 1 := by omega
    simp [Nat.mod_one]

/-! ## What a step does to the ring -/

/-- The number of the element whose slot the thread reserved and has not published. -/
def Pc.ticket : Pc α → Option ℕ
  | .push (.count _ _ _ t) | .push (.copy _ _ _ t) | .push (.publish _ _ _ t) => some t
  | _ => none

/-- The increments of `qDepth` the thread still has to make for a published slot. -/
def Pc.incDue : Pc α → ℕ
  | .push .depth => 1
  | _ => 0

/-- The decrements of `qDepth` the thread still has to make for a claimed slot. -/
def Pc.decDue : Pc α → ℕ
  | .pop _ (.count _) => 1
  | _ => 0

/-- The thread owes the ring nothing. -/
def Pc.Free (p : Pc α) : Prop :=
  p.ticket = none ∧ p.incDue = 0 ∧ p.decDue = 0

/-- The thread owes the ring nothing and knows nothing of it. -/
def Pc.Quiet : Pc α → Prop
  | .push (.swap ..) | .push (.count ..) | .push (.copy ..) | .push (.publish ..) => False
  | .push .depth | .pop _ (.avail ..) | .pop _ (.copy ..) | .pop _ (.swap ..) => False
  | .pop _ (.count ..) => False
  | _ => True

theorem Pc.Quiet.free {p : Pc α} (h : p.Quiet) : p.Free := by
  unfold Pc.Quiet at h
  split at h <;> first | exact h.elim | skip
  refine ⟨?_, ?_, ?_⟩ <;> simp_all [Pc.ticket, Pc.incDue, Pc.decDue]

/-- The steps of a thread as the ring sees them. -/
inductive RingStep (r : Ring α) : Pc α → Ring α → Pc α → Prop
  | quiet (p p' : Pc α) : p.Free → p'.Quiet → RingStep r p r p'
  | look (x : α) (blocking : Bool) (wi : ℕ) : RingStep r (.push (.read x blocking wi)) r
      (.push (.swap x blocking wi (nextInd r.qSpace wi)))
  | reserve (x : α) (blocking : Bool) (nwi : ℕ) :
      RingStep r (.push (.swap x blocking r.qWriteInd nwi))
        { r with qWriteInd := nwi, pushed := r.pushed ++ [x] }
        (.push (if blocking then .copy x r.qWriteInd nwi r.pushed.length
          else .count x r.qWriteInd nwi r.pushed.length))
  | count (x : α) (wi nwi t : ℕ) :
      RingStep r (.push (.count x wi nwi t)) r (.push (.copy x wi nwi t))
  | copy (x : α) (wi nwi t : ℕ) : RingStep r (.push (.copy x wi nwi t))
      { r with qData := Function.update r.qData wi (some x) } (.push (.publish x wi nwi t))
  | wait (x : α) (wi nwi t : ℕ) :
      RingStep r (.push (.publish x wi nwi t)) r (.push (.publish x wi nwi t))
  | publish (x : α) (nwi t : ℕ) : RingStep r (.push (.publish x r.qAvailInd nwi t))
      { r with qAvailInd := nwi, avail := r.avail + 1 } (.push .depth)
  | inc : RingStep r (.push .depth) { r with qDepth := r.qDepth + 1, incs := r.incs + 1 }
      (.kick .max)
  | popRead (who : Caller) : RingStep r (.pop who .read) r
      (.pop who (.avail r.qReadInd r.popped.length))
  | popAvail (who : Caller) (ri v : ℕ) : ri ≠ r.qAvailInd →
      RingStep r (.pop who (.avail ri v)) r (.pop who (.copy ri v))
  | popCopy (who : Caller) (ri v : ℕ) :
      RingStep r (.pop who (.copy ri v)) r (.pop who (.swap ri v (r.qData ri)))
  | popSwap (who : Caller) (v : ℕ) (d : Option α) : RingStep r (.pop who (.swap r.qReadInd v d))
      { r with qReadInd := nextInd r.qSpace r.qReadInd, popped := r.popped ++ [d] }
      (.pop who (.count d))
  | dec (who : Caller) (d : Option α) : RingStep r (.pop who (.count d))
      { r with qDepth := r.qDepth - 1, decs := r.decs + 1 } (who.back (some d))

theorem RingStep.of_quiet {r r' : Ring α} {p p' : Pc α} (hr : r' = r) (hp : p.Free)
    (hp' : p'.Quiet) : RingStep r p r' p' := by
  subst hr
  exact .quiet p p' hp hp'

theorem Caller.quiet_back (who : Caller) (d : Option (Option α)) : (who.back d).Quiet := by
  cases who with
  | thread blocking => exact trivial
  | worker => cases d <;> exact trivial

theorem ringStep_queuePush (s : Shared ι α) (p : PushPc α) :
    RingStep s.ring (.push p) (queuePush s p).1.ring (queuePush s p).2 := by
  cases p with
  | attempt x => exact .of_quiet rfl ⟨rfl, rfl, rfl⟩ trivial
  | full x blocking =>
    simp only [queuePush]
    split_ifs <;> exact .of_quiet rfl ⟨rfl, rfl, rfl⟩ trivial
  | spin x =>
    simp only [queuePush]
    split_ifs <;> exact .of_quiet rfl ⟨rfl, rfl, rfl⟩ trivial
  | write x blocking => exact .of_quiet rfl ⟨rfl, rfl, rfl⟩ trivial
  | read x blocking wi =>
    simp only [queuePush]
    split_ifs
    · exact .of_quiet rfl ⟨rfl, rfl, rfl⟩ trivial
    · exact .look x blocking wi
  | swap x blocking wi nwi =>
    simp only [queuePush]
    split_ifs with h hb
    · subst h hb
      exact .reserve x true nwi
    · subst h
      simpa [hb] using RingStep.reserve (r := s.ring) x blocking nwi
    · exact .of_quiet rfl ⟨rfl, rfl, rfl⟩ trivial
  | count x wi nwi t => exact .count x wi nwi t
  | copy x wi nwi t => exact .copy x wi nwi t
  | publish x wi nwi t =>
    simp only [queuePush]
    split_ifs with h
    · subst h
      exact .publish x nwi t
    · exact .wait x wi nwi t
  | depth => exact .inc

theorem ringStep_queuePop (who : Caller) (r : Ring α) (p : PopPc α) :
    RingStep r (.pop who p) (queuePop who r p).1 (queuePop who r p).2 := by
  cases p with
  | depth =>
    simp only [queuePop]
    split_ifs
    · exact .of_quiet rfl ⟨rfl, rfl, rfl⟩ (who.quiet_back _)
    · exact .of_quiet rfl ⟨rfl, rfl, rfl⟩ trivial
  | read => exact .popRead who
  | avail ri v =>
    simp only [queuePop]
    split_ifs with h
    · exact .of_quiet rfl ⟨rfl, rfl, rfl⟩ (who.quiet_back _)
    · exact .popAvail who ri v h
  | copy ri v => exact .popCopy who ri v
  | swap ri v d =>
    simp only [queuePop]
    split_ifs with h hb
    · subst h
      exact .popSwap who v d
    · exact .of_quiet rfl ⟨rfl, rfl, rfl⟩ trivial
    · exact .of_quiet rfl ⟨rfl, rfl, rfl⟩ (who.quiet_back _)
  | count d => exact .dec who d

/-- Outside push and pop, a step leaves the ring alone. -/
theorem ring_queueKick [DecidableEq ι] {i : ι} {s s' : Shared ι α} {k : KickPc} {p' : Pc α}
    (h : queueKick i s k = some (s', p')) : s'.ring = s.ring ∧ p'.Quiet := by
  cases k <;> simp only [queueKick] at h <;> (try split_ifs at h) <;>
    simp only [Option.some.injEq, Prod.mk.injEq, reduceCtorEq] at h <;>
    obtain ⟨rfl, rfl⟩ := h <;> exact ⟨rfl, trivial⟩

theorem ring_queuePause [DecidableEq ι] {i : ι} {first : Bool} {s s' : Shared ι α} {q : PausePc}
    {p' : Pc α} (h : queuePause i first s q = some (s', p')) : s'.ring = s.ring ∧ p'.Quiet := by
  cases q <;> simp only [queuePause] at h <;> (try split_ifs at h) <;>
    simp only [Option.some.injEq, Prod.mk.injEq] at h <;>
    obtain ⟨rfl, rfl⟩ := h <;> exact ⟨rfl, trivial⟩

theorem ring_queueExec (s : Shared ι α) (e : ExecPc) :
    (queueExec s e).1.ring = s.ring ∧ (queueExec s e).2.Quiet := by
  cases e <;> refine ⟨rfl, ?_⟩ <;> simp only [queueExec] <;> (try split_ifs) <;> exact trivial

/-- Every step is one of those. -/
theorem ringStep_step [DecidableEq ι] [Fintype ι] {i : ι} {a : Act ι α} {s s' : Shared ι α}
    {p p' : Pc α} (h : step i a s p = some (s', p')) : RingStep s.ring p s'.ring p' := by
  cases steps_of_step h with
  | push first p => exact ringStep_queuePush s p
  | pop first who p => exact ringStep_queuePop who s.ring p
  | kick first hk =>
    obtain ⟨hr, hq⟩ := ring_queueKick hk
    exact .of_quiet hr ⟨rfl, rfl, rfl⟩ hq
  | exec first e =>
    obtain ⟨hr, hq⟩ := ring_queueExec s e
    exact .of_quiet hr ⟨rfl, rfl, rfl⟩ hq
  | pause first hp =>
    obtain ⟨hr, hq⟩ := ring_queuePause hp
    exact .of_quiet hr ⟨rfl, rfl, rfl⟩ hq
  | _ => exact .of_quiet rfl ⟨rfl, rfl, rfl⟩ trivial

/-! ## The invariant -/

/-- The indices are the counts modulo `qSpace`, and the slots hold what was published and
not popped. -/
structure RingSafe (r : Ring α) : Prop where
  write : r.qWriteInd = r.pushed.length % r.qSpace
  read : r.qReadInd = r.popped.length % r.qSpace
  availInd : r.qAvailInd = r.avail % r.qSpace
  popped_le : r.popped.length ≤ r.avail
  avail_le : r.avail ≤ r.pushed.length
  room : r.pushed.length + 1 ≤ r.popped.length + r.qSpace
  slots : ∀ k, r.popped.length ≤ k → k < r.avail → r.qData (k % r.qSpace) = r.pushed[k]?
  order : r.popped = (r.pushed.take r.popped.length).map some
  depth : r.qDepth = r.incs - r.decs

/-- Place `t` of the history is reserved for `x` and not published; `wi` is its slot. -/
structure Reserved (r : Ring α) (x : α) (wi nwi t : ℕ) : Prop where
  avail_le : r.avail ≤ t
  lt : t < r.pushed.length
  slot : wi = t % r.qSpace
  slot_next : nwi = nextInd r.qSpace wi
  elem : r.pushed[t]? = some x

/-- After `v` pops the index `ri` was read; if none came since, its slot is published. -/
structure Claimed (r : Ring α) (ri v : ℕ) : Prop where
  le : v ≤ r.popped.length
  slot : ri = v % r.qSpace
  lt : v = r.popped.length → v < r.avail

/-- What the thread's local variables say of the ring. -/
def Pc.Knows (r : Ring α) : Pc α → Prop
  | .push (.swap _ _ wi nwi) => nwi = nextInd r.qSpace wi
  | .push (.count x wi nwi t) | .push (.copy x wi nwi t) => Reserved r x wi nwi t
  | .push (.publish x wi nwi t) => Reserved r x wi nwi t ∧ r.qData wi = some x
  | .pop _ (.avail ri v) => v ≤ r.popped.length ∧ ri = v % r.qSpace
  | .pop _ (.copy ri v) => Claimed r ri v
  | .pop _ (.swap ri v d) => Claimed r ri v ∧ (v = r.popped.length → d = r.pushed[v]?)
  | _ => True

/-- The step finds the ring as its test took it to be : a swap of `qWriteInd` that succeeds
leaves a slot free, and a swap of `qReadInd` that succeeds claims the slot that was copied. -/
def Fits (r : Ring α) : Pc α → Prop
  | .push (.swap _ _ wi nwi) => r.qWriteInd = wi → nwi ≠ r.qReadInd
  | .pop _ (.swap ri v _) => r.qReadInd = ri → v = r.popped.length
  | _ => True

instance (r : Ring α) (p : Pc α) : Decidable (Fits r p) := by
  unfold Fits
  split <;> infer_instance

theorem Pc.Quiet.knows {r : Ring α} {p : Pc α} (h : p.Quiet) : p.Knows r := by
  unfold Pc.Quiet at h
  split at h <;> first | exact h.elim | skip
  simp_all [Pc.Knows]

section RingStep

variable {r r' : Ring α} {p p' : Pc α}

theorem RingStep.qSpace_eq (h : RingStep r p r' p') : r'.qSpace = r.qSpace := by
  cases h <;> rfl

/-- A reserved place lies less than a round behind the pops. -/
theorem RingSafe.lt_round (hr : RingSafe r) {k : ℕ} (hk : k < r.pushed.length) :
    k < r.popped.length + r.qSpace := by
  have := hr.room
  omega

/-- Two places not yet popped have slots of their own. -/
theorem RingSafe.eq_of_slot_eq (hr : RingSafe r) {k t : ℕ} (hk : r.popped.length ≤ k)
    (ht : r.popped.length ≤ t) (hk' : k < r.pushed.length) (ht' : t < r.pushed.length)
    (h : k % r.qSpace = t % r.qSpace) : k = t := by
  have := hr.lt_round hk'
  have := hr.lt_round ht'
  rcases Nat.le_total k t with hkt | hkt
  · exact eq_of_mod_eq h hkt (by omega)
  · exact (eq_of_mod_eq h.symm hkt (by omega)).symm

theorem Reserved.popped_le (hr : RingSafe r) {x : α} {wi nwi t : ℕ}
    (h : Reserved r x wi nwi t) : r.popped.length ≤ t :=
  hr.popped_le.trans h.avail_le

/-- The thread that can publish holds the oldest reserved place. -/
theorem Reserved.eq_avail (hr : RingSafe r) {x : α} {nwi t : ℕ}
    (h : Reserved r x r.qAvailInd nwi t) : t = r.avail := by
  have hs : r.avail % r.qSpace = t % r.qSpace := hr.availInd.symm.trans h.slot
  have := hr.popped_le
  have := hr.lt_round h.lt
  exact (eq_of_mod_eq hs h.avail_le (by omega)).symm

/-- A step that fits keeps the ring safe. -/
theorem RingSafe.ringStep (hr : RingSafe r) (hq : 0 < r.qSpace) (hp : p.Knows r) (hok : Fits r p)
    (h : RingStep r p r' p') : RingSafe r' := by
  cases h with
  | quiet | look | count | wait | popRead | popAvail | popCopy => exact hr
  | inc => exact { hr with depth := by simp only [hr.depth]; push_cast; ring }
  | dec => exact { hr with depth := by simp only [hr.depth]; push_cast; ring }
  | reserve x blocking nwi =>
    have hnwi : nwi = (r.pushed.length + 1) % r.qSpace := by
      rw [show nwi = _ from hp, hr.write, nextInd_mod hq]
    have hfree : nwi ≠ r.qReadInd := hok rfl
    have hlen : r.pushed.length + 1 ≠ r.popped.length + r.qSpace := by
      intro he
      rw [hnwi, he, Nat.add_mod_right, hr.read] at hfree
      exact hfree rfl
    have := hr.popped_le
    have := hr.avail_le
    have := hr.room
    refine { hr with write := ?_, avail_le := ?_, room := ?_, slots := ?_, order := ?_ }
    · simpa using hnwi
    · simp only [List.length_append, List.length_singleton]
      omega
    · simp only [List.length_append, List.length_singleton]
      omega
    · intro k hk hk'
      simp only at hk hk'
      rw [hr.slots k hk hk', List.getElem?_append_left (by omega)]
    · show r.popped = (List.take r.popped.length (r.pushed ++ [x])).map some
      rw [List.take_append_of_le_length (by omega)]
      exact hr.order
  | copy x wi nwi t =>
    have hp : Reserved r x wi nwi t := hp
    refine { hr with slots := ?_ }
    intro k hk hk'
    have := hr.avail_le
    have hne : k % r.qSpace ≠ wi := by
      intro he
      rw [hp.slot] at he
      have := hr.eq_of_slot_eq hk (hp.popped_le hr) (by simp only at hk'; omega) hp.lt he
      have := hp.avail_le
      simp only at hk'
      omega
    simp only [Function.update_of_ne hne]
    exact hr.slots k hk hk'
  | publish x nwi t =>
    obtain ⟨hp, hd⟩ := hp
    obtain rfl := hp.eq_avail hr
    have := hr.popped_le
    have := hp.lt
    refine { hr with availInd := ?_, popped_le := ?_, avail_le := ?_, slots := ?_ }
    · simpa [hr.availInd, nextInd_mod hq] using hp.slot_next
    · simp only
      omega
    · simp only
      omega
    · intro k hk hk'
      rcases Nat.lt_succ_iff_lt_or_eq.mp hk' with hlt | rfl
      · exact hr.slots k hk hlt
      · rw [← hr.availInd, hd, hp.elem]
  | popSwap who v d =>
    obtain ⟨hp, hd⟩ := hp
    obtain rfl : v = r.popped.length := hok rfl
    have hlt := hp.lt rfl
    have := hr.avail_le
    have := hr.room
    refine { hr with read := ?_, popped_le := ?_, room := ?_, slots := ?_, order := ?_ }
    · simp only [hr.read, nextInd_mod hq, List.length_append, List.length_singleton]
    · simp only [List.length_append, List.length_singleton]
      omega
    · simp only [List.length_append, List.length_singleton]
      omega
    · intro k hk hk'
      simp only [List.length_append, List.length_singleton] at hk
      exact hr.slots k (by omega) hk'
    · have hget := List.getElem?_eq_getElem (show r.popped.length < r.pushed.length by omega)
      rw [hd rfl, hget]
      simp only [List.length_append, List.length_singleton, List.take_add_one, hget,
        Option.toList_some, List.map_append, List.map_cons, List.map_nil, ← hr.order]

/-- What the thread knows after its step. -/
theorem RingStep.knows (hr : RingSafe r) (hp : p.Knows r) (h : RingStep r p r' p') :
    p'.Knows r' := by
  cases h with
  | quiet _ _ _ hq => exact hq.knows
  | look => exact rfl
  | reserve x blocking nwi =>
    have hres : Reserved { r with qWriteInd := nwi, pushed := r.pushed ++ [x] } x r.qWriteInd nwi
        r.pushed.length := {
      avail_le := hr.avail_le
      lt := by simp
      slot := hr.write
      slot_next := hp
      elem := by simp }
    cases blocking <;> exact hres
  | count => exact hp
  | copy x wi nwi t => exact ⟨{ (show Reserved r x wi nwi t from hp) with }, by simp⟩
  | wait => exact hp
  | publish | inc => exact trivial
  | popRead => exact ⟨le_rfl, hr.read⟩
  | popAvail who ri v hne =>
    obtain ⟨hv, hs⟩ := hp
    refine ⟨hv, hs, fun he => ?_⟩
    have := hr.popped_le
    have hva : v ≠ r.avail := by
      rintro rfl
      exact hne (hs.trans hr.availInd.symm)
    omega
  | popCopy who ri v =>
    have hp : Claimed r ri v := hp
    refine ⟨hp, fun he => ?_⟩
    rw [hp.slot, hr.slots v (by omega) (hp.lt he)]
  | popSwap => exact trivial
  | dec who d => exact (who.quiet_back _).knows

/-- A place reserved by another thread stays reserved. -/
theorem Reserved.ringStep (hr : RingSafe r) (hp : p.Knows r) (h : RingStep r p r' p')
    {x : α} {wi nwi t : ℕ} (ht : Reserved r x wi nwi t) (hne : p.ticket ≠ some t) :
    Reserved r' x wi nwi t := by
  cases h with
  | reserve y =>
    refine { ht with lt := ?_, elem := ?_ }
    · have := ht.lt
      simp only [List.length_append, List.length_singleton]
      omega
    · exact (List.getElem?_append_left ht.lt).trans ht.elem
  | publish y nwi' t' =>
    obtain rfl := Reserved.eq_avail hr hp.1
    have hlt : r.avail < t :=
      lt_of_le_of_ne ht.avail_le fun he => hne (congrArg some he)
    exact { ht with avail_le := hlt }
  | _ => exact { ht with }

/-- What another thread wrote to its slot stays there. -/
theorem Reserved.qData_ringStep (hr : RingSafe r) (hp : p.Knows r) (h : RingStep r p r' p')
    {x : α} {wi nwi t : ℕ} (ht : Reserved r x wi nwi t) (hne : p.ticket ≠ some t)
    (hd : r.qData wi = some x) : r'.qData wi = some x := by
  cases h with
  | copy y wi' nwi' t' =>
    have hp : Reserved r y wi' nwi' t' := hp
    have hwi : wi ≠ wi' := by
      intro he
      rw [ht.slot, hp.slot] at he
      have := hr.eq_of_slot_eq (ht.popped_le hr) (hp.popped_le hr) ht.lt hp.lt he
      exact hne (congrArg some this.symm)
    exact (Function.update_of_ne hwi _ _).trans hd
  | _ => exact hd

theorem Claimed.ringStep (h : RingStep r p r' p') {ri v : ℕ} (hc : Claimed r ri v) :
    Claimed r' ri v := by
  cases h with
  | publish => exact { hc with lt := fun he => Nat.lt_succ_of_lt (hc.lt he) }
  | popSwap =>
    have := hc.le
    refine { hc with le := ?_, lt := ?_ } <;>
      simp only [List.length_append, List.length_singleton] <;> omega
  | _ => exact { hc with }

/-- What another pop copied is what was pushed at its place, while no pop came since. -/
theorem Claimed.elem_ringStep (hr : RingSafe r) (h : RingStep r p r' p') {ri v : ℕ}
    {d : Option α} (hc : Claimed r ri v) (hd : v = r.popped.length → d = r.pushed[v]?)
    (he : v = r'.popped.length) : d = r'.pushed[v]? := by
  have := hr.avail_le
  cases h with
  | reserve =>
    have := hc.lt he
    rw [hd he]
    exact (List.getElem?_append_left (by omega)).symm
  | popSwap =>
    have := hc.le
    simp only [List.length_append, List.length_singleton] at he
    omega
  | _ => exact hd he

/-- A thread's knowledge outlives the steps of the others. -/
theorem RingStep.knows_other (hr : RingSafe r) (hp : p.Knows r) (h : RingStep r p r' p')
    {q : Pc α} (hq : q.Knows r) (hne : ∀ t, q.ticket = some t → p.ticket ≠ some t) :
    q.Knows r' := by
  unfold Pc.Knows at hq
  split at hq
  · exact hq.trans (by rw [h.qSpace_eq])
  · exact Reserved.ringStep hr hp h hq (hne _ rfl)
  · exact Reserved.ringStep hr hp h hq (hne _ rfl)
  · exact ⟨.ringStep hr hp h hq.1 (hne _ rfl), hq.1.qData_ringStep hr hp h (hne _ rfl) hq.2⟩
  · refine ⟨?_, h.qSpace_eq.symm ▸ hq.2⟩
    have := hq.1
    cases h <;> first | exact hq.1 | simp only [List.length_append]; omega
  · exact .ringStep h hq
  · exact ⟨.ringStep h hq.1, hq.1.elem_ringStep hr h hq.2⟩
  · simp_all [Pc.Knows]

theorem Pc.Knows.ticket_lt (hp : p.Knows r) {t : ℕ} (ht : p.ticket = some t) :
    t < r.pushed.length := by
  unfold Pc.ticket at ht
  split at ht <;> simp only [Option.some.injEq, reduceCtorEq] at ht
  · exact ht ▸ Reserved.lt hp
  · exact ht ▸ Reserved.lt hp
  · exact ht ▸ hp.1.lt

/-- A thread comes by a place by reserving the next one. -/
theorem RingStep.ticket (h : RingStep r p r' p') {t : ℕ} (ht : p'.ticket = some t) :
    p.ticket = some t ∨ t = r.pushed.length := by
  cases h with
  | quiet _ _ _ hq => simp [hq.free.1] at ht
  | reserve x blocking => cases blocking <;> exact .inr (Option.some.inj ht).symm
  | dec who d => simp [(who.quiet_back _).free.1] at ht
  | look | publish | inc | popRead | popAvail | popCopy | popSwap => cases ht
  | count | copy | wait => exact .inl ht

end RingStep

/-! ## Runs -/

/-- The invariant of the queue : no two threads hold one place. -/
structure Inv (c : State ι α) : Prop where
  ring : RingSafe c.shared.ring
  knows : ∀ i, (c.pc i).Knows c.shared.ring
  ticket_inj : ∀ i j t, (c.pc i).ticket = some t → (c.pc j).ticket = some t → i = j

theorem inv_init {qSpace : ℕ} (hq : 0 < qSpace) (m : ℤ) : Inv (init qSpace m : State ι α) where
  ring := by constructor <;> simp [init]; omega
  knows _ := trivial
  ticket_inj i j t hi := by simp [init, Pc.ticket] at hi

variable [DecidableEq ι] [Fintype ι]

/-- What one step of the system does to the ring. -/
theorem next_cases {c c' : State ι α} {ia : ι × Act ι α} (h : next c ia = some c') :
    ∃ p', RingStep c.shared.ring (c.pc ia.1) c'.shared.ring p' ∧
      c'.pc = Function.update c.pc ia.1 p' := by
  obtain ⟨s', p', hl, rfl⟩ := threadNext_eq_some h
  exact ⟨p', ringStep_step hl, rfl⟩

theorem Inv.next {c c' : State ι α} {ia : ι × Act ι α} (hc : Inv c)
    (hq : 0 < c.shared.ring.qSpace) (hok : Fits c.shared.ring (c.pc ia.1))
    (h : next c ia = some c') : Inv c' := by
  obtain ⟨p', hstep, hpc⟩ := next_cases h
  have hr' := hc.ring.ringStep hq (hc.knows _) hok hstep
  refine ⟨hr', fun j => ?_, fun j k t hj hk => ?_⟩
  · rw [hpc, Function.update_apply]
    split_ifs with hj
    · exact hstep.knows hc.ring (hc.knows _)
    · refine hstep.knows_other hc.ring (hc.knows _) (hc.knows j) fun t ht ht' => ?_
      exact hj (hc.ticket_inj j ia.1 t ht ht')
  · -- a thread that did not move holds none but an older place
    have hold : ∀ l, l ≠ ia.1 → (c.pc l).ticket = some t → p'.ticket = some t → False := by
      intro l hl htl htp
      rcases hstep.ticket htp with htp | rfl
      · exact hl (hc.ticket_inj l ia.1 t htl htp)
      · exact absurd ((hc.knows l).ticket_lt htl) (lt_irrefl _)
    rw [hpc, Function.update_apply] at hj hk
    split_ifs at hj hk with hj' hk' hk'
    · exact hj'.trans hk'.symm
    · exact (hold k hk' hk hj).elim
    · exact (hold j hj' hj hk).elim
    · exact hc.ticket_inj j k t hj hk

theorem inv_of_fits {qSpace : ℕ} {m : ℤ} (hq : 2 ≤ qSpace) {c : State ι α}
    (h : Runs next (fun c ia => Fits c.shared.ring (c.pc ia.1)) (init qSpace m) c) :
    Inv c ∧ c.shared.ring.qSpace = qSpace := by
  refine h.invariant (I := fun c : State ι α => Inv c ∧ c.shared.ring.qSpace = qSpace)
    ⟨inv_init (by omega) m, rfl⟩ ?_
  rintro c ia c' ⟨hc, hs⟩ hok hn
  obtain ⟨p', hstep, -⟩ := next_cases hn
  exact ⟨hc.next (by omega) hok hn, hstep.qSpace_eq.trans hs⟩

section Counters

variable {ok : State ι α → ι × Act ι α → Prop} {qSpace : ℕ} {m : ℤ} {c : State ι α}

theorem counter_eq_tally_of_ringStep (h : Runs next ok (init qSpace m) c) (κ : Ring α → ℤ)
    (w : Pc α → ℕ) (hκ : κ (init qSpace m : State ι α).shared.ring = 0) (hw : w .idle = 0)
    (hstep : ∀ r p r' p', RingStep r p r' p' → κ r' + w p = κ r + w p') :
    κ c.shared.ring = tally w c.pc := by
  refine h.counter_eq_tally (fun s => κ s.ring) w ?_ fun i a s p s' p' hl => ?_
  · have ht : tally w (init qSpace m : State ι α).pc = 0 := tally_eq_zero fun _ => hw
    rw [hκ, ht, Nat.cast_zero]
  · exact hstep _ _ _ _ (ringStep_step hl)

/-- The places reserved and not published are counted by the threads that hold them. -/
theorem reserved_eq_tally (h : Runs next ok (init qSpace m) c) :
    (c.shared.ring.pushed.length : ℤ) - c.shared.ring.avail =
      tally (fun p : Pc α => p.ticket.elim 0 fun _ => 1) c.pc := by
  refine counter_eq_tally_of_ringStep h (fun r => r.pushed.length - r.avail) _ rfl rfl ?_
  intro r p r' p' hs
  cases hs with
  | quiet _ _ hp hq => simp [hp.1, hq.free.1]
  | reserve x blocking => cases blocking <;> simp [Pc.ticket] <;> ring
  | publish => simp [Pc.ticket]; ring
  | dec who d =>
    rw [(who.quiet_back _).free.1]
    simp [Pc.ticket]
  | _ => simp [Pc.ticket]

/-- The slots published and not counted in. -/
theorem incDue_eq_tally (h : Runs next ok (init qSpace m) c) :
    (c.shared.ring.avail : ℤ) - c.shared.ring.incs = tally Pc.incDue c.pc := by
  refine counter_eq_tally_of_ringStep h (fun r => r.avail - r.incs) _ rfl rfl ?_
  intro r p r' p' hs
  cases hs with
  | quiet _ _ hp hq => simp [hp.2.1, hq.free.2.1]
  | reserve x blocking => cases blocking <;> simp [Pc.incDue]
  | dec who d =>
    rw [(who.quiet_back _).free.2.1]
    simp [Pc.incDue]
  | publish | inc => simp [Pc.incDue]; ring
  | _ => simp [Pc.incDue]

/-- The slots claimed and not counted out. -/
theorem decDue_eq_tally (h : Runs next ok (init qSpace m) c) :
    (c.shared.ring.popped.length : ℤ) - c.shared.ring.decs = tally Pc.decDue c.pc := by
  refine counter_eq_tally_of_ringStep h (fun r => r.popped.length - r.decs) _ rfl rfl ?_
  intro r p r' p' hs
  cases hs with
  | quiet _ _ hp hq => simp [hp.2.2, hq.free.2.2]
  | reserve x blocking => cases blocking <;> simp [Pc.decDue]
  | dec who d =>
    rw [(who.quiet_back _).free.2.2]
    simp [Pc.decDue]
    ring
  | popSwap => simp [Pc.decDue]; ring
  | _ => simp [Pc.decDue]

end Counters

/-! ## Safety -/

/-- The thread is in the part of a push or pop that touches the ring. -/
def Pc.OnRing : Pc α → Prop
  | .push _ | .pop _ _ => True
  | _ => False

/-- The queue hands out what was pushed, each element once, and the ring holds the rest. -/
structure QueueSafe (c : State ι α) : Prop where
  /-- The pops returned the first of the elements pushed, each once and in order. -/
  popped_prefix : c.shared.ring.popped <+: c.shared.ring.pushed.map some
  /-- An element published and not popped is in its slot. -/
  kept : ∀ k, c.shared.ring.popped.length ≤ k → k < c.shared.ring.avail →
    c.shared.ring.qData (k % c.shared.ring.qSpace) = c.shared.ring.pushed[k]?
  /-- A push copies its element into the slot of its place, which no other element that is
  still to be popped has. -/
  alone : ∀ i x wi nwi t, c.pc i = .push (.copy x wi nwi t) →
    c.shared.ring.pushed[t]? = some x ∧ t % c.shared.ring.qSpace = wi ∧
      ∀ k, c.shared.ring.popped.length ≤ k → k < c.shared.ring.pushed.length →
        k % c.shared.ring.qSpace = wi → k = t
  /-- With no call in progress, the elements still to be popped are in the slots from
  `qReadInd` up to `qAvailInd`, `qDepth` many. -/
  rest : (∀ i, ¬(c.pc i).OnRing) → ∃ n : ℕ, c.shared.ring.qDepth = n ∧
    c.shared.ring.pushed.length = c.shared.ring.popped.length + n ∧
    n < c.shared.ring.qSpace ∧ c.shared.ring.qReadInd < c.shared.ring.qSpace ∧
    c.shared.ring.qAvailInd = (c.shared.ring.qReadInd + n) % c.shared.ring.qSpace ∧
    ∀ j, j < n → c.shared.ring.qData ((c.shared.ring.qReadInd + j) % c.shared.ring.qSpace) =
      c.shared.ring.pushed[c.shared.ring.popped.length + j]?

/-- If no push reserves a slot of a full ring and no pop claims a slot that came round, the
queue is safe in every state. -/
theorem queueSafe_of_fits {qSpace : ℕ} {m : ℤ} (hq : 2 ≤ qSpace) {c : State ι α}
    (h : Runs next (fun c ia => Fits c.shared.ring (c.pc ia.1)) (init qSpace m) c) :
    QueueSafe c := by
  obtain ⟨⟨hr, hknows, -⟩, rfl⟩ := inv_of_fits hq h
  refine ⟨?_, hr.slots, ?_, ?_⟩
  · rw [hr.order, List.map_take]
    exact List.take_prefix _ _
  · intro i x wi nwi t hpc
    have ht : Reserved c.shared.ring x wi nwi t := by
      have := hknows i
      rwa [hpc] at this
    refine ⟨ht.elem, ht.slot.symm, fun k hk hk' he => ?_⟩
    exact hr.eq_of_slot_eq hk (ht.popped_le hr) hk' ht.lt (he.trans ht.slot)
  · intro hout
    have hres := reserved_eq_tally h
    have hinc := incDue_eq_tally h
    have hdec := decDue_eq_tally h
    have hfree : ∀ i, (c.pc i).Free := by
      intro i
      have := hout i
      cases hp : c.pc i <;> simp_all [Pc.OnRing, Pc.Free, Pc.ticket, Pc.incDue, Pc.decDue]
    rw [tally_eq_zero fun i => by rw [(hfree i).1]; rfl] at hres
    rw [tally_eq_zero fun i => (hfree i).2.1] at hinc
    rw [tally_eq_zero fun i => (hfree i).2.2] at hdec
    have := hr.depth
    have := hr.popped_le
    have := hr.room
    have hidx : ∀ j, (c.shared.ring.qReadInd + j) % c.shared.ring.qSpace =
        (c.shared.ring.popped.length + j) % c.shared.ring.qSpace := by
      intro j
      rw [hr.read, Nat.mod_add_mod]
    refine ⟨c.shared.ring.avail - c.shared.ring.popped.length, by omega, by omega, by omega,
      ?_, ?_, fun j hj => ?_⟩
    · rw [hr.read]
      exact Nat.mod_lt _ (by omega)
    · rw [hidx, hr.availInd]
      congr 1
      omega
    · rw [hidx]
      exact hr.slots _ (by omega) (by omega)

/-- One push and one pop, on a ring of two slots. -/
theorem queueSafe_of_fits_pop :
    ∃ c : State (Fin 2) ℕ, c.shared.ring.popped = [some 1] ∧ QueueSafe c := by
  obtain ⟨c, hc, hp⟩ : ∃ c : State (Fin 2) ℕ,
      Runs next (fun c ia => Fits c.shared.ring (c.pc ia.1)) (init 2 0) c ∧
        c.shared.ring.popped = [some 1] :=
    exists_runs_of_runSchedule ((0, .push 1 false) :: List.replicate 9 (0, .go true) ++
      (1, .pop false) :: List.replicate 6 (1, .go true)) (by decide)
  exact ⟨c, hp, queueSafe_of_fits le_rfl hc⟩

/-- Thread 0 copies the element 1 and stalls before its swap. Thread 1 pops 1, pushes and
pops 2, and with that `qReadInd` is back where thread 0 read it : its swap succeeds, and
1 is returned a second time. -/
theorem not_queueSafe :
    ∃ c : State (Fin 2) ℕ, Reachable next (init 2 0) c ∧
      c.shared.ring.popped = [some 1, some 2, some 1] ∧ ¬QueueSafe c := by
  obtain ⟨c, hc, hp, hq⟩ : ∃ c : State (Fin 2) ℕ, Reachable next (init 2 0) c ∧
      c.shared.ring.popped = [some 1, some 2, some 1] ∧ c.shared.ring.pushed = [1, 2] :=
    exists_runs_of_runSchedule ((0, .push 1 false) :: List.replicate 9 (0, .go true) ++
      (0, .pop false) :: List.replicate 4 (0, .go true) ++
      (1, .pop false) :: List.replicate 6 (1, .go true) ++
      (1, .push 2 false) :: List.replicate 9 (1, .go true) ++
      (1, .pop false) :: List.replicate 6 (1, .go true) ++ [(0, .go true)]) (by decide +kernel)
  refine ⟨c, hc, hp, fun hs => ?_⟩
  have := hs.popped_prefix.length_le
  simp [hp, hq] at this

end Queue

end Webxs
