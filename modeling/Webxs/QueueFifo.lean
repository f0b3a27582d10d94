import Mathlib.Logic.Relation
import Webxs.QueueSafety

/-!
# The queue of one thread

A queue that one thread uses, with no workers, is a FIFO list of at most `qSpace - 1` elements.
The calls run to their end one after the other here, on the array of `qSpace` blocks of
`qElemSize` bytes, and every swap finds what the call has just read. The only place where a call
could hang is the spin on `qAvailInd` in `xs_queue_push`.

`Core.Holds` is the link between the ring and the list; a call keeps it and returns what the list
returns (`push_holds`, `pop_holds`), and so does a sequence of calls (`core_refines_fifo`). The
calls are those of the threads of the queue when one of them runs alone (`Core.push_alone`,
`Core.pop_alone`).
-/

namespace Webxs

namespace Queue

/-! ## The calls -/

/-- The core data of `xs_queue`. -/
structure Core where
  qSpace : ℕ
  qElemSize : ℕ
  qData : List UInt8
  qWriteInd : ℕ
  qReadInd : ℕ
  qAvailInd : ℕ
  qDepth : ℤ

namespace Core

/-- `xs_queue_create2`; the array is what `malloc` returned. -/
def create (elemSize qsize : ℕ) (array : List UInt8) : Core where
  qSpace := qsize
  qElemSize := elemSize
  qData := array
  qWriteInd := 0
  qReadInd := 0
  qAvailInd := 0
  qDepth := 0

/-- `xs_queue_size`. -/
def size (q : Core) : ℤ :=
  q.qDepth

/-- `xs_queue_full`. -/
def full (q : Core) : Bool :=
  q.qSpace ≤ q.qDepth + 1

/-- The element in slot `i`. -/
def slot (q : Core) (i : ℕ) : List UInt8 :=
  (q.qData.drop (i * q.qElemSize)).take q.qElemSize

/-- The array with `data` in slot `i`. -/
def fill (q : Core) (i : ℕ) (data : List UInt8) : List UInt8 :=
  q.qData.take (i * q.qElemSize) ++ data ++ q.qData.drop (i * q.qElemSize + data.length)

/-- `xs_queue_push`, not blocking; `none` is a call that never returns. -/
def push (q : Core) (data : List UInt8) : Option (Core × ℤ) :=
  if q.qSpace ≤ q.qDepth + 1 then some (q, 1)
  else
    let wi := q.qWriteInd
    let ri := q.qReadInd
    let nwi := nextInd q.qSpace wi
    if nwi = ri then some (q, 1)
    else if q.qAvailInd = wi then
      some ({ q with
        qWriteInd := nwi, qData := q.fill wi data, qAvailInd := nwi, qDepth := q.qDepth + 1 }, 0)
    -- the spin on the swap of `qAvailInd`
    else none

/-- `xs_queue_pop`, not blocking, with the element it copies to `data`. -/
def pop (q : Core) : Core × ℤ × Option (List UInt8) :=
  if q.qDepth = 0 then (q, -1, none)
  else
    let ri := q.qReadInd
    let rmi := q.qAvailInd
    if ri = rmi then (q, -1, none)
    else ({ q with qReadInd := nextInd q.qSpace ri, qDepth := q.qDepth - 1 }, 0, some (q.slot ri))

end Core

/-- A call. -/
inductive Call
  | push (data : List UInt8)
  | pop

/-- What a call returns : its result, and the element of a pop. -/
abbrev Answer := ℤ × Option (List UInt8)

/-- A call on the ring. -/
def Core.call (q : Core) : Call → Option (Core × Answer)
  | .push data => (q.push data).map fun r => (r.1, r.2, none)
  | .pop => some (q.pop.1, q.pop.2)

/-- Calls one after the other, and what they return. -/
def Core.calls (q : Core) : List Call → Option (Core × List Answer)
  | [] => some (q, [])
  | c :: cs => (q.call c).bind fun r => (r.1.calls cs).map fun r' => (r'.1, r.2 :: r'.2)

/-- A call on a FIFO list of capacity `cap`. -/
def fifoCall (cap : ℕ) (l : List (List UInt8)) : Call → List (List UInt8) × Answer
  | .push data => if l.length < cap then (l ++ [data], 0, none) else (l, 1, none)
  | .pop =>
    match l with
    | [] => ([], -1, none)
    | data :: l => (l, 0, some data)

/-- Calls one after the other on a FIFO list. -/
def fifoCalls (cap : ℕ) (l : List (List UInt8)) : List Call → List (List UInt8) × List Answer
  | [] => (l, [])
  | c :: cs =>
    let r := fifoCall cap l c
    let r' := fifoCalls cap r.1 cs
    (r'.1, r.2 :: r'.2)

/-! ## Slots -/

namespace Core

variable {q : Core} {i j : ℕ} {data : List UInt8}

theorem slot_end_le (hlen : q.qData.length = q.qElemSize * q.qSpace) (hi : i < q.qSpace) :
    i * q.qElemSize + q.qElemSize ≤ q.qData.length := by
  calc i * q.qElemSize + q.qElemSize = (i + 1) * q.qElemSize := (Nat.succ_mul _ _).symm
    _ ≤ q.qSpace * q.qElemSize := Nat.mul_le_mul_right _ hi
    _ = q.qData.length := by rw [hlen, Nat.mul_comm]

theorem length_fill (hlen : q.qData.length = q.qElemSize * q.qSpace) (hi : i < q.qSpace)
    (hdata : data.length = q.qElemSize) : (q.fill i data).length = q.qData.length := by
  have := slot_end_le hlen hi
  simp only [fill, List.length_append, List.length_take, List.length_drop]
  omega

/-- The slot that was filled. -/
theorem slot_fill_self (hlen : q.qData.length = q.qElemSize * q.qSpace) (hi : i < q.qSpace)
    (hdata : data.length = q.qElemSize) :
    ((q.fill i data).drop (i * q.qElemSize)).take q.qElemSize = data := by
  have hend := slot_end_le hlen hi
  have htake : (q.qData.take (i * q.qElemSize)).length = i * q.qElemSize := by
    rw [List.length_take]
    omega
  rw [fill, List.append_assoc, List.drop_left' htake, List.take_left' hdata]

/-- The other slots keep their elements. -/
theorem slot_fill_of_ne (hlen : q.qData.length = q.qElemSize * q.qSpace) (hi : i < q.qSpace)
    (hdata : data.length = q.qElemSize) (hij : i ≠ j) :
    ((q.fill i data).drop (j * q.qElemSize)).take q.qElemSize = q.slot j := by
  have hend := slot_end_le hlen hi
  have htake : (q.qData.take (i * q.qElemSize)).length = i * q.qElemSize := by
    rw [List.length_take]
    omega
  ext1 k
  rw [slot, List.getElem?_take, List.getElem?_take]
  split_ifs with hk
  · rw [List.getElem?_drop, List.getElem?_drop]
    rcases Nat.lt_or_gt_of_ne hij with h | h
    · -- behind slot `i`
      have hle : (i + 1) * q.qElemSize ≤ j * q.qElemSize := Nat.mul_le_mul_right _ h
      rw [Nat.succ_mul] at hle
      rw [fill, List.getElem?_append_right (by simp only [List.length_append, htake]; omega),
        List.getElem?_drop]
      congr 1
      simp only [List.length_append, htake]
      omega
    · -- in front of slot `i`
      have hle : (j + 1) * q.qElemSize ≤ i * q.qElemSize := Nat.mul_le_mul_right _ h
      rw [Nat.succ_mul] at hle
      rw [fill, List.append_assoc, List.getElem?_append_left (by omega),
        List.getElem?_take_of_lt (by omega)]
  · rfl

/-! ## The list in the ring -/

/-- The ring holds the elements `l`, the oldest in slot `qReadInd`. -/
structure Holds (q : Core) (l : List (List UInt8)) : Prop where
  lt : l.length < q.qSpace
  read_lt : q.qReadInd < q.qSpace
  write : q.qWriteInd = (q.qReadInd + l.length) % q.qSpace
  avail : q.qAvailInd = q.qWriteInd
  depth : q.qDepth = l.length
  data_length : q.qData.length = q.qElemSize * q.qSpace
  slots : ∀ k < l.length, l[k]? = some (q.slot ((q.qReadInd + k) % q.qSpace))

theorem create_holds {elemSize qsize : ℕ} {array : List UInt8} (hq : 1 ≤ qsize)
    (harray : array.length = elemSize * qsize) : (create elemSize qsize array).Holds [] where
  lt := hq
  read_lt := hq
  write := (Nat.zero_mod _).symm
  avail := rfl
  depth := rfl
  data_length := harray
  slots k hk := absurd hk (Nat.not_lt_zero k)

variable {l : List (List UInt8)}

/-- The tests of `qDepth` and of the indices for room agree. -/
theorem Holds.nextInd_eq_iff (h : q.Holds l) :
    nextInd q.qSpace q.qWriteInd = q.qReadInd ↔ l.length + 1 = q.qSpace := by
  have hlt := h.lt
  have hread := h.read_lt
  rw [h.write, nextInd_mod (by omega), Nat.add_assoc]
  constructor
  · intro he
    rw [← Nat.mod_eq_of_lt hread, Nat.mod_add_mod] at he
    have := eq_of_mod_eq (q := q.qSpace) he.symm (by omega)
    omega
  · intro he
    rw [he, Nat.add_mod_right, Nat.mod_eq_of_lt hread]

/-- The tests of `qDepth` and of the indices for an element agree. -/
theorem Holds.read_eq_iff (h : q.Holds l) : q.qReadInd = q.qAvailInd ↔ l = [] := by
  have hlt := h.lt
  have hread := h.read_lt
  rw [h.avail, h.write, ← List.length_eq_zero_iff]
  constructor
  · intro he
    have hmod : q.qReadInd % q.qSpace = (q.qReadInd + l.length) % q.qSpace := by
      rw [← he, Nat.mod_eq_of_lt hread]
    have := eq_of_mod_eq hmod (by omega) (by omega)
    omega
  · intro he
    rw [he, Nat.add_zero, Nat.mod_eq_of_lt hread]

/-- A push of a ring with room. -/
theorem Holds.push_room (h : q.Holds l) (hdata : data.length = q.qElemSize)
    (hroom : l.length + 1 < q.qSpace) :
    ∃ q', q.push data = some (q', 0) ∧ q'.Holds (l ++ [data]) ∧ q'.qSpace = q.qSpace ∧
      q'.qElemSize = q.qElemSize := by
  have hread := h.read_lt
  have hwrite : q.qWriteInd < q.qSpace := by
    rw [h.write]
    exact Nat.mod_lt _ (by omega)
  have hdepth : ¬(q.qSpace : ℤ) ≤ q.qDepth + 1 := by
    rw [h.depth]
    omega
  have hnext : ¬nextInd q.qSpace q.qWriteInd = q.qReadInd := by
    rw [h.nextInd_eq_iff]
    omega
  refine ⟨{ q with
      qWriteInd := nextInd q.qSpace q.qWriteInd, qData := q.fill q.qWriteInd data,
      qAvailInd := nextInd q.qSpace q.qWriteInd, qDepth := q.qDepth + 1 }, ?_, ?_, rfl, rfl⟩
  · simp only [push, if_neg hdepth, if_neg hnext, if_pos h.avail]
  · constructor
    · simpa using hroom
    · exact hread
    · rw [h.write, nextInd_mod (by omega), List.length_append, Nat.add_assoc]
      rfl
    · rfl
    · simp [h.depth]
    · exact (length_fill h.data_length hwrite hdata).trans h.data_length
    · intro k hk
      rw [List.length_append, List.length_singleton] at hk
      by_cases hkl : k < l.length
      · have hne : q.qWriteInd ≠ (q.qReadInd + k) % q.qSpace := by
          rw [h.write]
          intro he
          have := eq_of_mod_eq he.symm (by omega) (by omega)
          omega
        rw [List.getElem?_append_left hkl, h.slots k hkl]
        exact congrArg some (slot_fill_of_ne h.data_length hwrite hdata hne).symm
      · obtain rfl : k = l.length := by omega
        rw [List.getElem?_concat_length, ← h.write]
        exact congrArg some (slot_fill_self h.data_length hwrite hdata).symm

theorem push_holds (h : q.Holds l) (hdata : data.length = q.qElemSize) :
    ∃ q', q.push data = some (q', (fifoCall (q.qSpace - 1) l (.push data)).2.1) ∧
      q'.Holds (fifoCall (q.qSpace - 1) l (.push data)).1 ∧
      q'.qSpace = q.qSpace ∧ q'.qElemSize = q.qElemSize := by
  have hlt := h.lt
  by_cases hroom : l.length + 1 < q.qSpace
  · have hcap : l.length < q.qSpace - 1 := by omega
    simp only [fifoCall, if_pos hcap]
    exact h.push_room hdata hroom
  · have hcap : ¬l.length < q.qSpace - 1 := by omega
    have hdepth : (q.qSpace : ℤ) ≤ q.qDepth + 1 := by
      rw [h.depth]
      omega
    refine ⟨q, ?_, ?_, rfl, rfl⟩
    · simp only [push, if_pos hdepth, fifoCall, if_neg hcap]
    · simpa only [fifoCall, if_neg hcap] using h

theorem pop_holds (h : q.Holds l) :
    q.pop.2 = (fifoCall (q.qSpace - 1) l .pop).2 ∧
      q.pop.1.Holds (fifoCall (q.qSpace - 1) l .pop).1 ∧
      q.pop.1.qSpace = q.qSpace ∧ q.pop.1.qElemSize = q.qElemSize := by
  have hlt := h.lt
  have hread := h.read_lt
  cases l with
  | nil =>
    have hdepth : q.qDepth = 0 := by simpa using h.depth
    simp only [pop, if_pos hdepth, fifoCall]
    exact ⟨trivial, h, trivial, trivial⟩
  | cons data l =>
    have hdepth : ¬q.qDepth = 0 := by
      rw [h.depth, List.length_cons]
      omega
    have hne : ¬q.qReadInd = q.qAvailInd := by
      rw [h.read_eq_iff]
      exact List.cons_ne_nil _ _
    have hnext : nextInd q.qSpace q.qReadInd = (q.qReadInd + 1) % q.qSpace := by
      rw [← nextInd_mod (by omega), Nat.mod_eq_of_lt hread]
    have hfirst : data = q.slot q.qReadInd := by
      have := h.slots 0 (by simp)
      rwa [Nat.add_zero, Nat.mod_eq_of_lt hread, List.getElem?_cons_zero, Option.some.injEq] at this
    have hshift : ∀ k, (nextInd q.qSpace q.qReadInd + k) % q.qSpace =
        (q.qReadInd + (k + 1)) % q.qSpace := by
      intro k
      rw [hnext, Nat.mod_add_mod, Nat.add_assoc, Nat.add_comm 1 k]
    simp only [pop, if_neg hdepth, if_neg hne, fifoCall]
    refine ⟨by rw [← hfirst], ?_, trivial, trivial⟩
    constructor
    · simp only [List.length_cons] at hlt
      show l.length < q.qSpace
      omega
    · show nextInd q.qSpace q.qReadInd < q.qSpace
      rw [hnext]
      exact Nat.mod_lt _ (by omega)
    · show q.qWriteInd = (nextInd q.qSpace q.qReadInd + l.length) % q.qSpace
      rw [hshift, h.write]
      rfl
    · exact h.avail
    · simp [h.depth]
    · exact h.data_length
    · intro k hk
      have hcons := h.slots (k + 1) (by simpa using hk)
      rw [List.getElem?_cons_succ] at hcons
      rw [hcons]
      show some (q.slot _) = some (q.slot _)
      rw [hshift]

/-- A call on the ring is the call on the list. -/
theorem Holds.call (h : q.Holds l) (c : Call) (hc : ∀ data, c = .push data →
    data.length = q.qElemSize) :
    ∃ q', q.call c = some (q', (fifoCall (q.qSpace - 1) l c).2) ∧
      q'.Holds (fifoCall (q.qSpace - 1) l c).1 ∧ q'.qSpace = q.qSpace ∧
      q'.qElemSize = q.qElemSize := by
  cases c with
  | push data =>
    obtain ⟨q', hpush, hrest⟩ := push_holds h (hc data rfl)
    refine ⟨q', ?_, hrest⟩
    simp only [Core.call, hpush, Option.map_some, fifoCall]
    split_ifs <;> rfl
  | pop =>
    obtain ⟨hpop, hrest⟩ := pop_holds h
    exact ⟨q.pop.1, by rw [Core.call, hpop], hrest⟩

theorem Holds.calls {cap : ℕ} : ∀ {q : Core} {l : List (List UInt8)}, q.Holds l →
    cap = q.qSpace - 1 → ∀ cs : List Call,
    (∀ data, Call.push data ∈ cs → data.length = q.qElemSize) →
    ∃ q', q.calls cs = some (q', (fifoCalls cap l cs).2) ∧ q'.Holds (fifoCalls cap l cs).1 ∧
      q'.qElemSize = q.qElemSize
  | q, l, h, _, [], _ => ⟨q, rfl, h, rfl⟩
  | q, l, h, hcap, c :: cs, hcs => by
    have hc : ∀ data, c = .push data → data.length = q.qElemSize := by
      rintro data rfl
      exact hcs data List.mem_cons_self
    obtain ⟨q₁, hcall, hholds, hspace, hsize⟩ := h.call c hc
    rw [← hcap] at hcall hholds
    have hcs' : ∀ data, Call.push data ∈ cs → data.length = q₁.qElemSize := by
      intro data hd
      rw [hsize]
      exact hcs data (List.mem_cons_of_mem _ hd)
    obtain ⟨q₂, hcalls, hholds₂, hsize₂⟩ := hholds.calls (hcap.trans (by rw [hspace])) cs hcs'
    refine ⟨q₂, ?_, hholds₂, hsize₂.trans hsize⟩
    simp only [Core.calls, hcall, Option.bind_some, hcalls, Option.map_some, fifoCalls]

/-- `xs_queue_full` tells when the next push fails. -/
theorem Holds.full_iff (h : q.Holds l) (hdata : data.length = q.qElemSize) :
    q.full = true ↔ ∃ q', q.push data = some (q', 1) := by
  have hlt := h.lt
  by_cases hroom : l.length + 1 < q.qSpace
  · obtain ⟨q', hpush, -⟩ := h.push_room hdata hroom
    simp only [full, decide_eq_true_eq, h.depth, hpush, Option.some.injEq, Prod.mk.injEq]
    constructor
    · intro
      omega
    · rintro ⟨_, _, h01⟩
      simp at h01
  · have hdepth : (q.qSpace : ℤ) ≤ q.qDepth + 1 := by
      rw [h.depth]
      omega
    have hpush : q.push data = some (q, 1) := if_pos hdepth
    simp only [full, decide_eq_true_eq, hdepth, hpush, true_iff]
    exact ⟨q, rfl⟩

end Core

/-- The queue of one thread is a FIFO list of capacity `qSpace - 1` : the calls return, what
they return is what the list returns, and in the end `xs_queue_size` is the number of elements
held and `xs_queue_full` tells whether a push would fail. -/
theorem core_refines_fifo (elemSize qsize : ℕ) (hq : 1 ≤ qsize)
    (array : List UInt8) (harray : array.length = elemSize * qsize) (cs : List Call)
    (hcs : ∀ data, Call.push data ∈ cs → data.length = elemSize) :
    ∃ q, (Core.create elemSize qsize array).calls cs =
        some (q, (fifoCalls (qsize - 1) [] cs).2) ∧
      q.size = (fifoCalls (qsize - 1) [] cs).1.length ∧
      ∀ data : List UInt8, data.length = elemSize →
        (q.full = true ↔ ∃ q', q.push data = some (q', 1)) := by
  obtain ⟨q, hcalls, hholds, hsize⟩ := (Core.create_holds hq harray).calls rfl cs hcs
  exact ⟨q, hcalls, hholds.depth, fun data hdata => hholds.full_iff (hdata.trans hsize.symm)⟩

/-- Three pushes and a pop on two slots of one byte. -/
theorem core_refines_fifo_two :
    ∃ q, (Core.create 1 2 [0, 0]).calls [.push [7], .push [8], .pop, .push [9]] =
        some (q, [(0, none), (1, none), (0, some [7]), (0, none)]) ∧ q.size = 1 ∧
      ∀ data : List UInt8, data.length = 1 →
        (q.full = true ↔ ∃ q', q.push data = some (q', 1)) :=
  core_refines_fifo 1 2 (by decide) [0, 0] rfl [.push [7], .push [8], .pop, .push [9]]
    (by simp)

/-! ## A thread that runs alone -/

/-- The ring of the threads holds what the core data hold. -/
structure Core.Shows (q : Core) (r : Ring (List UInt8)) : Prop where
  space : r.qSpace = q.qSpace
  write : r.qWriteInd = q.qWriteInd
  read : r.qReadInd = q.qReadInd
  avail : r.qAvailInd = q.qAvailInd
  depth : r.qDepth = q.qDepth
  slots : ∀ i < q.qSpace, ∀ data, r.qData i = some data → q.slot i = data

variable {ι : Type*} [DecidableEq ι] [Fintype ι]

/-- Steps of the thread `i`, with none of another thread between them. -/
def goOn (i : ι) : ℕ → Shared ι (List UInt8) × Pc (List UInt8) →
    Option (Shared ι (List UInt8) × Pc (List UInt8))
  | 0, c => some c
  | n + 1, c => (step i (.go true) c.1 c.2).bind (goOn i n)

/-- The push of a thread that runs alone, with no workers, is the push on the core data. -/
theorem Core.push_alone (i : ι) {q q' : Core} {s : Shared ι (List UInt8)} {data : List UInt8}
    {code : ℤ} (hs : q.Shows s.ring) (hmax : s.pool.qMaxActive = 0)
    (hlen : q.qData.length = q.qElemSize * q.qSpace) (hdata : data.length = q.qElemSize)
    (hwrite : q.qWriteInd < q.qSpace) (h : q.push data = some (q', code)) :
    ∃ n s', goOn i n (s, .push (.full data false)) = some (s', .idle) ∧ q'.Shows s'.ring ∧
      s'.ring.pushed = s.ring.pushed ++ (if code = 0 then [data] else []) := by
  simp only [Core.push] at h
  split_ifs at h with hdepth hnext havail <;>
    simp only [Option.some.injEq, Prod.mk.injEq] at h <;> obtain ⟨rfl, rfl⟩ := h
  · -- no room by `qDepth`
    exact ⟨1, s, by simp [goOn, step, queuePush, hs.space, hs.depth, hdepth], hs, by simp⟩
  · -- no room by the indices
    refine ⟨3, s, ?_, hs, by simp⟩
    simp [goOn, step, queuePush, hs.space, hs.depth, hdepth, hs.write, hs.read, hnext]
  · refine ⟨9, { s with
        ring.qWriteInd := nextInd q.qSpace q.qWriteInd
        ring.qAvailInd := nextInd q.qSpace q.qWriteInd
        ring.qData := Function.update s.ring.qData q.qWriteInd (some data)
        ring.qDepth := s.ring.qDepth + 1
        ring.pushed := s.ring.pushed ++ [data]
        ring.avail := s.ring.avail + 1
        ring.incs := s.ring.incs + 1
        pool.qAttempt := s.pool.qAttempt + 1 }, ?_, ?_, by simp⟩
    · simp [goOn, step, queuePush, queueKick, hs.space, hs.depth, hdepth, hs.write, hs.read,
        hnext, hs.avail, havail, hmax]
    · refine ⟨hs.space, rfl, hs.read, rfl, congrArg (· + 1) hs.depth, fun k hk d hd => ?_⟩
      by_cases hkw : k = q.qWriteInd
      · obtain rfl : data = d := by simpa [hkw] using hd
        rw [hkw]
        exact slot_fill_self hlen hwrite hdata
      · have hold : s.ring.qData k = some d := by simpa [hkw] using hd
        exact (slot_fill_of_ne hlen hwrite hdata (Ne.symm hkw)).trans (hs.slots k hk d hold)

/-- The pop of a thread that runs alone is the pop on the core data. -/
theorem Core.pop_alone (i : ι) {q : Core} {s : Shared ι (List UInt8)} (hs : q.Shows s.ring) :
    ∃ n s', goOn i n (s, .pop (.thread false) .depth) = some (s', .idle) ∧
      q.pop.1.Shows s'.ring ∧
      s'.ring.popped = s.ring.popped ++
        (if q.pop.2.1 = 0 then [s.ring.qData q.qReadInd] else []) := by
  by_cases hdepth : q.qDepth = 0
  · refine ⟨1, s, ?_, ?_, ?_⟩
    · simp [goOn, step, queuePop, hs.depth, hdepth, Caller.back]
    · simpa only [Core.pop, if_pos hdepth] using hs
    · simp [Core.pop, hdepth]
  · by_cases hempty : q.qReadInd = q.qAvailInd
    · refine ⟨3, s, ?_, ?_, ?_⟩
      · simp [goOn, step, queuePop, hs.depth, hdepth, Caller.back, hs.read, hs.avail, hempty]
      · simpa only [Core.pop, if_neg hdepth, if_pos hempty] using hs
      · simp [Core.pop, hdepth, hempty]
    · refine ⟨6, { s with
          ring.qReadInd := nextInd q.qSpace q.qReadInd
          ring.qDepth := s.ring.qDepth - 1
          ring.popped := s.ring.popped ++ [s.ring.qData q.qReadInd]
          ring.decs := s.ring.decs + 1 }, ?_, ?_, ?_⟩
      · simp [goOn, step, queuePop, hs.depth, hdepth, Caller.back, hs.read, hs.avail, hempty,
          hs.space]
      · simp only [Core.pop, if_neg hdepth, if_neg hempty]
        exact ⟨hs.space, hs.write, rfl, hs.avail, congrArg (· - 1) hs.depth, hs.slots⟩
      · simp [Core.pop, hdepth, hempty]

end Queue

end Webxs
