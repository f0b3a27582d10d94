import Webxs.Arr
import Webxs.Interleaving
import Webxs.Reserving
import Mathlib.Data.List.Perm.Basic

/-!
# The buffer of the log

`xs_log_append` (`xs_logger.h`) reserves room in the buffer of the log under the mutex and copies
its record there afterwards, without the mutex; `memlock` counts the copies that are still to be
made. `xs_log_flush` waits for them before it hands the buffer to the queue of the log and takes
another one. But an append that has to grow the buffer does not wait : the data move to a new
block, and a copy that is still to be made goes to the old one.

So the log is whole in a run in which the buffer grows only while no copy is to be made
(`log_whole`). Every mutex operation, every copy and every access to a counter is a step, and what a
flush does between its spin and its unlock is one, under the mutex. The log is running, the records
are at the level of the file or above, and the queues of full and of recycled buffers are lists; the
log's worker writes a buffer and recycles or frees it in one step. The counter `count` and the echo
are left out.
-/

open Interleaving

namespace Webxs

namespace Log

variable {ι : Type*}

/-! ## The state -/

/-- A block, with its address. -/
structure Block where
  addr : ℕ
  data : List UInt8
  deriving DecidableEq

/-- An `xs_log`, and its history. -/
structure Shared (ι : Type*) where
  /-- The owner of `mutex`. -/
  mutex : Option ι
  memlock : ℤ
  flushlock : ℤ
  /-- The address of the block of `buffered`. -/
  addr : ℕ
  buffered : Arr UInt8
  /-- The address of the next block. -/
  next : ℕ
  q : List Block
  qdel : List Block
  /-- History : what was in the buffers handed to `q`. -/
  handed : List (List UInt8)
  /-- History : the records of the appends, in the order in which they were called. -/
  called : List (List UInt8)
  /-- History : the records for which room was reserved, in this order. -/
  order : List (List UInt8)

/-- Where a thread is in `xs_log_flush`. -/
inductive FlushPc
  | lock
  /-- At the increment of `flushlock`. -/
  | inc
  /-- At the spin on `memlock`. -/
  | spin
  /-- Where the buffer is handed over. -/
  | swap
  | unlock
  /-- At the decrement of `flushlock`. -/
  | dec
  deriving DecidableEq

/-- Where a thread is; `arrp` is the address of a block and an offset. -/
inductive Pc
  | idle
  /-- In `xs_log_append`, at the first lock. -/
  | lock (data : List UInt8)
  /-- At the test of the size. -/
  | test (data : List UInt8)
  /-- At the unlock before the flush. -/
  | unlockFull (data : List UInt8)
  /-- At the lock after the flush. -/
  | relock (data : List UInt8)
  /-- At `xs_arr_add`. -/
  | reserve (data : List UInt8)
  /-- At the increment of `memlock`. -/
  | inc (data : List UInt8) (arrp : ℕ × ℕ)
  | unlock (data : List UInt8) (arrp : ℕ × ℕ)
  /-- At `memcpy`. -/
  | copy (data : List UInt8) (arrp : ℕ × ℕ)
  /-- At the decrement of `memlock`. -/
  | dec
  /-- In `xs_log_flush`, called by an append or not. -/
  | flush (p : FlushPc) (data : Option (List UInt8))
  deriving DecidableEq

/-- What a thread does next. -/
inductive Act
  /-- An idle thread calls `xs_log_append`. -/
  | append (data : List UInt8)
  /-- An idle thread calls `xs_log_flush`. -/
  | flush
  /-- An idle thread handles a buffer of the queue; `full` : there is no room to recycle it. -/
  | process (full : Bool)
  /-- The next step of a call. -/
  | go
  /-- The buffer is handed over; `got` : there is a recycled one. -/
  | swap (got : Bool)
  deriving DecidableEq

/-! ## The steps -/

/-- `xs_arr_add` moves the data of the buffer. -/
def Shared.Grows (s : Shared ι) (n : ℕ) : Prop :=
  s.buffered.aSpace < s.buffered.aCount + n

instance (s : Shared ι) (n : ℕ) : Decidable (s.Grows n) := by
  unfold Shared.Grows
  infer_instance

/-- `xs_arr_add(char, log->buffered, 0, len)`. -/
def Shared.reserve (s : Shared ι) (data : List UInt8) : Shared ι :=
  { s with
    addr := if s.Grows data.length then s.next else s.addr
    next := if s.Grows data.length then s.next + 1 else s.next
    buffered := s.buffered.addRoom data.length
    order := s.order ++ [data] }

/-- `memcpy`; the block that is written may not be the buffer's. -/
def Shared.memcpy (s : Shared ι) (arrp : ℕ × ℕ) (data : List UInt8) : Shared ι :=
  if arrp.1 = s.addr then { s with buffered := s.buffered.store arrp.2 data } else s

/-- A recycled block, in which nothing is in use. -/
def Block.buffer (l : Block) : Arr UInt8 where
  aData := l.data
  aCount := 0
  count_le := Nat.zero_le _

/-- The buffer is handed to the queue, if there is something in it, and replaced. -/
def Shared.swap (s : Shared ι) (got : Bool) : Option (Shared ι) :=
  if s.buffered.aCount = 0 then some s
  else
    let s : Shared ι := { s with
      handed := s.handed ++ [s.buffered.toList], q := s.q ++ [⟨s.addr, s.buffered.aData⟩] }
    match got, s.qdel with
    | false, _ => some { s with addr := 0, buffered := Arr.create }
    | true, l :: qdel =>
      some { s with addr := l.addr, buffered := l.buffer, qdel }
    | true, [] => none

/-- `xs_log_append`, from the first lock on. -/
def logAppend [DecidableEq ι] (i : ι) (s : Shared ι) : Pc → Option (Shared ι × Pc)
  | .lock data =>
    if s.mutex = none then some ({ s with mutex := some i }, .test data) else none
  | .test data =>
    some (s, if 1000000 < s.buffered.aCount then .unlockFull data else .reserve data)
  | .unlockFull data => some ({ s with mutex := none }, .flush .lock (some data))
  | .relock data =>
    if s.mutex = none then some ({ s with mutex := some i }, .reserve data) else none
  | .reserve data =>
    some (s.reserve data, .inc data ((s.reserve data).addr, s.buffered.aCount))
  | .inc data arrp => some ({ s with memlock := s.memlock + 1 }, .unlock data arrp)
  | .unlock data arrp => some ({ s with mutex := none }, .copy data arrp)
  | .copy data arrp => some (s.memcpy arrp data, .dec)
  | .dec => some ({ s with memlock := s.memlock - 1 }, .idle)
  | _ => none

/-- `xs_log_flush`, but for the step in which the buffer is handed over. -/
def logFlush [DecidableEq ι] (i : ι) (s : Shared ι) (data : Option (List UInt8)) :
    FlushPc → Option (Shared ι × Pc)
  | .lock => if s.mutex = none then some ({ s with mutex := some i }, .flush .inc data) else none
  | .inc => some ({ s with flushlock := s.flushlock + 1 }, .flush .spin data)
  | .spin => some (s, .flush (if s.memlock ≠ 0 then .spin else .swap) data)
  | .swap => none
  | .unlock => some ({ s with mutex := none }, .flush .dec data)
  | .dec =>
    some ({ s with flushlock := s.flushlock - 1 }, match data with
      | none => .idle
      | some data => .relock data)

/-- The step `a` of thread `i`, from its place. -/
def step [DecidableEq ι] (i : ι) (a : Act) (s : Shared ι) (p : Pc) : Option (Shared ι × Pc) :=
  match a, p with
  | .append data, .idle =>
    if data = [] then some (s, .idle)
    else some ({ s with called := s.called ++ [data] }, .lock data)
  | .flush, .idle => some (s, .flush .lock none)
  | .process full, .idle =>
    match s.q with
    | [] => none
    | l :: q => some ({ s with q, qdel := if full then s.qdel else s.qdel ++ [l] }, .idle)
  | .swap got, .flush .swap data => (s.swap got).map fun s => (s, .flush .unlock data)
  | .go, .flush p data => logFlush i s data p
  | .go, p => logAppend i s p
  | _, _ => none

/-- The states of the log and its threads. -/
abbrev State (ι : Type*) := Config ι (Shared ι) Pc

/-- One step of the system. -/
def next [DecidableEq ι] : State ι → ι × Act → Option (State ι) :=
  threadNext step

/-- A new log. -/
def init : State ι where
  shared :=
    { mutex := none, memlock := 0, flushlock := 0, addr := 0, buffered := Arr.create, next := 1
      q := [], qdel := [], handed := [], called := [], order := [] }
  pc _ := .idle

/-! ## Places -/

/-- The copy that is still to be made. -/
def Pc.pending : Pc → Option (List UInt8 × ℕ × ℕ)
  | .inc data arrp | .unlock data arrp | .copy data arrp => some (data, arrp)
  | _ => none

/-- The thread owns the mutex. -/
def Pc.Locks : Pc → Prop
  | .test _ | .unlockFull _ | .reserve _ | .inc .. | .unlock .. => True
  | .flush .inc _ | .flush .spin _ | .flush .swap _ | .flush .unlock _ => True
  | _ => False

/-- A copy counted in `memlock`. -/
def Pc.copies : Pc → ℕ
  | .unlock .. | .copy .. | .dec => 1
  | _ => 0

/-- An append of the record that has no room yet. -/
def Pc.waits (r : List UInt8) : Pc → ℕ
  | .lock data | .test data | .unlockFull data | .relock data | .reserve data =>
    if data = r then 1 else 0
  | .flush _ (some data) => if data = r then 1 else 0
  | _ => 0

/-- The thread is in no append. -/
def Pc.Returned : Pc → Prop
  | .idle | .flush _ none => True
  | _ => False

instance (p : Pc) : Decidable p.Returned := by
  unfold Pc.Returned
  split <;> infer_instance

/-- The step does not move the buffer under a copy that is still to be made. -/
def GrowsAlone (c : State ι) (ia : ι × Act) : Prop :=
  match c.pc ia.1 with
  | .reserve data => c.shared.Grows data.length → ∀ j, (c.pc j).pending = none
  | _ => True

instance [Fintype ι] (c : State ι) (ia : ι × Act) : Decidable (GrowsAlone c ia) := by
  unfold GrowsAlone
  split <;> infer_instance

/-! ## What a step does -/

section Step

variable {i : ι} {a : Act} {s s' : Shared ι} {p p' : Pc}

/-- What a step of thread `i` can be. -/
inductive Steps (i : ι) (s : Shared ι) : Pc → Shared ι → Pc → Prop
  | empty : Steps i s .idle s .idle
  | append (data : List UInt8) :
    Steps i s .idle { s with called := s.called ++ [data] } (.lock data)
  | flush : Steps i s .idle s (.flush .lock none)
  | process (q qdel : List Block) : Steps i s .idle { s with q, qdel } .idle
  | lock (data : List UInt8) : s.mutex = none →
      Steps i s (.lock data) { s with mutex := some i } (.test data)
  | full (data : List UInt8) : Steps i s (.test data) s (.unlockFull data)
  | room (data : List UInt8) : Steps i s (.test data) s (.reserve data)
  | unlockFull (data : List UInt8) :
      Steps i s (.unlockFull data) { s with mutex := none } (.flush .lock (some data))
  | relock (data : List UInt8) : s.mutex = none →
      Steps i s (.relock data) { s with mutex := some i } (.reserve data)
  | reserve (data : List UInt8) : Steps i s (.reserve data) (s.reserve data)
      (.inc data ((s.reserve data).addr, s.buffered.aCount))
  | inc (data : List UInt8) (arrp : ℕ × ℕ) :
      Steps i s (.inc data arrp) { s with memlock := s.memlock + 1 } (.unlock data arrp)
  | unlock (data : List UInt8) (arrp : ℕ × ℕ) :
      Steps i s (.unlock data arrp) { s with mutex := none } (.copy data arrp)
  | copy (data : List UInt8) (arrp : ℕ × ℕ) : Steps i s (.copy data arrp) (s.memcpy arrp data) .dec
  | dec : Steps i s .dec { s with memlock := s.memlock - 1 } .idle
  | flushLock (data : Option (List UInt8)) : s.mutex = none →
      Steps i s (.flush .lock data) { s with mutex := some i } (.flush .inc data)
  | flushInc (data : Option (List UInt8)) : Steps i s (.flush .inc data)
      { s with flushlock := s.flushlock + 1 } (.flush .spin data)
  | spin (data : Option (List UInt8)) : Steps i s (.flush .spin data) s (.flush .spin data)
  | spun (data : Option (List UInt8)) : s.memlock = 0 →
      Steps i s (.flush .spin data) s (.flush .swap data)
  | swap {s' : Shared ι} (got : Bool) (data : Option (List UInt8)) : s.swap got = some s' →
      Steps i s (.flush .swap data) s' (.flush .unlock data)
  | flushUnlock (data : Option (List UInt8)) :
      Steps i s (.flush .unlock data) { s with mutex := none } (.flush .dec data)
  | flushed : Steps i s (.flush .dec none) { s with flushlock := s.flushlock - 1 } .idle
  | flushedFull (data : List UInt8) : Steps i s (.flush .dec (some data))
      { s with flushlock := s.flushlock - 1 } (.relock data)

theorem steps_of_logAppend [DecidableEq ι] (h : logAppend i s p = some (s', p')) :
    Steps i s p s' p' := by
  cases p with
  | lock data =>
    simp only [logAppend] at h
    split_ifs at h with hm
    cases h
    exact .lock data hm
  | relock data =>
    simp only [logAppend] at h
    split_ifs at h with hm
    cases h
    exact .relock data hm
  | test data =>
    cases h
    split_ifs
    · exact .full data
    · exact .room data
  | unlockFull data =>
    cases h
    exact .unlockFull data
  | reserve data =>
    cases h
    exact .reserve data
  | inc data arrp =>
    cases h
    exact .inc data arrp
  | unlock data arrp =>
    cases h
    exact .unlock data arrp
  | copy data arrp =>
    cases h
    exact .copy data arrp
  | dec =>
    cases h
    exact .dec
  | idle => cases h
  | flush => cases h

theorem steps_of_logFlush [DecidableEq ι] {data : Option (List UInt8)} {p : FlushPc}
    (h : logFlush i s data p = some (s', p')) : Steps i s (.flush p data) s' p' := by
  cases p with
  | lock =>
    simp only [logFlush] at h
    split_ifs at h with hm
    cases h
    exact .flushLock data hm
  | inc =>
    cases h
    exact .flushInc data
  | spin =>
    cases h
    split_ifs with hm
    · exact .spin data
    · exact .spun data (not_not.mp hm)
  | swap => cases h
  | unlock =>
    cases h
    exact .flushUnlock data
  | dec =>
    cases h
    cases data with
    | none => exact .flushed
    | some data => exact .flushedFull data

theorem steps_of_step [DecidableEq ι] (h : step i a s p = some (s', p')) : Steps i s p s' p' := by
  unfold step at h
  split at h
  · split_ifs at h
    · cases h
      exact .empty
    · cases h
      exact .append _
  · cases h
    exact .flush
  · split at h
    · cases h
    · cases h
      exact .process _ _
  · obtain ⟨t, ht, heq⟩ := Option.map_eq_some_iff.mp h
    cases heq
    exact .swap _ _ ht
  · exact steps_of_logFlush h
  · exact steps_of_logAppend h
  · cases h

theorem frame_swap {got : Bool} (h : s.swap got = some s') : s'.mutex = s.mutex ∧
    s'.memlock = s.memlock ∧ s'.called = s.called ∧ s'.order = s.order := by
  unfold Shared.swap at h
  split_ifs at h
  · cases h
    exact ⟨rfl, rfl, rfl, rfl⟩
  · dsimp only at h
    split at h <;> cases h <;> exact ⟨rfl, rfl, rfl, rfl⟩

theorem frame_memcpy (s : Shared ι) (arrp : ℕ × ℕ) (data : List UInt8) :
    (s.memcpy arrp data).mutex = s.mutex ∧ (s.memcpy arrp data).memlock = s.memlock ∧
      (s.memcpy arrp data).called = s.called ∧ (s.memcpy arrp data).order = s.order := by
  unfold Shared.memcpy
  split_ifs <;> exact ⟨rfl, rfl, rfl, rfl⟩

/-- What a step does to the buffer. -/
inductive Change (s : Shared ι) : Pc → Shared ι → Pc → Prop
  | same {s' : Shared ι} {p p' : Pc} : s'.addr = s.addr → s'.buffered = s.buffered →
      s'.handed = s.handed → s'.order = s.order → p'.pending = p.pending →
      (∀ data, p' = .flush .swap data → p = .flush .spin data ∧ s.memlock = 0) → Change s p s' p'
  | reserve (data : List UInt8) : Change s (.reserve data) (s.reserve data)
      (.inc data ((s.reserve data).addr, s.buffered.aCount))
  | copy (data : List UInt8) (arrp : ℕ × ℕ) :
      Change s (.copy data arrp) (s.memcpy arrp data) .dec
  | swap {s' : Shared ι} (got : Bool) (data : Option (List UInt8)) : s.swap got = some s' →
      Change s (.flush .swap data) s' (.flush .unlock data)

theorem change_of_steps (h : Steps i s p s' p') : Change s p s' p' := by
  cases h with
  | reserve data => exact .reserve data
  | copy data arrp => exact .copy data arrp
  | swap got data hs => exact .swap got data hs
  | spun data h0 =>
    refine .same rfl rfl rfl rfl rfl fun data' hp => ?_
    cases hp
    exact ⟨rfl, h0⟩
  | _ => exact .same rfl rfl rfl rfl rfl fun _ hp => by cases hp

/-- The mutex is with the thread that locks it. -/
theorem locks_step (h : Steps i s p s' p') (hp : p.Locks → s.mutex = some i) :
    (p'.Locks → s'.mutex = some i) ∧ ∀ j, j ≠ i → s.mutex = some j → s'.mutex = some j := by
  -- whoever unlocks is the owner
  have hother : p.Locks → ∀ j, j ≠ i → s.mutex = some j → s'.mutex = some j := by
    intro hl j hj hm
    exact absurd (Option.some.inj ((hp hl).symm.trans hm)).symm hj
  have hfree : s.mutex = none → ∀ j, j ≠ i → s.mutex = some j → s'.mutex = some j := by
    intro hfree j _ hm
    rw [hfree] at hm
    cases hm
  cases h with
  | lock data hm => exact ⟨fun _ => rfl, hfree hm⟩
  | relock data hm => exact ⟨fun _ => rfl, hfree hm⟩
  | flushLock data hm => exact ⟨fun _ => rfl, hfree hm⟩
  | unlockFull data => exact ⟨fun hl => hl.elim, hother trivial⟩
  | unlock data arrp => exact ⟨fun hl => hl.elim, hother trivial⟩
  | flushUnlock data => exact ⟨fun hl => hl.elim, hother trivial⟩
  | swap got data hs =>
    rw [(frame_swap hs).1]
    exact ⟨fun _ => hp trivial, fun _ _ => id⟩
  | copy data arrp =>
    rw [(frame_memcpy s arrp data).1]
    exact ⟨fun hl => hl.elim, fun _ _ => id⟩
  | full | room | reserve | inc | flushInc | spin | spun =>
    exact ⟨fun _ => hp trivial, fun _ _ => id⟩
  | _ => exact ⟨fun hl => hl.elim, fun _ _ => id⟩

/-- `memlock` counts the copies. -/
theorem copies_step (h : Steps i s p s' p') :
    s'.memlock + p.copies = s.memlock + p'.copies := by
  cases h with
  | swap got data hs =>
    rw [(frame_swap hs).2.1]
    rfl
  | copy data arrp =>
    rw [(frame_memcpy s arrp data).2.1]
    rfl
  | inc data arrp => simp [Pc.copies]
  | dec => simp [Pc.copies]
  | _ => rfl

/-- A record that was called and has no room is with an append. -/
theorem waits_step (r : List UInt8) (h : Steps i s p s' p') :
    ((s'.called.count r : ℤ) - s'.order.count r) + p.waits r =
      (s.called.count r - s.order.count r) + p'.waits r := by
  cases h with
  | swap got data hs =>
    rw [(frame_swap hs).2.2.1, (frame_swap hs).2.2.2]
    cases data <;> rfl
  | copy data arrp =>
    rw [(frame_memcpy s arrp data).2.2.1, (frame_memcpy s arrp data).2.2.2]
    rfl
  | reserve data =>
    simp only [Shared.reserve, Pc.waits, List.count_append, List.count_singleton, beq_iff_eq]
    split_ifs <;> push_cast <;> ring
  | append data =>
    simp only [Pc.waits, List.count_append, List.count_singleton, beq_iff_eq]
    split_ifs <;> push_cast <;> ring
  | flushLock data | flushInc data | spin data | spun data | flushUnlock data =>
    cases data <;> rfl
  | _ => rfl

end Step

/-! ## The invariant -/

/-- `data` is still to be copied to the offset `off` of the buffer. -/
def Pend (c : State ι) (off : ℕ) (data : List UInt8) : Prop :=
  ∃ i, (c.pc i).pending = some (data, c.shared.addr, off)

/-- What is kept by the steps of a run. -/
structure Inv (c : State ι) : Prop where
  locks : ∀ i, (c.pc i).Locks → c.shared.mutex = some i
  swap : ∀ i data, c.pc i = .flush .swap data → ∀ j, (c.pc j).pending = none
  addr : ∀ i data arrp, (c.pc i).pending = some (data, arrp) → arrp.1 = c.shared.addr
  /-- What was handed over, and what the buffer will hold, are the records in their order. -/
  filled : ∃ E, c.shared.order.flatten = c.shared.handed.flatten ++ E ∧
    c.shared.buffered.aCount = E.length ∧ Reserved (Pend c) c.shared.buffered.aData E

section Inv

variable [DecidableEq ι] {i : ι} {c : State ι} {s' : Shared ι} {p' : Pc}

theorem pend_update {off : ℕ} {data : List UInt8} :
    Pend ⟨s', Function.update c.pc i p'⟩ off data ↔
      p'.pending = some (data, s'.addr, off) ∨
        ∃ j, j ≠ i ∧ (c.pc j).pending = some (data, s'.addr, off) := by
  unfold Pend
  dsimp only
  constructor
  · rintro ⟨j, hj⟩
    by_cases hji : j = i
    · subst hji
      left
      rwa [Function.update_self] at hj
    · rw [Function.update_of_ne hji] at hj
      exact .inr ⟨j, hji, hj⟩
  · rintro (hp | ⟨j, hji, hj⟩)
    · exact ⟨i, by rwa [Function.update_self]⟩
    · exact ⟨j, by rwa [Function.update_of_ne hji]⟩

theorem Inv.locks_next (hi : Inv c) (h : Steps i c.shared (c.pc i) s' p') (j : ι)
    (hj : (Function.update c.pc i p' j).Locks) : s'.mutex = some j := by
  obtain ⟨hself, hother⟩ := locks_step h (hi.locks i)
  by_cases hji : j = i
  · subst hji
    rw [Function.update_self] at hj
    exact hself hj
  · rw [Function.update_of_ne hji] at hj
    exact hother j hji (hi.locks j hj)

omit [DecidableEq ι] in
/-- With `memlock` 0, and the mutex with a flush, there is no copy to be made. -/
theorem Inv.pending_eq_none [Fintype ι] (hi : Inv c)
    (hmem : c.shared.memlock = tally Pc.copies c.pc) (h0 : c.shared.memlock = 0)
    {data : Option (List UInt8)} (hp : c.pc i = .flush .spin data) (j : ι) :
    (c.pc j).pending = none := by
  have hzero : (c.pc j).copies = 0 := by
    have := le_tally Pc.copies c.pc j
    omega
  cases hj : c.pc j with
  | inc d arrp =>
    have hm := hi.locks i (hp ▸ trivial)
    have hmj := hi.locks j (hj ▸ trivial)
    obtain rfl := Option.some.inj (hm.symm.trans hmj)
    rw [hp] at hj
    cases hj
  | unlock d arrp | copy d arrp =>
    rw [hj] at hzero
    exact absurd hzero one_ne_zero
  | _ => rfl

/-- A step that leaves the buffer, and the copies that are to be made. -/
theorem Inv.same (hi : Inv c) (h : Steps i c.shared (c.pc i) s' p')
    (haddr : s'.addr = c.shared.addr) (hbuf : s'.buffered = c.shared.buffered)
    (hhanded : s'.handed = c.shared.handed) (horder : s'.order = c.shared.order)
    (hpend : p'.pending = (c.pc i).pending)
    (hswap : ∀ data, p' = .flush .swap data → ∀ j, (c.pc j).pending = none) :
    Inv ⟨s', Function.update c.pc i p'⟩ := by
  have hpending : ∀ j, (Function.update c.pc i p' j).pending = (c.pc j).pending := by
    intro j
    by_cases hji : j = i
    · subst hji
      rw [Function.update_self, hpend]
    · rw [Function.update_of_ne hji]
  refine ⟨hi.locks_next h, fun j data hj k => ?_, fun j data arrp hj => ?_, ?_⟩
  · dsimp only at hj ⊢
    rw [hpending]
    by_cases hji : j = i
    · subst hji
      rw [Function.update_self] at hj
      exact hswap data hj k
    · rw [Function.update_of_ne hji] at hj
      exact hi.swap j data hj k
  · dsimp only at hj ⊢
    rw [hpending] at hj
    rw [haddr]
    exact hi.addr j data arrp hj
  · obtain ⟨E, hE, hcount, hres⟩ := hi.filled
    refine ⟨E, ?_, ?_, ?_⟩
    · dsimp only
      rw [horder, hhanded, hE]
    · dsimp only
      rw [hbuf, hcount]
    · dsimp only
      rw [hbuf]
      refine hres.congr fun off data => ?_
      unfold Pend
      dsimp only
      simp only [hpending, haddr]

/-- Room is reserved; if the buffer is moved, there is no other copy to be made. -/
theorem Inv.reserve (hi : Inv c) {data : List UInt8} (hp : c.pc i = .reserve data)
    (halone : c.shared.Grows data.length → ∀ j, (c.pc j).pending = none) :
    Inv ⟨c.shared.reserve data, Function.update c.pc i
      (.inc data ((c.shared.reserve data).addr, c.shared.buffered.aCount))⟩ := by
  have hsteps := Steps.reserve (i := i) (s := c.shared) data
  rw [← hp] at hsteps
  have hnone : (c.pc i).pending = none := by rw [hp]; rfl
  -- the copies that are to be made go to the buffer, before and after
  have haddr : ∀ j d arrp, (c.pc j).pending = some (d, arrp) →
      (c.shared.reserve data).addr = c.shared.addr := by
    intro j d arrp hj
    refine if_neg fun hgrows => ?_
    rw [halone hgrows j] at hj
    cases hj
  refine ⟨hi.locks_next hsteps, fun j d hj => ?_, fun j d arrp hj => ?_, ?_⟩
  · dsimp only at hj
    have hji : j ≠ i := by
      rintro rfl
      rw [Function.update_self] at hj
      cases hj
    rw [Function.update_of_ne hji] at hj
    -- both would own the mutex
    have hm := hi.locks i (hp ▸ trivial)
    have hmj := hi.locks j (hj ▸ trivial)
    exact absurd (Option.some.inj (hmj.symm.trans hm)) hji
  · dsimp only at hj ⊢
    by_cases hji : j = i
    · subst hji
      rw [Function.update_self] at hj
      cases hj
      rfl
    · rw [Function.update_of_ne hji] at hj
      rw [haddr j d arrp hj]
      exact hi.addr j d arrp hj
  · obtain ⟨E, hE, hcount, hres⟩ := hi.filled
    refine ⟨E ++ data, ?_, ?_, ?_⟩
    · simp only [Shared.reserve, List.flatten_append, List.flatten_cons, List.flatten_nil,
        List.append_nil, hE, List.append_assoc]
    · simp only [Shared.reserve, Arr.addRoom, List.length_append, hcount]
    · refine hres.reserve ?_ (fun k hk => ?_) fun off d => ?_
      · have := c.shared.buffered.le_aSpace_addSpace data.length
        rw [← hcount]
        exact this
      · exact c.shared.buffered.getElem?_addSpace data.length (by omega)
      · rw [pend_update]
        constructor
        · rintro (hself | ⟨j, hji, hj⟩)
          · cases hself
            exact .inr ⟨hcount, rfl⟩
          · rw [haddr j _ _ hj] at hj
            exact .inl ⟨j, hj⟩
        · rintro (⟨j, hj⟩ | ⟨rfl, rfl⟩)
          · right
            refine ⟨j, ?_, by rwa [haddr j _ _ hj]⟩
            rintro rfl
            rw [hnone] at hj
            cases hj
          · left
            rw [← hcount]
            rfl

/-- A copy is made. -/
theorem Inv.copy (hi : Inv c) {data : List UInt8} {arrp : ℕ × ℕ} (hp : c.pc i = .copy data arrp) :
    Inv ⟨c.shared.memcpy arrp data, Function.update c.pc i .dec⟩ := by
  have hsteps := Steps.copy (i := i) (s := c.shared) data arrp
  rw [← hp] at hsteps
  have hpend : (c.pc i).pending = some (data, arrp) := by rw [hp]; rfl
  have haddr := hi.addr i data arrp hpend
  have hmem : c.shared.memcpy arrp data =
      { c.shared with buffered := c.shared.buffered.store arrp.2 data } := if_pos haddr
  refine ⟨hi.locks_next hsteps, fun j d hj k => ?_, fun j d arrp' hj => ?_, ?_⟩
  · dsimp only at hj
    have hji : j ≠ i := by
      rintro rfl
      rw [Function.update_self] at hj
      cases hj
    rw [Function.update_of_ne hji] at hj
    rw [hi.swap j d hj i] at hpend
    cases hpend
  · dsimp only at hj ⊢
    have hji : j ≠ i := by
      rintro rfl
      rw [Function.update_self] at hj
      cases hj
    rw [Function.update_of_ne hji] at hj
    rw [hmem]
    exact hi.addr j d arrp' hj
  · obtain ⟨E, hE, hcount, hres⟩ := hi.filled
    rw [hmem]
    refine ⟨E, hE, hcount, ?_⟩
    refine hres.fill ⟨i, by rw [hpend, ← haddr]⟩ (fun off d => ?_) fun off d => ?_
    · rw [pend_update]
      rintro (hself | ⟨j, -, hj⟩)
      · cases hself
      · exact ⟨j, hj⟩
    · rintro ⟨j, hj⟩
      rw [pend_update]
      by_cases hji : j = i
      · subst hji
        rw [hpend] at hj
        cases hj
        exact .inr ⟨rfl, rfl⟩
      · exact .inl (.inr ⟨j, hji, hj⟩)

/-- The buffer is handed over, when there is no copy to be made. -/
theorem Inv.handOver (hi : Inv c) {data : Option (List UInt8)} {got : Bool}
    (hp : c.pc i = .flush .swap data) (hs : c.shared.swap got = some s') :
    Inv ⟨s', Function.update c.pc i (.flush .unlock data)⟩ := by
  have hsteps := Steps.swap (i := i) got data hs
  rw [← hp] at hsteps
  have hnone := hi.swap i data hp
  by_cases h0 : c.shared.buffered.aCount = 0
  · have : c.shared = s' := by
      rw [Shared.swap, if_pos h0] at hs
      exact Option.some.inj hs
    subst this
    exact hi.same hsteps rfl rfl rfl rfl (by rw [hp]; rfl) fun _ h => by cases h
  have hpending : ∀ j, (Function.update c.pc i (.flush .unlock data) j).pending = none := by
    intro j
    by_cases hji : j = i
    · subst hji
      rw [Function.update_self]
      rfl
    · rw [Function.update_of_ne hji]
      exact hnone j
  refine ⟨hi.locks_next hsteps, fun _ _ _ j => hpending j, fun j d arrp hj => ?_, ?_⟩
  · dsimp only at hj
    rw [hpending j] at hj
    cases hj
  · obtain ⟨E, hE, hcount, hres⟩ := hi.filled
    have hlist : c.shared.buffered.toList = E := by
      rw [Arr.toList, hcount]
      refine hres.take_eq fun off d => ?_
      rintro ⟨j, hj⟩
      rw [hnone j] at hj
      cases hj
    have hempty : s'.handed = c.shared.handed ++ [E] ∧ s'.order = c.shared.order ∧
        s'.buffered.aCount = 0 := by
      rw [Shared.swap, if_neg h0] at hs
      dsimp only at hs
      rw [hlist] at hs
      split at hs <;> cases hs <;> exact ⟨rfl, rfl, rfl⟩
    refine ⟨[], ?_, hempty.2.2, (Reserved.nil _).congr fun off d => ?_⟩
    · dsimp only
      rw [hempty.1, hempty.2.1, hE, List.flatten_append]
      simp
    · refine iff_false_intro ?_
      rintro ⟨j, hj⟩
      dsimp only at hj
      rw [hpending j] at hj
      cases hj

/-- One step. -/
theorem Inv.next [Fintype ι] (hi : Inv c) (hmem : c.shared.memlock = tally Pc.copies c.pc)
    {ia : ι × Act} {c' : State ι} (hok : GrowsAlone c ia) (hn : next c ia = some c') : Inv c' := by
  obtain ⟨i, a⟩ := ia
  obtain ⟨s', p', hl, rfl⟩ := threadNext_eq_some hn
  have hsteps := steps_of_step hl
  unfold GrowsAlone at hok
  dsimp only at hok
  generalize hp : c.pc i = p at hok
  have hchange := change_of_steps hsteps
  rw [hp] at hchange
  cases hchange with
  | reserve data => exact hi.reserve hp hok
  | copy data arrp => exact hi.copy hp
  | swap got data hs => exact hi.handOver hp hs
  | same haddr hbuf hhanded horder hpend hswap =>
    refine hi.same hsteps haddr hbuf hhanded horder (hp ▸ hpend) fun data hp' => ?_
    obtain ⟨hspin, h0⟩ := hswap data hp'
    exact hi.pending_eq_none hmem h0 (hp.trans hspin)

end Inv

section Runs

variable [DecidableEq ι] [Fintype ι] {c : State ι}

theorem memlock_eq_tally (h : Runs next GrowsAlone init c) :
    c.shared.memlock = tally Pc.copies c.pc :=
  h.counter_eq_tally (fun s => s.memlock) _ (by simp [init, tally, Pc.copies])
    fun _ _ _ _ _ _ hl => copies_step (steps_of_step hl)

theorem waits_eq_tally (r : List UInt8) (h : Runs next GrowsAlone init c) :
    (c.shared.called.count r : ℤ) - c.shared.order.count r = tally (Pc.waits r) c.pc :=
  h.counter_eq_tally (fun s => (s.called.count r : ℤ) - s.order.count r) _
    (by simp [init, tally, Pc.waits]) fun _ _ _ _ _ _ hl => waits_step r (steps_of_step hl)

theorem inv_of_runs (h : Runs next GrowsAlone init c) : Inv c := by
  induction h with
  | start =>
    refine ⟨fun _ hl => hl.elim, ?_, ?_, [], rfl, rfl, (Reserved.nil _).congr fun off d => ?_⟩
    · intro i data hp
      cases hp
    · intro i data arrp hp
      cases hp
    · refine iff_false_intro ?_
      rintro ⟨i, hi⟩
      cases hi
  | step ia hr hok hn ih => exact ih.next (memlock_eq_tally hr) hok hn

omit [DecidableEq ι] [Fintype ι] in
/-- A thread that is in no append has no copy to make, and no record that waits. -/
theorem Pc.Returned.frame {p : Pc} (h : p.Returned) : p.pending = none ∧ ∀ r, p.waits r = 0 := by
  cases p with
  | idle => exact ⟨rfl, fun _ => rfl⟩
  | flush p data =>
    cases data with
    | none => exact ⟨rfl, fun _ => rfl⟩
    | some data => exact h.elim
  | _ => exact h.elim

/-- When no thread is in an append, what was handed over and what is in the buffer are the records,
one behind another in the order in which room was reserved, and these are the records of the
calls. -/
theorem log_whole (c : State ι) (h : Runs next GrowsAlone init c)
    (hret : ∀ i, (c.pc i).Returned) :
    c.shared.handed.flatten ++ c.shared.buffered.toList = c.shared.order.flatten ∧
      c.shared.order.Perm c.shared.called := by
  obtain ⟨E, hE, hcount, hres⟩ := (inv_of_runs h).filled
  have hlist : c.shared.buffered.toList = E := by
    rw [Arr.toList, hcount]
    refine hres.take_eq fun off d => ?_
    rintro ⟨i, hi⟩
    rw [(hret i).frame.1] at hi
    cases hi
  refine ⟨by rw [hlist, hE], List.perm_iff_count.mpr fun r => ?_⟩
  have hwaits := waits_eq_tally r h
  rw [tally_eq_zero fun i => (hret i).frame.2 r] at hwaits
  omega

end Runs

/-- One append. -/
theorem log_whole_one : ∃ c : State (Fin 2), c.shared.called = [[97]] ∧
    c.shared.handed.flatten ++ c.shared.buffered.toList = c.shared.order.flatten ∧
      c.shared.order.Perm c.shared.called := by
  obtain ⟨c, hc, hret, hcalled⟩ : ∃ c : State (Fin 2), Runs next GrowsAlone init c ∧
      (∀ i, (c.pc i).Returned) ∧ c.shared.called = [[97]] :=
    exists_runs_of_runSchedule ((0, .append [97]) :: List.replicate 7 (0, .go)) (by decide)
  exact ⟨c, hcalled, log_whole c hc hret⟩

/-- The second append grows the buffer while the first one has not made its copy. -/
theorem not_log_whole : ∃ c : State (Fin 2), Reachable next init c ∧ (∀ i, (c.pc i).Returned) ∧
    c.shared.handed.flatten ++ c.shared.buffered.toList ≠ c.shared.order.flatten :=
  exists_runs_of_runSchedule
    ((0, .append [97]) :: List.replicate 5 (0, .go) ++
      (1, .append [98]) :: List.replicate 5 (1, .go) ++ [(0, .go), (0, .go), (1, .go), (1, .go)])
    (by decide)

end Log

end Webxs
