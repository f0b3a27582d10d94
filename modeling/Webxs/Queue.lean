import Webxs.Interleaving

/-!
# The worker queue

`xs_queue` (`xs_queue.h`) is a ring of `qSpace` slots that any number of threads push to and
pop from, and a pool of worker threads that pop. A push reserves a slot by a swap of
`qWriteInd`, copies its element, publishes the slot by a swap of `qAvailInd` once all earlier
slots are published, counts it in `qDepth`, and then creates a worker, wakes one, or does
neither (`xs_queue_push`). A pop copies the oldest published slot and then claims it by a swap
of `qReadInd` (`xs_queue_pop`). A worker pops and runs until `qDepth` is 0, and then pauses on
the condition `mReady` (`xs_queue_exec`, `xs_queue_pause`).

The model has every access to one of these fields, every slot copy, every mutex operation and
every wait and signal as a step of its own, in the order in which the operands of the source
stand. The queue is running : `qIsRunning` is 1. Counters that no decision reads
(`qReadLock`, `qSleepCount`, `qWakeCount`, `qOneCount`, `qWaitExecCount`, `qRealSleeping`)
are left out. The ring also keeps its history, which the code does not : the elements in the
order their slots were reserved, and the results of the pops.
-/

open Interleaving

namespace Webxs

namespace Queue

variable {ι α : Type*}

/-! ## The state -/

/-- The ring of `xs_queue`, and its history. -/
structure Ring (α : Type*) where
  qSpace : ℕ
  qWriteInd : ℕ
  qReadInd : ℕ
  qAvailInd : ℕ
  qDepth : ℤ
  /-- The slots; `none` was never written. -/
  qData : ℕ → Option α
  /-- History : the elements pushed, in the order of the swaps of `qWriteInd`. -/
  pushed : List α
  /-- History : how many of them were published by a swap of `qAvailInd`. -/
  avail : ℕ
  /-- History : what the pops returned, in the order of the swaps of `qReadInd`. -/
  popped : List (Option α)
  /-- History : the increments of `qDepth`. -/
  incs : ℕ
  /-- History : the decrements of `qDepth`. -/
  decs : ℕ

/-- The counters, the mutex and the condition of the worker pool. -/
structure Pool (ι : Type*) where
  qMaxActive : ℤ
  qCreated : ℤ
  qActive : ℤ
  qInactive : ℤ
  qWorking : ℤ
  qProcessed : ℤ
  qAttempt : ℤ
  /-- The owner of `mMutex`. -/
  mMutex : Option ι
  /-- Who is blocked in `pthread_cond_wait`. -/
  asleep : ι → Bool
  /-- Workers created and not started. -/
  starting : ℕ

/-- What the threads share. -/
structure Shared (ι α : Type*) where
  ring : Ring α
  pool : Pool ι

/-- Where a thread is in `xs_queue_push`, up to the increment of `qDepth`. -/
inductive PushPc (α : Type*)
  /-- Blocking, at the increment of `qAttempt`. -/
  | attempt (x : α)
  /-- At the test of `qDepth` for room. -/
  | full (x : α) (blocking : Bool)
  /-- At the spin on `qDepth`. -/
  | spin (x : α)
  /-- At the read of `qWriteInd`. -/
  | write (x : α) (blocking : Bool)
  /-- At the read of `qReadInd`. -/
  | read (x : α) (blocking : Bool) (wi : ℕ)
  /-- At the swap of `qWriteInd`. -/
  | swap (x : α) (blocking : Bool) (wi nwi : ℕ)
  /-- Not blocking, at the increment of `qAttempt`; `t` is the place of `x` in the history. -/
  | count (x : α) (wi nwi t : ℕ)
  /-- At the copy into the slot. -/
  | copy (x : α) (wi nwi t : ℕ)
  /-- At the swap of `qAvailInd`. -/
  | publish (x : α) (wi nwi t : ℕ)
  /-- At the increment of `qDepth`. -/
  | depth
  deriving DecidableEq

/-- Where a thread is at the end of `xs_queue_push` and in `xs_queue_resume`; the operands
read so far are kept. -/
inductive KickPc
  /-- At `qMaxActive`. -/
  | max
  /-- At `qInactive==0`. -/
  | inactive
  /-- At `qWorking` of `qWorking==qActive`. -/
  | working
  /-- At `qActive` of `qWorking==qActive`. -/
  | active (working : ℤ)
  /-- At `qCreated<qMaxActive`. -/
  | created
  /-- At `qCreated` of `qCreated==qActive`. -/
  | createdActive
  /-- At `qActive` of `qCreated==qActive`. -/
  | activeCreated (created : ℤ)
  /-- At `pthread_create_detached`. -/
  | create
  /-- At `qInactive` of `qInactive+1>=qActive`. -/
  | restInactive
  /-- At `qActive` of `qInactive+1>=qActive`. -/
  | restActive (inactive : ℤ)
  /-- At `qDepth` of `qDepth+qWorking>qActive-qInactive`. -/
  | busyDepth
  /-- At `qWorking` of `qDepth+qWorking>qActive-qInactive`. -/
  | busyWorking (depth : ℤ)
  /-- At `qActive` of `qDepth+qWorking>qActive-qInactive`. -/
  | busyActive (load : ℤ)
  /-- At `qInactive` of `qDepth+qWorking>qActive-qInactive`. -/
  | busyInactive (load active : ℤ)
  /-- In `xs_queue_resume`, at `qInactive==0`. -/
  | resumeTest
  /-- In `xs_queue_resume`, at the lock of `mMutex`. -/
  | resumeLock
  /-- In `xs_queue_resume`, at the signal. -/
  | resumeSignal
  /-- In `xs_queue_resume`, at the unlock of `mMutex`. -/
  | resumeUnlock
  deriving DecidableEq

/-- Who called `xs_queue_pop`. -/
inductive Caller
  | thread (blocking : Bool)
  /-- `xs_queue_exec`, which does not block. -/
  | worker
  deriving DecidableEq

/-- Where a thread is in `xs_queue_pop`; `v` is how many pops there were at the read of
`qReadInd`. -/
inductive PopPc (α : Type*)
  /-- At the test of `qDepth`. -/
  | depth
  /-- At the read of `qReadInd`. -/
  | read
  /-- At the read of `qAvailInd`. -/
  | avail (ri v : ℕ)
  /-- At the copy out of the slot. -/
  | copy (ri v : ℕ)
  /-- At the swap of `qReadInd`. -/
  | swap (ri v : ℕ) (d : Option α)
  /-- At the decrement of `qDepth`. -/
  | count (d : Option α)
  deriving DecidableEq

/-- Where a worker is in `xs_queue_exec`, outside `xs_queue_pop` and `xs_queue_pause`. -/
inductive ExecPc
  /-- At the increment of `qActive`. -/
  | start
  /-- At the test of `qDepth`. -/
  | depth
  /-- At the increment of `qWorking`. -/
  | working
  /-- At the increment of `qProcessed`, after `qProc`. -/
  | processed
  /-- At the decrement of `qWorking`. -/
  | done
  deriving DecidableEq

/-- Where a worker is in `xs_queue_pause`; the operands read so far are kept. -/
inductive PausePc
  /-- At the lock of `mMutex`. -/
  | lock
  /-- At the increment of `qInactive`. -/
  | enter
  /-- At `qActive` of `qActive-qInactive-qWorking>qDepth`. -/
  | active
  /-- At `qInactive` of `qActive-qInactive-qWorking>qDepth`. -/
  | inactive (active : ℤ)
  /-- At `qWorking` of `qActive-qInactive-qWorking>qDepth`. -/
  | working (idle : ℤ)
  /-- At `qDepth` of `qActive-qInactive-qWorking>qDepth`. -/
  | depth (idle : ℤ)
  /-- At `qDepth==0`. -/
  | empty
  /-- At `qProcessed>=qAttempt`, of which C leaves open what is read first. -/
  | compare
  /-- At `qAttempt` of `qProcessed>=qAttempt`. -/
  | attempt (processed : ℤ)
  /-- At `qProcessed` of `qProcessed>=qAttempt`. -/
  | processed (attempt : ℤ)
  /-- At `pthread_cond_wait`. -/
  | sleep
  /-- In `pthread_cond_wait`, without the mutex. -/
  | waiting
  /-- At the decrement of `qInactive`. -/
  | leave
  /-- At the unlock of `mMutex`. -/
  | unlock
  deriving DecidableEq

/-- Where a thread is. -/
inductive Pc (α : Type*)
  /-- In no call. -/
  | idle
  | push (p : PushPc α)
  | kick (k : KickPc)
  | pop (who : Caller) (p : PopPc α)
  | exec (e : ExecPc)
  | pause (q : PausePc)
  deriving DecidableEq

/-- What a thread does next. -/
inductive Act (ι α : Type*)
  /-- An idle thread calls `xs_queue_push`. -/
  | push (x : α) (blocking : Bool)
  /-- An idle thread calls `xs_queue_pop`. -/
  | pop (blocking : Bool)
  /-- A created worker starts `xs_queue_exec`. -/
  | start
  /-- The next step of a call; `first` settles which operand of `qProcessed>=qAttempt` is
  read first. -/
  | go (first : Bool)
  /-- `pthread_cond_signal`, with the waiters it wakes. -/
  | signal (woken : ι → Bool)
  /-- `pthread_cond_wait` returns with no signal. -/
  | spurious

/-! ## The steps -/

/-- The slot after `i`. -/
def nextInd (qSpace i : ℕ) : ℕ :=
  if i + 1 = qSpace then 0 else i + 1

/-- `xs_queue_push`, up to the increment of `qDepth`. -/
def queuePush (s : Shared ι α) : PushPc α → Shared ι α × Pc α
  | .attempt x => ({ s with pool.qAttempt := s.pool.qAttempt + 1 }, .push (.full x true))
  | .full x blocking =>
    if s.ring.qSpace ≤ s.ring.qDepth + 1 then
      (s, if blocking then .push (.spin x) else .idle)
    else (s, .push (.write x blocking))
  | .spin x =>
    (s, if s.ring.qSpace ≤ s.ring.qDepth + 1 then .push (.spin x) else .push (.write x true))
  | .write x blocking => (s, .push (.read x blocking s.ring.qWriteInd))
  | .read x blocking wi =>
    let nwi := nextInd s.ring.qSpace wi
    -- with no room, `continue` goes to the test of the loop, which is the swap
    (s, if nwi = s.ring.qReadInd ∧ blocking = false then .idle else .push (.swap x blocking wi nwi))
  | .swap x blocking wi nwi =>
    if s.ring.qWriteInd = wi then
      ({ s with ring.qWriteInd := nwi, ring.pushed := s.ring.pushed ++ [x] },
        .push (if blocking then .copy x wi nwi s.ring.pushed.length
          else .count x wi nwi s.ring.pushed.length))
    else (s, .push (.write x blocking))
  | .count x wi nwi t =>
    ({ s with pool.qAttempt := s.pool.qAttempt + 1 }, .push (.copy x wi nwi t))
  | .copy x wi nwi t =>
    ({ s with ring.qData := Function.update s.ring.qData wi (some x) }, .push (.publish x wi nwi t))
  | .publish x wi nwi t =>
    if s.ring.qAvailInd = wi then
      ({ s with ring.qAvailInd := nwi, ring.avail := s.ring.avail + 1 }, .push .depth)
    else (s, .push (.publish x wi nwi t))
  | .depth =>
    ({ s with ring.qDepth := s.ring.qDepth + 1, ring.incs := s.ring.incs + 1 }, .kick .max)

/-- The end of `xs_queue_push`, and `xs_queue_resume`. -/
def queueKick [DecidableEq ι] (i : ι) (s : Shared ι α) : KickPc → Option (Shared ι α × Pc α)
  | .max => some (s, if s.pool.qMaxActive = 0 then .idle else .kick .inactive)
  | .inactive => some (s, .kick (if s.pool.qInactive = 0 then .working else .restInactive))
  | .working => some (s, .kick (.active s.pool.qWorking))
  | .active working =>
    some (s, .kick (if working = s.pool.qActive then .created else .restInactive))
  | .created =>
    some (s, .kick (if s.pool.qCreated < s.pool.qMaxActive then .createdActive else .restInactive))
  | .createdActive => some (s, .kick (.activeCreated s.pool.qCreated))
  | .activeCreated created =>
    some (s, .kick (if created = s.pool.qActive then .create else .restInactive))
  | .create => some ({ s with pool.starting := s.pool.starting + 1 }, .idle)
  | .restInactive => some (s, .kick (.restActive s.pool.qInactive))
  | .restActive inactive =>
    some (s, .kick (if s.pool.qActive ≤ inactive + 1 then .resumeTest else .busyDepth))
  | .busyDepth => some (s, .kick (.busyWorking s.ring.qDepth))
  | .busyWorking depth => some (s, .kick (.busyActive (depth + s.pool.qWorking)))
  | .busyActive load => some (s, .kick (.busyInactive load s.pool.qActive))
  | .busyInactive load active =>
    some (s, if active - s.pool.qInactive < load then .kick .resumeTest else .idle)
  | .resumeTest => some (s, if s.pool.qInactive = 0 then .idle else .kick .resumeLock)
  | .resumeLock =>
    if s.pool.mMutex = none then some ({ s with pool.mMutex := some i }, .kick .resumeSignal)
    else none
  | .resumeSignal => none
  | .resumeUnlock => some ({ s with pool.mMutex := none }, .idle)

/-- Where a thread is after `xs_queue_pop` returned. -/
def Caller.back : Caller → Option (Option α) → Pc α
  | .thread _, _ => .idle
  | .worker, some _ => .exec .working
  | .worker, none => .exec .depth

/-- A pop that lost the swap tries again if it is blocking. -/
def Caller.blocking : Caller → Bool
  | .thread blocking => blocking
  | .worker => false

/-- `xs_queue_pop`. -/
def queuePop (who : Caller) (r : Ring α) : PopPc α → Ring α × Pc α
  | .depth => (r, if r.qDepth = 0 then who.back none else .pop who .read)
  | .read => (r, .pop who (.avail r.qReadInd r.popped.length))
  | .avail ri v => (r, if ri = r.qAvailInd then who.back none else .pop who (.copy ri v))
  | .copy ri v => (r, .pop who (.swap ri v (r.qData ri)))
  | .swap ri _ d =>
    if r.qReadInd = ri then
      ({ r with qReadInd := nextInd r.qSpace ri, popped := r.popped ++ [d] }, .pop who (.count d))
    else (r, if who.blocking then .pop who .read else who.back none)
  | .count d => ({ r with qDepth := r.qDepth - 1, decs := r.decs + 1 }, who.back (some d))

/-- `xs_queue_exec`. -/
def queueExec (s : Shared ι α) : ExecPc → Shared ι α × Pc α
  | .start => ({ s with pool.qActive := s.pool.qActive + 1 }, .exec .depth)
  | .depth => (s, if s.ring.qDepth = 0 then .pause .lock else .pop .worker .depth)
  | .working => ({ s with pool.qWorking := s.pool.qWorking + 1 }, .exec .processed)
  | .processed => ({ s with pool.qProcessed := s.pool.qProcessed + 1 }, .exec .done)
  | .done => ({ s with pool.qWorking := s.pool.qWorking - 1 }, .exec .depth)

/-- `xs_queue_pause`. -/
def queuePause [DecidableEq ι] (i : ι) (first : Bool) (s : Shared ι α) :
    PausePc → Option (Shared ι α × Pc α)
  | .lock =>
    if s.pool.mMutex = none then some ({ s with pool.mMutex := some i }, .pause .enter) else none
  | .enter => some ({ s with pool.qInactive := s.pool.qInactive + 1 }, .pause .active)
  | .active => some (s, .pause (.inactive s.pool.qActive))
  | .inactive active => some (s, .pause (.working (active - s.pool.qInactive)))
  | .working idle => some (s, .pause (.depth (idle - s.pool.qWorking)))
  | .depth idle => some (s, .pause (if s.ring.qDepth < idle then .compare else .empty))
  | .empty => some (s, .pause (if s.ring.qDepth = 0 then .compare else .leave))
  | .compare =>
    some (s, .pause (if first then .attempt s.pool.qProcessed else .processed s.pool.qAttempt))
  | .attempt processed =>
    some (s, .pause (if s.pool.qAttempt ≤ processed then .sleep else .leave))
  | .processed attempt =>
    some (s, .pause (if attempt ≤ s.pool.qProcessed then .sleep else .leave))
  | .sleep =>
    some ({ s with pool.mMutex := none, pool.asleep := Function.update s.pool.asleep i true },
      .pause .waiting)
  | .waiting =>
    -- woken, the wait takes the mutex again before it returns
    if s.pool.asleep i = false ∧ s.pool.mMutex = none then
      some ({ s with pool.mMutex := some i }, .pause .leave)
    else none
  | .leave => some ({ s with pool.qInactive := s.pool.qInactive - 1 }, .pause .unlock)
  | .unlock => some ({ s with pool.mMutex := none }, .exec .depth)

/-- `pthread_cond_signal` wakes at least one of the threads that wait, if there are any. -/
def Wakes (asleep woken : ι → Bool) : Prop :=
  (∃ j, asleep j = true) → ∃ j, asleep j = true ∧ woken j = true

instance [Fintype ι] (asleep woken : ι → Bool) : Decidable (Wakes asleep woken) := by
  unfold Wakes
  infer_instance

variable [DecidableEq ι] [Fintype ι]

/-- The step `a` of thread `i`, from its place. -/
def step (i : ι) (a : Act ι α) (s : Shared ι α) : Pc α → Option (Shared ι α × Pc α)
  | .idle =>
    match a with
    | .push x true => some (s, .push (.attempt x))
    | .push x false => some (s, .push (.full x false))
    | .pop blocking => some (s, .pop (.thread blocking) .depth)
    | .start =>
      if s.pool.starting = 0 then none
      else some ({ s with pool.starting := s.pool.starting - 1 }, .exec .start)
    | _ => none
  | .push p =>
    match a with
    | .go _ => some (queuePush s p)
    | _ => none
  | .kick k =>
    match a, k with
    | .go _, k => queueKick i s k
    | .signal woken, .resumeSignal =>
      if Wakes s.pool.asleep woken then
        some ({ s with pool.asleep := fun j => s.pool.asleep j && !woken j }, .kick .resumeUnlock)
      else none
    | _, _ => none
  | .pop who p =>
    match a with
    | .go _ => some ({ s with ring := (queuePop who s.ring p).1 }, (queuePop who s.ring p).2)
    | _ => none
  | .exec e =>
    match a with
    | .go _ => some (queueExec s e)
    | _ => none
  | .pause q =>
    match a, q with
    | .go first, q => queuePause i first s q
    | .spurious, .waiting =>
      some ({ s with pool.asleep := Function.update s.pool.asleep i false }, .pause .waiting)
    | _, _ => none

/-- What a step of a thread can be. -/
inductive Steps (i : ι) (s : Shared ι α) : Act ι α → Pc α → Shared ι α → Pc α → Prop
  | callBlocking (x : α) : Steps i s (.push x true) .idle s (.push (.attempt x))
  | call (x : α) : Steps i s (.push x false) .idle s (.push (.full x false))
  | callPop (blocking : Bool) :
      Steps i s (.pop blocking) .idle s (.pop (.thread blocking) .depth)
  | start : s.pool.starting ≠ 0 → Steps i s .start .idle
      { s with pool.starting := s.pool.starting - 1 } (.exec .start)
  | push (first : Bool) (p : PushPc α) :
      Steps i s (.go first) (.push p) (queuePush s p).1 (queuePush s p).2
  | kick (first : Bool) {k : KickPc} {s' : Shared ι α} {p' : Pc α} :
      queueKick i s k = some (s', p') → Steps i s (.go first) (.kick k) s' p'
  | signal (woken : ι → Bool) : Wakes s.pool.asleep woken →
      Steps i s (.signal woken) (.kick .resumeSignal)
        { s with pool.asleep := fun j => s.pool.asleep j && !woken j } (.kick .resumeUnlock)
  | pop (first : Bool) (who : Caller) (p : PopPc α) : Steps i s (.go first) (.pop who p)
      { s with ring := (queuePop who s.ring p).1 } (queuePop who s.ring p).2
  | exec (first : Bool) (e : ExecPc) :
      Steps i s (.go first) (.exec e) (queueExec s e).1 (queueExec s e).2
  | pause (first : Bool) {q : PausePc} {s' : Shared ι α} {p' : Pc α} :
      queuePause i first s q = some (s', p') → Steps i s (.go first) (.pause q) s' p'
  | spurious : Steps i s .spurious (.pause .waiting)
      { s with pool.asleep := Function.update s.pool.asleep i false } (.pause .waiting)

theorem steps_of_step {i : ι} {a : Act ι α} {s s' : Shared ι α} {p p' : Pc α}
    (h : step i a s p = some (s', p')) : Steps i s a p s' p' := by
  cases p with
  | idle =>
    simp only [step] at h
    split at h <;> (try split_ifs at h) <;>
      simp only [Option.some.injEq, Prod.mk.injEq, reduceCtorEq] at h <;>
      obtain ⟨rfl, rfl⟩ := h
    · exact .callBlocking _
    · exact .call _
    · exact .callPop _
    · exact .start ‹_›
  | push p =>
    simp only [step] at h
    split at h <;> simp only [Option.some.injEq, reduceCtorEq] at h
    have hs := Steps.push (i := i) (s := s) ‹_› p
    rwa [h] at hs
  | kick k =>
    simp only [step] at h
    split at h
    · exact .kick _ h
    · split_ifs at h with hw
      simp only [Option.some.injEq, Prod.mk.injEq] at h
      obtain ⟨rfl, rfl⟩ := h
      exact .signal _ hw
    · simp at h
  | pop who p =>
    simp only [step] at h
    split at h <;> simp only [Option.some.injEq, Prod.mk.injEq, reduceCtorEq] at h
    obtain ⟨rfl, rfl⟩ := h
    exact .pop _ who p
  | exec e =>
    simp only [step] at h
    split at h <;> simp only [Option.some.injEq, reduceCtorEq] at h
    have hs := Steps.exec (i := i) (s := s) ‹_› e
    rwa [h] at hs
  | pause q =>
    simp only [step] at h
    split at h
    · exact .pause _ h
    · simp only [Option.some.injEq, Prod.mk.injEq] at h
      obtain ⟨rfl, rfl⟩ := h
      exact .spurious
    · simp at h

/-- The states of the queue and its threads. -/
abbrev State (ι α : Type*) := Config ι (Shared ι α) (Pc α)

/-- One step of the system. -/
def next : State ι α → ι × Act ι α → Option (State ι α) :=
  threadNext step

/-- A fresh queue (`xs_queue_create`, `xs_queue_launchthreads`), no thread in a call. -/
def init (qSpace : ℕ) (qMaxActive : ℤ) : State ι α where
  shared :=
    { ring :=
        { qSpace := qSpace, qWriteInd := 0, qReadInd := 0, qAvailInd := 0, qDepth := 0
          qData := fun _ => none, pushed := [], avail := 0, popped := [], incs := 0, decs := 0 }
      pool :=
        { qMaxActive := qMaxActive, qCreated := 0, qActive := 0, qInactive := 0, qWorking := 0
          qProcessed := 0, qAttempt := 0, mMutex := none, asleep := fun _ => false
          starting := 0 } }
  pc _ := .idle

end Queue

end Webxs
