import Webxs.Interleaving

/-!
# Putting the poll thread to sleep and waking it

A thread that has a socket for a poll thread queues it and wakes the thread
(`xs_pollfd_push`, `xs_socket.h`). The poll thread (`xs_Pollthread3`) sleeps in
`xs_pollfd_Sleep` when `xs_pollfd_Processing` finds it no work. `running` tells which of the
two it does : 1 while it works, 3 while a callback runs, 2 while it sleeps, and
`xs_pollfd_Wake` signals only a thread it finds at 2 (or stopped, below 0).

The model has one poll thread and any number of pushers. Each access to `running` and to the
queue, each mutex operation, each wait and signal is a step. `xs_queue_push` and
`xs_queue_pop` are one step each, on the number of queued sockets; the queue itself is the
subject of another module. The poll thread's entries only matter here by their counts.
-/

open Interleaving

namespace Webxs

namespace PollSleep

variable {ι : Type*}

/-! ## The model -/

/-- Where the poll thread is in `xs_Pollthread3`. -/
inductive PollPc
  /-- At `xs_queue_pop`. -/
  | pop
  /-- In `xs_pollfd_internaladd`, before `xs_pollfd_setrunning(xp, 3)`. -/
  | addBusy
  /-- In `xs_pollfd_internaladd`, before `xs_pollfd_setrunning(xp, 1)`. -/
  | addDone
  /-- Before the idle callback. -/
  | idleBusy
  /-- After the idle callback. -/
  | idleDone
  /-- At `poll`, then `xs_pollfd_setrunning(xp, 1)`. -/
  | poll
  /-- In the event pass, between two callbacks. -/
  | events
  /-- In the event pass, in a callback. -/
  | eventBusy
  /-- At `running` in the test of the sleep loop. -/
  | loopRunning
  /-- At `xs_pollfd_Processing` in the test of the sleep loop. -/
  | loopProcessing
  /-- In `xs_pollfd_Sleep`, at the test of `running`. -/
  | sleepTest
  /-- In `xs_pollfd_Sleep`, at the lock of `pollMutex`. -/
  | sleepLock
  /-- In `xs_pollfd_Sleep`, at the swap of `running` from 1 to 2. -/
  | sleepSwap
  /-- In `xs_pollfd_Sleep`, at the test of the counts and the wait on `pollCond`. -/
  | sleepWait
  /-- In `pthread_cond_wait`, without the mutex. -/
  | waiting
  /-- In `xs_pollfd_Sleep`, at the swap of `running` from 2 to 1. -/
  | sleepBack
  /-- In `xs_pollfd_Sleep`, at the unlock of `pollMutex`. -/
  | sleepUnlock
  /-- At `running` in the test of the outer loop. -/
  | outerRunning
  /-- At `xs_pollfd_Processing` in the test of the outer loop. -/
  | outerProcessing
  /-- Out of the loop. -/
  | exited
  deriving DecidableEq

/-- Where a thread is in `xs_pollfd_push`. -/
inductive PushPc
  /-- Not in `xs_pollfd_push`. -/
  | idle
  /-- At `xs_queue_push`. -/
  | push
  /-- In `xs_pollfd_Wake`, at the test `running==2`. -/
  | wakeSleeping
  /-- In `xs_pollfd_Wake`, at the test `running<0`. -/
  | wakeStopped
  /-- In `xs_pollfd_Wake`, at the lock of `pollMutex`. -/
  | wakeLock
  /-- In `xs_pollfd_Wake`, at the signal. -/
  | wakeSignal
  /-- In `xs_pollfd_Wake`, at the unlock of `pollMutex`. -/
  | wakeUnlock
  deriving DecidableEq

/-- The poll thread's record and the places of all threads. -/
structure State (ι : Type*) where
  running : ℤ
  /-- Sockets in `ctx->acceptqueue`. -/
  qDepth : ℕ
  pfdCount : ℕ
  listenCount : ℕ
  sockCount : ℕ
  pfdTotal : ℕ
  /-- The owner of `pollMutex`, `some none` for the poll thread. -/
  pollMutex : Option (Option ι)
  /-- The poll thread is blocked in `pthread_cond_wait`. -/
  blocked : Bool
  poll : PollPc
  push : ι → PushPc

/-- A step of one of the threads. `qSpace` is the room of the accept queue. -/
inductive Act (ι : Type*)
  /-- The next step of pusher `i`. -/
  | push (i : ι)
  /-- The next step of the poll thread; a popped socket is a listener or not. -/
  | poll (listener : Bool)
  /-- The event pass queues a socket it accepted. -/
  | accept
  /-- The event pass runs a callback. -/
  | callback
  /-- The event pass ends, with so many entries and listeners left. -/
  | kept (pfd listen : ℕ)
  /-- `pthread_cond_wait` returns with no signal. -/
  | spurious

/-- The room of the accept queue (`xs_pollfd_create`). -/
def qSpace : ℕ := 1024

/-- `xs_pollfd_setrunning`. -/
def setrunning (s : State ι) (newstate : ℤ) : State ι :=
  if 0 ≤ s.running then { s with running := newstate } else s

/-- `xs_pollfd_Processing`. -/
def processing (s : State ι) : Bool :=
  s.listenCount < s.pfdCount || s.listenCount ≠ 0 || s.sockCount ≠ 0 || s.qDepth ≠ 0

/-- The poll thread's next step. -/
def pollthread3 (s : State ι) (listener : Bool) : Option (State ι) :=
  match s.poll with
  | .pop =>
    if s.pfdCount < s.pfdTotal ∧ 0 < s.qDepth then
      some { s with
        qDepth := s.qDepth - 1
        pfdCount := s.pfdCount + 1
        listenCount := if listener then s.listenCount + 1 else s.listenCount
        poll := .addBusy }
    else some { s with poll := .idleBusy }
  | .addBusy => some { setrunning s 3 with poll := .addDone }
  | .addDone => some { setrunning s 1 with poll := .pop }
  | .idleBusy => some { setrunning s 3 with poll := .idleDone }
  | .idleDone => some { setrunning s 1 with poll := .poll }
  | .poll => some { setrunning s 1 with poll := .events }
  | .events => none
  | .eventBusy => some { setrunning s 1 with poll := .events }
  | .loopRunning => some { s with poll := if 0 < s.running then .loopProcessing else .outerRunning }
  | .loopProcessing => some { s with poll := if processing s then .outerRunning else .sleepTest }
  | .sleepTest => some { s with poll := if s.running ≤ 0 then .loopRunning else .sleepLock }
  | .sleepLock =>
    if s.pollMutex = none then some { s with pollMutex := some none, poll := .sleepSwap } else none
  | .sleepSwap =>
    if s.running = 1 then some { s with running := 2, poll := .sleepWait }
    else some { s with poll := .sleepUnlock }
  | .sleepWait =>
    if s.pfdCount = 0 ∧ s.listenCount = 0 ∧ s.sockCount = 0 then
      some { s with pollMutex := none, blocked := true, poll := .waiting }
    else some { s with poll := .sleepBack }
  | .waiting =>
    -- woken, the wait takes the mutex again before it returns
    if s.blocked = false ∧ s.pollMutex = none then
      some { s with pollMutex := some none, poll := .sleepBack }
    else none
  | .sleepBack =>
    some { s with running := if s.running = 2 then 1 else s.running, poll := .sleepUnlock }
  | .sleepUnlock => some { s with pollMutex := none, poll := .loopRunning }
  | .outerRunning => some { s with poll := if 0 < s.running then .outerProcessing else .exited }
  | .outerProcessing => some { s with poll := if processing s then .pop else .exited }
  | .exited => none

variable [DecidableEq ι]

/-- Thread `i` of the pushers moves to `pc`. -/
def State.at (s : State ι) (i : ι) (pc : PushPc) : State ι :=
  { s with push := Function.update s.push i pc }

/-- The next step of pusher `i`. -/
def pollfdPush (s : State ι) (i : ι) : Option (State ι) :=
  match s.push i with
  | .idle => some (s.at i .push)
  | .push =>
    -- a blocking push : it spins while there is no room
    if s.qDepth + 1 < qSpace then some ({ s with qDepth := s.qDepth + 1 }.at i .wakeSleeping)
    else some s
  | .wakeSleeping => some (s.at i (if s.running = 2 then .wakeLock else .wakeStopped))
  | .wakeStopped => some (s.at i (if s.running < 0 then .wakeLock else .idle))
  | .wakeLock =>
    if s.pollMutex = none then some ({ s with pollMutex := some (some i) }.at i .wakeSignal)
    else none
  | .wakeSignal => some ({ s with blocked := false }.at i .wakeUnlock)
  | .wakeUnlock => some ({ s with pollMutex := none }.at i .idle)

/-- One step of the system. -/
def next (s : State ι) : Act ι → Option (State ι)
  | .push i => pollfdPush s i
  | .poll listener => pollthread3 s listener
  | .accept =>
    if s.poll = .events ∧ s.qDepth + 1 < qSpace then some { s with qDepth := s.qDepth + 1 }
    else none
  | .callback => if s.poll = .events then some { setrunning s 3 with poll := .eventBusy } else none
  | .kept pfd listen =>
    if s.poll = .events ∧ pfd ≤ s.pfdCount ∧ listen ≤ s.listenCount then
      some { s with pfdCount := pfd, listenCount := listen, poll := .loopRunning }
    else none
  | .spurious => if s.poll = .waiting then some { s with blocked := false } else none

/-- The poll thread at the head of its loop, with the entries it starts with, and no pusher. -/
def init (pfdCount listenCount pfdTotal : ℕ) : State ι where
  running := 1
  qDepth := 0
  pfdCount := pfdCount
  listenCount := listenCount
  sockCount := 0
  pfdTotal := pfdTotal
  pollMutex := none
  blocked := false
  poll := .pop
  push _ := .idle

/-! ## The invariant -/

/-- A pusher that is going to find the poll thread asleep and signal it. -/
def PushPc.WillSignal : PushPc → Prop
  | .wakeSleeping | .wakeLock | .wakeSignal => True
  | _ => False

instance (p : PushPc) : Decidable p.WillSignal := by
  cases p <;> unfold PushPc.WillSignal <;> infer_instance

/-- The pusher holds `pollMutex`. -/
def PushPc.Holds : PushPc → Prop
  | .wakeSignal | .wakeUnlock => True
  | _ => False

/-- The poll thread holds `pollMutex`. -/
def PollPc.Holds : PollPc → Prop
  | .sleepSwap | .sleepWait | .sleepBack | .sleepUnlock => True
  | _ => False

/-- The queue is empty, or somebody still signals. -/
def Covered (s : State ι) : Prop :=
  s.qDepth = 0 ∨ ∃ i, (s.push i).WillSignal

omit [DecidableEq ι] in
instance [Fintype ι] (s : State ι) : Decidable (Covered s) := by
  unfold Covered
  infer_instance

/-- What holds between steps. -/
structure Inv (s : State ι) : Prop where
  pollHolds : s.poll.Holds → s.pollMutex = some none
  pushHolds : ∀ i, (s.push i).Holds → s.pollMutex = some (some i)
  asleep : s.poll = .sleepWait ∨ s.poll = .waiting → s.running = 2
  covered : s.poll = .sleepWait ∨ s.poll = .waiting ∧ s.blocked = true → Covered s

/-- When the poll thread goes to sleep, the queue is empty or somebody still signals. -/
def SleepsCovered (s : State ι) (a : Act ι) : Prop :=
  match a with
  | .poll _ => s.poll = .sleepSwap → Covered s
  | _ => True

omit [DecidableEq ι] in
instance [Fintype ι] (s : State ι) (a : Act ι) : Decidable (SleepsCovered s a) := by
  unfold SleepsCovered
  split <;> infer_instance

/-! ## What a step can do -/

/-- The steps of the poll thread : those that touch neither the mutex nor the wait, and each
of the others. -/
inductive PollStep (s : State ι) : State ι → Prop
  | outside (s' : State ι) : ¬s.poll.Holds → ¬s'.poll.Holds → s'.poll ≠ .waiting →
      s'.pollMutex = s.pollMutex → s'.push = s.push → PollStep s s'
  | lock : s.pollMutex = none → PollStep s { s with pollMutex := some none, poll := .sleepSwap }
  | swap : s.poll = .sleepSwap → PollStep s { s with running := 2, poll := .sleepWait }
  | noSwap : s.poll = .sleepSwap → PollStep s { s with poll := .sleepUnlock }
  | wait : s.poll = .sleepWait →
      PollStep s { s with pollMutex := none, blocked := true, poll := .waiting }
  | noWait : s.poll = .sleepWait → PollStep s { s with poll := .sleepBack }
  | woken : s.pollMutex = none → PollStep s { s with pollMutex := some none, poll := .sleepBack }
  | back (running : ℤ) : s.poll = .sleepBack →
      PollStep s { s with running := running, poll := .sleepUnlock }
  | unlock : s.poll = .sleepUnlock → PollStep s { s with pollMutex := none, poll := .loopRunning }

omit [DecidableEq ι] in
theorem setrunning_eq (s : State ι) (v : ℤ) : (setrunning s v).pollMutex = s.pollMutex ∧
    (setrunning s v).push = s.push := by
  unfold setrunning
  split_ifs <;> exact ⟨rfl, rfl⟩

omit [DecidableEq ι] in
theorem pollStep_of_eq_some {s s' : State ι} {listener : Bool}
    (h : pollthread3 s listener = some s') : PollStep s s' := by
  unfold pollthread3 at h
  cases hp : s.poll with
  | sleepLock =>
    simp only [hp] at h
    split_ifs at h with hm
    obtain rfl := Option.some.inj h
    exact .lock hm
  | sleepSwap =>
    simp only [hp] at h
    split_ifs at h with hr <;> obtain rfl := Option.some.inj h
    · exact .swap hp
    · exact .noSwap hp
  | sleepWait =>
    simp only [hp] at h
    split_ifs at h with hc <;> obtain rfl := Option.some.inj h
    · exact .wait hp
    · exact .noWait hp
  | waiting =>
    simp only [hp] at h
    split_ifs at h with hb
    obtain rfl := Option.some.inj h
    exact .woken hb.2
  | sleepBack =>
    simp only [hp] at h
    obtain rfl := Option.some.inj h
    exact .back _ hp
  | sleepUnlock =>
    simp only [hp] at h
    obtain rfl := Option.some.inj h
    exact .unlock hp
  | events | exited => simp [hp] at h
  | addBusy | addDone | idleBusy | idleDone | poll | eventBusy =>
    simp only [hp] at h
    obtain rfl := Option.some.inj h
    exact .outside _ (by simp [hp, PollPc.Holds]) (by simp [PollPc.Holds]) (by simp)
      (setrunning_eq s _).1 (setrunning_eq s _).2
  | pop =>
    simp only [hp] at h
    split_ifs at h <;> obtain rfl := Option.some.inj h <;>
      exact .outside _ (by simp [hp, PollPc.Holds]) (by simp [PollPc.Holds]) (by simp) rfl rfl
  | loopRunning | loopProcessing | sleepTest | outerRunning | outerProcessing =>
    simp only [hp] at h
    obtain rfl := Option.some.inj h
    refine .outside _ (by simp [hp, PollPc.Holds]) ?_ ?_ rfl rfl <;>
      simp only [PollPc.Holds] <;> split_ifs <;> simp

/-- The steps of pusher `i`. -/
inductive PushStep (s : State ι) (i : ι) : State ι → Prop
  | call : s.push i = .idle → PushStep s i (s.at i .push)
  | spin : PushStep s i s
  | push : s.push i = .push → PushStep s i ({ s with qDepth := s.qDepth + 1 }.at i .wakeSleeping)
  | sleeping : s.push i = .wakeSleeping → s.running = 2 → PushStep s i (s.at i .wakeLock)
  | awake : s.push i = .wakeSleeping → s.running ≠ 2 → PushStep s i (s.at i .wakeStopped)
  | stopped : s.push i = .wakeStopped → PushStep s i (s.at i .wakeLock)
  | running : s.push i = .wakeStopped → PushStep s i (s.at i .idle)
  | lock : s.push i = .wakeLock → s.pollMutex = none →
      PushStep s i ({ s with pollMutex := some (some i) }.at i .wakeSignal)
  | signal : s.push i = .wakeSignal → PushStep s i ({ s with blocked := false }.at i .wakeUnlock)
  | unlock : s.push i = .wakeUnlock → PushStep s i ({ s with pollMutex := none }.at i .idle)

theorem pushStep_of_eq_some {s s' : State ι} {i : ι} (h : pollfdPush s i = some s') :
    PushStep s i s' := by
  unfold pollfdPush at h
  cases hp : s.push i with
  | push | wakeSleeping | wakeStopped =>
    simp only [hp] at h
    split_ifs at h with hc <;> obtain rfl := Option.some.inj h
    · first
        | exact .push hp
        | exact .sleeping hp hc
        | exact .stopped hp
    · first
        | exact .spin
        | exact .awake hp hc
        | exact .running hp
  | wakeLock =>
    simp only [hp] at h
    split_ifs at h with hm
    obtain rfl := Option.some.inj h
    exact .lock hp hm
  | idle =>
    simp only [hp] at h
    obtain rfl := Option.some.inj h
    exact .call hp
  | wakeSignal =>
    simp only [hp] at h
    obtain rfl := Option.some.inj h
    exact .signal hp
  | wakeUnlock =>
    simp only [hp] at h
    obtain rfl := Option.some.inj h
    exact .unlock hp

/-! ## The invariant is kept -/

omit [DecidableEq ι] in
theorem Inv.pollStep {s s' : State ι} (hi : Inv s) (hok : s.poll = .sleepSwap → Covered s)
    (h : PollStep s s') : Inv s' := by
  -- a thread that gives the mutex up owned it, so no pusher does
  have hnone : ∀ i, s.poll.Holds → ¬(s.push i).Holds := by
    intro i hp hq
    have := (hi.pollHolds hp).symm.trans (hi.pushHolds i hq)
    simp at this
  have hfree : ∀ i, s.pollMutex = none → ¬(s.push i).Holds := by
    intro i hm hq
    have := hm.symm.trans (hi.pushHolds i hq)
    simp at this
  cases h with
  | outside s' hs hs' hw hm hp =>
    refine ⟨fun h => absurd h hs', fun i h => ?_, ?_, ?_⟩
    · rw [hm]
      exact hi.pushHolds i (hp ▸ h)
    · rintro (h | h)
      · simp [h, PollPc.Holds] at hs'
      · exact absurd h hw
    · rintro (h | ⟨h, -⟩)
      · simp [h, PollPc.Holds] at hs'
      · exact absurd h hw
  | lock hm => exact ⟨fun _ => rfl, fun i h => absurd h (hfree i hm), by simp, by simp⟩
  | swap hp =>
    have hholds : s.poll.Holds := by simp [hp, PollPc.Holds]
    exact ⟨fun _ => hi.pollHolds hholds, fun i h => absurd h (hnone i hholds), fun _ => rfl,
      fun _ => hok hp⟩
  | noSwap hp =>
    have hholds : s.poll.Holds := by simp [hp, PollPc.Holds]
    exact ⟨fun _ => hi.pollHolds hholds, fun i h => absurd h (hnone i hholds), by simp, by simp⟩
  | wait hp =>
    have hholds : s.poll.Holds := by simp [hp, PollPc.Holds]
    exact ⟨by simp [PollPc.Holds], fun i h => absurd h (hnone i hholds),
      fun _ => hi.asleep (.inl hp), fun _ => hi.covered (.inl hp)⟩
  | noWait hp =>
    have hholds : s.poll.Holds := by simp [hp, PollPc.Holds]
    exact ⟨fun _ => hi.pollHolds hholds, fun i h => absurd h (hnone i hholds), by simp, by simp⟩
  | woken hm => exact ⟨fun _ => rfl, fun i h => absurd h (hfree i hm), by simp, by simp⟩
  | back running hp =>
    have hholds : s.poll.Holds := by simp [hp, PollPc.Holds]
    exact ⟨fun _ => hi.pollHolds hholds, fun i h => absurd h (hnone i hholds), by simp, by simp⟩
  | unlock hp =>
    have hholds : s.poll.Holds := by simp [hp, PollPc.Holds]
    exact ⟨by simp [PollPc.Holds], fun i h => absurd h (hnone i hholds), by simp, by simp⟩

/-- A pusher that moves without ceasing to cover leaves the queue covered. -/
theorem Covered.at {s : State ι} {i : ι} {pc : PushPc} (h : Covered s)
    (hpc : (s.push i).WillSignal → pc.WillSignal) : Covered (s.at i pc) := by
  rcases h with h | ⟨j, hj⟩
  · exact .inl h
  · refine .inr ⟨j, ?_⟩
    by_cases hji : j = i
    · subst hji
      simpa [State.at] using hpc hj
    · simpa [State.at, Function.update_of_ne hji] using hj

/-- Moving a pusher that neither holds nor takes the mutex. -/
theorem Inv.at {s : State ι} {i : ι} {pc : PushPc} (hi : Inv s) (hpc : ¬pc.Holds)
    (hcov : s.poll = .sleepWait ∨ s.poll = .waiting ∧ s.blocked = true → Covered (s.at i pc)) :
    Inv (s.at i pc) := by
  refine ⟨hi.pollHolds, fun j h => ?_, hi.asleep, hcov⟩
  by_cases hji : j = i
  · subst hji
    simp [State.at, hpc] at h
  · exact hi.pushHolds j (by simpa [State.at, Function.update_of_ne hji] using h)

theorem Inv.pushStep {s s' : State ι} {i : ι} (hi : Inv s) (h : PushStep s i s') : Inv s' := by
  cases h with
  | spin => exact hi
  | call hp =>
    exact hi.at (by simp [PushPc.Holds]) fun h =>
      (hi.covered h).at (by simp [hp, PushPc.WillSignal])
  | push hp =>
    have hi' : Inv { s with
        qDepth := s.qDepth + 1, push := Function.update s.push i .wakeSleeping } := by
      refine ⟨hi.pollHolds, fun j h => ?_, hi.asleep, fun _ => .inr ⟨i, ?_⟩⟩
      · by_cases hji : j = i
        · subst hji
          simp [PushPc.Holds] at h
        · exact hi.pushHolds j (by simpa [Function.update_of_ne hji] using h)
      · simp [PushPc.WillSignal]
    exact hi'
  | sleeping hp hr =>
    exact hi.at (by simp [PushPc.Holds]) fun h => (hi.covered h).at (by simp [PushPc.WillSignal])
  | awake hp hr =>
    refine hi.at (by simp [PushPc.Holds]) fun h => absurd (hi.asleep ?_) hr
    rcases h with h | ⟨h, -⟩
    · exact .inl h
    · exact .inr h
  | stopped hp =>
    exact hi.at (by simp [PushPc.Holds]) fun h => (hi.covered h).at (by simp [PushPc.WillSignal])
  | running hp =>
    exact hi.at (by simp [PushPc.Holds]) fun h =>
      (hi.covered h).at (by simp [hp, PushPc.WillSignal])
  | lock hp hm =>
    refine ⟨fun h => ?_, fun j h => ?_, hi.asleep, fun h => ?_⟩
    · have := hm.symm.trans (hi.pollHolds h)
      simp at this
    · by_cases hji : j = i
      · subst hji
        rfl
      · have := hm.symm.trans
          (hi.pushHolds j (by simpa [State.at, Function.update_of_ne hji] using h))
        simp at this
    · exact Covered.at (hi.covered h) (by simp [PushPc.WillSignal])
  | signal hp =>
    have hown := hi.pushHolds i (by simp [hp, PushPc.Holds])
    refine ⟨hi.pollHolds, fun j h => ?_, hi.asleep, ?_⟩
    · by_cases hji : j = i
      · subst hji
        exact hown
      · exact hi.pushHolds j (by simpa [State.at, Function.update_of_ne hji] using h)
    · rintro (h | ⟨-, h⟩)
      · have hp : s.poll.Holds := by simp_all [State.at, PollPc.Holds]
        have := hown.symm.trans (hi.pollHolds hp)
        simp at this
      · simp [State.at] at h
  | unlock hp =>
    have hown := hi.pushHolds i (by simp [hp, PushPc.Holds])
    refine ⟨fun h => ?_, fun j h => ?_, hi.asleep, fun h => ?_⟩
    · have := hown.symm.trans (hi.pollHolds h)
      simp at this
    · by_cases hji : j = i
      · subst hji
        simp [State.at, PushPc.Holds] at h
      · have := hown.symm.trans
          (hi.pushHolds j (by simpa [State.at, Function.update_of_ne hji] using h))
        exact absurd (Option.some.inj (Option.some.inj this)).symm hji
    · exact Covered.at (hi.covered h) (by simp [hp, PushPc.WillSignal])

theorem Inv.step {s s' : State ι} {a : Act ι} (hi : Inv s) (hok : SleepsCovered s a)
    (h : next s a = some s') : Inv s' := by
  cases a with
  | push i => exact hi.pushStep (pushStep_of_eq_some h)
  | poll listener => exact hi.pollStep hok (pollStep_of_eq_some h)
  | accept | kept =>
    simp only [next] at h
    split_ifs at h with hp
    obtain rfl := Option.some.inj h
    exact hi.pollStep (by simp [hp]) (.outside _ (by simp [hp, PollPc.Holds])
      (by simp [hp, PollPc.Holds]) (by simp [hp]) rfl rfl)
  | callback =>
    simp only [next] at h
    split_ifs at h with hp
    obtain rfl := Option.some.inj h
    exact hi.pollStep (by simp [hp]) (.outside _ (by simp [hp, PollPc.Holds])
      (by simp [PollPc.Holds]) (by simp) (setrunning_eq s _).1 (setrunning_eq s _).2)
  | spurious =>
    simp only [next] at h
    split_ifs at h with hp
    obtain rfl := Option.some.inj h
    exact ⟨hi.pollHolds, hi.pushHolds, hi.asleep, by simp [hp]⟩

/-! ## No lost wake-up -/

/-- The poll thread sleeps on a socket nobody is going to tell it of. -/
def Stranded (s : State ι) : Prop :=
  (∀ i, s.push i = .idle) ∧ s.poll = .waiting ∧ s.blocked = true ∧ s.qDepth ≠ 0

/-- If the poll thread only goes to sleep on an empty queue, or with a pusher still to look
at `running`, no socket is left behind. -/
theorem not_stranded_of_sleepsCovered (pfdCount listenCount pfdTotal : ℕ) (s : State ι)
    (h : Runs next SleepsCovered (init pfdCount listenCount pfdTotal) s) : ¬Stranded s := by
  have hi : Inv s := by
    refine h.invariant (I := Inv) ?_ fun s a t hs hok hn => hs.step hok hn
    constructor <;> simp [init, PollPc.Holds, PushPc.Holds]
  rintro ⟨hidle, hp, hb, hq⟩
  rcases hi.covered (.inr ⟨hp, hb⟩) with h0 | ⟨i, hw⟩
  · exact hq h0
  · simp [hidle i, PushPc.WillSignal] at hw

/-- The poll thread sleeps; a push finds it at 2 and wakes it. -/
theorem not_stranded_of_sleepsCovered_woken :
    ∃ s : State (Fin 1), s.poll = .sleepBack ∧ s.qDepth = 1 ∧ ¬Stranded s := by
  obtain ⟨s, hs, hp, hq⟩ : ∃ s : State (Fin 1),
      Runs next SleepsCovered (init 0 0 16) s ∧ s.poll = .sleepBack ∧ s.qDepth = 1 :=
    exists_runs_of_runSchedule
      [.poll false, .poll false, .poll false, .poll false, .kept 0 0, .poll false, .poll false,
        .poll false, .poll false, .poll false, .poll false, .push 0, .push 0, .push 0, .push 0,
        .push 0, .push 0, .poll false] (by decide)
  exact ⟨s, hp, hq, not_stranded_of_sleepsCovered 0 0 16 s hs⟩

/-- The poll thread finds the queue empty; the push comes, finds `running` at 1 and signals
nobody; the poll thread goes to sleep. -/
theorem stranded_of_push_before_swap :
    ∃ s : State (Fin 1), Reachable next (init 0 0 16) s ∧ Stranded s := by
  obtain ⟨s, hs, hidle, hp, hb, hq⟩ : ∃ s : State (Fin 1), Reachable next (init 0 0 16) s ∧
      (∀ i, s.push i = .idle) ∧ s.poll = .waiting ∧ s.blocked = true ∧ s.qDepth ≠ 0 :=
    exists_runs_of_runSchedule
      [.poll false, .poll false, .poll false, .poll false, .kept 0 0, .poll false, .poll false,
        .push 0, .push 0, .push 0, .push 0, .poll false, .poll false, .poll false, .poll false]
      (by decide)
  exact ⟨s, hs, hidle, hp, hb, hq⟩

end PollSleep

end Webxs
