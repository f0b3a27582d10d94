import Webxs.QueueSafety

/-!
# The worker pool does not sleep on work

Only workers pop here (`NoPop`), the queue is running and may have a worker. A worker sleeps
after it read `qProcessed ≥ qAttempt`, and `qAttempt` counts a push before `qDepth` does.
So when the last worker to pause decides to sleep, every push counted in `qDepth` is
processed, or its pusher has not looked at `qInactive` yet; from there on it finds all
workers inactive and signals (`PoolInv.settled`). While there is no worker the pushers find
that too, and one of them creates a worker (`PoolInv.created`). So no element waits in the
queue when all workers sleep (`qDepth_eq_zero_of_asleep`).

The argument counts pushes and pops and does not depend on which elements the pops return.
-/

open Interleaving

namespace Webxs

namespace Queue

variable {ι α : Type*}

/-! ## Places -/

/-- A worker that started. -/
def Pc.Worker : Pc α → Prop
  | .exec _ | .pause _ | .pop .worker _ => True
  | _ => False

/-- A worker that will look at `qDepth` before it pauses. -/
def Pc.Hot : Pc α → Prop
  | .exec _ | .pop .worker _ => True
  | _ => False

/-- The thread is in no pop of its own. -/
def Pc.NoPop : Pc α → Prop
  | .pop (.thread _) _ => False
  | _ => True

/-- A worker about to sleep, or asleep. -/
def Pc.Settled (asleep : Bool) : Pc α → Prop
  | .pause (.processed _) | .pause .sleep => True
  | .pause .waiting => asleep = true
  | _ => False

/-- A pusher that will signal, if it finds all workers inactive. -/
def Pc.WillSignal (qActive : ℤ) : Pc α → Prop
  | .kick .max | .kick .inactive | .kick .restInactive => True
  | .kick (.restActive inactive) => qActive ≤ inactive + 1
  | .kick .resumeTest | .kick .resumeLock | .kick .resumeSignal => True
  | _ => False

/-- A pusher that will create a worker, if it finds that there is none. -/
def Pc.WillCreate : Pc α → Prop
  | .kick .max | .kick .inactive | .kick .working => True
  | .kick (.active working) => working = 0
  | .kick .created | .kick .createdActive => True
  | .kick (.activeCreated created) => created = 0
  | .kick .create => True
  | _ => False

/-- The thread owns `mMutex`. -/
def Pc.Locks : Pc α → Prop
  | .kick .resumeSignal | .kick .resumeUnlock => True
  | .pause .lock | .pause .waiting => False
  | .pause _ => True
  | _ => False

/-- A step of the calls allowed here : no call of `xs_queue_pop` but the workers'. -/
def NoPop : Act ι α → Prop
  | .pop _ => False
  | _ => True

instance (a : Act ι α) : Decidable (NoPop a) := by
  unfold NoPop
  split <;> infer_instance

/-! ## Counters -/

/-- A push counted in `qAttempt` and not in `qDepth`. -/
def Pc.attempts : Pc α → ℕ
  | .push (.attempt _) => 0
  | .push (.full _ blocking) | .push (.write _ blocking) => blocking.toNat
  | .push (.read _ blocking _) | .push (.swap _ blocking _ _) => blocking.toNat
  | .push (.count ..) => 0
  | .push _ => 1
  | _ => 0

/-- A pop counted in `qDepth` and not in `qProcessed`. -/
def Pc.processes : Pc α → ℕ
  | .exec .working | .exec .processed => 1
  | _ => 0

/-- A worker counted in `qWorking`. -/
def Pc.works : Pc α → ℕ
  | .exec .processed | .exec .done => 1
  | _ => 0

/-- A worker counted in `qActive`. -/
def Pc.actives : Pc α → ℕ
  | .exec .start => 0
  | .exec _ | .pause _ | .pop .worker _ => 1
  | _ => 0

/-- A worker counted in `qInactive`. -/
def Pc.inactives : Pc α → ℕ
  | .pause .lock | .pause .enter | .pause .unlock => 0
  | .pause _ => 1
  | _ => 0

/-- The step changes each counter by what its thread then owes more or less. -/
structure Counted (s : Shared ι α) (p : Pc α) (s' : Shared ι α) (p' : Pc α) : Prop where
  attempt : s'.pool.qAttempt - s'.ring.incs + p.attempts =
    s.pool.qAttempt - s.ring.incs + p'.attempts
  working : s'.pool.qWorking + p.works = s.pool.qWorking + p'.works
  active : s'.pool.qActive + p.actives = s.pool.qActive + p'.actives
  inactive : s'.pool.qInactive + p.inactives = s.pool.qInactive + p'.inactives

theorem counted_queuePush (s : Shared ι α) (p : PushPc α) :
    Counted s (.push p) (queuePush s p).1 (queuePush s p).2 := by
  cases p <;> simp only [queuePush] <;> (try split_ifs) <;>
    constructor <;> simp_all [Pc.attempts, Pc.works, Pc.actives, Pc.inactives] <;> ring

theorem counted_queuePop (who : Caller) (s : Shared ι α) (p : PopPc α) :
    Counted s (.pop who p) { s with ring := (queuePop who s.ring p).1 }
      (queuePop who s.ring p).2 := by
  cases who <;> cases p <;> simp only [queuePop] <;> (try split_ifs) <;>
    constructor <;> simp_all [Pc.attempts, Pc.works, Pc.actives, Pc.inactives, Caller.back]

theorem counted_queueExec (s : Shared ι α) (e : ExecPc) :
    Counted s (.exec e) (queueExec s e).1 (queueExec s e).2 := by
  cases e <;> simp only [queueExec] <;> (try split_ifs) <;>
    constructor <;> simp_all [Pc.attempts, Pc.works, Pc.actives, Pc.inactives]

theorem counted_queueKick [DecidableEq ι] {i : ι} {s s' : Shared ι α} {k : KickPc} {p' : Pc α}
    (h : queueKick i s k = some (s', p')) : Counted s (.kick k) s' p' := by
  cases k <;> simp only [queueKick] at h <;> (try split_ifs at h) <;>
    simp only [Option.some.injEq, Prod.mk.injEq, reduceCtorEq] at h <;> obtain ⟨rfl, rfl⟩ := h <;>
    constructor <;> simp_all [Pc.attempts, Pc.works, Pc.actives, Pc.inactives]

theorem counted_queuePause [DecidableEq ι] {i : ι} {first : Bool} {s s' : Shared ι α}
    {q : PausePc} {p' : Pc α} (h : queuePause i first s q = some (s', p')) :
    Counted s (.pause q) s' p' := by
  cases q <;> simp only [queuePause] at h <;> (try split_ifs at h) <;>
    simp only [Option.some.injEq, Prod.mk.injEq] at h <;> obtain ⟨rfl, rfl⟩ := h <;>
    constructor <;> simp_all [Pc.attempts, Pc.works, Pc.actives, Pc.inactives]

/-! ## Frames -/

theorem frame_queuePush (s : Shared ι α) (p : PushPc α) :
    ∃ n, (queuePush s p).1.pool = { s.pool with qAttempt := n } ∧
      (queuePush s p).1.ring.decs = s.ring.decs ∧
      s.ring.qDepth ≤ (queuePush s p).1.ring.qDepth ∧
      ((queuePush s p).2 = .kick .max ∨ (queuePush s p).1.ring.incs = s.ring.incs ∧
        ((queuePush s p).2 = .idle ∨ ∃ p', (queuePush s p).2 = .push p')) := by
  cases p <;> simp only [queuePush] <;> (try split_ifs) <;>
    exact ⟨_, rfl, by simp, by simp, by simp⟩

theorem frame_queueKick [DecidableEq ι] {i : ι} {s s' : Shared ι α} {k : KickPc} {p' : Pc α}
    (h : queueKick i s k = some (s', p')) :
    (∃ n m, s.pool.starting ≤ n ∧ s' = { s with pool.starting := n, pool.mMutex := m }) ∧
      (p' = .idle ∨ ∃ k', p' = .kick k') := by
  cases k <;> simp only [queueKick] at h <;> (try split_ifs at h) <;>
    simp only [Option.some.injEq, Prod.mk.injEq, reduceCtorEq] at h <;> obtain ⟨rfl, rfl⟩ := h <;>
    exact ⟨⟨_, _, by simp, rfl⟩, by simp⟩

theorem frame_queuePop (who : Caller) (r : Ring α) (p : PopPc α) :
    (queuePop who r p).1.incs = r.incs ∧
      ((∃ d, (queuePop who r p).2 = who.back d) ∨ ∃ p', (queuePop who r p).2 = .pop who p') := by
  cases p <;> simp only [queuePop] <;> (try split_ifs) <;> simp

theorem frame_queueExec (s : Shared ι α) (e : ExecPc) :
    (∃ a w n, (e = .start ∨ a = s.pool.qActive) ∧ s.pool.qProcessed ≤ n ∧ (queueExec s e).1 =
      { s with pool.qActive := a, pool.qWorking := w, pool.qProcessed := n }) ∧
      ((∃ e', (queueExec s e).2 = .exec e') ∨ (queueExec s e).2 = .pop .worker .depth ∨
        (queueExec s e).2 = .pause .lock ∧ s.ring.qDepth = 0) := by
  cases e <;> simp only [queueExec] <;> (try split_ifs) <;>
    exact ⟨⟨_, _, _, by simp, by simp, rfl⟩, by simp [*]⟩

theorem frame_queuePause [DecidableEq ι] {i : ι} {first : Bool} {s s' : Shared ι α}
    {q : PausePc} {p' : Pc α} (h : queuePause i first s q = some (s', p')) :
    (∃ n m b, s' = { s with
      pool.qInactive := n, pool.mMutex := m, pool.asleep := Function.update s.pool.asleep i b }) ∧
      (p' = .exec .depth ∨ ∃ q', p' = .pause q') := by
  have hself : Function.update s.pool.asleep i (s.pool.asleep i) = s.pool.asleep :=
    Function.update_eq_self i _
  cases q <;> simp only [queuePause] at h <;> (try split_ifs at h) <;>
    simp only [Option.some.injEq, Prod.mk.injEq] at h <;> obtain ⟨rfl, rfl⟩ := h <;>
    first
    | exact ⟨⟨_, _, true, rfl⟩, by simp⟩
    | exact ⟨⟨_, _, s.pool.asleep i, by rw [hself]⟩, by simp⟩

section Step

variable [DecidableEq ι] [Fintype ι] {i : ι} {a : Act ι α} {s s' : Shared ι α} {p p' : Pc α}

theorem counted_step (h : step i a s p = some (s', p')) : Counted s p s' p' := by
  cases steps_of_step h with
  | push first p => exact counted_queuePush s p
  | pop first who p => exact counted_queuePop who s p
  | kick first hk => exact counted_queueKick hk
  | exec first e => exact counted_queueExec s e
  | pause first hp => exact counted_queuePause hp
  | _ => exact ⟨by simp [Pc.attempts], rfl, rfl, rfl⟩

theorem qDepth_step (h : step i a s p = some (s', p')) :
    s'.ring.qDepth - s'.ring.incs + s'.ring.decs = s.ring.qDepth - s.ring.incs + s.ring.decs := by
  have hr := ringStep_step h
  generalize s.ring = r, s'.ring = r' at hr
  cases hr with
  | inc | dec => simp only; push_cast; ring
  | _ => rfl

/-- A step of a thread that is no worker. -/
theorem frame_of_not_worker (h : step i a s p = some (s', p')) (hw : ¬p.Worker) :
    p' = .exec .start ∨ ¬p'.Worker ∧ s'.pool.qActive = s.pool.qActive ∧
      s'.pool.qProcessed = s.pool.qProcessed ∧ s.pool.starting ≤ s'.pool.starting ∧
      (s'.ring.incs = s.ring.incs ∨ p' = .kick .max) := by
  cases steps_of_step h with
  | push first p =>
    obtain ⟨n, hpool, -, -, hp | ⟨hincs, hp | ⟨p', hp⟩⟩⟩ := frame_queuePush s p <;>
      simp [*, Pc.Worker]
  | kick first hk =>
    obtain ⟨⟨n, m, hn, rfl⟩, rfl | ⟨k', rfl⟩⟩ := frame_queueKick hk <;> simp [*, Pc.Worker]
  | pop first who p =>
    cases who with
    | worker => exact (hw trivial).elim
    | thread b =>
      obtain ⟨hincs, ⟨d, hp⟩ | ⟨p', hp⟩⟩ := frame_queuePop (.thread b) s.ring p <;>
        simp [*, Pc.Worker, Caller.back]
  | start => exact .inl rfl
  | exec | pause | spurious => exact (hw trivial).elim
  | _ => simp [Pc.Worker]

/-- A step of a worker. -/
theorem frame_of_worker (h : step i a s p = some (s', p')) (hw : p.Worker) :
    p'.Worker ∧ s'.ring.incs = s.ring.incs ∧ s'.pool.starting = s.pool.starting ∧
      (p = .exec .start ∨ s'.pool.qActive = s.pool.qActive) ∧
      ∀ j, j ≠ i → s'.pool.asleep j = s.pool.asleep j := by
  cases steps_of_step h with
  | pop first who p =>
    cases who with
    | thread b => exact hw.elim
    | worker =>
      obtain ⟨hincs, ⟨_ | d, hp⟩ | ⟨p', hp⟩⟩ := frame_queuePop .worker s.ring p <;>
        simp [*, Pc.Worker, Caller.back]
  | exec first e =>
    obtain ⟨⟨a, w, n, ha, -, hs⟩, ⟨e', hp⟩ | hp | ⟨hp, -⟩⟩ := frame_queueExec s e <;>
      rcases ha with rfl | rfl <;> simp [*, Pc.Worker]
  | pause first hq =>
    obtain ⟨⟨n, m, b, rfl⟩, rfl | ⟨q', rfl⟩⟩ := frame_queuePause hq <;>
      simp +contextual [Pc.Worker, Function.update_of_ne]
  | spurious => simp +contextual [Pc.Worker, Function.update_of_ne]
  | _ => exact hw.elim

theorem qProcessed_mono (h : step i a s p = some (s', p')) :
    s.pool.qProcessed ≤ s'.pool.qProcessed := by
  cases steps_of_step h with
  | push first p =>
    obtain ⟨n, hpool, -⟩ := frame_queuePush s p
    rw [hpool]
  | kick first hk =>
    obtain ⟨⟨n, m, -, rfl⟩, -⟩ := frame_queueKick hk
    exact le_rfl
  | exec first e =>
    obtain ⟨⟨a, w, n, -, hn, hs⟩, -⟩ := frame_queueExec s e
    rw [hs]
    exact hn
  | pause first hq =>
    obtain ⟨⟨n, m, b, rfl⟩, -⟩ := frame_queuePause hq
    exact le_rfl
  | _ => exact le_rfl

theorem noPop_step (h : step i a s p = some (s', p')) (ha : NoPop a) (hp : p.NoPop) :
    p'.NoPop := by
  cases steps_of_step h with
  | callPop => exact ha.elim
  | push first p =>
    obtain ⟨n, -, -, -, hp | ⟨-, hp | ⟨p', hp⟩⟩⟩ := frame_queuePush s p <;> simp [hp, Pc.NoPop]
  | kick first hk =>
    obtain ⟨-, rfl | ⟨k', rfl⟩⟩ := frame_queueKick hk <;> trivial
  | pop first who p =>
    cases who with
    | thread b => exact hp.elim
    | worker =>
      obtain ⟨-, ⟨_ | d, hp⟩ | ⟨p', hp⟩⟩ := frame_queuePop .worker s.ring p <;>
        simp [hp, Pc.NoPop, Caller.back]
  | exec first e =>
    obtain ⟨-, ⟨e', hp⟩ | hp | ⟨hp, -⟩⟩ := frame_queueExec s e <;> simp [hp, Pc.NoPop]
  | pause first hq =>
    obtain ⟨-, rfl | ⟨q', rfl⟩⟩ := frame_queuePause hq <;> trivial
  | _ => trivial

/-- Pops counted out of `qDepth` and not processed. -/
theorem processes_step (h : step i a s p = some (s', p')) (hp : p.NoPop) :
    (s'.ring.decs : ℤ) - s'.pool.qProcessed + p.processes =
      s.ring.decs - s.pool.qProcessed + p'.processes := by
  cases steps_of_step h with
  | pop first who p =>
    cases who with
    | thread b => exact hp.elim
    | worker =>
      cases p <;> simp only [queuePop] <;> (try split_ifs) <;>
        (simp [Pc.processes, Caller.back]; try ring)
  | exec first e =>
    cases e <;> simp only [queueExec] <;> (try split_ifs) <;> (simp [Pc.processes]; try ring)
  | push first p =>
    obtain ⟨n, hpool, hdecs, -, hp | ⟨-, hp | ⟨p', hp⟩⟩⟩ := frame_queuePush s p <;>
      simp [hpool, hdecs, hp, Pc.processes]
  | kick first hk =>
    obtain ⟨⟨n, m, -, rfl⟩, rfl | ⟨k', rfl⟩⟩ := frame_queueKick hk <;> simp [Pc.processes]
  | pause first hq =>
    obtain ⟨⟨n, m, b, rfl⟩, rfl | ⟨q', rfl⟩⟩ := frame_queuePause hq <;> simp [Pc.processes]
  | _ => simp [Pc.processes]

/-- Only a worker makes `qDepth` negative, and it looks at `qDepth` before it pauses. -/
theorem hot_step (h : step i a s p = some (s', p')) (hp : p.NoPop)
    (hd : s'.ring.qDepth < 0) : p'.Hot ∨ ¬p.Hot ∧ s.ring.qDepth < 0 := by
  cases steps_of_step h with
  | push first p =>
    obtain ⟨n, -, -, hle, -⟩ := frame_queuePush s p
    exact .inr ⟨id, lt_of_le_of_lt hle hd⟩
  | kick first hk =>
    obtain ⟨⟨n, m, -, rfl⟩, -⟩ := frame_queueKick hk
    exact .inr ⟨id, hd⟩
  | pop first who p =>
    cases who with
    | thread b => exact hp.elim
    | worker =>
      obtain ⟨-, ⟨_ | d, hp⟩ | ⟨p', hp⟩⟩ := frame_queuePop .worker s.ring p <;>
        simp [hp, Pc.Hot, Caller.back]
  | exec first e =>
    obtain ⟨⟨a, w, n, -, -, hs⟩, ⟨e', hp⟩ | hp | ⟨hp, h0⟩⟩ := frame_queueExec s e
    · simp [hp, Pc.Hot]
    · simp [hp, Pc.Hot]
    · simp [hs, h0] at hd
  | pause first hq =>
    obtain ⟨⟨n, m, b, rfl⟩, -⟩ := frame_queuePause hq
    exact .inr ⟨id, hd⟩
  | start => exact .inl trivial
  | callPop => exact .inr ⟨id, hd⟩
  | _ => exact .inr ⟨id, hd⟩

/-- Who owns the mutex after a step took it or had it. -/
theorem locks_step (h : step i a s p = some (s', p')) (hp : p.Locks → s.pool.mMutex = some i) :
    (p'.Locks → s'.pool.mMutex = some i) ∧
      ∀ j, i ≠ j → s.pool.mMutex = some j → s'.pool.mMutex = some j := by
  cases steps_of_step h with
  | push first p =>
    obtain ⟨n, hpool, -, -, hp | ⟨-, hp | ⟨p', hp⟩⟩⟩ := frame_queuePush s p <;>
      simp [hpool, hp, Pc.Locks]
  | pop first who p =>
    obtain ⟨-, ⟨d, hp⟩ | ⟨p', hp⟩⟩ := frame_queuePop who s.ring p <;> rw [hp]
    · refine ⟨fun hl => ?_, by simp⟩
      cases who <;> cases d <;> exact hl.elim
    · exact ⟨False.elim, by simp⟩
  | exec first e =>
    obtain ⟨⟨a, w, n, -, -, hs⟩, ⟨e', hp⟩ | hp | ⟨hp, -⟩⟩ := frame_queueExec s e <;>
      simp [hs, hp, Pc.Locks]
  | kick first hk =>
    rename_i k
    cases k <;> simp only [queueKick] at hk <;> (try split_ifs at hk) <;>
      simp only [Option.some.injEq, Prod.mk.injEq, reduceCtorEq] at hk <;>
      obtain ⟨rfl, rfl⟩ := hk <;> simp_all [Pc.Locks]
  | pause first hq =>
    rename_i q
    cases q <;> simp only [queuePause] at hq <;> (try split_ifs at hq) <;>
      simp only [Option.some.injEq, Prod.mk.injEq] at hq <;> obtain ⟨rfl, rfl⟩ := hq <;>
      simp_all [Pc.Locks]
  | signal => exact ⟨fun _ => hp trivial, by simp⟩
  | _ => simp [Pc.Locks]

/-- Who sleeps after a step fell asleep by it or slept before. -/
theorem asleep_step (h : step i a s p = some (s', p'))
    (hp : s.pool.asleep i = true → p = .pause .waiting) :
    (s'.pool.asleep i = true → p' = .pause .waiting) ∧
      ∀ j, j ≠ i → s'.pool.asleep j = true → s.pool.asleep j = true := by
  cases steps_of_step h with
  | push first p =>
    obtain ⟨n, hpool, -⟩ := frame_queuePush s p
    simp_all
  | kick first hk =>
    obtain ⟨⟨n, m, -, rfl⟩, -⟩ := frame_queueKick hk
    simp_all
  | exec first e =>
    obtain ⟨⟨a, w, n, -, -, hs⟩, -⟩ := frame_queueExec s e
    simp_all
  | pause first hq =>
    rename_i q
    cases q <;> simp only [queuePause] at hq <;> (try split_ifs at hq) <;>
      simp only [Option.some.injEq, Prod.mk.injEq] at hq <;> obtain ⟨rfl, rfl⟩ := hq <;>
      simp_all +contextual [Function.update_of_ne]
  | signal woken =>
    refine ⟨fun hs => ?_, by simp +contextual⟩
    simp only [Bool.and_eq_true] at hs
    exact absurd (hp hs.1) (by simp)
  | spurious => simp +contextual [Function.update_of_ne]
  | _ => simp_all

/-- A signal wakes a sleeper, if there is one. -/
theorem woken_step (h : step i a s p = some (s', p')) (hp : p = .kick .resumeSignal)
    (hs : ∃ j, s.pool.asleep j = true) :
    ∃ j, s.pool.asleep j = true ∧ s'.pool.asleep j = false := by
  subst hp
  cases steps_of_step h with
  | kick first hk => simp [queueKick] at hk
  | signal woken hw =>
    obtain ⟨j, hj, hwj⟩ := hw hs
    exact ⟨j, hj, by simp [hwj]⟩

/-- How a worker gets to the wait : it read `qProcessed`, and then `qAttempt` no larger. -/
theorem settled_step (h : step i a s p = some (s', p'))
    (hp : p'.Settled (s'.pool.asleep i)) :
    s'.pool.qProcessed = s.pool.qProcessed ∧
      (p' = .pause (.processed s.pool.qAttempt) ∨
        (∃ n, p = .pause (.attempt n) ∧ s.pool.qAttempt ≤ n) ∨
        (∃ n, p = .pause (.processed n) ∧ n ≤ s.pool.qProcessed) ∨
        p = .pause .sleep) := by
  cases steps_of_step h with
  | push first p =>
    obtain ⟨n, -, -, -, hp' | ⟨-, hp' | ⟨p', hp'⟩⟩⟩ := frame_queuePush s p <;>
      simp [hp', Pc.Settled] at hp
  | pop first who p =>
    obtain ⟨-, ⟨d, hp'⟩ | ⟨p', hp'⟩⟩ := frame_queuePop who s.ring p <;> rw [hp'] at hp
    · cases who <;> cases d <;> exact hp.elim
    · exact hp.elim
  | exec first e =>
    obtain ⟨-, ⟨e', hp'⟩ | hp' | ⟨hp', -⟩⟩ := frame_queueExec s e <;>
      simp [hp', Pc.Settled] at hp
  | kick first hk =>
    obtain ⟨-, rfl | ⟨k', rfl⟩⟩ := frame_queueKick hk <;> exact hp.elim
  | pause first hq =>
    rename_i q
    cases q <;> simp only [queuePause] at hq <;> (try split_ifs at hq) <;>
      simp only [Option.some.injEq, Prod.mk.injEq] at hq <;> obtain ⟨rfl, rfl⟩ := hq <;>
      simp_all [Pc.Settled]
  | spurious => simp [Pc.Settled] at hp
  | _ => exact hp.elim

/-- What a pusher does that finds all workers inactive. -/
theorem willSignal_step (h : step i a s p = some (s', p')) (hp : p.WillSignal s.pool.qActive)
    (hne : p ≠ .kick .resumeSignal) (hmax : s.pool.qMaxActive ≠ 0)
    (hpos : s.pool.qInactive ≠ 0) (hall : s.pool.qActive ≤ s.pool.qInactive) :
    p'.WillSignal s'.pool.qActive := by
  cases steps_of_step h with
  | kick first hk =>
    rename_i k
    cases k <;> simp only [queueKick] at hk <;> (try split_ifs at hk) <;>
      simp only [Option.some.injEq, Prod.mk.injEq, reduceCtorEq] at hk <;>
      obtain ⟨rfl, rfl⟩ := hk <;> simp_all [Pc.WillSignal]
    omega
  | signal => exact (hne rfl).elim
  | _ => exact hp.elim

/-- What a pusher does that finds no worker. -/
theorem willCreate_step (h : step i a s p = some (s', p')) (hp : p.WillCreate)
    (hmax : 1 ≤ s.pool.qMaxActive) (hcr : s.pool.qCreated = 0) (hact : s.pool.qActive = 0)
    (hin : s.pool.qInactive = 0) (hwork : s.pool.qWorking = 0) :
    p'.WillCreate ∨ s'.pool.starting ≠ 0 := by
  cases steps_of_step h with
  | kick first hk =>
    have hm : s.pool.qMaxActive ≠ 0 := by omega
    have hlt : 0 < s.pool.qMaxActive := by omega
    rename_i k
    cases k <;> simp only [queueKick] at hk <;> (try split_ifs at hk) <;>
      simp only [Option.some.injEq, Prod.mk.injEq, reduceCtorEq] at hk <;>
      obtain ⟨rfl, rfl⟩ := hk <;> simp_all [Pc.WillCreate]
  | _ => exact hp.elim

theorem const_step (h : step i a s p = some (s', p')) :
    s'.pool.qCreated = s.pool.qCreated ∧ s'.pool.qMaxActive = s.pool.qMaxActive := by
  cases steps_of_step h with
  | push first p =>
    obtain ⟨n, hpool, -⟩ := frame_queuePush s p
    simp [hpool]
  | kick first hk =>
    obtain ⟨⟨n, m, -, rfl⟩, -⟩ := frame_queueKick hk
    exact ⟨rfl, rfl⟩
  | exec first e =>
    obtain ⟨⟨a, w, n, -, -, hs⟩, -⟩ := frame_queueExec s e
    simp [hs]
  | pause first hq =>
    obtain ⟨⟨n, m, b, rfl⟩, -⟩ := frame_queuePause hq
    exact ⟨rfl, rfl⟩
  | _ => exact ⟨rfl, rfl⟩

theorem attempt_step (h : step i a s p = some (s', p')) {n : ℤ}
    (hp : p' = .pause (.attempt n)) : n ≤ s'.pool.qProcessed := by
  cases steps_of_step h with
  | push first p =>
    obtain ⟨m, -, -, -, hp' | ⟨-, hp' | ⟨p', hp'⟩⟩⟩ := frame_queuePush s p <;> simp [hp'] at hp
  | pop first who p =>
    obtain ⟨-, ⟨d, hp'⟩ | ⟨p', hp'⟩⟩ := frame_queuePop who s.ring p <;> rw [hp'] at hp
    · cases who <;> cases d <;> cases hp
    · cases hp
  | exec first e =>
    obtain ⟨-, ⟨e', hp'⟩ | hp' | ⟨hp', -⟩⟩ := frame_queueExec s e <;> simp [hp'] at hp
  | kick first hk =>
    obtain ⟨-, rfl | ⟨k', rfl⟩⟩ := frame_queueKick hk <;> cases hp
  | pause first hq =>
    rename_i q
    cases q <;> simp only [queuePause] at hq <;> (try split_ifs at hq) <;>
      simp only [Option.some.injEq, Prod.mk.injEq] at hq <;> obtain ⟨rfl, rfl⟩ := hq <;>
      simp at hp
    exact hp ▸ le_rfl
  | _ => cases hp

end Step

/-! ## Counters over a run -/

variable [DecidableEq ι] [Fintype ι]

section Runs

variable {ok : State ι α → ι × Act ι α → Prop} {qSpace : ℕ} {m : ℤ} {c : State ι α}

theorem attempts_eq_tally (h : Runs next ok (init qSpace m) c) :
    c.shared.pool.qAttempt - c.shared.ring.incs = tally Pc.attempts c.pc :=
  h.counter_eq_tally (fun s => s.pool.qAttempt - s.ring.incs) _ (by simp [init, tally, Pc.attempts])
    fun _ _ _ _ _ _ hl => (counted_step hl).attempt

theorem works_eq_tally (h : Runs next ok (init qSpace m) c) :
    c.shared.pool.qWorking = tally Pc.works c.pc :=
  h.counter_eq_tally (fun s => s.pool.qWorking) _ (by simp [init, tally, Pc.works])
    fun _ _ _ _ _ _ hl => (counted_step hl).working

theorem actives_eq_tally (h : Runs next ok (init qSpace m) c) :
    c.shared.pool.qActive = tally Pc.actives c.pc :=
  h.counter_eq_tally (fun s => s.pool.qActive) _ (by simp [init, tally, Pc.actives])
    fun _ _ _ _ _ _ hl => (counted_step hl).active

theorem inactives_eq_tally (h : Runs next ok (init qSpace m) c) :
    c.shared.pool.qInactive = tally Pc.inactives c.pc :=
  h.counter_eq_tally (fun s => s.pool.qInactive) _ (by simp [init, tally, Pc.inactives])
    fun _ _ _ _ _ _ hl => (counted_step hl).inactive

end Runs

/-- The runs in which only workers pop. -/
abbrev WorkerRuns (qSpace : ℕ) (m : ℤ) : State ι α → Prop :=
  Runs next (fun _ ia => NoPop ia.2) (init qSpace m)

section WorkerRuns

variable {qSpace : ℕ} {m : ℤ} {c : State ι α}

theorem noPop_of_runs (h : WorkerRuns qSpace m c) (i : ι) : (c.pc i).NoPop := by
  refine h.invariant (I := fun c : State ι α => ∀ i, (c.pc i).NoPop) (fun _ => trivial) ?_ i
  rintro c ⟨j, a⟩ c' hc ha hn i
  obtain ⟨s', p', hl, rfl⟩ := threadNext_eq_some hn
  simp only [Function.update_apply]
  split_ifs
  · exact noPop_step hl ha (hc j)
  · exact hc i

theorem processes_eq_tally (h : WorkerRuns qSpace m c) :
    (c.shared.ring.decs : ℤ) - c.shared.pool.qProcessed = tally Pc.processes c.pc :=
  h.counter_eq_tally_of (fun s => (s.ring.decs : ℤ) - s.pool.qProcessed) _
    (by simp [init, tally, Pc.processes])
    fun c i _ _ _ hc hl => processes_step hl (noPop_of_runs hc i)

theorem qDepth_eq (h : WorkerRuns qSpace m c) :
    c.shared.ring.qDepth = c.shared.ring.incs - c.shared.ring.decs := by
  have := h.counter_eq_tally (fun s => s.ring.qDepth - s.ring.incs + s.ring.decs) (fun _ => 0)
    (by simp [init, tally]) fun _ _ _ _ _ _ hl => by simpa using qDepth_step hl
  simp only [tally, Finset.sum_const_zero] at this
  omega

end WorkerRuns

/-! ## The invariant -/

/-- All workers there are, one at least, are about to sleep or asleep. -/
structure AllSettled (c : State ι α) : Prop where
  starting : c.shared.pool.starting = 0
  worker : ∃ i, (c.pc i).Worker
  settled : ∀ i, (c.pc i).Worker → (c.pc i).Settled (c.shared.pool.asleep i)

/-- The invariant of the worker pool. -/
structure PoolInv (c : State ι α) : Prop where
  qCreated : c.shared.pool.qCreated = 0
  qMaxActive : 1 ≤ c.shared.pool.qMaxActive
  locks : ∀ i, (c.pc i).Locks → c.shared.pool.mMutex = some i
  asleep : ∀ i, c.shared.pool.asleep i = true → c.pc i = .pause .waiting
  attempt : ∀ i n, c.pc i = .pause (.attempt n) → n ≤ c.shared.pool.qProcessed
  /-- A worker that made `qDepth` negative is still at it. -/
  hot : c.shared.ring.qDepth < 0 → ∃ i, (c.pc i).Hot
  /-- With all workers settled, a pusher will signal, or all pushes counted are processed, or
  a worker will find out that they are not. -/
  settled : AllSettled c → (∃ i, (c.pc i).WillSignal c.shared.pool.qActive) ∨
    c.shared.ring.incs ≤ c.shared.pool.qProcessed ∨
    ∃ i n, c.pc i = .pause (.processed n) ∧ c.shared.ring.incs ≤ n
  /-- With no worker, nothing is counted, or a pusher will create one. -/
  created : (∀ i, ¬(c.pc i).Worker) → c.shared.pool.starting = 0 →
    c.shared.ring.incs = 0 ∨ ∃ i, (c.pc i).WillCreate

section PoolInv

variable {qSpace : ℕ} {m : ℤ} {c : State ι α} {i : ι} {a : Act ι α} {s' : Shared ι α} {p' : Pc α}

omit [DecidableEq ι] [Fintype ι] in
theorem Pc.Settled.mono {p : Pc α} {b b' : Bool} (h : p.Settled b) (hb : b = true → b' = true) :
    p.Settled b' := by
  unfold Pc.Settled at h
  split at h
  · trivial
  · trivial
  · exact hb h
  · exact h.elim

omit [DecidableEq ι] [Fintype ι] in
theorem Pc.WillSignal.not_worker {p : Pc α} {n : ℤ} (h : p.WillSignal n) : ¬p.Worker := by
  unfold Pc.WillSignal at h
  split at h <;> first | exact id | exact h.elim

/-- A push is counted in `qAttempt` before it is in `qDepth`. -/
theorem incs_le_qAttempt (h : WorkerRuns qSpace m c) :
    (c.shared.ring.incs : ℤ) ≤ c.shared.pool.qAttempt := by
  have := attempts_eq_tally h
  omega

/-- With all workers settled, all are counted in `qInactive`. -/
theorem AllSettled.qInactive (hs : AllSettled c) (h : WorkerRuns qSpace m c) :
    c.shared.pool.qInactive ≠ 0 ∧ c.shared.pool.qActive ≤ c.shared.pool.qInactive := by
  have heq : ∀ i, Pc.actives (c.pc i) = Pc.inactives (c.pc i) := by
    intro i
    have hi := hs.settled i
    cases hp : c.pc i with
    | pause q => cases q <;> simp_all [Pc.Worker, Pc.Settled, Pc.actives, Pc.inactives]
    | exec e => exact (hp ▸ hi (hp ▸ trivial)).elim
    | pop who p =>
      cases who with
      | worker => exact (hp ▸ hi (hp ▸ trivial)).elim
      | thread b => rfl
    | _ => rfl
  have hact := actives_eq_tally h
  have hin := inactives_eq_tally h
  rw [tally_congr heq] at hact
  obtain ⟨i, hi⟩ := hs.worker
  have hle := le_tally Pc.inactives c.pc i
  have hpos : Pc.inactives (c.pc i) ≠ 0 := by
    have := hs.settled i hi
    cases hp : c.pc i with
    | pause q => cases q <;> simp_all [Pc.Settled, Pc.inactives]
    | _ => simp_all [Pc.Settled]
  omega

/-- The signal of a pusher that finds all workers settled wakes one. -/
theorem not_allSettled_of_signal (hc : PoolInv c) (hs : AllSettled c)
    (hp : c.pc i = .kick .resumeSignal) (hl : step i a c.shared (c.pc i) = some (s', p')) :
    ¬AllSettled ⟨s', Function.update c.pc i p'⟩ := by
  intro hs'
  have hmutex : c.shared.pool.mMutex = some i := hc.locks i (hp ▸ trivial)
  obtain ⟨j, hj⟩ := hs.worker
  have hasleep : c.shared.pool.asleep j = true := by
    have hset := hs.settled j hj
    have hlock := hc.locks j
    -- a worker that has yet to sleep owns the mutex
    have hij : (c.pc j).Locks → False := by
      intro hlj
      rw [hmutex, Option.some.injEq] at hlock
      rw [← hlock hlj, hp] at hj
      exact hj
    cases hpj : c.pc j with
    | pause q => cases q <;> simp_all [Pc.Settled, Pc.Locks]
    | _ => simp_all [Pc.Settled]
  obtain ⟨k, hk, hk'⟩ := woken_step hl hp ⟨j, hasleep⟩
  have hpk := hc.asleep k hk
  have hki : k ≠ i := by
    rintro rfl
    simp [hp] at hpk
  have := hs'.settled k
  simp [Function.update_of_ne hki, hpk, Pc.Worker, Pc.Settled, hk'] at this

theorem settled_next_of_worker (hc : PoolInv c) (h : WorkerRuns qSpace m c)
    (hl : step i a c.shared (c.pc i) = some (s', p')) (hw : (c.pc i).Worker)
    (hs' : AllSettled ⟨s', Function.update c.pc i p'⟩) :
    (∃ j, (Function.update c.pc i p' j).WillSignal s'.pool.qActive) ∨
      (s'.ring.incs : ℤ) ≤ s'.pool.qProcessed ∨
      ∃ j n, Function.update c.pc i p' j = .pause (.processed n) ∧ (s'.ring.incs : ℤ) ≤ n := by
  obtain ⟨hw', hincs, hstart, hact, hasleep⟩ := frame_of_worker hl hw
  have hset := hs'.settled i
  simp only [Function.update_self] at hset
  have hle := incs_le_qAttempt h
  obtain ⟨hproc, hcases⟩ := settled_step hl (hset hw')
  have hold : (c.pc i).Settled (c.shared.pool.asleep i) → AllSettled c := by
    refine fun hi => ⟨hstart ▸ hs'.starting, ⟨i, hw⟩, fun j hj => ?_⟩
    by_cases hji : j = i
    · exact hji ▸ hi
    · have := hs'.settled j
      simp only [Function.update_of_ne hji, hasleep j hji] at this
      exact this hj
  -- with all settled before, what was to come is still to come
  have hkeep : AllSettled c → c.pc i ≠ .exec .start →
      (∀ n, c.pc i = .pause (.processed n) → n ≤ c.shared.pool.qProcessed) →
      (∃ j, (Function.update c.pc i p' j).WillSignal s'.pool.qActive) ∨
        (s'.ring.incs : ℤ) ≤ s'.pool.qProcessed ∨
        ∃ j n, Function.update c.pc i p' j = .pause (.processed n) ∧ (s'.ring.incs : ℤ) ≤ n := by
    intro hs hne hn
    rw [hincs, hproc]
    rcases hc.settled hs with ⟨j, hj⟩ | hdone | ⟨j, n, hj, hjn⟩
    · have hji : j ≠ i := by
        rintro rfl
        exact hj.not_worker hw
      rw [hact.resolve_left hne]
      exact .inl ⟨j, by rwa [Function.update_of_ne hji]⟩
    · exact .inr (.inl hdone)
    · by_cases hji : j = i
      · subst hji
        exact .inr (.inl (hjn.trans (hn n hj)))
      · exact .inr (.inr ⟨j, n, by rwa [Function.update_of_ne hji], hjn⟩)
  rcases hcases with hp' | ⟨n, hp, hn⟩ | ⟨n, hp, hn⟩ | hp
  · exact .inr (.inr ⟨i, c.shared.pool.qAttempt, by simp [hp'], by omega⟩)
  · have := hc.attempt i n hp
    exact .inr (.inl (by omega))
  · refine hkeep (hold (hp ▸ trivial)) (by simp [hp]) fun n' hn' => ?_
    obtain rfl : n = n' := by simpa [hp] using hn'
    exact hn
  · exact hkeep (hold (hp ▸ trivial)) (by simp [hp]) (by simp [hp])

theorem settled_next_of_not_worker (hc : PoolInv c) (h : WorkerRuns qSpace m c)
    (hl : step i a c.shared (c.pc i) = some (s', p')) (hw : ¬(c.pc i).Worker)
    (hs' : AllSettled ⟨s', Function.update c.pc i p'⟩) :
    (∃ j, (Function.update c.pc i p' j).WillSignal s'.pool.qActive) ∨
      (s'.ring.incs : ℤ) ≤ s'.pool.qProcessed ∨
      ∃ j n, Function.update c.pc i p' j = .pause (.processed n) ∧ (s'.ring.incs : ℤ) ≤ n := by
  rcases frame_of_not_worker hl hw with hp' | ⟨hw', hact, hproc, hstart, hincs⟩
  · have := hs'.settled i
    simp [hp', Pc.Worker, Pc.Settled] at this
  have hs : AllSettled c := by
    refine ⟨Nat.le_zero.mp (hs'.starting ▸ hstart), ?_, fun j hj => ?_⟩
    · obtain ⟨j, hj⟩ := hs'.worker
      have hji : j ≠ i := by
        rintro rfl
        simp only [Function.update_self] at hj
        exact hw' hj
      exact ⟨j, by simpa only [Function.update_of_ne hji] using hj⟩
    · have hji : j ≠ i := by
        rintro rfl
        exact hw hj
      have := hs'.settled j
      simp only [Function.update_of_ne hji] at this
      exact (this hj).mono ((asleep_step hl (hc.asleep i)).2 j hji)
  rcases hincs with hincs | hp'
  · rcases hc.settled hs with ⟨j, hj⟩ | hdone | ⟨j, n, hj, hjn⟩
    · by_cases hji : j = i
      · subst hji
        by_cases hsig : c.pc j = .kick .resumeSignal
        · exact (not_allSettled_of_signal hc hs hsig hl hs').elim
        · obtain ⟨hpos, hall⟩ := hs.qInactive h
          have := hc.qMaxActive
          have := willSignal_step hl hj hsig (by omega) hpos hall
          exact .inl ⟨j, by simpa using this⟩
      · exact .inl ⟨j, by rwa [Function.update_of_ne hji, hact]⟩
    · exact .inr (.inl (by omega))
    · have hji : j ≠ i := by
        rintro rfl
        exact hw (hj ▸ trivial)
      exact .inr (.inr ⟨j, n, by rwa [Function.update_of_ne hji], by omega⟩)
  · exact .inl ⟨i, by simp [hp', Pc.WillSignal]⟩

omit [DecidableEq ι] [Fintype ι] in
theorem Pc.counts_of_not_worker {p : Pc α} (h : ¬p.Worker) :
    p.works = 0 ∧ p.actives = 0 ∧ p.inactives = 0 := by
  cases p with
  | exec | pause => exact (h trivial).elim
  | pop who p =>
    cases who with
    | worker => exact (h trivial).elim
    | thread b => exact ⟨rfl, rfl, rfl⟩
  | _ => exact ⟨rfl, rfl, rfl⟩

theorem created_next (hc : PoolInv c) (h : WorkerRuns qSpace m c)
    (hl : step i a c.shared (c.pc i) = some (s', p'))
    (hnone : ∀ j, ¬(Function.update c.pc i p' j).Worker) (hstart' : s'.pool.starting = 0) :
    s'.ring.incs = 0 ∨ ∃ j, (Function.update c.pc i p' j).WillCreate := by
  have hp' : ¬p'.Worker := by simpa using hnone i
  have hw : ¬(c.pc i).Worker := fun hw => hp' (frame_of_worker hl hw).1
  rcases frame_of_not_worker hl hw with rfl | ⟨-, -, -, hstart, hincs⟩
  · exact (hp' trivial).elim
  have hnone' : ∀ j, ¬(c.pc j).Worker := by
    intro j
    by_cases hji : j = i
    · exact hji ▸ hw
    · have := hnone j
      rwa [Function.update_of_ne hji] at this
  rcases hincs with hincs | rfl
  · rcases hc.created hnone' (by omega) with h0 | ⟨j, hj⟩
    · exact .inl (hincs.trans h0)
    · by_cases hji : j = i
      · subst hji
        have hwork := works_eq_tally h
        have hact := actives_eq_tally h
        have hin := inactives_eq_tally h
        rw [tally_eq_zero fun k => (Pc.counts_of_not_worker (hnone' k)).1] at hwork
        rw [tally_eq_zero fun k => (Pc.counts_of_not_worker (hnone' k)).2.1] at hact
        rw [tally_eq_zero fun k => (Pc.counts_of_not_worker (hnone' k)).2.2] at hin
        rcases willCreate_step hl hj hc.qMaxActive hc.qCreated hact hin hwork with hj' | hne
        · exact .inr ⟨j, by simpa using hj'⟩
        · exact (hne hstart').elim
      · exact .inr ⟨j, by rwa [Function.update_of_ne hji]⟩
  · exact .inr ⟨i, by simp [Pc.WillCreate]⟩

theorem hot_next (hc : PoolInv c) (h : WorkerRuns qSpace m c)
    (hl : step i a c.shared (c.pc i) = some (s', p')) (hd : s'.ring.qDepth < 0) :
    ∃ j, (Function.update c.pc i p' j).Hot := by
  rcases hot_step hl (noPop_of_runs h i) hd with hp' | ⟨hp, hd'⟩
  · exact ⟨i, by simpa using hp'⟩
  · obtain ⟨j, hj⟩ := hc.hot hd'
    have hji : j ≠ i := by
      rintro rfl
      exact hp hj
    exact ⟨j, by rwa [Function.update_of_ne hji]⟩

theorem PoolInv.next {c' : State ι α} {ia : ι × Act ι α} (hc : PoolInv c)
    (h : WorkerRuns qSpace m c) (hn : next c ia = some c') : PoolInv c' := by
  obtain ⟨i, a⟩ := ia
  obtain ⟨s', p', hl, rfl⟩ := threadNext_eq_some hn
  obtain ⟨hcr, hmax⟩ := const_step hl
  have hlocks := locks_step hl (hc.locks i)
  have hasleep := asleep_step hl (hc.asleep i)
  refine ⟨hcr.trans hc.qCreated, hmax ▸ hc.qMaxActive, fun j => ?_, fun j => ?_, fun j n => ?_,
    hot_next hc h hl, fun hs' => ?_, created_next hc h hl⟩
  · by_cases hji : j = i
    · subst hji
      simpa using hlocks.1
    · simp only [Function.update_of_ne hji]
      exact fun hj => hlocks.2 j (Ne.symm hji) (hc.locks j hj)
  · by_cases hji : j = i
    · subst hji
      simpa using hasleep.1
    · simp only [Function.update_of_ne hji]
      exact fun hj => hc.asleep j (hasleep.2 j hji hj)
  · by_cases hji : j = i
    · subst hji
      simpa using attempt_step hl
    · simp only [Function.update_of_ne hji]
      exact fun hj => (hc.attempt j n hj).trans (qProcessed_mono hl)
  · by_cases hw : (c.pc i).Worker
    · exact settled_next_of_worker hc h hl hw hs'
    · exact settled_next_of_not_worker hc h hl hw hs'

end PoolInv

theorem poolInv_of_runs {qSpace : ℕ} {m : ℤ} (hm : 1 ≤ m) {c : State ι α}
    (h : WorkerRuns qSpace m c) : PoolInv c := by
  induction h with
  | start => constructor <;> simp [init, hm, Pc.Locks]
  | step ia hc _ hn ih => exact ih.next hc hn

/-- When no thread is in a push, all workers that started sleep and none is to start, then
`qDepth` is 0. -/
theorem qDepth_eq_zero_of_asleep {qSpace : ℕ} {m : ℤ} (hm : 1 ≤ m) {c : State ι α}
    (h : WorkerRuns qSpace m c)
    (hrest : ∀ i, c.pc i = .idle ∨ c.pc i = .pause .waiting ∧ c.shared.pool.asleep i = true)
    (hstart : c.shared.pool.starting = 0) : c.shared.ring.qDepth = 0 := by
  have hc := poolInv_of_runs hm h
  have hdepth := qDepth_eq h
  have hproc := processes_eq_tally h
  have hnonneg : 0 ≤ c.shared.ring.qDepth := by
    by_contra hneg
    obtain ⟨i, hi⟩ := hc.hot (by omega)
    rcases hrest i with hp | ⟨hp, -⟩ <;> simp [hp, Pc.Hot] at hi
  have hincs : (c.shared.ring.incs : ℤ) ≤ c.shared.ring.decs := by
    by_cases hw : ∃ i, (c.pc i).Worker
    · have hs : AllSettled c := by
        refine ⟨hstart, hw, fun i hi => ?_⟩
        rcases hrest i with hp | ⟨hp, ha⟩
        · exact (hp ▸ hi).elim
        · rw [hp]
          exact ha
      rcases hc.settled hs with ⟨i, hi⟩ | hdone | ⟨i, n, hi, -⟩
      · rcases hrest i with hp | ⟨hp, -⟩ <;> simp [hp, Pc.WillSignal] at hi
      · omega
      · rcases hrest i with hp | ⟨hp, -⟩ <;> simp [hp] at hi
    · rcases hc.created (fun i hi => hw ⟨i, hi⟩) hstart with h0 | ⟨i, hi⟩
      · omega
      · rcases hrest i with hp | ⟨hp, -⟩ <;> simp [hp, Pc.WillCreate] at hi
  omega

/-- Thread 0 pushes and creates a worker, and thread 1 runs the push and sleeps. -/
theorem qDepth_eq_zero_of_asleep_worker :
    ∃ c : State (Fin 2) ℕ, c.shared.ring.popped = [some 7] ∧
      c.shared.pool.asleep 1 = true ∧ c.shared.ring.qDepth = 0 := by
  obtain ⟨c, hc, h0, h1, ha, hs, hp⟩ : ∃ c : State (Fin 2) ℕ,
      Runs next (fun _ ia => NoPop ia.2) (init 2 1) c ∧ c.pc 0 = .idle ∧ c.pc 1 = .pause .waiting ∧
        c.shared.pool.asleep 1 = true ∧ c.shared.pool.starting = 0 ∧
        c.shared.ring.popped = [some 7] :=
    exists_runs_of_runSchedule ((0, .push 7 true) :: List.replicate 16 (0, .go true) ++
      (1, .start) :: List.replicate 22 (1, .go true)) (by decide)
  exact ⟨c, hp, ha, qDepth_eq_zero_of_asleep le_rfl hc
    (Fin.forall_fin_two.mpr ⟨.inl h0, .inr ⟨h1, ha⟩⟩) hs⟩

end Queue

end Webxs
