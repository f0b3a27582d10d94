import Webxs.FreeList
import Webxs.Interleaving

/-!
# The table of a poll thread

A poll thread (`xs_Pollthread3`, `xs_socket.h`) keeps its sockets in two arrays, `pfd` for
`poll` and `pss` for the callbacks. An entry is known outside by its token : `sidmap` leads from
a token to the index, and the tokens that are free are linked through the same map, from
`freesid`. An event pass visits the entries in order, lets the callbacks work on the table, and
moves the entries that are still open down over those that are not.

A step of the model is what the thread does between two places at which it calls back, returns
from a callback, or reads `running`; a callback works on the table by any number of operations
(`Op`). Another thread can ask the poll thread to stop before any step. An `assert` that fails
stops the model. What `xs_pollfd_Processing` and the accept queue say is left open : sockets are
added, and the thread goes on or ends, as they come. Addresses are left out, and so is what a
listener accepts, which goes to the queue.
-/

namespace Webxs

namespace Poll

/-- A socket is valid (`xs_sock_valid`) if it is above 0. -/
def sockValid (fd : ℤ) : Bool :=
  0 < fd

/-- An element of `pfd`. -/
structure Pollfd where
  fd : ℤ
  events : BitVec 16
  revents : BitVec 16
  /-- History : which registration the socket is from. -/
  reg : ℕ

/-- An element of `pss`. -/
structure Poss where
  sid : ℕ
  cfd : ℕ
  /-- History : which registration the element is from. -/
  reg : ℕ

/-- `POLLIN`. -/
def POLLIN : BitVec 16 := 1

/-- `POLLOUT`. -/
def POLLOUT : BitVec 16 := 4

/-- `POLLERR`. -/
def POLLERR : BitVec 16 := 8

/-- `POLLHUP`. -/
def POLLHUP : BitVec 16 := 16

/-- `POLLNVAL`. -/
def POLLNVAL : BitVec 16 := 32

/-- An `xs_pollfd`. -/
structure Table where
  pfd : ℕ → Pollfd
  pss : ℕ → Poss
  sidmap : ℕ → ℤ
  freesid : ℤ
  pfdTotal : ℕ
  pfdMax : ℕ
  pfdCount : ℕ
  listenCount : ℕ
  running : ℤ

/-! ## The operations of a callback -/

namespace Table

/-- `xptok_ind`; `none` is -1. -/
def xptokInd (xp : Table) (xptoken : ℤ) : Option ℕ :=
  if xptoken < 0 ∨ (xp.pfdTotal : ℤ) ≤ xptoken then none
  else
    let i := xp.sidmap xptoken.toNat
    if i < 0 ∨ (xp.pfdCount : ℤ) ≤ i then none else some i.toNat

/-- Element `i` of `pfd` changed. -/
def setPfd (xp : Table) (i : ℕ) (f : Pollfd → Pollfd) : Table :=
  { xp with pfd := Function.update xp.pfd i (f (xp.pfd i)) }

/-- Element `i` of `pss` changed. -/
def setPss (xp : Table) (i : ℕ) (f : Poss → Poss) : Table :=
  { xp with pss := Function.update xp.pss i (f (xp.pss i)) }

/-- `pfd[i].fd=0; pss[i].cfd=0`. -/
def closeAt (xp : Table) (i : ℕ) : Table :=
  (xp.setPfd i ({ · with fd := 0 })).setPss i ({ · with cfd := 0 })

/-- `xs_pollfd_clear`. -/
def clear (xp : Table) (xptoken : ℤ) : Table :=
  match xp.xptokInd xptoken with
  | none => xp
  | some i => xp.closeAt i

/-- `xs_pollfd_setsocket_userdata`. -/
def setsocketUserdata (xp : Table) (xptoken : ℤ) (data : ℕ) : Table :=
  match xp.xptokInd xptoken with
  | none => xp
  | some i => xp.setPss i ({ · with cfd := data })

/-- `xs_pollfd_setsocket_events`. -/
def setsocketEvents (xp : Table) (xptoken : ℤ) (events : BitVec 16) : Table :=
  match xp.xptokInd xptoken with
  | none => xp
  | some i => xp.setPfd i ({ · with events })

/-- Entry `i` is moved to `ip`, and its token leads there, or its token is freed. -/
def compact (xp : Table) (i ip : ℕ) : Table :=
  let sid := (xp.pss i).sid
  let valid := sockValid (xp.pfd i).fd
  { xp with
    pfd := Function.update xp.pfd ip (xp.pfd i)
    pss := Function.update xp.pss ip (xp.pss i)
    sidmap := Function.update xp.sidmap sid (if valid then (ip : ℤ) else xp.freesid)
    freesid := if valid then xp.freesid else sid }

/-- `xs_pollfd_setrunning`. -/
def setrunning (xp : Table) (newstate : ℤ) : Table :=
  if 0 ≤ xp.running then { xp with running := newstate } else xp

end Table

/-- An operation of a callback on the table. -/
inductive Op
  | clear (xptoken : ℤ)
  | setUserdata (xptoken : ℤ) (data : ℕ)
  | setEvents (xptoken : ℤ) (events : BitVec 16)
  deriving DecidableEq

namespace Op

/-- The token an operation is for. -/
def xptoken : Op → ℤ
  | .clear xptoken => xptoken
  | .setUserdata xptoken _ => xptoken
  | .setEvents xptoken _ => xptoken

/-- What an operation does. -/
def apply (xp : Table) : Op → Table
  | .clear xptoken => xp.clear xptoken
  | .setUserdata xptoken data => xp.setsocketUserdata xptoken data
  | .setEvents xptoken events => xp.setsocketEvents xptoken events

end Op

/-! ## The thread -/

/-- `exs_pollfd_New` and the other messages about an entry. -/
inductive Msg
  | new
  | read
  | write
  | error
  | delete
  deriving DecidableEq

/-- A terminal notification. -/
def Msg.Terminal : Msg → Prop
  | .error | .delete => True
  | _ => False

instance (m : Msg) : Decidable m.Terminal := by
  cases m <;> unfold Msg.Terminal <;> infer_instance

/-- What the outside sees of a run. -/
inductive Event
  /-- The idle callback is called. -/
  | idle
  /-- The callback is called, for a registration. -/
  | call (reg : ℕ) (message : Msg) (sockfd : ℤ) (xptoken : ℤ) (userdata : ℕ)
  /-- The socket of a registration is closed by the thread. -/
  | close (reg : ℕ)
  deriving DecidableEq

/-- Where the thread is. -/
inductive Pc
  /-- At `xs_queue_pop`. -/
  | queue
  /-- In the callback for a new entry. -/
  | adding (i : ℕ) (listener : Bool) (userdata : ℕ)
  /-- In the idle callback. -/
  | idling
  /-- At `poll`. -/
  | poll
  /-- At `if (rret && running>0)`. -/
  | polled (rret : ℤ)
  /-- At the head of the pass, for entry `i`; `ip` entries are kept. -/
  | entry (i ip : ℕ)
  /-- In a callback for entry `i`. -/
  | calling (i ip : ℕ) (sock : ℤ) (revent : BitVec 16) (message : Msg)
  /-- Where entry `i` is moved. -/
  | compact (i ip : ℕ)
  /-- At `if (running<0) break`. -/
  | check (i ip : ℕ)
  /-- Behind the loop, `i` entries are visited. -/
  | passed (i ip : ℕ)
  /-- At the end of a turn. -/
  | turn
  /-- At the head of the clean-up. -/
  | cleaning (i : ℕ)
  /-- In the callback of the clean-up. -/
  | deleting (i : ℕ) (sock : ℤ)
  | done
  deriving DecidableEq

/-- The thread, its table, and the history of the run. -/
structure State where
  xp : Table
  pc : Pc
  /-- How many sockets were registered. -/
  regs : ℕ
  /-- History : calls and closed sockets. -/
  log : List Event
  /-- History : the operations of the callbacks. -/
  ops : List Op
  /-- History : the tokens of the entries visited by passes, and whether their sockets were valid
  after their own events. -/
  visited : List (ℕ × Bool)

/-- A step. -/
inductive Act
  /-- A socket is popped from the queue. -/
  | add (sock : ℤ) (userdata : ℕ) (listener : Bool)
  /-- `poll` returns. -/
  | poll (rret : ℤ) (revents : ℕ → BitVec 16)
  /-- The callback works on the table. -/
  | op (o : Op)
  /-- The callback returns. -/
  | ret
  /-- The next step of the thread outside of callbacks. -/
  | step
  /-- The end of a turn, with what `xs_pollfd_Processing` says. -/
  | again (processing : Bool)
  /-- `xs_pollfd_stop` in another thread. -/
  | stop

namespace State

/-- The callback is called; `running` is 3 while it runs. -/
def call (s : State) (e : Event) (pc : Pc) : State :=
  { s with xp := s.xp.setrunning 3, log := s.log ++ [e], pc }

/-- The callback has returned. -/
def back (s : State) (pc : Pc) : State :=
  { s with xp := s.xp.setrunning 1, pc }

/-- The callback is called for entry `i` of a pass. -/
def callEntry (s : State) (i ip : ℕ) (sock : ℤ) (revent : BitVec 16) (message : Msg) : State :=
  s.call (.call (s.xp.pss i).reg message sock (s.xp.pss i).sid (s.xp.pss i).cfd)
    (.calling i ip sock revent message)

/-- `xs_pollfd_internaladd` up to the callback. -/
def internaladd (s : State) (sock : ℤ) (userdata : ℕ) (listener : Bool) : Option State :=
  let xp := s.xp
  let i := if listener then xp.listenCount else xp.pfdMax
  let pfd := if listener then Function.update xp.pfd i (xp.pfd xp.pfdMax) else xp.pfd
  let fi := if xp.freesid < 0 then i else xp.freesid.toNat
  if fi < xp.pfdTotal then
    let xp := { xp with
      listenCount := if listener then xp.listenCount + 1 else xp.listenCount
      pfdCount := xp.pfdCount + 1
      pfdMax := xp.pfdMax + 1
      freesid := if xp.freesid < 0 then xp.freesid else xp.sidmap fi
      sidmap := Function.update xp.sidmap fi i
      pfd := Function.update pfd i ⟨sock, POLLIN, (pfd i).revents, s.regs⟩
      pss := Function.update xp.pss i ⟨fi, 0, s.regs⟩ }
    some ({ s with xp, regs := s.regs + 1 }.call (.call s.regs .new sock fi userdata)
      (.adding i listener userdata))
  else none

/-- The head of the loop of a pass, for entry `i`. -/
def visit (s : State) (i ip : ℕ) : Option State :=
  let sock := (s.xp.pfd i).fd
  let revent := (s.xp.pfd i).revents
  let ind := s.xp.sidmap (s.xp.pss i).sid
  if ind = 0 ∨ ind = i then
    if sockValid sock = false ∨ revent &&& (POLLERR ||| POLLHUP ||| POLLNVAL) ≠ 0 then
      some (s.callEntry i ip sock revent
        (if revent &&& (POLLERR ||| POLLNVAL) ≠ 0 then .error else .delete))
    else if i < s.xp.listenCount ∧ revent &&& POLLIN ≠ 0 then some { s with pc := .compact i ip }
    else if revent &&& POLLIN ≠ 0 then some (s.callEntry i ip sock revent .read)
    else if revent &&& POLLOUT ≠ 0 then some (s.callEntry i ip sock revent .write)
    else some { s with pc := .compact i ip }
  else none

/-- `if (xs_sock_valid(sock)) closesocket(sock)`, and entry `i` is closed. -/
def close (s : State) (i : ℕ) (sock : ℤ) : State :=
  { s with
    log := if sockValid sock then s.log ++ [Event.close (s.xp.pfd i).reg] else s.log
    xp := s.xp.closeAt i }

/-- A listener in trouble is closed. -/
def closeListener (s : State) (i : ℕ) (sock : ℤ) : State :=
  { s.close i sock with
    xp := { s.xp.closeAt i with listenCount := s.xp.listenCount - 1 } }

/-- The return of a callback for entry `i` of a pass. -/
def called (s : State) (i ip : ℕ) (sock : ℤ) (revent : BitVec 16) (message : Msg) : State :=
  match message with
  | .error | .delete =>
    if i < s.xp.listenCount then (s.closeListener i sock).back (.compact i ip)
    else s.back (.compact i ip)
  | .read =>
    if revent &&& POLLOUT ≠ 0 then (s.back (.compact i ip)).callEntry i ip sock revent .write
    else s.back (.compact i ip)
  | _ => s.back (.compact i ip)

/-- The end of the loop of a pass, for entry `i`. -/
def compact (s : State) (i ip : ℕ) : Option State :=
  let sid := (s.xp.pss i).sid
  let valid := sockValid (s.xp.pfd i).fd
  if sid < s.xp.pfdTotal then
    some { s with
      visited := s.visited ++ [(sid, valid)]
      xp := s.xp.compact i ip
      pc := .check i (if valid then ip + 1 else ip) }
  else none

/-- The thread outside of callbacks. -/
def step (s : State) : Option State :=
  match s.pc with
  | .queue => some (s.call .idle .idling)
  | .polled rret =>
    some { s with pc := if rret ≠ 0 ∧ 0 < s.xp.running then .entry 0 0 else .turn }
  | .entry i ip => if i < s.xp.pfdCount then s.visit i ip else some { s with pc := .passed i ip }
  | .compact i ip => s.compact i ip
  | .check i ip =>
    some { s with pc := if s.xp.running < 0 then .passed (i + 1) ip else .entry (i + 1) ip }
  | .passed _ ip =>
    some { s with
      xp := if 0 < s.xp.running then { s.xp with pfdMax := ip, pfdCount := ip } else s.xp
      pc := .turn }
  | .cleaning i =>
    if i < s.xp.pfdCount then
      some { s with
        log := s.log ++ [.call (s.xp.pss i).reg .delete (s.xp.pfd i).fd (s.xp.pss i).sid
          (s.xp.pss i).cfd]
        pc := .deleting i (s.xp.pfd i).fd }
    else some { s with xp := { s.xp with pfdCount := 0 }, pc := .done }
  | _ => none

/-- The return of a callback. -/
def ret (s : State) : Option State :=
  match s.pc with
  | .adding i listener userdata =>
    let xp := if listener then s.xp.setPss i ({ · with cfd := userdata }) else s.xp
    some ({ s with xp }.back .queue)
  | .idling => some (s.back .poll)
  | .calling i ip sock revent message => some (s.called i ip sock revent message)
  | .deleting i sock =>
    some { s.close i sock with pc := .cleaning (i + 1) }
  | _ => none

/-- The thread is in a callback. -/
def InCallback (s : State) : Prop :=
  match s.pc with
  | .adding .. | .idling | .calling .. | .deleting .. => True
  | _ => False

instance (s : State) : Decidable s.InCallback := by
  unfold InCallback
  split <;> infer_instance

end State

/-- One step of the system. -/
def next (s : State) : Act → Option State
  | .add sock userdata listener =>
    if s.pc = .queue ∧ s.xp.pfdCount < s.xp.pfdTotal then s.internaladd sock userdata listener
    else none
  | .poll rret revents =>
    if s.pc = .poll then
      some { s with
        xp := { s.xp.setrunning 1 with
          pfd := fun i =>
            if i < s.xp.pfdCount then { s.xp.pfd i with revents := revents i } else s.xp.pfd i }
        pc := .polled rret }
    else none
  | .op o =>
    if s.InCallback then some { s with xp := o.apply s.xp, ops := s.ops ++ [o] } else none
  | .ret => s.ret
  | .step => s.step
  | .again processing =>
    if s.pc = .turn then
      -- the thread sleeps as long as it runs and has nothing to do
      if 0 < s.xp.running ∧ processing then some { s with pc := .queue }
      else some { s with xp := s.xp.setrunning (-1), pc := .cleaning 0 }
    else none
  | .stop => some { s with xp := { s.xp with running := -2 } }

section Inversion

variable {s s' : State}

theorem of_next_add {sock : ℤ} {userdata : ℕ} {listener : Bool}
    (h : next s (.add sock userdata listener) = some s') :
    s.pc = .queue ∧ s.xp.pfdCount < s.xp.pfdTotal ∧
      s.internaladd sock userdata listener = some s' := by
  have h : (if s.pc = .queue ∧ s.xp.pfdCount < s.xp.pfdTotal then _ else none) = some s' := h
  split_ifs at h with hpc
  exact ⟨hpc.1, hpc.2, h⟩

theorem of_next_poll {rret : ℤ} {revents : ℕ → BitVec 16}
    (h : next s (.poll rret revents) = some s') : s.pc = .poll ∧
      { s with
        xp := { s.xp.setrunning 1 with
          pfd := fun i =>
            if i < s.xp.pfdCount then { s.xp.pfd i with revents := revents i } else s.xp.pfd i }
        pc := .polled rret } = s' := by
  have h : (if s.pc = .poll then _ else none) = some s' := h
  split_ifs at h with hpc
  exact ⟨hpc, Option.some.inj h⟩

theorem of_next_op {o : Op} (h : next s (.op o) = some s') :
    s.InCallback ∧ { s with xp := o.apply s.xp, ops := s.ops ++ [o] } = s' := by
  have h : (if s.InCallback then _ else none) = some s' := h
  split_ifs at h with hin
  exact ⟨hin, Option.some.inj h⟩

theorem of_next_again {processing : Bool} (h : next s (.again processing) = some s') :
    s.pc = .turn ∧
      (if 0 < s.xp.running ∧ processing = true then { s with pc := .queue }
        else { s with xp := s.xp.setrunning (-1), pc := .cleaning 0 }) = s' := by
  have h : (if s.pc = .turn then _ else none) = some s' := h
  by_cases hpc : s.pc = .turn
  · rw [if_pos hpc] at h
    exact ⟨hpc, Option.some.inj ((apply_ite some _ _ _).trans h)⟩
  · rw [if_neg hpc] at h
    cases h

end Inversion

/-- The start of a thread, with a table for `pfdTotal` sockets. -/
def init (pfdTotal : ℕ) : State where
  xp :=
    { pfd := fun _ => ⟨0, 0, 0, 0⟩
      pss := fun _ => ⟨0, 0, 0⟩
      sidmap := fun _ => 0
      freesid := -1
      pfdTotal
      pfdMax := 0
      pfdCount := 0
      listenCount := 0
      running := 1 }
  pc := .queue
  regs := 0
  log := []
  ops := []
  visited := []

end Poll

end Webxs
