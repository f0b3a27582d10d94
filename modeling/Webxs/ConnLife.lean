import Webxs.Interleaving
import Webxs.RefCount

/-!
# The life of a connection

A `xs_conn` (`xs_connection.h`) is shared by the poll thread it is registered with, which keeps
its address in a slot of the table (`cfd`) and passes it to `xs_async_handler`, and by the
worker threads, which get it through the queue `q` of the `xs_async_connect`. Both run its
callback, and a callback may put the connection it was given into the queue once more
(`xs_async_work`). The slot, each entry of the queue and each worker that took one hold a count
(`xs_conn_inc`), and who takes the last one back (`xs_conn_dec`) closes the connection and frees
it (`xs_conn_destroy`).

The model has any number of threads, each of which polls its own table or works, and every
access to a count, to a queue and to a slot as a step of its own. The two queues are lists :
`push` and `pop` of `xs_queue.h` are taken as one step each, which they are as long as the pops
return each element once and in order. A callback does nothing to a connection but this, and
hands over connections it has opened (`xs_async_read`). Of `xs_conn_close` there is what it
does to the object itself. The fields `errnum` and `is_wblocked`, the events of the slots and
the count of the poll table (`xp`) are left out, and with them a refusal by SSL.
-/

open Interleaving

namespace Webxs

namespace ConnLife

/-! ## The state -/

/-- What the life of a `xs_conn` turns on. -/
structure Obj where
  refcount : ℤ := 0
  token : ℤ := -1
  /-- History : how often `xs_conn_close` was called on it. -/
  closed : ℕ := 0
  /-- History : how often it was freed. -/
  freed : ℕ := 0
  deriving DecidableEq

/-- The `userdata` of a socket in the accept queue. -/
inductive Pushed
  /-- The connection of the socket itself (`xs_async_read`, `xs_async_listen`). -/
  | own (conn : ℕ)
  /-- The connection of the listening socket it was accepted at. -/
  | accepted (listener : ℕ)
  deriving DecidableEq

/-- The messages of the poll loop that come with a connection. -/
inductive Message
  | new
  | read
  | write
  | error
  | delete
  deriving DecidableEq

/-- `exs_pollfd_Error` and `exs_pollfd_Delete` end the connection whatever the callback says. -/
def Message.ends : Message → Bool
  | .error | .delete => true
  | _ => false

/-- Who runs the callback. -/
inductive Role (n : ℕ)
  /-- `xs_async_handler`, with the message. -/
  | handler (t : Fin n) (m : Message)
  /-- `xs_async_handler`, at `exs_Conn_Error` of `case exs_Conn_Close`. -/
  | error (t : Fin n)
  /-- `xs_async_handler`, at `exs_Conn_Close` of `case exs_Conn_Close`. -/
  | close (t : Fin n)
  /-- `xs_async_cb`, on a thread of the queue. -/
  | worker
  deriving DecidableEq

/-- Where a thread is; `p` is the connection it is at, `k` is the slot that `xs_conn_dec` is
called for, or none if it is called by `xs_async_cb`. -/
inductive Pc (n : ℕ)
  /-- Between two messages, or two entries of the queue. -/
  | idle
  /-- In `xs_async_handler` with `exs_pollfd_New`. -/
  | new (t : Fin n) (qs : Pushed)
  /-- At `xs_conn_inc` of `exs_pollfd_New`. -/
  | inc (t : Fin n) (p : ℕ)
  /-- At the settings of `token` and of the slot. -/
  | setup (t : Fin n) (p : ℕ)
  /-- In `xs_async_handler`, before the callback. -/
  | handle (t : Fin n) (m : Message) (p : ℕ)
  /-- In the callback. -/
  | call (r : Role n) (p : ℕ)
  /-- In the callback, in `xs_async_work`, at `xs_queue_push`. -/
  | push (r : Role n) (p : ℕ)
  /-- In `xs_async_handler`, after the callback; `closes` if `err` is `exs_Conn_Close`. -/
  | answered (t : Fin n) (m : Message) (closes : Bool) (p : ℕ)
  /-- In `xs_conn_dec`, at the test of `refcount` for 0. -/
  | check (k : Option (Fin n)) (p : ℕ)
  /-- In `xs_conn_dec`, at `xs_atomic_dec`. -/
  | dec (k : Option (Fin n)) (p : ℕ)
  /-- In `xs_conn_destroy`, at `xs_conn_close`. -/
  | close (k : Option (Fin n)) (p : ℕ)
  /-- In `xs_conn_destroy`, at the test of `refcount`. -/
  | test (k : Option (Fin n)) (p : ℕ)
  /-- In `xs_conn_destroy`, at `free`. -/
  | free (k : Option (Fin n)) (p : ℕ)
  /-- In `xs_async_handler`, at `xs_pollfd_clear`. -/
  | clear (t : Fin n)
  deriving DecidableEq

/-- What the threads share, and the slots, of which each thread has its own. -/
structure Shared (ι : Type*) (n : ℕ) where
  objs : ℕ → Obj
  /-- How many connections were made. -/
  made : ℕ
  acceptqueue : List Pushed
  q : List ℕ
  cfd : ι × Fin n → Option ℕ
  stop : Bool

/-- The threads over the state. -/
abbrev State (ι : Type*) (n : ℕ) := Config ι (Shared ι n) (Pc n)

/-- What a thread does next. -/
inductive Act (n : ℕ)
  /-- `xs_async_read` or `xs_async_listen`, with a connection that was opened for it. -/
  | offer
  /-- `accept` at the listening socket in slot `t`. -/
  | accept (t : Fin n)
  /-- `xs_pollfd_internaladd` of the next socket of the accept queue, into slot `t`. -/
  | take (t : Fin n)
  /-- The poll loop has a message for slot `t`. -/
  | message (t : Fin n) (m : Message)
  /-- `xs_queue_exec` takes the next entry of the queue. -/
  | pop
  /-- The callback calls `xs_async_work`. -/
  | work
  /-- The callback returns. -/
  | ret (closes : Bool)
  /-- `xs_conn_accept` fails. -/
  | refuse
  /-- `xs_conn_cachepurge` leaves something to write. -/
  | busy
  /-- `xs_async_stop`. -/
  | stop
  /-- The next step of the call. -/
  | go
  deriving DecidableEq

variable {ι : Type*} {n : ℕ} [DecidableEq ι]

/-! ## The steps -/

/-- The field updates of an object. -/
def Shared.setObj (s : Shared ι n) (p : ℕ) (o : Obj) : Shared ι n :=
  { s with objs := Function.update s.objs p o }

/-- `xs_conn_create` : `calloc`, and `token` is -1. -/
def connCreate (s : Shared ι n) : Shared ι n × ℕ :=
  ({ s.setObj s.made {} with made := s.made + 1 }, s.made)

/-- `xs_conn_inc` -/
def connInc (s : Shared ι n) (p : ℕ) : Shared ι n :=
  s.setObj p { s.objs p with refcount := (s.objs p).refcount + 1 }

/-- `xs_conn_close`, which clears the object but for its count. -/
def connClose (s : Shared ι n) (p : ℕ) : Shared ι n :=
  s.setObj p { s.objs p with token := 0, closed := (s.objs p).closed + 1 }

/-- Where a thread is after `xs_conn_dec`. -/
def decDone : Option (Fin n) → Pc n
  | some t => .clear t
  | none => .idle

/-- `xs_conn_dec`, and `xs_conn_destroy` that it calls. -/
def connDec (s : Shared ι n) : Pc n → Option (Shared ι n × Pc n)
  | .check k p => some (s, .dec k p)
  | .dec k p =>
    some (s.setObj p { s.objs p with refcount := (s.objs p).refcount - 1 },
      if (s.objs p).refcount ≤ 1 then .close k p else decDone k)
  | .close k p => some (connClose s p, .test k p)
  | .test k p => some (s, if (s.objs p).refcount ≤ 0 then .free k p else decDone k)
  | .free k p =>
    some (s.setObj p { s.objs p with freed := (s.objs p).freed + 1 }, decDone k)
  | _ => none

/-- `xs_async_handler`, where it does not wait for the callback. -/
def asyncHandler (i : ι) (s : Shared ι n) : Pc n → Option (Shared ι n × Pc n)
  | .new t (.own p) => some (s, .inc t p)
  | .new t (.accepted _) => some ((connCreate s).1, .inc t (connCreate s).2)
  | .inc t p => some (connInc s p, .setup t p)
  | .setup t p =>
    some ({ s.setObj p { s.objs p with token := t } with
      cfd := Function.update s.cfd (i, t) (some p) }, .handle t .new p)
  | .handle t m p =>
    some (s, if m.ends || !s.stop then .call (.handler t m) p else .answered t m false p)
  | .answered t m closes p =>
    some (s,
      if closes && (s.cfd (i, t)).isSome then
        -- the callback has had the message if it was the end of the connection
        if m.ends then .check (some t) p else .call (.error t) p
      else .idle)
  | .clear t => some ({ s with cfd := Function.update s.cfd (i, t) none }, .idle)
  | _ => none

/-- Where a thread is when the callback has returned. -/
def callDone (closes : Bool) (p : ℕ) : Role n → Pc n
  | .handler t m => .answered t m (closes || m.ends) p
  | .error t => .call (.close t) p
  | .close t => .check (some t) p
  | .worker => .check none p

/-- The steps of thread `i`. -/
def step (i : ι) (a : Act n) (s : Shared ι n) (x : Pc n) : Option (Shared ι n × Pc n) :=
  match a, x with
  | .offer, .idle | .offer, .call _ _ =>
    some ({ (connCreate s).1 with acceptqueue := s.acceptqueue ++ [.own (connCreate s).2] }, x)
  | .accept t, .idle =>
    (s.cfd (i, t)).map fun l => ({ s with acceptqueue := s.acceptqueue ++ [.accepted l] }, .idle)
  | .take t, .idle =>
    match s.acceptqueue with
    | qs :: rest =>
      if s.cfd (i, t) = none then some ({ s with acceptqueue := rest }, .new t qs) else none
    | [] => none
  | .message t m, .idle =>
    if m = .new then none else (s.cfd (i, t)).map fun p => (s, .handle t m p)
  | .pop, .idle =>
    match s.q with
    | p :: rest => some ({ s with q := rest }, .call .worker p)
    | [] => none
  | .work, .call r p => some (connInc s p, .push r p)
  | .ret closes, .call r p => some (s, callDone closes p r)
  | .refuse, .new _ (.accepted _) => some (s, .idle)
  | .busy, .handle t .write p => some (s, .answered t .write false p)
  | .stop, .idle | .stop, .call _ _ => some ({ s with stop := true }, x)
  | .go, .push r p => some ({ s with q := s.q ++ [p] }, .call r p)
  | .go, .check .. | .go, .dec .. | .go, .close .. | .go, .test .. | .go, .free .. => connDec s x
  | .go, x => asyncHandler i s x
  | _, _ => none

/-- Nothing was opened, and every thread is at its loop. -/
def start : State ι n where
  shared :=
    { objs := fun _ => {}, made := 0, acceptqueue := [], q := [], cfd := fun _ => none,
      stop := false }
  pc _ := .idle

abbrev next (c : State ι n) (ia : ι × Act n) : Option (State ι n) := threadNext step c ia

end ConnLife

end Webxs
