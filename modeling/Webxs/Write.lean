import Mathlib.Algebra.Order.Ring.Int
import Webxs.Arr

/-!
# Writing to a connection

`xs_conn_write_` (`xs_connection.h`) sends a buffer on a plain socket and keeps what the
socket does not take in `conn->wcache`, which `xs_conn_cachepurge` sends later.
`xs_conn_cachefill` decides whether a buffer goes to the cache : when it is forced, or when the
cache holds something or is blocked and cannot be purged. The three call each other : the
purge writes the cache's own bytes, and a buffer that points into the cache is never cached
again, which ends the recursion (`connWrite_cached`).

The answers of the socket to come are streams in the state. Allocation succeeds.
-/

namespace Webxs

/-! ## The socket -/

/-- What `send` does with the bytes it is offered. -/
inductive SendAns
  /-- It accepts `n + 1` of them, or all if there are no more. -/
  | accept (n : ℕ)
  /-- It returns -1 and sets `errno`. -/
  | fail (errno : ℤ)
  /-- It returns 0. -/
  | closed
  deriving DecidableEq

/-- The sending side of a socket. -/
structure Sock where
  /-- The answers of `send` to come. -/
  sends : ℕ → SendAns
  /-- The answers of `xs_sock_avail` to come : whether the socket is writable. -/
  polls : ℕ → Bool
  errno : ℤ
  /-- History : the bytes accepted. -/
  sent : List UInt8

/-- `EAGAIN`, which is `EWOULDBLOCK` too. -/
def EAGAIN : ℤ := 11

/-- `INT_MAX`. -/
def INT_MAX : ℕ := 2 ^ 31 - 1

namespace Sock

/-- `send`. -/
def send (s : Sock) (offer : List UInt8) : ℤ × Sock :=
  let s' := { s with sends := fun i => s.sends (i + 1) }
  match s.sends 0 with
  | .accept n =>
    let k := min (n + 1) offer.length
    (k, { s' with sent := s.sent ++ offer.take k })
  | .fail e => (-1, { s' with errno := e })
  | .closed => (0, s')

end Sock

/-! ## The connection -/

/-- What writing reads and changes of an `xs_conn`. -/
structure Out where
  errnum : ℤ
  corked : Bool
  isWblocked : Bool
  wcache : Arr UInt8
  sock : Sock

/-- `exs_Error_WriteBusy`. -/
def Error.WriteBusy : ℤ := -20005

/-- `maxcache` of `xs_conn_cachefill`. -/
def maxcache : ℕ := 1000000

/-- `xs_conn_seterr`. -/
def connSeterr (o : Out) : ℤ × Out :=
  let e := if o.sock.errno = EAGAIN then 0 else o.sock.errno
  (e, { o with errnum := e })

/-- `xs_conn_writable`. -/
def connWritable (o : Out) : Bool × Out :=
  (o.sock.polls 0, { o with sock.polls := fun i => o.sock.polls (i + 1) })

/-- `xs_conn_cacheset`. -/
def connCacheset (o : Out) : Out :=
  { o with isWblocked := true }

/-- The end of `xs_conn_cachefill` : the bytes go to the cache, unless it gets too large. -/
def cacheAdd (o : Out) (buf : List UInt8) : ℤ × Out :=
  if maxcache < buf.length + o.wcache.aCount then (0, { o with errnum := -108 })
  else
    match o.wcache.add buf with
    | none => (0, { o with errnum := -108 })
    | some ar =>
      (-1, { o with wcache := ar, errnum := if o.errnum = 0 then Error.WriteBusy else o.errnum })

/-- `xs_conn_cachefill`, with the `xs_conn_cachepurge` it calls; `inCache` is
`xs_arr_ptrinrange`, that the buffer points into the cache. -/
def connCachefillWith (purge : Out → ℤ × Out) (inCache : Bool) (o : Out) (buf : List UInt8)
    (force : Bool) : ℤ × Out :=
  if (force = true ∨ o.wcache.aCount ≠ 0 ∨ o.isWblocked = true) ∧ inCache = false then
    if force = true ∨ (o.isWblocked = true ∧ buf.length + o.wcache.aCount ≤ maxcache) then
      cacheAdd o buf
    else
      let w := connWritable o
      if w.1 = false then cacheAdd w.2 buf
      else
        let p := purge w.2
        if p.1 ≠ 0 then cacheAdd p.2 buf else (0, p.2)
  else (0, o)

/-- The loop of `xs_conn_write_` on the bytes left, `tot` being accepted; `none` is the
return of 0 in the middle of it. -/
def writeLoop (fill : Out → List UInt8 → Bool → ℤ × Out) (o : Out) (rest : List UInt8)
    (tot : ℕ) : Option ℕ × Out :=
  if rest = [] then (some tot, o)
  else
    let amt := min rest.length INT_MAX
    let r := o.sock.send (rest.take amt)
    let n := r.1
    let o := { o with sock := r.2 }
    if n = 0 then (none, o)
    else if n = amt then writeLoop fill o (rest.drop amt) (tot + amt)
    else
      let tot := tot + n.toNat
      let f := fill o ((rest.take amt).drop n.toNat) true
      let tot := if f.1 ≠ 0 then tot + (amt - n.toNat) else tot
      let o := f.2
      let o :=
        if 0 < n then { o with errnum := Error.WriteBusy }
        else
          let e := connSeterr o
          if e.1 = 0 then { e.2 with errnum := Error.WriteBusy } else e.2
      (some tot, o)
termination_by rest.length
decreasing_by
  have : rest.length ≠ 0 := by simpa using ‹¬rest = []›
  simp only [List.length_drop, INT_MAX]
  omega

/-- `xs_conn_write_`, with the `xs_conn_cachefill` it calls; `more` is `MSG_MORE`. -/
def connWriteWith (fill : Out → List UInt8 → Bool → ℤ × Out) (o : Out) (buf : List UInt8)
    (more : Bool) : ℕ × Out :=
  let f := fill { o with errnum := 0 } buf false
  if f.1 ≠ 0 then (buf.length, f.2)
  else
    let o := if more = true then { f.2 with corked := true } else f.2
    match writeLoop fill o buf 0 with
    | (none, o) => (0, o)
    | (some tot, o) => (tot, if more = true then o else { o with corked := false })

/-- `xs_conn_cachepurge`, with the `xs_conn_write_` it calls. -/
def connCachepurgeWith (write : Out → List UInt8 → Bool → ℕ × Out) (o : Out) : ℤ × Out :=
  if o.wcache.aCount = 0 then (0, o)
  else
    let w := write o o.wcache.toList true
    if w.1 = o.wcache.aCount then
      (0, { w.2 with wcache := w.2.wcache.reset, isWblocked := false })
    else (-1, { w.2 with wcache := w.2.wcache.remove 0 w.1 })

/-- `xs_conn_cachepurge`. A buffer in the cache is not cached, so what the write would call
to purge does not matter. -/
def connCachepurge : Out → ℤ × Out :=
  connCachepurgeWith (connWriteWith (connCachefillWith (fun o => (0, o)) true))

/-- `xs_conn_cachefill`. -/
def connCachefill : Bool → Out → List UInt8 → Bool → ℤ × Out :=
  connCachefillWith connCachepurge

/-- `xs_conn_write_`. -/
def connWrite (inCache : Bool) : Out → List UInt8 → Bool → ℕ × Out :=
  connWriteWith (connCachefill inCache)

theorem connCachefillWith_cached (purge : Out → ℤ × Out) (o : Out) (buf : List UInt8)
    (force : Bool) : connCachefillWith purge true o buf force = (0, o) := by
  simp [connCachefillWith]

/-- The write that the purge calls is `xs_conn_write_` on the cache. -/
theorem connWrite_cached :
    connWriteWith (connCachefillWith (fun o => (0, o)) true) = connWrite true := by
  have h : connCachefillWith (fun o => (0, o)) true = connCachefill true := by
    funext o buf force
    rw [connCachefill, connCachefillWith_cached, connCachefillWith_cached]
  rw [connWrite, h]

/-- The recursion of the source. -/
theorem connCachepurge_eq : connCachepurge = connCachepurgeWith (connWrite true) := by
  rw [connCachepurge, connWrite_cached]

end Webxs
