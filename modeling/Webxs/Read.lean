import Webxs.Frames

/-!
# Reading from a connection

`xs_conn_httpread` (`xs_connection.h`) reads a stream of messages through one buffer. A call
returns when the head of a message is read (`xs_conn_headerready`, `xs_http_createreq`), when
some bytes of its body are, from the buffer or straight from the socket, when the body is
complete, or when the socket has nothing. After an upgrade the messages are WebSocket frames.

`buf` holds the bytes of `conn->buf` below `datalen`; the answers of `recv` to come and the bytes
the peer has sent are part of the state. The socket is open and plain, and allocation succeeds.
A step is `none` if a parser reads outside the bytes received.
-/

namespace Webxs

/-! ## The connection -/

/-- What `recv` does. -/
inductive RecvAns
  /-- It returns `n + 1` of the bytes that are pending, or all it can, or fails with `EAGAIN` if
  there are none. -/
  | data (n : ℕ)
  /-- It returns -1 and sets `errno`. -/
  | fail (errno : ℤ)
  /-- It returns 0. -/
  | closed
  deriving DecidableEq

/-- The receiving side of a socket. -/
structure Peer where
  /-- The answers of `recv` to come. -/
  recvs : ℕ → RecvAns
  /-- The bytes the peer sent and `recv` did not return yet. -/
  pending : List UInt8

/-- The receive buffer of an `xs_conn`. -/
structure RecvBuf where
  datalen : ℤ
  consumed : ℤ
  /-- 0 while `conn->buf` is null. -/
  bufsize : ℤ
  /-- The bytes of `conn->buf` below `datalen`. -/
  buf : List UInt8

/-- An `xs_conn`. -/
structure Conn extends Out, Peer, RecvBuf where
  upgrade : ℕ
  /-- The list from `conn->req` on; its last entry is `conn->lastreq`. -/
  req : List HttpReq
  freereq : List HttpReq
  /-- History : the number of request objects allocated. -/
  nalloc : ℕ

/-- What the model takes from outside : `strtod`, truncated, and the writing of the answers to an
upgrade request, with the texts of the server's name, the date and the digest of the key. -/
structure Env where
  strtod : List UInt8 → ℤ
  /-- `101 Switching Protocols`, for a key. -/
  switching : List UInt8 → Out → Out
  /-- `425 Upgrade Required`. -/
  upgradeRequired : Out → Out

/-! ## States -/

namespace ConnState

/-- `exs_Conn_Pending`. -/
def Pending : ℤ := 100
/-- `exs_Conn_Header`. -/
def Header : ℤ := 101
/-- `exs_Conn_Response`. -/
def Response : ℤ := 102
/-- `exs_Conn_Redirect`. -/
def Redirect : ℤ := 103
/-- `exs_Conn_Complete`. -/
def Complete : ℤ := 104
/-- `exs_Conn_LastState`. -/
def LastState : ℤ := 105
/-- `exs_Conn_Error`. -/
def Error : ℤ := -1
/-- `exs_Conn_WSMask`. -/
def WSMask : ℤ := 0x800
/-- `exs_Conn_WSNew`. -/
def WSNew : ℤ := 101 + 0x800 + 0x1000

end ConnState

/-- `exs_Conn_Close`, as an error. -/
def Error.Close : ℤ := 1003

/-- `exs_Error_InvalidRequest`. -/
def Error.InvalidRequest : ℤ := -20000

/-- `exs_Error_HeaderTooLarge`. -/
def Error.HeaderTooLarge : ℤ := -20001

/-- `exs_Error_WS_InvalidSecKey`. -/
def Error.WS_InvalidSecKey : ℤ := -20010

/-- `xs_http_state`. -/
def httpState : Option HttpReq → ℤ
  | none => ConnState.Pending
  | some req =>
    if req.reqlen = 0 then ConnState.Pending
    else if req.contentlen ≠ 0 ∧ req.chunked = false ∧ req.contentlen ≤ req.consumed then
      ConnState.Complete
    else if req.contentlen ≠ 0 ∨ req.chunked = true then
      if req.consumed ≠ 0 then ConnState.Response else ConnState.Header
    else if 300 ≤ req.statuscode ∧ req.statuscode ≤ 303 then ConnState.Redirect
    else if req.header = true then ConnState.Header else ConnState.Complete

/-- The current request is not of the connection's kind. -/
def Conn.isNew (c : Conn) : Prop :=
  ∃ req, c.req.head? = some req ∧ req.upgrade ≠ c.upgrade

instance (c : Conn) : Decidable c.isNew := by
  unfold Conn.isNew
  cases c.req.head? with
  | none => exact .isFalse (by simp)
  | some req => exact decidable_of_iff (req.upgrade ≠ c.upgrade) (by simp)

/-- `xs_conn_state`. -/
def connState (c : Conn) : ℤ :=
  if c.errnum ≠ 0 then ConnState.Error
  else
    let state := httpState c.req.head?
    if c.upgrade ≠ 2 then state
    else if state = ConnState.Header ∧ c.isNew then ConnState.WSNew
    else if state = ConnState.Header ∨ state = ConnState.Response ∨ state = ConnState.Complete then
      state + ConnState.WSMask
    else state

/-- `xs_conn_state(conn)&exs_Conn_WSNotMask`. -/
def Conn.state (c : Conn) : ℤ :=
  connState c % 0x800

/-- `_xschr_retvalue_`, when the call began in state `s`. -/
def Conn.retvalue (c : Conn) (s : ℤ) : ℤ :=
  if s = c.state then -1 else 0

/-- `xs_conn_getreq`. -/
def connGetreq (c : Conn) : Option HttpReq :=
  c.req.find? fun req => !req.done

/-- Set `conn->errnum`. -/
def Conn.setErr (c : Conn) (e : ℤ) : Conn :=
  { c with errnum := e }

/-- Replace the receive buffer. -/
def Conn.setBuf (c : Conn) (b : RecvBuf) : Conn :=
  { c with toRecvBuf := b }

/-- Replace the writing side. -/
def Conn.setOut (c : Conn) (o : Out) : Conn :=
  { c with toOut := o }

/-- Change the object at `conn->req`. -/
def Conn.modifyReq (c : Conn) (f : HttpReq → HttpReq) : Conn :=
  { c with req := c.req.modifyHead f }

/-! ## Receiving -/

/-- `recv` of up to `len` bytes, `len` being converted to `size_t`. -/
def Conn.recv (c : Conn) (len : ℤ) : ℤ × List UInt8 × Conn :=
  let c' := { c with recvs := fun i => c.recvs (i + 1) }
  match c.recvs 0 with
  | .data n =>
    let k := min (n + 1) (min (len % 2 ^ 64).toNat c.pending.length)
    if len = 0 then (0, [], c')
    else if c.pending = [] then (-1, [], { c' with sock.errno := EAGAIN })
    else (k, c.pending.take k, { c' with pending := c.pending.drop k })
  | .fail e => (-1, [], { c' with sock.errno := e })
  | .closed => (0, [], c')

/-- `xs_conn_read` : the return value, the bytes, and `*reread`. -/
def connRead (c : Conn) (len : ℤ) : ℤ × List UInt8 × Bool × Conn :=
  let c :=
    if c.wcache.aCount ≠ 0 ∧ c.isWblocked = false then c.setOut (connCachepurge c.toOut).2 else c
  let (n, bytes, c) := c.recv (toInt32 len)
  let c :=
    if n < 0 then c.setOut (connSeterr c.toOut).2
    else if n = 0 then c.setErr Error.Close
    else c.setErr 0
  (n, bytes, decide (n % 2 ^ 64 = len % 2 ^ 64 ∧ c.errnum = 0), c)

/-! ## The buffer -/

/-- `xs_conn_bufresize`; a doubling that overflows `int` makes `realloc` fail. -/
def connBufresize (b : RecvBuf) : RecvBuf :=
  if b.bufsize = 0 then { b with bufsize := 1024 }
  else if b.datalen ≤ b.consumed then { b with datalen := 0, consumed := 0, buf := [] }
  else if b.bufsize / 4 * 3 < b.consumed then
    { b with
      buf := b.buf.drop b.consumed.toNat
      datalen := b.datalen - b.consumed
      consumed := 0 }
  else if b.datalen = b.bufsize then
    if b.datalen * 2 < 2 ^ 31 then { b with bufsize := b.datalen * 2 } else b
  else b

/-- `xs_conn_read` into the buffer behind `datalen`; the caller adds `n` to `datalen`. -/
def connFill (c : Conn) : ℤ × List UInt8 × Conn :=
  let (n, bytes, _, c) := connRead c (c.bufsize - c.datalen)
  (n, bytes, c)

/-- Take `n` bytes read into the buffer. -/
def RecvBuf.extend (b : RecvBuf) (n : ℤ) (bytes : List UInt8) : RecvBuf :=
  { b with buf := b.buf ++ bytes, datalen := b.datalen + n }

/-- Consume `n` bytes of the buffer. -/
def RecvBuf.consume (b : RecvBuf) (n : ℤ) : RecvBuf :=
  { b with consumed := b.consumed + n }

/-- The length of the head, or frame header, at the start of the buffer. -/
def Conn.headlen (c : Conn) : Option ℤ :=
  if c.upgrade = 0 then httpValidrequest c.buf c.datalen
  else (websocketFramevalid c.buf c.datalen).map fun r => r.1

/-- `maxheaderlen` of `xs_conn_headerready`. -/
def maxheaderlen : ℤ := 2 ^ 17

/-- The part of `xs_conn_headerready` that receives, if there is no head yet : what was read, the
length of the head and the connection. -/
def headerFill (c : Conn) (rlen : ℤ) : Option (ℤ × ℤ × Conn) :=
  if rlen ≠ 0 then some (-1, rlen, c)
  else
    let (n, bytes, c) := connFill c
    if 0 < n then
      let c := c.setBuf (c.toRecvBuf.extend n bytes)
      c.headlen.map fun rlen => (n, rlen, c)
    else some (n, 0, c)

/-- The part of `xs_conn_headerready` that judges the head. -/
def headerEnd (n rlen : ℤ) (c : Conn) : ℤ × Conn :=
  (if 0 < rlen then rlen else if n = 0 then 0 else -1,
    if maxheaderlen < rlen ∨ maxheaderlen < c.datalen then c.setErr Error.HeaderTooLarge else c)

/-- `xs_conn_headerready`. -/
def connHeaderready (c : Conn) : Option (ℤ × Conn) :=
  let c := c.setBuf (connBufresize c.toRecvBuf)
  (if c.datalen ≠ 0 then c.headlen else some 0).bind fun rlen =>
    (headerFill (if rlen < 0 then c.setErr Error.InvalidRequest else c) rlen).map fun r =>
      headerEnd r.1 r.2.1 r.2.2

/-- Scan what is left of the buffer for the size line of a chunk. -/
def RecvBuf.scan (b : RecvBuf) : Option (ℤ × Option ℕ) :=
  scanChunk (b.buf.drop b.consumed.toNat) (b.datalen - b.consumed)

/-- The part of `xs_conn_chunkready` that receives and scans again, if there is no size line
yet. -/
def chunkFill (c : Conn) (r : ℤ × Option ℕ) : Option ((ℤ × Option ℕ) × Conn) :=
  if 0 ≤ r.1 then some (r, c)
  else
    let (n, bytes, c) := connFill c
    if 0 ≤ n then
      let c := c.setBuf (c.toRecvBuf.extend n bytes)
      c.toRecvBuf.scan.map fun r => (r, c)
    else some ((n, none), c)

/-- The part of `xs_conn_chunkready` that takes the size line of a chunk of `n` bytes, up to the
offset `enc`. -/
def Conn.takeLine (c : Conn) (n : ℤ) (enc : ℕ) : Conn :=
  (c.setBuf (c.toRecvBuf.consume enc)).modifyReq fun req =>
    { req with contentlen := (req.contentlen + n.toNat) % 2 ^ 64 }

/-- `xs_conn_chunkready`. -/
def connChunkready (c : Conn) : Option (ℤ × Conn) := do
  let c := c.setBuf (connBufresize c.toRecvBuf)
  let r ← c.toRecvBuf.scan
  let (r, c) ← chunkFill c r
  if 0 ≤ r.1 then r.2.map fun enc => (r.1, c.takeLine r.1 enc) else some (r.1, c)

/-! ## Requests -/

/-- The request object for a head of `rlen` bytes : the old one if it is large enough. Where it is
not, `xs_recalloc` is given `conn->req`, which is null here, and so allocates. -/
def allocReq (c : Conn) (old : Option HttpReq) (rlen : ℕ) : HttpReq × ℕ :=
  match old with
  | none => (HttpReq.alloc c.nalloc (rlen + 1), c.nalloc + 1)
  | some req =>
    if req.reqmallocsize < rlen + 1 then (HttpReq.alloc c.nalloc (rlen + 1), c.nalloc + 1)
    else (req, c.nalloc)

/-- The length of the head that `xs_http_createreq` parses; a frame header is read again, for its
key and the length of the payload. -/
def Conn.headParts (c : Conn) (rlen : ℤ) : Option (ℤ × List UInt8 × ℕ) :=
  if c.upgrade ≠ 0 then websocketFramevalid c.buf c.datalen
  else if rlen ≤ 0 then (httpValidrequest c.buf c.datalen).map fun r => (r, [0, 0, 0, 0], 0)
  else some (rlen, [0, 0, 0, 0], 0)

/-- Link `req` behind `conn->lastreq`. -/
def Conn.link (c : Conn) (nalloc : ℕ) (req : HttpReq) : Conn :=
  { c with nalloc := nalloc, req := c.req ++ [req] }

/-- The part of `xs_http_createreq` after the head, of length `rlen`, was parsed. -/
def Conn.linkParsed (c : Conn) (rlen : ℤ) (nalloc : ℕ) (r : ℤ × HttpReq) : ℤ × Conn :=
  if r.1 ≠ 0 then (-2, (c.setErr Error.InvalidRequest).link nalloc r.2)
  else (0, (c.setBuf (c.toRecvBuf.consume rlen)).link nalloc { r.2 with reqlen := rlen })

/-- The part of `xs_http_createreq` that parses `head` into the object `old` or a new one. -/
def Conn.parseReq (env : Env) (c : Conn) (old : Option HttpReq) (parts : ℤ × List UInt8 × ℕ)
    (head : List UInt8) : ℤ × Conn :=
  let r := allocReq c old parts.1.toNat
  c.linkParsed parts.1 r.2
    (if c.upgrade = 0 then httpParse env.strtod r.1 head
    else websocketFrameparse r.1 (head.headD 0) parts.2.1 parts.2.2)

/-- `xs_http_createreq`. -/
def httpCreatereq (env : Env) (c : Conn) (rlen : ℤ) : Option (ℤ × Conn) :=
  let old := if c.upgrade ≠ 0 then c.req.getLast? else c.freereq.head?
  let c := if c.upgrade ≠ 0 then c else { c with freereq := c.freereq.tail }
  (c.headParts rlen).bind fun parts =>
    if parts.1 ≤ 0 then some (if parts.1 = 0 then -1 else -50, c.setErr Error.InvalidRequest)
    else (readBytes c.buf 0 parts.1.toNat).map fun head => c.parseReq env old parts head

/-- `xs_websocket_response`. -/
def websocketResponse (env : Env) (c : Conn) : ℤ × Conn :=
  match connGetreq c with
  | none => (-1, c)
  | some req =>
    match httpGetheader req (ascii "Sec-WebSocket-Key") with
    | none => (-1, c)
    | some key =>
      match httpGetheader req (ascii "Sec-WebSocket-Version") with
      | none => (2, c)
      | some version =>
        match httpGetheader req (ascii "Host"), httpGetheader req (ascii "Upgrade"),
          httpGetheader req (ascii "Connection") with
        | some _, some upgrade, some connection =>
          if hasCase upgrade (ascii "websocket") = false ∨
              hasCase connection (ascii "Upgrade") = false then (4, c)
          else if version ≠ ascii "13" then
            (0, c.setOut (env.upgradeRequired c.toOut))
          else if eqCase (cstr req.buf (req.method.getD 0)) (ascii "GET") = false then
            (Error.InvalidRequest, c)
          else (0, { c.setOut (env.switching key c.toOut) with upgrade := 2 })
        | _, _, _ => (3, c)

/-- `xs_websocket_accept`. -/
def websocketAccept (c : Conn) : ℤ × Conn :=
  match (connGetreq c).bind fun req => httpGetheader req (ascii "Sec-WebSocket-Accept") with
  | none => (-1, c)
  | some h =>
    if h ≠ ascii "zY5/M7Ht2MENvjW5tL57/BmNnE4=" then (-1, c) else (0, { c with upgrade := 2 })

/-! ## Reading -/

/-- What `xs_conn_httpread` returns : its value, the bytes it stored, and `*reread`. -/
structure ReadRet where
  n : ℤ
  bytes : List UInt8
  reread : Bool
  deriving DecidableEq

/-- There are bytes in the buffer. -/
def Conn.buffered (c : Conn) : Bool :=
  decide (c.consumed < c.datalen)

/-- The part of `xs_conn_httpread` that takes leave of a finished message. -/
def Conn.finish (c : Conn) : Conn :=
  let n := c.datalen - c.consumed
  { c with
    buf := if 0 < n then c.buf.drop c.consumed.toNat else []
    datalen := n
    consumed := 0
    req := c.req.modifyHead fun req => { req with reqlen := 0 } }

/-- The answer to the upgrade request, or the check of the answer, `req`. -/
def startUpgrade (env : Env) (c : Conn) (s : ℤ) (req : HttpReq) : ReadRet × Conn :=
  let (err, c) := if req.method.isSome then websocketResponse env c else websocketAccept c
  if err < 0 then (⟨-10, [], false⟩, c.setErr Error.WS_InvalidSecKey)
  else (⟨c.retvalue s, [], c.buffered⟩, c)

/-- A ping is answered by a pong, and a pong by a ping. -/
def startFrame (c : Conn) (s : ℤ) (req : HttpReq) : ReadRet × Conn :=
  let c :=
    if req.opcode = WS.PING then c.setOut (connWriteWebsocket c.toOut WS.PONG [] none).2 else c
  let c :=
    if req.opcode = WS.PONG then c.setOut (connWriteWebsocket c.toOut WS.PING [] none).2 else c
  (⟨c.retvalue s, [], c.buffered⟩, c)

/-- A message `req` that has no chunks and no length, or the length 0. A response with no length
goes on until the socket closes. -/
def startEmpty (c : Conn) (s : ℤ) (req : HttpReq) : ReadRet × Conn :=
  if req.method = none ∧ httpGetheader req (ascii "Content-Length") = none then
    let c := c.modifyReq fun req => { req with contentlen := 2 ^ 63 - 1 }
    (⟨c.retvalue s, [], c.buffered⟩, c)
  else
    let c := c.modifyReq fun req => { req with header := true }
    (⟨c.retvalue s, [], true⟩, c)

/-- Mark the request as one of an upgraded connection. -/
def Conn.markUpgrade (c : Conn) : Conn :=
  if c.upgrade ≠ 0 then c.modifyReq fun req => { req with upgrade := c.upgrade } else c

/-- The part of `xs_conn_httpread` that starts a new message, after its head was parsed. -/
def readStarted (env : Env) (c : Conn) (s : ℤ) : ReadRet × Conn :=
  let c := c.markUpgrade
  match c.req.head? with
  | none => (⟨0, [], false⟩, c)
  | some req =>
    if req.upgrade = 1 then startUpgrade env c s req
    else if req.upgrade = 2 then startFrame c s req
    else if req.contentlen = 0 ∧ req.chunked = false then startEmpty c s req
    else (⟨c.retvalue s, [], c.buffered⟩, c)

/-- Put the object of the last message on the list of free ones. -/
def Conn.recycle (c : Conn) : Conn :=
  { c with freereq := c.req.head?.toList ++ c.freereq, req := [] }

/-- The part of `xs_conn_httpread` after `xs_http_createreq` returned `err`. -/
def readCreated (env : Env) (s err : ℤ) (c : Conn) : ReadRet × Conn :=
  if err ≠ 0 then (⟨-1, [], false⟩, c.setErr (if c.errnum ≠ 0 then c.errnum else err))
  else readStarted env c s

/-- The part of `xs_conn_httpread` that makes a message of the head found, of length `n`. -/
def readFound (env : Env) (c : Conn) (s n : ℤ) : Option (ReadRet × Conn) :=
  (httpCreatereq env c.recycle n).map fun r => readCreated env s r.1 r.2

/-- The part of `xs_conn_httpread` that looks for a new message. -/
def readHead (env : Env) (c : Conn) (s : ℤ) : Option (ReadRet × Conn) :=
  (connHeaderready c).bind fun (n, c) =>
    if n ≤ 0 ∨ c.errnum ≠ 0 then
      some (⟨if n ≠ 0 then n else c.retvalue s, [], false⟩, c)
    else readFound env c s n

/-- The masking of the bytes read, with the key of the frame. -/
def unmask (datamask bytes : List UInt8) : List UInt8 :=
  if datamask = [0, 0, 0, 0] then bytes
  else bytes.mapIdx fun n a => a ^^^ datamask.getD (n % 4) 0

/-- The part of `xs_conn_httpread` that reads up to `len` bytes, from the buffer if it has any. -/
def readBytesOf (c : Conn) (len : ℕ) : Option (ℤ × List UInt8 × Bool × Conn) :=
  if c.datalen - c.consumed ≠ 0 then
    -- the difference is converted to `size_t`
    let remaining := min ((c.datalen - c.consumed) % 2 ^ 64).toNat len
    (readBytes c.buf c.consumed.toNat remaining).map fun bytes =>
      let c := c.setBuf (c.toRecvBuf.consume remaining)
      ((remaining : ℤ), bytes, c.buffered, c)
  else some (connRead c (toInt32 len))

/-- The part of `xs_conn_httpread` that reads the data of `req`. -/
def readData (c : Conn) (req : HttpReq) (len : ℕ) : Option (ReadRet × Conn) :=
  if req.consumed < req.contentlen then
    (readBytesOf c (min len (req.contentlen - req.consumed))).map
      fun (nread, bytes, reread, c) =>
        (⟨nread, unmask req.datamask bytes, reread⟩,
          if 0 < nread then
            c.modifyReq fun req => { req with consumed := (req.consumed + nread.toNat) % 2 ^ 64 }
          else c)
  else some (⟨-1, [], c.buffered⟩, c)

/-- The part of `xs_conn_httpread` that goes on after the size line of a chunk, or without one. -/
def readChunk (c : Conn) (s n : ℤ) (len : ℕ) : Option (ReadRet × Conn) :=
  if n ≤ 0 then
    let c := if n = 0 then c.modifyReq fun req => { req with chunked := false } else c
    some (⟨c.retvalue s, [], c.buffered⟩, c)
  else c.req.head?.bind fun req => readData c req len

/-- The part of `xs_conn_httpread` that reads the body of `req`. -/
def readBody (c : Conn) (s : ℤ) (req : HttpReq) (len : ℕ) : Option (ReadRet × Conn) :=
  if req.chunked = true ∧ (req.contentlen = 0 ∨ req.contentlen = req.consumed) then
    (connChunkready c).bind fun (n, c) => readChunk c s n len
  else readData c req len

/-- Clear the fake state of a message with no body. -/
def Conn.clearHeader (c : Conn) : Conn :=
  c.modifyReq fun req => { req with header := false }

/-- `xs_conn_httpread` after the state was looked at. -/
def readOn (env : Env) (c : Conn) (s : ℤ) (len : ℕ) : Option (ReadRet × Conn) :=
  match c.req.head? with
  | none => readHead env c s
  | some req =>
    if req.reqlen = 0 ∨ req.done = true then readHead env c s else readBody c s req len

/-- `xs_conn_httpread`. -/
def connHttpread (env : Env) (c : Conn) (len : ℕ) : Option (ReadRet × Conn) :=
  let c := c.setErr 0
  let s := c.state
  if s = ConnState.Error ∨ s = ConnState.Complete then
    readOn env c.finish ConnState.LastState len
  else if s = ConnState.Header ∧ c.req.head?.any (fun req => req.header) = true then
    let c := c.clearHeader
    if c.retvalue s = 0 then some (⟨0, [], c.buffered⟩, c)
    else readOn env c s len
  else readOn env c s len

/-- A fresh connection, whose peer will send `stream`. -/
def Conn.init (recvs : ℕ → RecvAns) (stream : List UInt8) (sock : Sock) : Conn where
  errnum := 0
  corked := false
  isWblocked := false
  wcache := .create
  sock := sock
  recvs := recvs
  pending := stream
  datalen := 0
  consumed := 0
  bufsize := 0
  buf := []
  upgrade := 0
  req := []
  freereq := []
  nalloc := 0

/-- A socket that sends nothing. -/
def Sock.idle : Sock where
  sends := fun _ => .fail EAGAIN
  polls := fun _ => false
  errno := 0
  sent := []

/-- The value of a string of decimal digits, up to the first byte that is none. -/
def decimal (s : List UInt8) : ℤ :=
  (s.takeWhile fun a => decide (48 ≤ a ∧ a ≤ 57)).foldl (fun v a => v * 10 + (a.toNat - 48)) 0

/-- An environment that reads decimal digits and writes no answers. -/
def Env.plain : Env where
  strtod := decimal
  switching := fun _ o => o
  upgradeRequired := id

end Webxs
