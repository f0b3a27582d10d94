import Webxs.Http
import Webxs.Write

/-!
# Chunks and WebSocket frames

What is framed inside a connection after a head : `xs_scan_chunk` finds the size line of a
chunk, `xs_websocket_framevalid` and `xs_websocket_frameparse` read the header of a frame, and
`xs_conn_write_websocket` writes a frame (`xs_connection.h`). As with heads, reads of the
receive buffer are checked. Machine integers wrap, as they do where C leaves it open.
-/

namespace Webxs

/-- A value stored in an `int`. -/
def toInt32 (n : ℤ) : ℤ :=
  Int.bmod n (2 ^ 32)

/-! ## Chunks -/

/-- The loop of `xs_scan_chunk` with `n` bytes before the last : the return value and `*ret`, an
offset in `buf` or null. -/
def scanChunkLoop (buf : List UInt8) : ℕ → ℕ → ℤ → ℕ → Option (ℤ × Option ℕ)
  | 0, _, _, _ => some (-1, none)
  | n + 1, s, datalen, gotdata => do
    let a ← buf[s]?
    let b ← if gotdata ≠ 0 ∧ a = 13 then buf[s + 1]? else some 0
    if gotdata ≠ 0 ∧ a = 13 ∧ b = 10 then
      some (datalen, some (s + 2 + if datalen = 0 then 2 else 0))
    else if 1 < gotdata then scanChunkLoop buf n (s + 1) datalen gotdata
    else if 0 ≤ fromhex a then
      scanChunkLoop buf n (s + 1) (toInt32 (datalen * 16 + fromhex a)) 1
    else if gotdata ≠ 0 then scanChunkLoop buf n (s + 1) datalen (gotdata + 1)
    else scanChunkLoop buf n (s + 1) datalen gotdata

/-- `xs_scan_chunk`. -/
def scanChunk (buf : List UInt8) (buflen : ℤ) : Option (ℤ × Option ℕ) :=
  scanChunkLoop buf (buflen - 1).toNat 0 0 0

/-! ## Frames -/

/-- The number in network order in the bytes from `i` to `i + n`. -/
def readBE (buf : List UInt8) (i : ℕ) : ℕ → Option ℕ
  | 0 => some 0
  | n + 1 => do
    let hi ← readBE buf i n
    let a ← buf[i + n]?
    some (hi * 256 + a.toNat)

/-- The `n` bytes from `i` on. -/
def readBytes (buf : List UInt8) (i n : ℕ) : Option (List UInt8) :=
  if i + n ≤ buf.length then some ((buf.drop i).take n) else none

/-- Store `t` at `i`. -/
def writeBytes (buf : List UInt8) (i : ℕ) (t : List UInt8) : Option (List UInt8) :=
  if i + t.length ≤ buf.length then some (buf.take i ++ t ++ buf.drop (i + t.length)) else none

/-- `xs_websocket_framevalid` : the length of the header, or 0, the key and the length of the
payload. -/
def websocketFramevalid (buf : List UInt8) (buflen : ℤ) : Option (ℤ × List UInt8 × ℕ) :=
  if buflen < 2 then some (0, [0, 0, 0, 0], 0)
  else do
    let b ← buf[1]?
    let len := b.toNat % 128
    let masklen : ℕ := if 128 ≤ b.toNat then 4 else 0
    let (rlen, datalen) ←
      if len < 126 ∧ (masklen + 2 : ℤ) ≤ buflen then some (masklen + 2, len)
      else if len = 126 ∧ (masklen + 4 : ℤ) ≤ buflen then do
        let l ← readBE buf 2 2
        some (masklen + 4, l)
      else if (masklen + 10 : ℤ) ≤ buflen then do
        let l ← readBE buf 2 8
        some (masklen + 10, l)
      else some (0, 0)
    let mask ← if masklen ≠ 0 ∧ rlen ≠ 0 then readBytes buf (rlen - 4) 4 else some [0, 0, 0, 0]
    some (rlen, mask, datalen)

/-- `exs_WS_CONNECTION_CLOSE`. -/
def WS.CONNECTION_CLOSE : ℕ := 8

/-- `exs_WS_PING`. -/
def WS.PING : ℕ := 9

/-- `exs_WS_PONG`. -/
def WS.PONG : ℕ := 10

/-- `exs_Error_WS_BadOpcode`. -/
def Error.WS_BadOpcode : ℤ := -20008

/-- `exs_Error_WS_BadContinue`. -/
def Error.WS_BadContinue : ℤ := -20009

/-- `xs_websocket_frameparse`, on a buffer whose first byte is `b`. -/
def websocketFrameparse (req : HttpReq) (b : UInt8) (datamask : List UInt8) (contentlen : ℕ) :
    ℤ × HttpReq :=
  let req := reqClear req
  let opc := b.toNat % 16
  let req := { req with
    contentlen := contentlen, datamask := datamask, keepalive := opc != WS.CONNECTION_CLOSE }
  let err : ℤ :=
    if (2 < opc ∧ opc < 8) ∨ 10 < opc then Error.WS_BadOpcode
    else if opc = 0 ∧ req.opcode = 0 then Error.WS_BadContinue
    else 0
  (err, if opc ≠ 0 ∨ err ≠ 0 then { req with opcode := opc } else req)

/-- The number `v` in network order in `n` bytes. -/
def bytesBE (v : ℕ) : ℕ → List UInt8
  | 0 => []
  | n + 1 => bytesBE (v / 256) n ++ [UInt8.ofNat (v % 256)]

/-- The header `xs_conn_write_websocket` writes for a payload of `len` bytes, with `mask` or
without. -/
def websocketHeader (opcode len : ℕ) (mask : Option (List UInt8)) : List UInt8 :=
  let bit := if mask.isSome ∧ len ≠ 0 then 128 else 0
  let size :=
    if len < 126 then [UInt8.ofNat (bit + len)]
    else if len ≤ 0xFFFF then UInt8.ofNat (bit + 126) :: bytesBE len 2
    else UInt8.ofNat (bit + 127) :: bytesBE len 8
  UInt8.ofNat (0x80 + opcode % 16) :: size ++ if len ≠ 0 then mask.getD [] else []

/-- The loop of `xs_conn_write_websocket` with `len` bytes left, masked in blocks of 4096. `data` is
not moved, so each block is taken from the start of the payload. -/
def websocketLoop (mask : List UInt8) (o : Out) (data : List UInt8) (len retval : ℕ) : ℕ × Out :=
  if len = 0 then (retval, o)
  else
    let outlen := min len 4096
    let buf := (data.take outlen).mapIdx fun i a => a ^^^ mask.getD (i % 4) 0
    let r := connWrite false o buf (decide (outlen < len))
    websocketLoop mask r.2 data (len - outlen) (retval + r.1)
termination_by len

/-- `xs_conn_write_websocket`; `mask` is what `xs_ws_genmask` made, if `do_mask`. -/
def connWriteWebsocket (o : Out) (opcode : ℕ) (data : List UInt8) (mask : Option (List UInt8)) :
    ℕ × Out :=
  let hdr := websocketHeader opcode data.length mask
  if mask.isSome ∧ data ≠ [] then
    let r := connWrite false o hdr true
    websocketLoop (mask.getD []) r.2 data data.length r.1
  else
    let r := connWrite false o hdr (decide (data ≠ []))
    let r' := connWrite false r.2 data false
    (r.1 + r'.1, r'.2)

end Webxs
