import Mathlib.Data.List.Basic
import Mathlib.Algebra.Order.Ring.Int
import Webxs.Arr

/-!
# Heads of HTTP messages

`xs_http_validrequest` frames a head in the receive buffer : it ends at the first LF LF or
LF CR LF. `xs_http_parse` copies a framed head behind the `xs_httpreq`, cuts it into strings
by writing NUL bytes into the copy, decodes the target in place and records what a reader
needs of the header lines (`xs_connection.h`). The copy is the list `buf` of an `HttpReq`, and
its pointers are offsets in it.

Reads of the receive buffer are checked : a scan is `none` if it leaves the bytes received.
In the copy, a scan that ran past the end would find NUL there.
-/

namespace Webxs

/-! ## Bytes -/

/-- The bytes of a string of the source. -/
def ascii (s : String) : List UInt8 :=
  s.toList.map fun c => UInt8.ofNat c.toNat

/-- The C string at offset `i` of `b`. -/
def cstr (b : List UInt8) (i : ℕ) : List UInt8 :=
  (b.drop i).takeWhile fun a => a != 0

/-- `xs_lower_`. -/
def lower (a : UInt8) : UInt8 :=
  if 65 ≤ a ∧ a ≤ 90 then a + 32 else a

/-- `xs_strcmp_case` of two C strings is 0. -/
def eqCase (s t : List UInt8) : Bool :=
  s.map lower == t.map lower

/-- `xs_strstr_case` finds the second string in the first. -/
def hasCase (s t : List UInt8) : Bool :=
  s.tails.any fun u => (t.map lower).isPrefixOf (u.map lower)

/-- `xs_fromhex`. -/
def fromhex (c : UInt8) : ℤ :=
  if 48 ≤ c ∧ c ≤ 57 then c.toNat - 48
  else if 65 ≤ c ∧ c ≤ 70 then c.toNat - 65 + 10
  else if 97 ≤ c ∧ c ≤ 102 then c.toNat - 97 + 10
  else -1

/-- `xs_http_okchar`. -/
def httpOkchar (a : UInt8) : Bool :=
  a == 13 || a == 10 || a == 9 || (32 ≤ a && a < 127)

/-- A tab or a space. -/
def isBlank (a : UInt8) : Bool :=
  a == 9 || a == 32

/-- A tab, a space or a part of a line end. -/
def isBlankOrEOL (a : UInt8) : Bool :=
  isBlank a || a == 13 || a == 10

/-- At most 32 as a `char`, which is signed. -/
def isControl (a : UInt8) : Bool :=
  a ≤ 32 || 128 ≤ a

/-! ## Framing -/

/-- The loop of `xs_http_validrequest` with `n` bytes before the last. -/
def httpValidLoop (buf : List UInt8) : ℕ → ℕ → Option ℤ
  | 0, _ => some 0
  | n + 1, s => do
    let a ← buf[s]?
    if httpOkchar a = false then some (-1)
    else if a = 10 then
      let b ← buf[s + 1]?
      if b = 10 then some (s + 2)
      else if 0 < n ∧ b = 13 then
        let c ← buf[s + 2]?
        if c = 10 then some (s + 3) else httpValidLoop buf n (s + 1)
      else httpValidLoop buf n (s + 1)
    else httpValidLoop buf n (s + 1)

/-- `xs_http_validrequest`. -/
def httpValidrequest (buf : List UInt8) (buflen : ℤ) : Option ℤ :=
  httpValidLoop buf (buflen - 1).toNat 0

/-! ## The request object -/

/-- What an `xs_httpreq` holds. -/
structure HttpReq where
  /-- History : which allocation it is. -/
  id : ℕ
  statuscode : ℕ
  chunked : Bool
  keepalive : Bool
  upgrade : ℕ
  opcode : ℕ
  done : Bool
  header : Bool
  reqlen : ℤ
  /-- The bytes allocated behind the record. -/
  reqmallocsize : ℕ
  datamask : List UInt8
  contentlen : ℕ
  consumed : ℕ
  uri : Option ℕ
  method : Option ℕ
  version : Option ℕ
  status : Option ℕ
  hash : Option ℕ
  query : Option ℕ
  buf : List UInt8
  /-- Name and value of each of the `numheaders` headers. -/
  headers : List (ℕ × ℕ)
  deriving DecidableEq

/-- A fresh `xs_httpreq`, from `calloc`. -/
def HttpReq.alloc (id reqmallocsize : ℕ) : HttpReq where
  id := id
  statuscode := 0
  chunked := false
  keepalive := false
  upgrade := 0
  opcode := 0
  done := false
  header := false
  reqlen := 0
  reqmallocsize := reqmallocsize
  datamask := [0, 0, 0, 0]
  contentlen := 0
  consumed := 0
  uri := none
  method := none
  version := none
  status := none
  hash := none
  query := none
  buf := []
  headers := []

/-- `xs_req_clear`. -/
def reqClear (req : HttpReq) : HttpReq :=
  { req with
    consumed := 0, contentlen := 0
    headers := [], opcode := 0, done := false, statuscode := 0
    chunked := false, upgrade := 0, keepalive := false
    version := none, method := none, uri := none, query := none, status := none
    datamask := [0, 0, 0, 0] }

/-- `xs_http_getheader`. -/
def httpGetheader (req : HttpReq) (name : List UInt8) : Option (List UInt8) :=
  (req.headers.find? fun h => eqCase name (cstr req.buf h.1)).map fun h => cstr req.buf h.2

/-! ## Scanning the copy -/

/-- `while (c<rlen && p(buf[c])) c++`, with `n` bytes left up to `rlen`. -/
def skipWhile (p : UInt8 → Bool) (buf : List UInt8) : ℕ → ℕ → ℕ
  | 0, c => c
  | n + 1, c => if p (buf.getD c 0) then skipWhile p buf n (c + 1) else c

/-- `xs_http_skipspace`. -/
def httpSkipspace (buf : List UInt8) (rlen c : ℕ) : ℕ :=
  skipWhile isBlank buf (rlen - c) c

/-- `xs_http_skiptokenandspace`. -/
def httpSkiptokenandspace (buf : List UInt8) (rlen c : ℕ) : ℕ :=
  httpSkipspace buf rlen (skipWhile (fun a => !isBlankOrEOL a) buf (rlen - c) c)

/-- `xs_http_skiptoken`. -/
def httpSkiptoken (buf : List UInt8) (rlen c : ℕ) : ℕ :=
  skipWhile (fun a => !isBlank a) buf (rlen - c) c

/-- The loop of `xs_http_skiptoEOL`. -/
def httpEOLLoop (buf : List UInt8) : ℕ → ℕ → ℕ
  | 0, c => c
  | n + 1, c =>
    if buf.getD c 0 ≠ 13 ∧ buf.getD (c + 1) 0 ≠ 10 then httpEOLLoop buf n (c + 1) else c

/-- `xs_http_skiptoEOL`. -/
def httpSkiptoEOL (buf : List UInt8) (rlen c : ℕ) : ℕ :=
  httpEOLLoop buf (rlen - 1 - c) c

/-- `xs_http_terminatetoken` at offset `o` : the length with the NUL, and the copy with the NUL
in place of the blank or line end found. -/
def httpTerminatetoken (buf : List UInt8) (o : ℕ) : ℤ × List UInt8 :=
  let c := skipWhile (fun a => !isBlankOrEOL a) buf (buf.length - o) o
  (c - o + 1, buf.set c 0)

/-- `xs_http_validmethod`. -/
def httpValidmethod (method : List UInt8) : Bool :=
  method ∈ [ascii "GET", ascii "POST", ascii "PUT", ascii "DELETE", ascii "PROPFIND",
    ascii "CONNECT", ascii "HEAD", ascii "OPTIONS", ascii "MKCOL"]

/-! ## Decoding -/

/-- The loop of `xs_uri_decode`, whose `dst` and `src` are offsets in one memory; it returns the
memory, `s`, `d` and `err`. The bound `n` is on the source bytes left. -/
def uriDecodeLoop (dst src : ℕ) (dlen slen : ℤ) (form : Bool) :
    ℕ → List UInt8 → ℕ → ℕ → ℤ → List UInt8 × ℕ × ℕ × ℤ
  | 0, m, s, d, err => (m, s, d, err)
  | n + 1, m, s, d, err =>
    let a := m.getD (src + s) 0
    if slen ≤ s ∨ dlen ≤ d ∨ a = 0 then (m, s, d, err)
    else if form = true ∧ a = 43 then
      uriDecodeLoop dst src dlen slen form n (m.set (dst + d) 32) (s + 1) (d + 1) err
    else if a ≠ 37 then
      uriDecodeLoop dst src dlen slen form n (m.set (dst + d) a) (s + 1) (d + 1) err
    else if (s : ℤ) + 2 < slen ∧ (d : ℤ) + 1 < dlen then
      let hi := fromhex (m.getD (src + s + 1) 0)
      let lo := fromhex (m.getD (src + s + 2) 0)
      if hi < 0 ∨ lo < 0 then uriDecodeLoop dst src dlen slen form n m (s + 3) d (-1)
      else
        uriDecodeLoop dst src dlen slen form n
          (m.set (dst + d) (UInt8.ofNat (hi.toNat * 16 + lo.toNat))) (s + 3) (d + 1) err
    else (m, s, d, -1)

/-- `xs_uri_decode`, the copy of an overlapping rest being a move. -/
def uriDecode (m : List UInt8) (dst : ℕ) (dlen : ℤ) (src : ℕ) (slen : ℤ) (form : Bool) :
    ℤ × List UInt8 :=
  let dlen := dlen - 1
  if dlen ≤ 0 then (-50, m)
  else
    let (m, s, d, err) := uriDecodeLoop dst src dlen slen form slen.toNat m 0 0 0
    let r := slen - s
    if err = 0 ∧ r ≠ 0 ∧ (d : ℤ) + r ≤ dlen then
      let m := Arr.copyTo m (dst + d) ((m.drop (src + s)).take r.toNat)
      (err, m.set (dst + (d + r.toNat)) 0)
    else (err, m.set (dst + d) 0)

/-! ## Parsing -/

/-- `exs_Max_Headers`. -/
def maxHeaders : ℕ := 64

/-- What `xs_http_parseheaders` keeps of a header whose name and value are the strings at `na`
and `va`; `strtod` is the value of `strtod`, truncated. -/
def httpPreparse (strtod : List UInt8 → ℤ) (req : HttpReq) (na va : ℕ) : HttpReq :=
  let name := cstr req.buf na
  let value := cstr req.buf va
  let version := cstr req.buf (req.version.getD 0)
  { req with
    contentlen :=
      if eqCase name (ascii "Content-Length") then (strtod value % 2 ^ 64).toNat
      else req.contentlen
    chunked :=
      req.chunked || (eqCase name (ascii "Transfer-Encoding") && eqCase value (ascii "chunked"))
    keepalive :=
      req.keepalive || (eqCase name (ascii "Connection") && eqCase value (ascii "keep-alive")) ||
        eqCase version (ascii "1.1")
    upgrade := if eqCase name (ascii "Upgrade") then 1 else req.upgrade
    headers := req.headers ++ [(na, va)] }

/-- The loop of `xs_http_parseheaders` on the `rlen` bytes from `base` on, with room for `n` more
headers. A line it cannot read ends it. -/
def httpHeadersLoop (strtod : List UInt8 → ℤ) (base rlen : ℕ) : ℕ → HttpReq → ℕ → HttpReq
  | 0, req, _ => req
  | n + 1, req, c =>
    -- skip whitespace, line ends included
    let c := skipWhile isControl (req.buf.drop base) (rlen - c) c
    if rlen ≤ c then req
    else
      let na := base + c
      let c := httpSkiptoken (req.buf.drop base) rlen c
      if req.buf.getD (base + c - 1) 0 ≠ 58 then req
      else
        let req := { req with buf := req.buf.set (base + c - 1) 0 }
        let c := httpSkipspace (req.buf.drop base) rlen c
        let va := base + c
        let c := httpSkiptoEOL (req.buf.drop base) rlen c
        let req := { req with buf := req.buf.set (base + c) 0 }
        httpHeadersLoop strtod base rlen n (httpPreparse strtod req na va) c

/-- `xs_http_parseheaders`; its return value is always 0. -/
def httpParseheaders (strtod : List UInt8 → ℤ) (req : HttpReq) (base rlen : ℕ) : HttpReq :=
  httpHeadersLoop strtod base rlen (maxHeaders - req.headers.length) req 0

/-- `xs_http_terminatetoken` at a pointer that may be null. -/
def HttpReq.terminate (req : HttpReq) (o : Option ℕ) : HttpReq :=
  match o with
  | none => req
  | some o => { req with buf := (httpTerminatetoken req.buf o).2 }

/-- The part of `xs_http_parse` that cuts a delimiter and what follows off the target :
`strchr`, and the NUL in its place. -/
def cutAt (buf : List UInt8) (uri : ℕ) (delim : UInt8) : Option ℕ × List UInt8 :=
  let s := cstr buf uri
  let k := s.findIdx (· == delim)
  if k < s.length then (some (uri + k + 1), buf.set (uri + k) 0) else (none, buf)

/-- Decode the string at `o` in place. -/
def decodeAt (buf : List UInt8) (o : Option ℕ) : List UInt8 :=
  match o with
  | none => buf
  | some o =>
    let ulen : ℤ := (cstr buf o).length + 1
    (uriDecode buf o ulen o ulen false).2

/-- The part of `xs_http_parse` on the target at `uri` : terminate it, cut off the fragment and the
query, and decode. After a cut `ulen` is the negative distance back to the start. -/
def httpParseUri (req : HttpReq) (uri : ℕ) : HttpReq :=
  let (ulen, buf) := httpTerminatetoken req.buf uri
  let (hash, buf) := cutAt buf uri 35
  let ulen := hash.elim ulen fun ch => (uri : ℤ) - ch
  let (query, buf) := cutAt buf uri 63
  let ulen := query.elim ulen fun ch => (uri : ℤ) - ch
  let buf := (uriDecode buf uri ulen uri ulen false).2
  { req with hash := hash, query := query, buf := decodeAt (decodeAt buf hash) query }

/-- `xs_http_parse` of a framed head. -/
def httpParse (strtod : List UInt8 → ℤ) (req : HttpReq) (head : List UInt8) : ℤ × HttpReq :=
  let c := httpSkipspace head head.length 0
  let req := reqClear req
  if head.length ≤ c then (-50, req)
  else
    let rlen := head.length - c
    let req := { req with buf := head.drop c ++ [0] }
    let uri := httpSkiptokenandspace req.buf rlen 0
    let version := httpSkiptokenandspace req.buf rlen uri
    let c := httpSkiptoEOL req.buf rlen version
    let req := { req with
      method := some 0, uri := some uri, version := some version
      status := none, hash := none, query := none }
    if (req.buf.drop version).take 5 = ascii "HTTP/" then
      -- a request
      let req := { req with version := some (version + 5) }.terminate (some 0)
      if httpValidmethod (cstr req.buf 0) = false then (-1, req)
      else if req.buf.getD uri 0 ≠ 47 ∧
          (req.buf.getD uri 0 ≠ 42 ∧ httpOkchar (req.buf.getD (uri + 1) 0) = false) then (-2, req)
      else
        let req := httpParseUri (req.terminate (some (version + 5))) uri
        (0, httpParseheaders strtod req (c + 1) (rlen - c - 1))
    else if req.buf.take 5 = ascii "HTTP/" then
      -- a response
      let req := { req with
        status := some version, statuscode := (strtod (cstr req.buf uri) % 2 ^ 32).toNat
        version := some 5, method := none, uri := none }
      let req := (req.terminate (some version)).terminate (some 5)
      (0, httpParseheaders strtod req (c + 1) (rlen - c - 1))
    else (-3, { req with method := none, uri := none, version := none })

end Webxs
