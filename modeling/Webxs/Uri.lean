import Webxs.Heads

/-!
# Splitting a URL

`xs_uri_create` (`xs_connection.h`) copies the parts of a URL one after another into the block
behind the `xs_uri`, each with a NUL. The cursor `buf` is moved back over the text of a port, so
that the next part overwrites it, and a slash may be put in front of a path.

The block is a list and the pointers are offsets in it. Stores are checked : a call is `none` if it
leaves the block. The string is what is before its NUL, so the byte behind its end reads as 0.
-/

namespace Webxs

/-- An `xs_uri`, without its block. -/
structure Uri where
  port : ℤ
  protocol : Option ℕ
  host : Option ℕ
  path : Option ℕ
  query : Option ℕ
  hash : Option ℕ
  deriving DecidableEq

/-- `xs_uri_create` at work : the record, its block, the cursor `buf`, and the string from `str`
on. -/
structure UriCursor where
  uri : Uri
  mem : List UInt8
  buf : ℕ
  str : List UInt8
  deriving DecidableEq

/-- `atoi`. -/
def atoi (s : List UInt8) : ℤ :=
  let s := s.dropWhile fun a => a == 32 || (9 ≤ a && a ≤ 13)
  let digits (s : List UInt8) : ℤ :=
    (s.takeWhile fun a => decide (48 ≤ a ∧ a ≤ 57)).foldl (fun v a => v * 10 + (a.toNat - 48)) 0
  match s with
  | 45 :: s => -digits s
  | 43 :: s => digits s
  | s => digits s

/-- A slash or a backslash. -/
def isSlash (a : UInt8) : Bool :=
  a == 47 || a == 92

/-- The default ports. -/
def schemePort (protocol : List UInt8) : ℤ :=
  if protocol = ascii "http" then 80
  else if protocol = ascii "https" then 443
  else if protocol = ascii "ws" then 80
  else if protocol = ascii "wss" then 443
  else if protocol = ascii "ftp" then 21
  else 0

/-- The protocols whose URLs have a host in any case. -/
def hostSchemes : List (List UInt8) :=
  [ascii "http", ascii "https", ascii "ftp", ascii "ftps", ascii "ws", ascii "wss"]

/-- `xs_strcmp_case(protocol, "file://")` is 0. -/
def isFile (protocol : Option (List UInt8)) : Bool :=
  protocol.any fun t => eqCase t (ascii "file://")

/-- `p` : the index of the bracket that closes an IPv6 address. -/
def closingBracket (str : List UInt8) : Option ℕ :=
  if str.getD 0 0 = 91 ∧ 93 ∈ str then some (str.idxOf 93) else none

/-- A host is looked for. -/
def HasHost (protocol : Option (List UInt8)) (str : List UInt8) (forceHost : ℤ) : Prop :=
  isFile protocol = false ∧
    (forceHost ≠ 0 ∨ (str.getD 0 0 = 47 ∧ str.getD 1 0 = 47) ∨
      (closingBracket str).isSome = true ∨
      protocol.any (fun t => hostSchemes.any (eqCase t)) = true ∨
      (protocol.isSome = true ∧ 47 ∉ str ∧ 92 ∉ str))

instance (protocol : Option (List UInt8)) (str : List UInt8) (forceHost : ℤ) :
    Decidable (HasHost protocol str forceHost) := by
  unfold HasHost
  infer_instance

namespace UriCursor

variable (s : UriCursor)

/-- Copy `t` to `buf`, with a NUL, and move `buf` behind it. -/
def copy (t : List UInt8) : Option UriCursor :=
  if s.buf + t.length < s.mem.length then
    some { s with
      mem := (Arr.copyTo s.mem s.buf t).set (s.buf + t.length) 0
      buf := s.buf + t.length + 1 }
  else none

/-- The string at a pointer into the block. -/
def string (o : Option ℕ) : Option (List UInt8) :=
  o.map (cstr s.mem)

/-- The string `uri->protocol`. -/
def protocol : Option (List UInt8) :=
  s.string s.uri.protocol

/-- The part that finds the protocol. -/
def findProtocol : Option UriCursor :=
  let c := s.str.findIdx fun a => a == 58 || isSlash a || a == 91
  if s.str.getD c 0 ≠ 58 then some s
  else if 1 < c then do
    let s' ← s.copy (s.str.take c)
    some { s' with
      uri.protocol := some s.buf
      uri.port := schemePort (cstr s'.mem s.buf)
      str := s.str.drop (c + 1) }
  else if 0 < c then do
    -- a drive letter
    let s' ← s.copy (ascii "file://")
    some { s' with uri.protocol := some s.buf }
  else some s

/-- Only known protocols are taken for one, so that `localhost:8080` has none. -/
def resetProtocol (instr : List UInt8) (forceHost : ℤ) : UriCursor :=
  if forceHost = 2 ∧ s.uri.port = 0 then { s with uri.protocol := none, buf := 0, str := instr }
  else s

/-- The part that finds an IPv6 address, the bracket that closes it being at `p`. The text of the
port is left behind `buf`. -/
def findAddress (p : ℕ) : Option UriCursor := do
  let s' ← s.copy ((s.str.take p).drop 1)
  let s' := { s' with uri.host := some s.buf, str := s.str.drop (p + 1) }
  let c := s'.str.findIdx isSlash
  if s'.str.getD 0 0 = 58 then
    let s'' ← s'.copy ((s'.str.take c).drop 1)
    some { s'' with
      uri.port := atoi (cstr s''.mem s'.buf)
      buf := s'.buf
      str := s'.str.drop c }
  else some { s' with str := s'.str.drop c }

/-- The part that takes a port off the host at `host`. -/
def findPort (host : ℕ) : UriCursor :=
  let t := cstr s.mem host
  if 58 ∈ t then
    let p := host + t.idxOf 58
    let mem := s.mem.set p 0
    { s with mem := mem, buf := p + 1, uri.port := atoi (cstr mem (p + 1)) }
  else s

/-- The part that finds a host by its name. -/
def findName : Option UriCursor := do
  let s := { s with str := s.str.dropWhile isSlash }
  let c := s.str.findIdx isSlash
  if 0 < c then
    let s' ← s.copy (s.str.take c)
    some ({ s' with uri.host := some s.buf, str := s.str.drop c }.findPort s.buf)
  else some s

/-- The part that finds the host. -/
def findHost (forceHost : ℤ) : Option UriCursor :=
  if HasHost s.protocol s.str forceHost then
    match closingBracket s.str with
    | some p => s.findAddress p
    | none => s.findName
  else some s

/-- The part that finds the path. -/
def findPath : Option UriCursor :=
  let c := s.str.findIdx fun a => a == 63 || a == 35
  if 0 < c then do
    let slash := if s.str.getD 0 0 ≠ 47 ∧ isFile s.protocol = false then [47] else []
    let s' ← s.copy (slash ++ s.str.take c)
    some { s' with uri.path := some s.buf, str := s.str.drop c }
  else if isFile s.protocol = false then do
    let s' ← s.copy [47]
    some { s' with uri.path := some s.buf }
  else some s

/-- The part that finds the query. -/
def findQuery : Option UriCursor :=
  if s.str.getD 0 0 = 63 then
    let s := { s with str := s.str.drop 1 }
    let c := s.str.findIdx fun a => a == 35
    if 0 < c then do
      let s' ← s.copy (s.str.take c)
      some { s' with uri.query := some s.buf, str := s.str.drop c }
    else some s
  else some s

/-- The part that finds the hash. -/
def findHash : Option UriCursor :=
  if s.str.getD 0 0 = 35 then
    let s := { s with str := s.str.drop 1 }
    if 0 < s.str.length then do
      let s' ← s.copy s.str
      some { s' with uri.hash := some s.buf, str := [] }
    else some s
  else some s

end UriCursor

/-- `xs_uri_create` of the string `instr` : the record and its block, or `none` inside for a null
pointer. -/
def uriCreate (instr : List UInt8) (forceHost : ℤ) : Option (Option (Uri × List UInt8)) :=
  if instr = [] then some none
  else do
    let s : UriCursor :=
      { uri := ⟨0, none, none, none, none, none⟩
        mem := List.replicate (instr.length + 5 + 8 + 2) 0
        buf := 0
        str := instr }
    let s ← s.findProtocol
    let s ← (s.resetProtocol instr forceHost).findHost forceHost
    let s ← s.findPath
    let s ← s.findQuery
    let s ← s.findHash
    some (some (s.uri, s.mem))

end Webxs
