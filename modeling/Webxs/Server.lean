import Webxs.Base64
import Webxs.LexicalPath
import Webxs.Read

/-!
# Serving files

`xs_server_handlerequest` (`xs_server.h`) answers a `GET` or `HEAD` with the file at the path that
is the document root and the decoded target of the request, if the request is authorized. It does
not look at the target : a `..` in it climbs. `served_under` says that the path stays under the
document root exactly if the target enters again what it climbs of it.

`crypt` is the function `DES_crypt` of a cryptographic library.
-/

namespace Webxs

/-- `PATH_MAX` of Linux. -/
def PATH_MAX : ℕ := 4096

/-! ## Authorization -/

/-- The lines of a text, as `strtok` finds them : without the empty ones. -/
def strtokLines (text : List UInt8) : List (List UInt8) :=
  (text.splitOnP fun a => a = 10 || a = 13).filter fun line => line ≠ []

/-- What `strchr` finds, cut there : the text in front of the first colon and what is behind it. -/
def splitColon (text : List UInt8) : Option (List UInt8 × List UInt8) :=
  let k := text.findIdx (· == 58)
  if k < text.length then some (text.take k, text.drop (k + 1)) else none

/-- The loop of `xs_server_auth_request` over the lines of the password file. A line without a
colon is read through a null pointer. -/
def authLoop (crypt : List UInt8 → List UInt8 → List UInt8) (user pass : List UInt8) :
    List (List UInt8) → Option ℤ
  | [] => some (-1)
  | cur :: lines =>
    if user.isPrefixOf cur then
      (splitColon cur).bind fun (_, hash) =>
        if crypt pass (hash.take 2) = hash then some 0 else authLoop crypt user pass lines
    else authLoop crypt user pass lines

/-- The C string that `xs_server_auth_request` decodes the credentials at `i` to. -/
def authPlaintext (buf : List UInt8) (i : ℕ) : Option (List UInt8) :=
  if i < buf.length then
    (b64Decode (List.replicate 256 0) (buf.drop i) (cstr buf i).length).map fun r => cstr r.2 0
  else none

/-- `xs_server_auth_request`, with the text of the password file. -/
def serverAuthRequest (crypt : List UInt8 → List UInt8 → List UInt8) (authFile : List UInt8)
    (req : HttpReq) : Option ℤ :=
  match req.headers.find? fun h => eqCase (ascii "Authorization") (cstr req.buf h.1) with
  | none => some (-1)
  | some (_, a) =>
    if (ascii "Basic").isPrefixOf (cstr req.buf a) then
      (authPlaintext req.buf (a + 6)).bind fun plaintext =>
        match splitColon plaintext with
        | none => some (-1)
        | some (user, pass) => authLoop crypt user pass (strtokLines (cstr authFile 0))
    else some (-1)

/-! ## Paths -/

/-- `xs_strappend` into `n` bytes : the string stored. -/
def strappend (n : ℕ) (s : List UInt8) : List UInt8 :=
  s.take (n - 1)

/-- `xs_strlcat` to an empty string that has `room` bytes, for a size `n`. -/
def strlcat (room : ℕ) (s : List UInt8) (n : ℕ) : Option (List UInt8) :=
  let d := s.take (n - 1)
  if d.length < room then some d else none

/-- The path that `xs_server_handlerequest` builds. -/
def serverPath (documentRoot uri : List UInt8) : Option (List UInt8) :=
  let path := strappend PATH_MAX documentRoot
  (strlcat (PATH_MAX - path.length) uri PATH_MAX).map fun d => path ++ d

/-- What `xs_server_handlerequest` answers with : an error, a file, with its contents or without, or
nothing. -/
inductive Answer
  | unauthorized
  | file (path : List UInt8) (body : Bool)
  | nothing
deriving DecidableEq

/-- The test of the authorization, if there is a password file. -/
def serverAuthorize (crypt : List UInt8 → List UInt8 → List UInt8)
    (authFile : Option (List UInt8)) (req : HttpReq) : Option ℤ :=
  match authFile with
  | none => some 0
  | some authFile => serverAuthRequest crypt authFile req

/-- `xs_server_handlerequest` : its answer and return value. -/
def serverHandlerequest (crypt : List UInt8 → List UInt8 → List UInt8)
    (authFile : Option (List UInt8)) (documentRoot : List UInt8) (req : HttpReq) :
    Option (Answer × ℤ) :=
  let h := if req.upgrade ≠ 0 then none else req.method.map (cstr req.buf)
  let err := if req.keepalive = false then Error.Close else 0
  if h = some (ascii "GET") ∨ h = some (ascii "HEAD") then
    (serverAuthorize crypt authFile req).bind fun auth =>
      if auth ≠ 0 then some (.unauthorized, Error.Close)
      else
        (serverPath documentRoot ((req.uri.map (cstr req.buf)).getD [])).map fun path =>
          (.file path (h = some (ascii "GET")), err)
  else some (.nothing, err)

/-! ## The document root -/

/-- An absolute path, in `document_root`. -/
structure DocumentRoot where
  bytes : List UInt8
  absolute : bytes.head? = some 47
  noNul : 0 ∉ bytes
  length_lt : bytes.length < PATH_MAX

/-- The empty segments and `.` stay where they are. -/
def isDot (s : List UInt8) : Bool :=
  s = [] || s = [46]

/-- `..` goes back. -/
def isDotDot (s : List UInt8) : Bool :=
  s = [46, 46]

/-- The target `/target` enters again what it climbs of the places of the root. -/
def StaysUnder (root target : List UInt8) : Prop :=
  let places := LexicalPath.places 47 isDot isDotDot root
  let way := LexicalPath.way isDot isDotDot (target.splitOn 47)
  places.drop (places.length - way.1) <+: way.2

theorem serverPath_eq (root : DocumentRoot) {uri path : List UInt8}
    (h : serverPath root.bytes uri = some path) : path = root.bytes ++ uri := by
  have hlt := root.length_lt
  have hpos : root.bytes.length ≠ 0 := by
    intro h0
    have habsolute := root.absolute
    rw [List.length_eq_zero_iff.mp h0] at habsolute
    cases habsolute
  obtain ⟨d, hd, rfl⟩ := Option.map_eq_some_iff.mp h
  unfold strlcat at hd
  dsimp only at hd
  split_ifs at hd with hroom
  have hroot : strappend PATH_MAX root.bytes = root.bytes := List.take_of_length_le (by omega)
  rw [hroot, List.length_take] at hroom
  rw [hroot, ← Option.some.inj hd, List.take_of_length_le (by omega)]

/-- The file that is served for a target with a slash in front is under the document root exactly if
the target enters again what it climbs. -/
theorem served_under (crypt : List UInt8 → List UInt8 → List UInt8)
    (authFile : Option (List UInt8)) (root : DocumentRoot) (req : HttpReq) {uri : ℕ}
    {target path : List UInt8} {body : Bool} {err : ℤ} (huri : req.uri = some uri)
    (htarget : cstr req.buf uri = 47 :: target)
    (h : serverHandlerequest crypt authFile root.bytes req = some (.file path body, err)) :
    path = root.bytes ++ 47 :: target ∧
      (LexicalPath.Under 47 isDot isDotDot root.bytes path ↔ StaysUnder root.bytes target) := by
  have hpath : path = root.bytes ++ 47 :: target := by
    unfold serverHandlerequest at h
    generalize (if req.upgrade ≠ 0 then none else req.method.map (cstr req.buf)) = method at h
    generalize (if req.keepalive = false then Error.Close else 0) = err' at h
    dsimp only at h
    rw [huri, Option.map_some, Option.getD_some, htarget] at h
    by_cases hmethod : method = some (ascii "GET") ∨ method = some (ascii "HEAD")
    · rw [if_pos hmethod] at h
      obtain ⟨auth, -, h⟩ := Option.bind_eq_some_iff.mp h
      by_cases hauth : auth ≠ 0
      · rw [if_pos hauth] at h
        cases h
      · rw [if_neg hauth] at h
        obtain ⟨path', hpath, h⟩ := Option.map_eq_some_iff.mp h
        cases h
        exact serverPath_eq root hpath
    · rw [if_neg hmethod] at h
      cases h
  refine ⟨hpath, ?_⟩
  rw [hpath]
  exact LexicalPath.under_append_iff root.bytes target

/-- The root `/srv`. -/
def srvRoot : DocumentRoot where
  bytes := ascii "/srv"
  absolute := by decide
  noNul := by decide
  length_lt := by decide

/-- The request for a target. -/
def getRequest (target : List UInt8) : ℤ × HttpReq :=
  httpParse (fun _ => 0) (.alloc 0 64) (ascii "GET " ++ target ++ ascii " HTTP/1.1\r\n\r\n")

theorem served_under_file :
    ascii "/srv/a/../b" = srvRoot.bytes ++ 47 :: ascii "a/../b" ∧
      (LexicalPath.Under 47 isDot isDotDot srvRoot.bytes (ascii "/srv/a/../b") ↔
        StaysUnder srvRoot.bytes (ascii "a/../b")) :=
  served_under (fun _ _ => []) none srvRoot (getRequest (ascii "/a/../b")).2
    (show _ = some 4 by decide +kernel) (by decide +kernel)
    (show _ = some (Answer.file (ascii "/srv/a/../b") true, Error.Close) by decide +kernel)

/-- The target `/../x` is accepted, and climbs out of the root. -/
theorem not_under_dotDot :
    (getRequest (ascii "/../x")).1 = 0 ∧
      serverHandlerequest (fun _ _ => []) none srvRoot.bytes (getRequest (ascii "/../x")).2 =
        some (.file (ascii "/srv/../x") true, Error.Close) ∧
      ¬LexicalPath.Under 47 isDot isDotDot srvRoot.bytes (ascii "/srv/../x") := by
  refine ⟨by decide +kernel, by decide +kernel, by decide +kernel⟩

end Webxs
