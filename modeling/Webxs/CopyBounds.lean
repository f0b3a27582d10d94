import Webxs.RequestText

/-!
# Accesses of the private copy

`xs_http_parse` reads and writes a copy of the head, with a NUL behind it, in the `r + 1` bytes that
`xs_http_createreq` allocates for a head of `r` bytes; blanks in front are not copied, so the copy
ends before that. `InCopy` has the functions of the parser once more, with every access checked : a
function has no result if one of its accesses leaves the copy, or the allocation in the two
comparisons of five bytes with `HTTP/`. Where they have one it is the one of the functions of
`Http.lean`.

All scans stay in the copy, the unbounded one of `xs_http_terminatetoken` as well, since the line
ends at the end of the head are more than are overwritten before it. Only the comparison at the
third part of the first line leaves the allocation, if what follows the second part is too short
(`staysInCopy_iff`).
-/

namespace Webxs

namespace InCopy

/-! ## Checked accesses -/

/-- `while (c<rlen && p(buf[c])) c++`, with `n` bytes left up to `rlen`. -/
def skipWhile (p : UInt8 → Bool) (buf : List UInt8) : ℕ → ℕ → Option ℕ
  | 0, c => some c
  | n + 1, c => buf[c]?.bind fun a => if p a then skipWhile p buf n (c + 1) else some c

/-- `xs_http_skipspace`. -/
def httpSkipspace (buf : List UInt8) (rlen c : ℕ) : Option ℕ :=
  skipWhile isBlank buf (rlen - c) c

/-- `xs_http_skiptokenandspace`. -/
def httpSkiptokenandspace (buf : List UInt8) (rlen c : ℕ) : Option ℕ :=
  (skipWhile (fun a => !isBlankOrEOL a) buf (rlen - c) c).bind fun c => httpSkipspace buf rlen c

/-- `xs_http_skiptoken`. -/
def httpSkiptoken (buf : List UInt8) (rlen c : ℕ) : Option ℕ :=
  skipWhile (fun a => !isBlank a) buf (rlen - c) c

/-- The loop of `xs_http_skiptoEOL`. -/
def httpEOLLoop (buf : List UInt8) : ℕ → ℕ → Option ℕ
  | 0, c => some c
  | n + 1, c => buf[c]?.bind fun a =>
    if a = 13 then some c
    else buf[c + 1]?.bind fun b => if b ≠ 10 then httpEOLLoop buf n (c + 1) else some c

/-- `xs_http_skiptoEOL`. -/
def httpSkiptoEOL (buf : List UInt8) (rlen c : ℕ) : Option ℕ :=
  httpEOLLoop buf (rlen - 1 - c) c

/-- `xs_http_terminatetoken` at offset `o`. Its loop has no bound : where nothing stops it, it reads
behind the last byte. -/
def httpTerminatetoken (buf : List UInt8) (o : ℕ) : Option (ℤ × List UInt8) :=
  (skipWhile (fun a => !isBlankOrEOL a) buf (buf.length - o + 1) o).map fun (c : ℕ) =>
    ((c : ℤ) - o + 1, buf.set c 0)

/-- The C string at offset `o`, for the functions that read it up to its NUL at most. -/
def cstr (buf : List UInt8) (o : ℕ) : Option (List UInt8) :=
  let s := Webxs.cstr buf o
  if o + s.length < buf.length then some s else none

/-- `memcmp` of the five bytes at `o` with `HTTP/`, in the copy and the bytes `spare` that are
allocated behind it. -/
def isHTTP (buf spare : List UInt8) (o : ℕ) : Option Bool :=
  (readBytes (buf ++ spare) o 5).map fun l => l == ascii "HTTP/"

/-- Store the byte `a` at `i`. -/
def store (buf : List UInt8) (i : ℕ) (a : UInt8) : Option (List UInt8) :=
  if i < buf.length then some (buf.set i a) else none

/-! ## Decoding -/

/-- The loop of `xs_uri_decode`. -/
def uriDecodeLoop (dst src : ℕ) (dlen slen : ℤ) (form : Bool) :
    ℕ → List UInt8 → ℕ → ℕ → ℤ → Option (List UInt8 × ℕ × ℕ × ℤ)
  | 0, m, s, d, err => some (m, s, d, err)
  | n + 1, m, s, d, err =>
    if slen ≤ s ∨ dlen ≤ d then some (m, s, d, err)
    else m[src + s]?.bind fun a =>
      if a = 0 then some (m, s, d, err)
      else if form = true ∧ a = 43 then
        (store m (dst + d) 32).bind fun m =>
          uriDecodeLoop dst src dlen slen form n m (s + 1) (d + 1) err
      else if a ≠ 37 then
        (store m (dst + d) a).bind fun m =>
          uriDecodeLoop dst src dlen slen form n m (s + 1) (d + 1) err
      else if (s : ℤ) + 2 < slen ∧ (d : ℤ) + 1 < dlen then do
        let hi ← m[src + s + 1]?
        let lo ← m[src + s + 2]?
        if fromhex hi < 0 ∨ fromhex lo < 0 then
          uriDecodeLoop dst src dlen slen form n m (s + 3) d (-1)
        else
          let m ← store m (dst + d) (UInt8.ofNat ((fromhex hi).toNat * 16 + (fromhex lo).toNat))
          uriDecodeLoop dst src dlen slen form n m (s + 3) (d + 1) err
      else some (m, s, d, -1)

/-- `xs_uri_decode`. -/
def uriDecode (m : List UInt8) (dst : ℕ) (dlen : ℤ) (src : ℕ) (slen : ℤ) (form : Bool) :
    Option (ℤ × List UInt8) :=
  let dlen := dlen - 1
  if dlen ≤ 0 then some (-50, m)
  else
    (uriDecodeLoop dst src dlen slen form slen.toNat m 0 0 0).bind fun (m, s, d, err) =>
      let r := slen - s
      if err = 0 ∧ r ≠ 0 ∧ (d : ℤ) + r ≤ dlen then do
        let rest ← readBytes m (src + s) r.toNat
        let m ← writeBytes m (dst + d) rest
        let m ← store m (dst + (d + r.toNat)) 0
        some (err, m)
      else (store m (dst + d) 0).map fun m => (err, m)

/-- `strchr` of a delimiter in the target, and the NUL in its place. -/
def cutAt (buf : List UInt8) (uri : ℕ) (delim : UInt8) : Option (Option ℕ × List UInt8) :=
  (cstr buf uri).bind fun s =>
    let k := s.findIdx (· == delim)
    if k < s.length then (store buf (uri + k) 0).map fun buf => (some (uri + k + 1), buf)
    else some (none, buf)

/-- Decode the string at `o` in place. -/
def decodeAt (buf : List UInt8) (o : Option ℕ) : Option (List UInt8) :=
  match o with
  | none => some buf
  | some o => (cstr buf o).bind fun s =>
    (uriDecode buf o (s.length + 1) o (s.length + 1) false).map Prod.snd

/-! ## Parsing -/

/-- What `xs_http_parseheaders` keeps of a header. -/
def httpPreparse (strtod : List UInt8 → ℤ) (req : HttpReq) (na va : ℕ) : Option HttpReq := do
  let _ ← cstr req.buf na
  let _ ← cstr req.buf va
  let _ ← cstr req.buf (req.version.getD 0)
  some (Webxs.httpPreparse strtod req na va)

/-- `while (buf[c]<=32 && c<rlen) c++`, which reads the byte at `rlen` too. -/
def skipControl (buf : List UInt8) (rlen c : ℕ) : Option ℕ :=
  (skipWhile isControl buf (rlen - c) c).bind fun c => buf[c]?.map fun _ => c

/-- The loop of `xs_http_parseheaders`. -/
def httpHeadersLoop (strtod : List UInt8 → ℤ) (base rlen : ℕ) :
    ℕ → HttpReq → ℕ → Option HttpReq
  | 0, req, _ => some req
  | n + 1, req, c =>
    if rlen ≤ c then some req
    else do
      let c ← skipControl (req.buf.drop base) rlen c
      if rlen ≤ c then some req
      else
        let na := base + c
        let c ← httpSkiptoken (req.buf.drop base) rlen c
        let a ← req.buf[base + c - 1]?
        if a ≠ 58 then some req
        else
          let buf ← store req.buf (base + c - 1) 0
          let req := { req with buf := buf }
          let c ← httpSkipspace (req.buf.drop base) rlen c
          let va := base + c
          let c ← httpSkiptoEOL (req.buf.drop base) rlen c
          let buf ← store req.buf (base + c) 0
          let req ← httpPreparse strtod { req with buf := buf } na va
          httpHeadersLoop strtod base rlen n req c

/-- `xs_http_parseheaders`. -/
def httpParseheaders (strtod : List UInt8 → ℤ) (req : HttpReq) (base rlen : ℕ) : Option HttpReq :=
  httpHeadersLoop strtod base rlen (maxHeaders - req.headers.length) req 0

/-- `xs_http_terminatetoken` at a pointer that may be null. -/
def terminate (req : HttpReq) (o : Option ℕ) : Option HttpReq :=
  match o with
  | none => some req
  | some o => (httpTerminatetoken req.buf o).map fun r => { req with buf := r.2 }

/-- The part of `xs_http_parse` on the target at `uri`. -/
def httpParseUri (req : HttpReq) (uri : ℕ) : Option HttpReq := do
  let (ulen, buf) ← httpTerminatetoken req.buf uri
  let (hash, buf) ← cutAt buf uri 35
  let ulen := hash.elim ulen fun ch => (uri : ℤ) - ch
  let (query, buf) ← cutAt buf uri 63
  let ulen := query.elim ulen fun ch => (uri : ℤ) - ch
  let (_, buf) ← uriDecode buf uri ulen uri ulen false
  let buf ← decodeAt buf hash
  let buf ← decodeAt buf query
  some { req with hash := hash, query := query, buf := buf }

/-- `xs_http_parse` of a framed head, with the bytes `spare` allocated behind its copy. -/
def httpParse (strtod : List UInt8 → ℤ) (req : HttpReq) (head spare : List UInt8) :
    Option (ℤ × HttpReq) :=
  let c := Webxs.httpSkipspace head head.length 0
  let req := reqClear req
  if head.length ≤ c then some (-50, req)
  else do
    let rlen := head.length - c
    let req := { req with buf := head.drop c ++ [0] }
    let uri ← httpSkiptokenandspace req.buf rlen 0
    let version ← httpSkiptokenandspace req.buf rlen uri
    let c ← httpSkiptoEOL req.buf rlen version
    let req := { req with
      method := some 0, uri := some uri, version := some version
      status := none, hash := none, query := none }
    let request ← isHTTP req.buf spare version
    if request = true then
      let req ← terminate { req with version := some (version + 5) } (some 0)
      let method ← cstr req.buf 0
      if httpValidmethod method = false then some (-1, req)
      else
        let a ← req.buf[uri]?
        let b ← req.buf[uri + 1]?
        if a ≠ 47 ∧ (a ≠ 42 ∧ httpOkchar b = false) then some (-2, req)
        else
          let req ← terminate req (some (version + 5))
          let req ← httpParseUri req uri
          (httpParseheaders strtod req (c + 1) (rlen - c - 1)).map fun req => (0, req)
    else
      let response ← isHTTP req.buf spare 0
      if response = true then
        let code ← cstr req.buf uri
        let req := { req with
          status := some version, statuscode := (strtod code % 2 ^ 32).toNat
          version := some 5, method := none, uri := none }
        let req ← terminate req (some version)
        let req ← terminate req (some 5)
        (httpParseheaders strtod req (c + 1) (rlen - c - 1)).map fun req => (0, req)
      else some (-3, { req with method := none, uri := none, version := none })

/-! ## Scans -/

variable {p : UInt8 → Bool} {m : List UInt8} {n l c r o k : ℕ}

theorem getD_of_getElem? {a : UInt8} (h : m[c]? = some a) : m.getD c 0 = a := by
  rw [List.getD_eq_getElem?_getD, h, Option.getD_some]

/-- A scan that has an end inside the copy. -/
theorem skipWhile_inCopy (h : n = 0 ∨ c + n ≤ m.length) :
    skipWhile p m n c = some (Webxs.skipWhile p m n c) ∧
      c ≤ Webxs.skipWhile p m n c ∧ Webxs.skipWhile p m n c ≤ c + n := by
  induction n generalizing c with
  | zero => exact ⟨rfl, le_rfl, le_rfl⟩
  | succ n ih =>
    obtain ⟨a, ha⟩ := exists_getElem? (l := m) (i := c) (by omega)
    obtain ⟨heq, hle, hle'⟩ := ih (c := c + 1) (by omega)
    rw [skipWhile, Webxs.skipWhile, ha, Option.bind_some, getD_of_getElem? ha]
    split_ifs
    · exact ⟨heq, by omega, by omega⟩
    · exact ⟨rfl, le_rfl, by omega⟩

theorem httpSkipspace_inCopy (h : r ≤ m.length) (hc : c ≤ r) :
    httpSkipspace m r c = some (Webxs.httpSkipspace m r c) ∧
      c ≤ Webxs.httpSkipspace m r c ∧ Webxs.httpSkipspace m r c ≤ r := by
  obtain ⟨heq, hle, hle'⟩ := skipWhile_inCopy (p := isBlank) (m := m) (n := r - c) (c := c)
    (by omega)
  exact ⟨heq, hle, hle'.trans (by omega)⟩

theorem httpSkiptoken_inCopy (h : r ≤ m.length) (hc : c ≤ r) :
    httpSkiptoken m r c = some (Webxs.httpSkiptoken m r c) ∧
      c ≤ Webxs.httpSkiptoken m r c ∧ Webxs.httpSkiptoken m r c ≤ r := by
  obtain ⟨heq, hle, hle'⟩ := skipWhile_inCopy (p := fun a => !isBlank a) (m := m)
    (n := r - c) (c := c) (by omega)
  exact ⟨heq, hle, hle'.trans (by omega)⟩

theorem httpSkiptokenandspace_inCopy (h : r ≤ m.length) (hc : c ≤ r) :
    httpSkiptokenandspace m r c = some (Webxs.httpSkiptokenandspace m r c) := by
  obtain ⟨heq, hle, hle'⟩ := skipWhile_inCopy (p := fun a => !isBlankOrEOL a) (m := m)
    (n := r - c) (c := c) (by omega)
  rw [httpSkiptokenandspace, heq, Option.bind_some, Webxs.httpSkiptokenandspace]
  exact (httpSkipspace_inCopy h (hle'.trans (by omega))).1

theorem httpSkiptoEOL_inCopy (h : r ≤ m.length) :
    httpSkiptoEOL m r c = some (Webxs.httpSkiptoEOL m r c) ∧
      c ≤ Webxs.httpSkiptoEOL m r c ∧
      (Webxs.httpSkiptoEOL m r c = c ∨ Webxs.httpSkiptoEOL m r c ≤ r - 1) := by
  have hloop : ∀ n c, n = 0 ∨ c + n + 1 ≤ m.length →
      httpEOLLoop m n c = some (Webxs.httpEOLLoop m n c) ∧
        c ≤ Webxs.httpEOLLoop m n c ∧ Webxs.httpEOLLoop m n c ≤ c + n := by
    intro n
    induction n with
    | zero => exact fun c _ => ⟨rfl, le_rfl, le_rfl⟩
    | succ n ih =>
      intro c hn
      obtain ⟨a, ha⟩ := exists_getElem? (l := m) (i := c) (by omega)
      obtain ⟨b, hb⟩ := exists_getElem? (l := m) (i := c + 1) (by omega)
      obtain ⟨heq, hle, hle'⟩ := ih (c + 1) (by omega)
      rw [httpEOLLoop, Webxs.httpEOLLoop, ha, hb, Option.bind_some, Option.bind_some,
        getD_of_getElem? ha, getD_of_getElem? hb]
      by_cases h13 : a = 13
      · rw [if_pos h13, if_neg fun h => h.1 h13]
        exact ⟨rfl, le_rfl, by omega⟩
      · rw [if_neg h13]
        by_cases h10 : b = 10
        · rw [if_neg (not_not_intro h10), if_neg fun h => h.2 h10]
          exact ⟨rfl, le_rfl, by omega⟩
        · rw [if_pos h10, if_pos ⟨h13, h10⟩]
          exact ⟨heq, by omega, by omega⟩
  obtain ⟨heq, hle, hle'⟩ := hloop (r - 1 - c) c (by omega)
  refine ⟨heq, hle, ?_⟩
  unfold Webxs.httpSkiptoEOL
  omega

/-- A scan that finds an end, whatever the bounds behind that are. -/
theorem skipWhile_stops {a : UInt8} (hk : m[k]? = some a) (ha : p a = false) (hc : c ≤ k)
    (hn : k < c + n) (hl : k < c + l) :
    ∃ z b, skipWhile p m n c = some z ∧ Webxs.skipWhile p m l c = z ∧ c ≤ z ∧ z ≤ k ∧
      m[z]? = some b ∧ p b = false := by
  induction n generalizing c l with
  | zero => omega
  | succ n ih =>
    obtain ⟨l, rfl⟩ : ∃ l', l = l' + 1 := ⟨l - 1, by omega⟩
    have hlt := (List.getElem?_eq_some_iff.mp hk).1
    obtain ⟨b, hb⟩ := exists_getElem? (l := m) (i := c) (by omega)
    rw [skipWhile, Webxs.skipWhile, hb, Option.bind_some, getD_of_getElem? hb]
    by_cases hp : p b = true
    · rw [if_pos hp, if_pos hp]
      have hne : c ≠ k := by
        rintro rfl
        rw [Option.some.inj (hb.symm.trans hk), ha] at hp
        cases hp
      obtain ⟨z, b', h1, h2, h3, h4⟩ := ih (c := c + 1) (l := l) (by omega) (by omega) (by omega)
      exact ⟨z, b', h1, h2, by omega, h4⟩
    · rw [if_neg hp, if_neg hp]
      exact ⟨c, b, rfl, rfl, le_rfl, hc, hb, Bool.of_not_eq_true hp⟩

/-- A token is terminated at the first blank or line end, if there is one. -/
theorem httpTerminatetoken_inCopy {a : UInt8} (hk : m[k]? = some a) (ha : isBlankOrEOL a = true)
    (hok : o ≤ k) :
    ∃ (z : ℕ) (b : UInt8), httpTerminatetoken m o = some ((z : ℤ) - o + 1, m.set z 0) ∧
      Webxs.httpTerminatetoken m o = ((z : ℤ) - o + 1, m.set z 0) ∧ o ≤ z ∧ z ≤ k ∧
      m[z]? = some b ∧ isBlankOrEOL b = true := by
  have hlt := (List.getElem?_eq_some_iff.mp hk).1
  obtain ⟨z, b, h1, h2, h3, h4, h5, h6⟩ := skipWhile_stops (p := fun a => !isBlankOrEOL a)
    (n := m.length - o + 1) (l := m.length - o) hk (by simp [ha]) hok (by omega) (by omega)
  refine ⟨z, b, ?_, ?_, h3, h4, h5, by simpa using h6⟩
  · rw [httpTerminatetoken, h1, Option.map_some]
  · unfold Webxs.httpTerminatetoken
    dsimp only
    rw [h2]

theorem cstr_inCopy {z : ℕ} (hoz : o ≤ z) (hz : m[z]? = some 0) :
    cstr m o = some (Webxs.cstr m o) := by
  have hlt := (List.getElem?_eq_some_iff.mp hz).1
  have hle := (length_cstr_le hoz hz).1
  exact if_pos (by omega)

theorem store_inCopy (h : o < m.length) (a : UInt8) : store m o a = some (m.set o a) :=
  if_pos h

/-! ## Decoding in place -/

variable {z : ℕ}

theorem uriDecodeLoop_inCopy {dlen slen : ℤ} (form : Bool) (hs : o + slen ≤ m.length)
    (hd : o + dlen ≤ m.length) :
    ∀ n m' s d err, m'.length = m.length →
      uriDecodeLoop o o dlen slen form n m' s d err =
        some (Webxs.uriDecodeLoop o o dlen slen form n m' s d err) ∧
      ((s : ℤ) ≤ slen →
        ((Webxs.uriDecodeLoop o o dlen slen form n m' s d err).2.1 : ℤ) ≤ slen) := by
  intro n
  induction n with
  | zero => exact fun m' s d err _ => ⟨rfl, id⟩
  | succ n ih =>
    intro m' s d err hm
    rw [uriDecodeLoop, Webxs.uriDecodeLoop]
    dsimp only
    by_cases hend : slen ≤ s ∨ dlen ≤ d
    · rw [if_pos hend, if_pos (hend.elim .inl fun h => .inr (.inl h))]
      exact ⟨rfl, id⟩
    rw [if_neg hend]
    obtain ⟨a, ha⟩ := exists_getElem? (l := m') (i := o + s) (by omega)
    have hset : ∀ b, store m' (o + d) b = some (m'.set (o + d) b) :=
      fun b => store_inCopy (by omega) b
    have step : ∀ (b : UInt8) (s' : ℕ) (err' : ℤ), (s' : ℤ) ≤ slen →
        ((store m' (o + d) b).bind fun m =>
          uriDecodeLoop o o dlen slen form n m s' (d + 1) err') =
          some (Webxs.uriDecodeLoop o o dlen slen form n (m'.set (o + d) b) s' (d + 1) err') ∧
        ((s : ℤ) ≤ slen → ((Webxs.uriDecodeLoop o o dlen slen form n (m'.set (o + d) b) s' (d + 1)
          err').2.1 : ℤ) ≤ slen) := by
      intro b s' err' hs'
      obtain ⟨heq, hle⟩ := ih (m'.set (o + d) b) s' (d + 1) err' (by rw [List.length_set, hm])
      exact ⟨by rw [hset, Option.bind_some, heq], fun _ => hle hs'⟩
    rw [ha, Option.bind_some, getD_of_getElem? ha]
    by_cases h0 : a = 0
    · rw [if_pos h0, if_pos (.inr (.inr h0))]
      exact ⟨rfl, id⟩
    have hgo : ¬(slen ≤ s ∨ dlen ≤ d ∨ a = 0) := by
      rw [← or_assoc, not_or]
      exact ⟨hend, h0⟩
    rw [if_neg h0, if_neg hgo]
    by_cases hform : form = true ∧ a = 43
    · rw [if_pos hform, if_pos hform]
      exact step 32 (s + 1) err (by omega)
    rw [if_neg hform, if_neg hform]
    by_cases h37 : a ≠ 37
    · rw [if_pos h37, if_pos h37]
      exact step a (s + 1) err (by omega)
    rw [if_neg h37, if_neg h37]
    by_cases hroom : (s : ℤ) + 2 < slen ∧ (d : ℤ) + 1 < dlen
    · rw [if_pos hroom, if_pos hroom]
      obtain ⟨hi, hhi⟩ := exists_getElem? (l := m') (i := o + s + 1) (by omega)
      obtain ⟨lo, hlo⟩ := exists_getElem? (l := m') (i := o + s + 2) (by omega)
      simp only [hhi, hlo, Option.bind_eq_bind, Option.bind_some, getD_of_getElem? hhi,
        getD_of_getElem? hlo]
      by_cases hbad : fromhex hi < 0 ∨ fromhex lo < 0
      · rw [if_pos hbad, if_pos hbad]
        obtain ⟨heq, hle⟩ := ih m' (s + 3) d (-1) hm
        exact ⟨heq, fun _ => hle (by omega)⟩
      · rw [if_neg hbad, if_neg hbad]
        exact step _ (s + 3) err (by omega)
    · rw [if_neg hroom, if_neg hroom]
      exact ⟨rfl, id⟩

/-- Decoding in place, of a string with its NUL. -/
theorem uriDecode_inCopy (hm : m[o + k]? = some 0) :
    uriDecode m o (k + 1) o (k + 1) false = some (Webxs.uriDecode m o (k + 1) o (k + 1) false) := by
  have hlt := (List.getElem?_eq_some_iff.mp hm).1
  unfold uriDecode Webxs.uriDecode
  dsimp only
  by_cases h0 : (k : ℤ) + 1 - 1 ≤ 0
  · rw [if_pos h0, if_pos h0]
  rw [if_neg h0, if_neg h0]
  obtain ⟨hloop, hs⟩ := @uriDecodeLoop_inCopy m o ((k : ℤ) + 1 - 1) (k + 1) false (by omega)
    (by omega) ((k : ℤ) + 1).toNat m 0 0 0 rfl
  obtain ⟨hw, hd⟩ := @uriDecodeLoop_within o (o + k) o o ((k : ℤ) + 1 - 1) (k + 1) false le_rfl
    (by push_cast; omega) ((k : ℤ) + 1).toNat m 0 0 0 (by omega)
  rw [hloop, Option.bind_some]
  generalize Webxs.uriDecodeLoop o o ((k : ℤ) + 1 - 1) (k + 1) false ((k : ℤ) + 1).toNat m 0 0 0 =
    r at hs hw hd
  obtain ⟨m', s, d, err⟩ := r
  have hs := hs (by omega)
  have hlen := hw.length_eq
  dsimp only at hs hd hlen ⊢
  by_cases hr : err = 0 ∧ (k : ℤ) + 1 - s ≠ 0 ∧ (d : ℤ) + ((k : ℤ) + 1 - s) ≤ (k : ℤ) + 1 - 1
  · rw [if_pos hr, if_pos hr]
    have hrest : ((m'.drop (o + s)).take ((k : ℤ) + 1 - s).toNat).length =
        ((k : ℤ) + 1 - s).toNat := by
      rw [List.length_take, List.length_drop]
      omega
    rw [readBytes_of_le (by omega)]
    simp only [Option.bind_eq_bind, Option.bind_some]
    rw [writeBytes, if_pos (by omega), Option.bind_some, store_inCopy ?_, Option.bind_some]
    · rfl
    · simp only [List.length_append, List.length_take, List.length_drop]
      omega
  · rw [if_neg hr, if_neg hr, store_inCopy (by omega), Option.map_some]

theorem cutAt_inCopy {uri : ℕ} (delim : UInt8) (hle : uri ≤ z) (hm : m[z]? = some 0) :
    cutAt m uri delim = some (Webxs.cutAt m uri delim) := by
  have hlt := (List.getElem?_eq_some_iff.mp hm).1
  have hlen := (length_cstr_le hle hm).1
  unfold cutAt Webxs.cutAt
  rw [cstr_inCopy hle hm, Option.bind_some]
  dsimp only
  split_ifs with hk
  · rw [store_inCopy (by omega), Option.map_some]
  · rfl

theorem decodeAt_inCopy {i : Option ℕ} (hm : m[z]? = some 0) (hi : ∀ j ∈ i, j ≤ z) :
    decodeAt m i = some (Webxs.decodeAt m i) := by
  cases i with
  | none => rfl
  | some j =>
    obtain ⟨hle, hnul⟩ := length_cstr_le (hi j rfl) hm
    rw [decodeAt, cstr_inCopy (hi j rfl) hm, Option.bind_some, uriDecode_inCopy hnul,
      Option.map_some]
    rfl

theorem decodePath_inCopy {uri : ℕ} {hash query : Option ℕ} (hle : uri ≤ z)
    (hm : m[z]? = some 0) (hhash : ∀ i ∈ hash, uri < i ∧ i ≤ z)
    (hquery : ∀ i ∈ query, uri < i ∧ i ≤ z) {ulen : ℤ}
    (hulen : query.elim (hash.elim ((z : ℤ) - uri + 1) fun ch => (uri : ℤ) - ch)
      (fun ch => (uri : ℤ) - ch) = ulen) :
    uriDecode m uri ulen uri ulen false = some (Webxs.uriDecode m uri ulen uri ulen false) := by
  have hneg : ∀ ch : ℕ, uri < ch → uriDecode m uri ((uri : ℤ) - ch) uri ((uri : ℤ) - ch) false =
      some (Webxs.uriDecode m uri ((uri : ℤ) - ch) uri ((uri : ℤ) - ch) false) := fun ch hch => by
    rw [uriDecode, Webxs.uriDecode, if_pos (by omega), if_pos (by omega)]
  rw [← hulen]
  cases query with
  | some ch => exact hneg ch (hquery ch rfl).1
  | none =>
    cases hash with
    | some ch => exact hneg ch (hhash ch rfl).1
    | none =>
      obtain ⟨k, rfl⟩ := Nat.exists_eq_add_of_le hle
      have hlen : (((uri + k : ℕ) : ℤ) - uri + 1 : ℤ) = k + 1 := by omega
      rw [Option.elim_none, Option.elim_none, hlen]
      exact uriDecode_inCopy hm

/-- The target is terminated, cut and decoded in the copy, if a blank or a line end is left behind
it. -/
theorem httpParseUri_inCopy {req : HttpReq} {uri : ℕ} {a : UInt8} (hk : req.buf[k]? = some a)
    (ha : isBlankOrEOL a = true) (hle : uri ≤ k) :
    httpParseUri req uri = some (Webxs.httpParseUri req uri) ∧
      Within uri k req.buf (Webxs.httpParseUri req uri).buf := by
  obtain ⟨z, b, hterm, hterm', huz, hzk, hz, -⟩ := httpTerminatetoken_inCopy hk ha hle
  have hlt := (List.getElem?_eq_some_iff.mp hz).1
  refine ⟨?_, (httpParseUri_within huz hlt hterm').1.mono le_rfl hzk⟩
  have h0 : (req.buf.set z 0)[z]? = some 0 := List.getElem?_set_self hlt
  obtain ⟨hw₁, hi₁⟩ := cutAt_within 35 huz h0
  unfold httpParseUri Webxs.httpParseUri
  simp only [hterm, hterm', cutAt_inCopy 35 huz h0, Option.bind_eq_bind, Option.bind_some]
  generalize Webxs.cutAt (req.buf.set z 0) uri 35 = r₁ at hw₁ hi₁
  obtain ⟨hash, b₁⟩ := r₁
  dsimp only at hw₁ hi₁ ⊢
  have h1 := hw₁.nul h0
  obtain ⟨hw₂, hi₂⟩ := cutAt_within 63 huz h1
  rw [cutAt_inCopy 63 huz h1, Option.bind_some]
  generalize Webxs.cutAt b₁ uri 63 = r₂ at hw₂ hi₂
  obtain ⟨query, b₂⟩ := r₂
  dsimp only at hw₂ hi₂ ⊢
  have h2 := hw₂.nul h1
  have hdec := decodePath_within huz h2 hi₁ hi₂
  rw [decodePath_inCopy huz h2 hi₁ hi₂ rfl, Option.bind_some]
  have h3 := hdec.nul h2
  have hw₃ := decodeAt_within h3 fun i hi => ⟨(hi₁ i hi).1.le, (hi₁ i hi).2⟩
  have h4 := hw₃.nul h3
  rw [decodeAt_inCopy h3 fun i hi => (hi₁ i hi).2, Option.bind_some,
    decodeAt_inCopy h4 fun i hi => (hi₂ i hi).2, Option.bind_some]

/-! ## The header lines -/

/-- The copy from `base` on has `rlen` bytes and the NUL behind them. -/
structure HeaderCopy (req : HttpReq) (base rlen : ℕ) : Prop where
  length : req.buf.length = base + rlen + 1
  nul : req.buf[base + rlen]? = some 0
  version_le : req.version.getD 0 ≤ base + rlen

theorem HeaderCopy.set {req : HttpReq} {base rlen i : ℕ} (h : HeaderCopy req base rlen) :
    HeaderCopy { req with buf := req.buf.set i 0 } base rlen where
  length := List.length_set.trans h.length
  nul := by
    rw [List.getElem?_set]
    split_ifs with h1 h2
    · rfl
    · have := h.length
      omega
    · exact h.nul
  version_le := h.version_le

theorem HeaderCopy.drop_length {req : HttpReq} {base rlen : ℕ} (h : HeaderCopy req base rlen) :
    rlen + 1 = (req.buf.drop base).length := by
  rw [List.length_drop, h.length]
  omega

/-- The strings of a header end in the copy. -/
theorem HeaderCopy.preparse {req : HttpReq} {base rlen : ℕ} (h : HeaderCopy req base rlen)
    (na va : ℕ) (hna : na ≤ base + rlen) (hva : va ≤ base + rlen) (strtod : List UInt8 → ℤ) :
    httpPreparse strtod req na va = some (Webxs.httpPreparse strtod req na va) ∧
      HeaderCopy (Webxs.httpPreparse strtod req na va) base rlen := by
  refine ⟨?_, h.length, h.nul, h.version_le⟩
  simp only [httpPreparse, cstr_inCopy hna h.nul, cstr_inCopy hva h.nul,
    cstr_inCopy h.version_le h.nul, Option.bind_eq_bind, Option.bind_some]

/-- A header line is read in the copy, and leaves it as it has to be for the next one. -/
theorem httpHeadersLoop_inCopy (strtod : List UInt8 → ℤ) {base rlen : ℕ} (n : ℕ) :
    ∀ (req : HttpReq) (c : ℕ), HeaderCopy req base rlen →
      httpHeadersLoop strtod base rlen n req c =
        some (Webxs.httpHeadersLoop strtod base rlen n req c) := by
  induction n with
  | zero => exact fun req c _ => rfl
  | succ n ih =>
    intro req c h
    have hlen := h.drop_length
    rw [httpHeadersLoop, Webxs.httpHeadersLoop]
    dsimp only
    by_cases hc : rlen ≤ c
    · have hstay : Webxs.skipWhile isControl (req.buf.drop base) (rlen - c) c = c := by
        rw [Nat.sub_eq_zero_of_le hc]
        rfl
      rw [if_pos hc, hstay, if_pos hc]
    rw [if_neg hc]
    obtain ⟨hskip, hle, hle'⟩ := skipWhile_inCopy (p := isControl) (m := req.buf.drop base)
      (n := rlen - c) (c := c) (by omega)
    generalize Webxs.skipWhile isControl (req.buf.drop base) (rlen - c) c = c₁ at hskip hle hle'
    obtain ⟨a₁, ha₁⟩ := exists_getElem? (l := req.buf.drop base) (i := c₁) (by omega)
    have hcontrol : skipControl (req.buf.drop base) rlen c = some c₁ := by
      rw [skipControl, hskip, Option.bind_some, ha₁, Option.map_some]
    simp only [hcontrol, Option.bind_eq_bind, Option.bind_some]
    by_cases hc₁ : rlen ≤ c₁
    · rw [if_pos hc₁, if_pos hc₁]
    rw [if_neg hc₁, if_neg hc₁]
    obtain ⟨htoken, hle₂, hle₂'⟩ := httpSkiptoken_inCopy (m := req.buf.drop base) (r := rlen)
      (c := c₁) (by omega) (by omega)
    rw [htoken, Option.bind_some]
    generalize Webxs.httpSkiptoken (req.buf.drop base) rlen c₁ = c₂ at hle₂ hle₂'
    have hbuf := h.length
    obtain ⟨a, ha⟩ := exists_getElem? (l := req.buf) (i := base + c₂ - 1) (by omega)
    rw [ha, Option.bind_some, getD_of_getElem? ha]
    by_cases hcolon : a ≠ 58
    · rw [if_pos hcolon, if_pos hcolon]
    rw [if_neg hcolon, if_neg hcolon, store_inCopy (by omega), Option.bind_some]
    have h₁ : HeaderCopy { req with buf := req.buf.set (base + c₂ - 1) 0 } base rlen := h.set
    have hlen₁ := h₁.drop_length
    dsimp only at hlen₁ ⊢
    obtain ⟨hspace, hle₃, hle₃'⟩ := httpSkipspace_inCopy
      (m := (req.buf.set (base + c₂ - 1) 0).drop base) (r := rlen) (c := c₂) (by omega) hle₂'
    rw [hspace, Option.bind_some]
    generalize Webxs.httpSkipspace ((req.buf.set (base + c₂ - 1) 0).drop base) rlen c₂ = c₃
      at hle₃ hle₃'
    obtain ⟨heol, hle₄, hle₄'⟩ := httpSkiptoEOL_inCopy
      (m := (req.buf.set (base + c₂ - 1) 0).drop base) (r := rlen) (c := c₃) (by omega)
    rw [heol, Option.bind_some]
    generalize Webxs.httpSkiptoEOL ((req.buf.set (base + c₂ - 1) 0).drop base) rlen c₃ = c₄
      at hle₄ hle₄'
    have hlt₄ : base + c₄ < (req.buf.set (base + c₂ - 1) 0).length := by
      rw [List.length_set]
      omega
    have h₂ : HeaderCopy { req with buf := (req.buf.set (base + c₂ - 1) 0).set (base + c₄) 0 }
        base rlen := h₁.set
    obtain ⟨hpre, h₃⟩ := h₂.preparse (base + c₁) (base + c₃) (by omega) (by omega) strtod
    rw [store_inCopy hlt₄, Option.bind_some, hpre, Option.bind_some]
    exact ih _ c₄ h₃

theorem httpParseheaders_inCopy (strtod : List UInt8 → ℤ) {req : HttpReq} {base rlen : ℕ}
    (h : HeaderCopy req base rlen) :
    httpParseheaders strtod req base rlen = some (Webxs.httpParseheaders strtod req base rlen) :=
  httpHeadersLoop_inCopy strtod _ req 0 h

/-! ## The first line -/

/-- A comparison inside the allocation is not decided by what is there behind the NUL. -/
theorem isHTTP_inCopy {s spare : List UInt8} (hd : m.drop o = s ++ [0])
    (hfit : o + 5 ≤ m.length + spare.length) :
    isHTTP m spare o = some (decide ((m.drop o).take 5 = ascii "HTTP/")) := by
  have hlen := congrArg List.length hd
  rw [List.length_drop, List.length_append, List.length_singleton] at hlen
  rw [isHTTP, readBytes_of_le (by rw [List.length_append]; exact hfit), Option.map_some,
    List.drop_append_of_le_length (by omega), hd]
  refine congrArg some (Bool.eq_iff_iff.mpr ?_)
  rw [beq_iff_eq, decide_eq_true_iff]
  by_cases h5 : 5 ≤ (s ++ [0]).length
  · rw [List.take_append_of_le_length h5]
  · -- the NUL is among the bytes
    have h0 : (0 : UInt8) ∈ s ++ [0] := List.mem_append_right s (List.mem_singleton_self 0)
    have hne : ∀ l : List UInt8, (s ++ [0] ++ l).take 5 ≠ ascii "HTTP/" := by
      intro l heq
      have hmem : (0 : UInt8) ∈ (s ++ [0] ++ l).take 5 := by
        rw [List.take_append]
        exact List.mem_append_left _ (by rwa [List.take_of_length_le (by omega)])
      rw [heq] at hmem
      revert hmem
      decide
    have hne' := hne []
    rw [List.append_nil] at hne'
    exact iff_of_false (hne spare) hne'

theorem isHTTP_outside {spare : List UInt8} (h : m.length + spare.length < o + 5) :
    isHTTP m spare o = none := by
  rw [isHTTP, readBytes, if_neg (by rw [List.length_append]; omega), Option.map_none]

/-- A LF is not skipped with the token in front of it. -/
theorem httpSkiptokenandspace_le (hk : m[k]? = some 10) (hc : c ≤ k) (hn : k < r) :
    c ≤ Webxs.httpSkiptokenandspace m r c ∧ Webxs.httpSkiptokenandspace m r c ≤ k := by
  obtain ⟨z, -, -, h1, hcz, hzk, -⟩ := skipWhile_stops (p := fun a => !isBlankOrEOL a)
    (n := r - c) (l := r - c) hk rfl hc (by omega) (by omega)
  obtain ⟨z', -, -, h2, hzz, hzk', -⟩ := skipWhile_stops (p := isBlank) (n := r - z)
    (l := r - z) hk rfl hzk (by omega) (by omega)
  rw [Webxs.httpSkiptokenandspace, h1, Webxs.httpSkipspace, h2]
  exact ⟨hcz.trans hzz, hzk'⟩

theorem terminate_inCopy {req : HttpReq} {a : UInt8} (hk : req.buf[k]? = some a)
    (ha : isBlankOrEOL a = true) (hok : o ≤ k) :
    terminate req (some o) = some (req.terminate (some o)) ∧
      ∃ z ≤ k, (req.terminate (some o)) = { req with buf := req.buf.set z 0 } := by
  obtain ⟨z, b, hterm, hterm', -, hzk, -⟩ := httpTerminatetoken_inCopy hk ha hok
  have heq : req.terminate (some o) = { req with buf := req.buf.set z 0 } := by
    rw [HttpReq.terminate, hterm']
  exact ⟨by rw [heq, terminate, hterm, Option.map_some], z, hzk, heq⟩

theorem getElem?_set_of_lt {i : ℕ} (h : i < k) (a : UInt8) : (m.set i a)[k]? = m[k]? :=
  List.getElem?_set_ne (by omega)

/-- The copy of a head : the last byte is a LF, at `k₂`, and there is one before it, at `k₁`. -/
structure HeadCopy (buf : List UInt8) (k₁ k₂ : ℕ) : Prop where
  length : buf.length = k₂ + 2
  lf₁ : buf[k₁]? = some 10
  lf₂ : buf[k₂]? = some 10
  lt : k₁ < k₂
  nul : buf[k₂ + 1]? = some 0

variable {k₁ k₂ : ℕ} {req : HttpReq}

theorem HeadCopy.header {version : ℕ} (h : HeadCopy req.buf k₁ k₂)
    (hversion : req.version = some version) (hle : version ≤ k₂) {base len : ℕ}
    (hb : base + len = k₂ + 1) : HeaderCopy req base len where
  length := by rw [h.length, hb]
  nul := by rw [hb, h.nul]
  version_le := by
    rw [hversion, Option.getD_some]
    omega

/-- `HTTP/` is in front of a LF that is not before it. -/
theorem add_five_le (hhttp : (m.drop o).take 5 = ascii "HTTP/") (hk : m[k]? = some 10)
    (hle : o ≤ k) : o + 5 ≤ k := by
  by_contra hlt
  obtain ⟨i, rfl⟩ := Nat.exists_eq_add_of_le hle
  have hi : ((m.drop o).take 5)[i]? = some 10 := by
    rw [List.getElem?_take_of_lt (by omega), List.getElem?_drop, hk]
  rw [hhttp] at hi
  have hmem := List.mem_of_getElem? hi
  revert hmem
  decide

/-- In front of a third part that is a token there is a blank. -/
theorem exists_blank {t w : List UInt8} {a : UInt8} (hd : m.drop o = t ++ w)
    (h : (afterToken t).head? = some a) (ha : isBlankOrEOL a = false) :
    ∃ k b, m[k]? = some b ∧ isBlankOrEOL b = true ∧ k + (afterToken t).length < o + t.length := by
  obtain ⟨b, g, hg⟩ := List.exists_cons_of_ne_nil (afterToken_ne h ha)
  have hsplit := afterToken_split t
  rw [hg] at hsplit
  refine ⟨o + (t.takeWhile fun a => !isBlankOrEOL a).length, b, ?_, ?_, ?_⟩
  · rw [← List.getElem?_drop, hd, ← hsplit, List.append_assoc, hsplit,
      List.getElem?_append_right le_rfl, Nat.sub_self]
    rfl
  · have hb : b ∈ (t.dropWhile fun a => !isBlankOrEOL a).takeWhile isBlank := by
      rw [hg]
      exact List.mem_cons_self
    rw [isBlankOrEOL, List.mem_takeWhile_imp hb]
    rfl
  · have hlen := congrArg List.length hsplit
    simp only [List.length_append, List.length_cons] at hlen
    omega

/-- A request : the method is cut off at a blank in front of the third part, the version at the
first LF or before, and the target at the last one or before. -/
theorem request_inCopy (req : HttpReq) {uri version : ℕ} {a : UInt8} (h : HeadCopy req.buf k₁ k₂)
    (hk : req.buf[k]? = some a) (ha : isBlankOrEOL a = true) (hkv : k < version)
    (huri : uri ≤ k₁) (hv : version + 5 ≤ k₁) (hversion : req.version = some (version + 5))
    {base len : ℕ} (hb : base + len = k₂ + 1) :
    let cutMethod := req.terminate (some 0)
    let cut := cutMethod.terminate (some (version + 5))
    terminate req (some 0) = some cutMethod ∧
      cstr cutMethod.buf 0 = some (Webxs.cstr cutMethod.buf 0) ∧
      cutMethod.buf[uri]? = some (cutMethod.buf.getD uri 0) ∧
      cutMethod.buf[uri + 1]? = some (cutMethod.buf.getD (uri + 1) 0) ∧
      terminate cutMethod (some (version + 5)) = some cut ∧
      httpParseUri cut uri = some (Webxs.httpParseUri cut uri) ∧
      HeaderCopy (Webxs.httpParseUri cut uri) base len := by
  intro cutMethod cut
  have hlt := h.lt
  obtain ⟨hterm₁, z₁, hz₁, heq₁⟩ := terminate_inCopy hk ha (Nat.zero_le k)
  have hbuf₁ : cutMethod.buf = req.buf.set z₁ 0 := congrArg HttpReq.buf heq₁
  have hkeep₁ : ∀ i, k₁ ≤ i → cutMethod.buf[i]? = req.buf[i]? := fun i hi => by
    rw [hbuf₁, getElem?_set_of_lt (by omega)]
  have hlen₁ : cutMethod.buf.length = k₂ + 2 := by rw [hbuf₁, List.length_set, h.length]
  obtain ⟨hterm₂, z₂, hz₂, heq₂⟩ := terminate_inCopy ((hkeep₁ k₁ le_rfl).trans h.lf₁) rfl hv
  have hbuf₂ : cut.buf = cutMethod.buf.set z₂ 0 := congrArg HttpReq.buf heq₂
  have hkeep₂ : ∀ i, k₁ < i → cut.buf[i]? = req.buf[i]? := fun i hi => by
    rw [hbuf₂, getElem?_set_of_lt (by omega), hkeep₁ i hi.le]
  obtain ⟨huri', hw⟩ := httpParseUri_inCopy ((hkeep₂ k₂ hlt).trans h.lf₂) rfl
    (huri.trans hlt.le)
  have hget : ∀ i, i < k₂ + 2 → cutMethod.buf[i]? = some (cutMethod.buf.getD i 0) := by
    intro i hi
    obtain ⟨b, hb⟩ := exists_getElem? (l := cutMethod.buf) (i := i) (by omega)
    rw [hb, getD_of_getElem? hb]
  refine ⟨hterm₁, cstr_inCopy (Nat.zero_le (k₂ + 1)) ((hkeep₁ _ (by omega)).trans h.nul),
    hget uri (by omega), hget (uri + 1) (by omega), hterm₂, huri', ?_, ?_, ?_⟩
  · rw [hw.length_eq, hbuf₂, List.length_set, hlen₁, hb]
  · rw [hb, hw.other _ (.inr (Nat.lt_succ_self k₂)), hkeep₂ _ (by omega), h.nul]
  · show cut.version.getD 0 ≤ base + len
    rw [show cut.version = req.version from rfl, hversion, Option.getD_some]
    omega

/-- A response : the status is cut off at the first LF or before, the version at the last one or
before. -/
theorem response_inCopy (req : HttpReq) {status : ℕ} (h : HeadCopy req.buf k₁ k₂) (hs : status ≤ k₁)
    (hv : 5 ≤ k₂) (hversion : req.version = some 5) {base len : ℕ} (hb : base + len = k₂ + 1) :
    let cutStatus := req.terminate (some status)
    terminate req (some status) = some cutStatus ∧
      terminate cutStatus (some 5) = some (cutStatus.terminate (some 5)) ∧
      HeaderCopy (cutStatus.terminate (some 5)) base len := by
  intro cutStatus
  have hlt := h.lt
  obtain ⟨hterm₁, z₁, hz₁, heq₁⟩ := terminate_inCopy h.lf₁ rfl hs
  have heq₁ : cutStatus = { req with buf := req.buf.set z₁ 0 } := heq₁
  have hk₂ : cutStatus.buf[k₂]? = some 10 := by
    rw [heq₁]
    exact (getElem?_set_of_lt (by omega) 0).trans h.lf₂
  obtain ⟨hterm₂, z₂, hz₂, heq₂⟩ := terminate_inCopy hk₂ rfl hv
  refine ⟨hterm₁, hterm₂, ?_⟩
  rw [heq₂, heq₁]
  exact ((h.header hversion hv hb).set (i := z₁)).set (i := z₂)

end InCopy

/-! ## Framed heads -/

/-- The bytes of a head from the third part of its first line on. -/
def thirdPart (head : List UInt8) : List UInt8 :=
  afterToken (afterToken (head.dropWhile isBlank))

/-- The copy of a framed head ends in two LFs, with at most a CR between them. -/
theorem headCopy_of_framed {b : List UInt8} {r : ℕ}
    (h : httpValidrequest b b.length = some (r : ℤ)) (hr : 0 < r) :
    ∃ k₁ k₂, InCopy.HeadCopy ((b.take r).dropWhile isBlank ++ [0]) k₁ k₂ := by
  obtain ⟨t, r', hr', -, hstop⟩ := httpValidrequest_stops b
  obtain rfl := Option.some.inj (hr'.symm.trans h)
  obtain ⟨k, hend, hk⟩ : ∃ k, HeadEnd b t k ∧ r = k := by
    generalize hr'' : (r : ℤ) = r' at hstop
    cases hstop with
    | bad => omega
    | frame hend => exact ⟨_, hend, by omega⟩
    | rest => omega
  subst hk
  -- the two line ends, in the head
  obtain ⟨e, het, her, he⟩ : ∃ e, t < e ∧ e + 1 = r ∧ b[e]? = some 10 := by
    obtain ⟨-, ⟨h1, hlen⟩ | ⟨-, h2, hlen⟩⟩ := hend
    · exact ⟨t + 1, by omega, hlen.symm, h1⟩
    · exact ⟨t + 2, by omega, hlen.symm, h2⟩
  have hlt := (List.getElem?_eq_some_iff.mp he).1
  obtain ⟨lead, hlead⟩ : ∃ lead, (b.take r).takeWhile isBlank = lead := ⟨_, rfl⟩
  obtain ⟨body, hbody⟩ : ∃ body, (b.take r).dropWhile isBlank = body := ⟨_, rfl⟩
  have hsplit : lead ++ body = b.take r := by
    rw [← hlead, ← hbody]
    exact List.takeWhile_append_dropWhile
  have hlen := congrArg List.length hsplit
  rw [List.length_append, List.length_take, Nat.min_eq_left (by omega)] at hlen
  have hat : ∀ i, i < r → b[i]? = some 10 → (lead ++ body)[i]? = some 10 := by
    intro i hi hb
    rw [hsplit, List.getElem?_take_of_lt hi, hb]
  have hle : lead.length ≤ t := by
    by_contra hlt
    have ht := hat t (by omega) hend.1
    rw [List.getElem?_append_left (by omega), ← hlead] at ht
    have hblank := List.mem_takeWhile_imp (List.mem_of_getElem? ht)
    cases hblank
  have hin : ∀ i, lead.length ≤ i → i < r → b[i]? = some 10 →
      (body ++ [0])[i - lead.length]? = some 10 := by
    intro i hi hir hb
    have hi' := hat i hir hb
    rw [List.getElem?_append_right hi] at hi'
    rw [List.getElem?_append_left (by omega), hi']
  refine ⟨t - lead.length, e - lead.length, ?_, ?_, ?_, by omega, ?_⟩
  · rw [hbody, List.length_append, List.length_singleton]
    omega
  · rw [hbody]
    exact hin t hle (by omega) hend.1
  · rw [hbody]
    exact hin e (by omega) (by omega) he
  · rw [hbody, show e - lead.length + 1 = body.length by omega, List.getElem?_append_right le_rfl,
      Nat.sub_self]
    rfl

/-- The checked parser has the result of the other one if the comparison at the third part fits
with the bytes behind it, and else none. -/
theorem httpParse_inCopy (strtod : List UInt8 → ℤ) (req : HttpReq) {head spare : List UInt8}
    {k₁ k₂ : ℕ} (h : InCopy.HeadCopy (head.dropWhile isBlank ++ [0]) k₁ k₂) :
    InCopy.httpParse strtod req head spare =
      if 4 ≤ spare.length + (thirdPart head).length then some (httpParse strtod req head)
      else none := by
  obtain ⟨lead, hlead⟩ : ∃ lead, head.takeWhile isBlank = lead := ⟨_, rfl⟩
  obtain ⟨body, hbody⟩ : ∃ body, head.dropWhile isBlank = body := ⟨_, rfl⟩
  rw [hbody] at h
  have hsplit : lead ++ body = head := by
    rw [← hlead, ← hbody]
    exact List.takeWhile_append_dropWhile
  have hskip : httpSkipspace head head.length 0 = lead.length := by
    have h := skipWhile_text (p := isBlank) (m := head) (w := []) (c := 0) (n := head.length)
      (List.append_nil head).symm rfl
    rw [hlead, Nat.zero_add] at h
    exact h
  have hdrop : head.drop lead.length = body := by
    rw [← hsplit, List.drop_left]
  have hlen : head.length - lead.length = body.length := by
    rw [← hsplit, List.length_append]
    omega
  have hlength := h.length
  have hlt := h.lt
  have hcopy : (body ++ [0]).length = body.length + 1 := by
    rw [List.length_append, List.length_singleton]
  have hshort : ¬head.length ≤ lead.length := by
    rw [← hsplit, List.length_append]
    omega
  unfold InCopy.httpParse httpParse
  simp only [hskip, hdrop, hlen, if_neg hshort]
  -- the three parts
  obtain ⟨hn₁, hd₁⟩ := httpSkiptokenandspace_text (m := body ++ [0]) (o := 0) (t := body)
    (w := [0]) (n := body.length) rfl (Nat.zero_add _).symm
  have huri := InCopy.httpSkiptokenandspace_inCopy (m := body ++ [0]) (r := body.length)
    (c := 0) (by omega) (Nat.zero_le _)
  have huri_le := (InCopy.httpSkiptokenandspace_le h.lf₁ (Nat.zero_le _) (r := body.length)
    (by omega)).2
  generalize httpSkiptokenandspace (body ++ [0]) body.length 0 = uri at hn₁ hd₁ huri huri_le
  obtain ⟨hn₂, hd₂⟩ := httpSkiptokenandspace_text hd₁ (n := body.length) (by omega)
  have hversion := InCopy.httpSkiptokenandspace_inCopy (m := body ++ [0]) (r := body.length)
    (c := uri) (by omega) (by omega)
  have hversion_le := (InCopy.httpSkiptokenandspace_le h.lf₁ huri_le (r := body.length)
    (by omega)).2
  obtain ⟨version, hv⟩ : ∃ version, httpSkiptokenandspace (body ++ [0]) body.length uri = version :=
    ⟨_, rfl⟩
  rw [hv] at hn₂ hd₂ hversion hversion_le
  obtain ⟨heol, hle, hle'⟩ := InCopy.httpSkiptoEOL_inCopy (r := body.length)
    (m := body ++ [0]) (c := version) (by omega)
  simp only [huri, hversion, heol, hv, Option.bind_eq_bind, Option.bind_some]
  generalize httpSkiptoEOL (body ++ [0]) body.length version = c at hle hle'
  have hb : (c + 1) + (body.length - c - 1) = k₂ + 1 := by omega
  have hthird : (thirdPart head).length + version = body.length := by
    rw [thirdPart, hbody]
    omega
  by_cases hfit : 4 ≤ spare.length + (thirdPart head).length
  · rw [if_pos hfit, InCopy.isHTTP_inCopy hd₂ (by omega),
      InCopy.isHTTP_inCopy (o := 0) rfl (by omega)]
    simp only [Option.bind_some, List.drop_zero, decide_eq_true_eq]
    by_cases hreq : ((body ++ [0]).drop version).take 5 = ascii "HTTP/"
    · obtain ⟨rest, hrest⟩ := exists_append_of_take (s := ascii "HTTP/") (hd₂ ▸ hreq) (by decide)
      obtain ⟨k, a, hk, ha, hkv⟩ := InCopy.exists_blank hd₁ (a := 72) (by rw [hrest]; rfl) rfl
      obtain ⟨h₁, h₂, h₃, h₄, h₅, h₆, h₇⟩ := InCopy.request_inCopy { reqClear req with
        buf := body ++ [0], method := some 0, uri := some uri, version := some (version + 5)
        status := none, hash := none, query := none } h hk ha (by omega) huri_le
        (InCopy.add_five_le hreq h.lf₁ hversion_le) rfl hb
      rw [if_pos hreq, if_pos hreq, h₁, Option.bind_some, h₂, Option.bind_some]
      split_ifs with hmethod hbad
      · rfl
      · rw [h₃, h₄, Option.bind_some, Option.bind_some, if_pos hbad]
      · rw [h₃, h₄, Option.bind_some, Option.bind_some, if_neg hbad, h₅, Option.bind_some, h₆,
          Option.bind_some, InCopy.httpParseheaders_inCopy strtod h₇]
        rfl
    · rw [if_neg hreq, if_neg hreq]
      by_cases hres : (body ++ [0]).take 5 = ascii "HTTP/"
      · have h5 := InCopy.add_five_le (o := 0) hres h.lf₂ (Nat.zero_le _)
        obtain ⟨h₁, h₂, h₃⟩ := InCopy.response_inCopy { reqClear req with
          buf := body ++ [0], method := none, uri := none, version := some 5
          status := some version
          statuscode := (strtod (cstr (body ++ [0]) uri) % 2 ^ 32).toNat
          hash := none, query := none } h hversion_le (by omega) rfl hb
        rw [if_pos hres, if_pos hres, InCopy.cstr_inCopy (by omega) h.nul, Option.bind_some, h₁,
          Option.bind_some, h₂, Option.bind_some, InCopy.httpParseheaders_inCopy strtod h₃]
        rfl
      · rw [if_neg hres, if_neg hres]
  · rw [if_neg hfit, InCopy.isHTTP_outside (by omega)]
    rfl

/-- All accesses of the parser are in the copy, or in the allocation in the two comparisons, and its
result is the one of `httpParse`. Behind the copy there are as many bytes as there are blanks in
front of the head. -/
def StaysInCopy (strtod : List UInt8 → ℤ) (req : HttpReq) (head : List UInt8) : Prop :=
  ∀ spare : List UInt8, spare.length = (head.takeWhile isBlank).length →
    InCopy.httpParse strtod req head spare = some (httpParse strtod req head)

/-- The parser stays in the copy of a framed head if and only if the third part of the first line,
with all that follows it and the blanks in front of the head, has four bytes. -/
theorem staysInCopy_iff (strtod : List UInt8 → ℤ) (req : HttpReq) {b : List UInt8} {r : ℕ}
    (h : httpValidrequest b b.length = some (r : ℤ)) (hr : 0 < r) :
    StaysInCopy strtod req (b.take r) ↔
      4 ≤ ((b.take r).takeWhile isBlank).length + (thirdPart (b.take r)).length := by
  obtain ⟨k₁, k₂, hcopy⟩ := headCopy_of_framed h hr
  constructor
  · intro hin
    have heq := hin (List.replicate ((b.take r).takeWhile isBlank).length 0)
      List.length_replicate
    rw [httpParse_inCopy strtod req hcopy, List.length_replicate] at heq
    by_contra hfit
    rw [if_neg hfit] at heq
    cases heq
  · intro hfit spare hspare
    rw [httpParse_inCopy strtod req hcopy, hspare, if_pos hfit]

/-- In a request with a version it is there. -/
theorem staysInCopy_get :
    4 ≤ 0 + (thirdPart (ascii "GET / HTTP/1.1\r\nHost: a\r\n\r\n")).length ∧
      StaysInCopy (fun _ => 0) (.alloc 0 0) (ascii "GET / HTTP/1.1\r\nHost: a\r\n\r\n") := by
  have hfit : 4 ≤ 0 + (thirdPart (ascii "GET / HTTP/1.1\r\nHost: a\r\n\r\n")).length := by
    decide +kernel
  exact ⟨hfit, (staysInCopy_iff (fun _ => 0) (.alloc 0 0)
    (b := ascii "GET / HTTP/1.1\r\nHost: a\r\n\r\n") (r := 27) (by decide +kernel)
    (by decide)).mpr hfit⟩

/-- Of `GET /` and two LFs only these and the NUL are there to be compared. -/
theorem not_staysInCopy : httpValidrequest (ascii "GET /\n\n") 7 = some (7 : ℕ) ∧
    InCopy.httpParse (fun _ => 0) (.alloc 0 0) (ascii "GET /\n\n") [] = none ∧
    ¬∀ (b : List UInt8) (r : ℕ), httpValidrequest b b.length = some (r : ℤ) → 0 < r →
      StaysInCopy (fun _ => 0) (.alloc 0 0) (b.take r) := by
  have hframed : httpValidrequest (ascii "GET /\n\n") 7 = some (7 : ℕ) := by decide +kernel
  have hnone : InCopy.httpParse (fun _ => 0) (.alloc 0 0) (ascii "GET /\n\n") [] = none := by
    decide +kernel
  refine ⟨hframed, hnone, fun hall => ?_⟩
  have hin := hall (ascii "GET /\n\n") 7 hframed (by decide) [] (by decide +kernel)
  rw [show (ascii "GET /\n\n").take 7 = ascii "GET /\n\n" from rfl, hnone] at hin
  cases hin

end Webxs
