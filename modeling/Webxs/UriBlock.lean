import Webxs.Frames
import Webxs.UriParts

/-!
# Accesses of the splitting of a URL

`InBlock` has the parts of `xs_uri_create` once more, with the string as the bytes up to its NUL,
that included : a part has no result if it reads behind the NUL, or stores outside the block, the
store that cuts a port off its host among it. Where the string has no NUL inside, all of them have a
result, that of the part in `Uri.lean` (`uriCreate_inBlock`).
-/

namespace Webxs

namespace InBlock

/-- `while (str[c] && !stop(str[c])) c++`, from the start of `str`. -/
def scan (stop : UInt8 → Bool) : List UInt8 → Option ℕ
  | [] => none
  | a :: str => if a = 0 ∨ stop a = true then some 0 else (scan stop str).map (· + 1)

/-- `strchr`, of the string at `str`. -/
def strchr (str : List UInt8) (ch : UInt8) : Option (Option ℕ) := do
  let c ← scan (· == ch) str
  let a ← str[c]?
  some (if a = ch then some c else none)

/-- `p`, the bracket that closes an IPv6 address. -/
def closingBracket (str : List UInt8) : Option (Option ℕ) :=
  str[0]?.bind fun a => if a = 91 then strchr str 93 else some none

/-- `str[0]=='/' && str[1]=='/'`. -/
def isNetworkPath (str : List UInt8) : Option Bool :=
  str[0]?.bind fun a => if a = 47 then str[1]?.map (· == 47) else some false

/-- No slash, and no backslash. -/
def hasNoPath (str : List UInt8) : Option Bool :=
  (strchr str 47).bind fun slash =>
    if slash.isSome = true then some false else (strchr str 92).map Option.isNone

/-- A host is looked for, the bracket being at `p`. -/
def hasHost (protocol : Option (List UInt8)) (str : List UInt8) (forceHost : ℤ) (p : Option ℕ) :
    Option Bool :=
  if isFile protocol = true then some false
  else if forceHost ≠ 0 then some true
  else
    (isNetworkPath str).bind fun network =>
      if network = true ∨ p.isSome = true ∨
        protocol.any (fun t => hostSchemes.any (eqCase t)) = true then some true
      else if protocol.isSome = true then hasNoPath str
      else some false

variable (s : UriCursor)

/-- The part that finds the protocol. -/
def findProtocol : Option UriCursor := do
  let c ← scan (fun a => a == 58 || isSlash a || a == 91) s.str
  let a ← s.str[c]?
  if a ≠ 58 then some s
  else if 1 < c then do
    let t ← readBytes s.str 0 c
    let s' ← s.copy t
    some { s' with
      uri.protocol := some s.buf
      uri.port := schemePort (cstr s'.mem s.buf)
      str := s.str.drop (c + 1) }
  else if 0 < c then do
    let s' ← s.copy (ascii "file://")
    some { s' with uri.protocol := some s.buf }
  else some s

/-- The part that finds an IPv6 address. -/
def findAddress (p : ℕ) : Option UriCursor := do
  let t ← readBytes s.str 1 (p - 1)
  let s' ← s.copy t
  let s' := { s' with uri.host := some s.buf, str := s.str.drop (p + 1) }
  let a ← s'.str[0]?
  let c ← scan isSlash s'.str
  if a = 58 then
    let t ← readBytes s'.str 1 (c - 1)
    let s'' ← s'.copy t
    some { s'' with
      uri.port := atoi (cstr s''.mem s'.buf)
      buf := s'.buf
      str := s'.str.drop c }
  else some { s' with str := s'.str.drop c }

/-- The part that takes a port off the host at `host`. -/
def findPort (host : ℕ) : Option UriCursor :=
  let t := cstr s.mem host
  if 58 ∈ t then
    let p := host + t.idxOf 58
    if p < s.mem.length then
      let mem := s.mem.set p 0
      some { s with mem := mem, buf := p + 1, uri.port := atoi (cstr mem (p + 1)) }
    else none
  else some s

/-- The part that finds a host by its name. -/
def findName : Option UriCursor := do
  let c ← scan (fun a => !isSlash a) s.str
  let s := { s with str := s.str.drop c }
  let c ← scan isSlash s.str
  if 0 < c then
    let t ← readBytes s.str 0 c
    let s' ← s.copy t
    findPort { s' with uri.host := some s.buf, str := s.str.drop c } s.buf
  else some s

/-- The part that finds the host. -/
def findHost (forceHost : ℤ) : Option UriCursor := do
  let p ← closingBracket s.str
  let host ← hasHost s.protocol s.str forceHost p
  if host = true then
    match p with
    | some p => findAddress s p
    | none => findName s
  else some s

/-- The part that finds the path. -/
def findPath : Option UriCursor := do
  let c ← scan (fun a => a == 63 || a == 35) s.str
  if 0 < c then do
    let a ← s.str[0]?
    let slash := if a ≠ 47 ∧ isFile s.protocol = false then [47] else []
    let t ← readBytes s.str 0 c
    let s' ← s.copy (slash ++ t)
    some { s' with uri.path := some s.buf, str := s.str.drop c }
  else if isFile s.protocol = false then do
    let s' ← s.copy [47]
    some { s' with uri.path := some s.buf }
  else some s

/-- The part that finds the query. -/
def findQuery : Option UriCursor := do
  let a ← s.str[0]?
  if a = 63 then do
    let s := { s with str := s.str.drop 1 }
    let c ← scan (fun a => a == 35) s.str
    if 0 < c then do
      let t ← readBytes s.str 0 c
      let s' ← s.copy t
      some { s' with uri.query := some s.buf, str := s.str.drop c }
    else some s
  else some s

/-- The part that finds the hash. -/
def findHash : Option UriCursor := do
  let a ← s.str[0]?
  if a = 35 then do
    let s := { s with str := s.str.drop 1 }
    let c ← scan (fun _ => false) s.str
    if 0 < c then do
      let t ← readBytes s.str 0 c
      let s' ← s.copy t
      some { s' with uri.hash := some s.buf, str := s.str.drop c }
    else some s
  else some s

/-- `xs_uri_create` of the string at `instr`. -/
def uriCreate (instr : List UInt8) (forceHost : ℤ) : Option (Option (Uri × List UInt8)) := do
  let len ← scan (fun _ => false) instr
  if len = 0 then some none
  else do
    let s ← findProtocol
      { uri := ⟨0, none, none, none, none, none⟩
        mem := List.replicate (len + 5 + 8 + 2) 0
        buf := 0
        str := instr }
    let s ← findHost (s.resetProtocol instr forceHost) forceHost
    let s ← findPath s
    let s ← findQuery s
    let s ← findHash s
    some (some (s.uri, s.mem))

/-! ## The string and its NUL -/

variable {s : UriCursor} {t str : List UInt8}

theorem scan_eq (h0 : 0 ∉ t) (stop : UInt8 → Bool) :
    scan stop (t ++ [0]) = some (t.findIdx stop) := by
  induction t with
  | nil => rfl
  | cons a t ih =>
    rw [List.mem_cons, not_or] at h0
    rw [List.cons_append, scan, ih h0.2, List.findIdx_cons]
    cases stop a with
    | true => rw [if_pos (.inr rfl)]; rfl
    | false => rw [if_neg (by simpa using Ne.symm h0.1)]; rfl

theorem getElem?_terminated {c : ℕ} (hc : c ≤ t.length) :
    (t ++ [0])[c]? = some (t.getD c 0) := by
  rw [List.getD_eq_getElem?_getD]
  rcases Nat.lt_or_eq_of_le hc with hlt | rfl
  · rw [List.getElem?_append_left hlt, List.getElem?_eq_getElem hlt, Option.getD_some]
  · rw [List.getElem?_concat_length, List.getElem?_eq_none le_rfl, Option.getD_none]

theorem drop_terminated {c : ℕ} (hc : c ≤ t.length) : (t ++ [0]).drop c = t.drop c ++ [0] :=
  List.drop_append_of_le_length hc

theorem readBytes_terminated {i n : ℕ} (h : i + n ≤ t.length) :
    readBytes (t ++ [0]) i n = some ((t.drop i).take n) := by
  rw [readBytes, if_pos (by rw [List.length_append]; omega), drop_terminated (by omega),
    List.take_append_of_le_length (by rw [List.length_drop]; omega)]

theorem strchr_eq (h0 : 0 ∉ t) {ch : UInt8} (hch : ch ≠ 0) :
    strchr (t ++ [0]) ch = some (if ch ∈ t then some (t.idxOf ch) else none) := by
  have hle : t.idxOf ch ≤ t.length := List.idxOf_le_length
  rw [strchr, scan_eq h0]
  simp only [Option.bind_eq_bind, Option.bind_some]
  rw [show t.findIdx (· == ch) = t.idxOf ch from rfl, getElem?_terminated hle, Option.bind_some]
  by_cases hmem : ch ∈ t
  · have hlt := List.idxOf_lt_length_of_mem hmem
    rw [if_pos hmem, List.getD_eq_getElem?_getD, List.getElem?_eq_getElem hlt, Option.getD_some,
      List.getElem_idxOf hlt, if_pos rfl]
  · rw [if_neg hmem, List.idxOf_eq_length hmem, List.getD_eq_getElem?_getD,
      List.getElem?_eq_none le_rfl, Option.getD_none, if_neg hch.symm]

theorem closingBracket_eq (h0 : 0 ∉ t) :
    closingBracket (t ++ [0]) = some (Webxs.closingBracket t) := by
  rw [closingBracket, getElem?_terminated (Nat.zero_le _), Option.bind_some, Webxs.closingBracket]
  by_cases ha : t.getD 0 0 = 91
  · rw [if_pos ha, strchr_eq h0 (by decide)]
    by_cases hmem : 93 ∈ t
    · rw [if_pos hmem, if_pos ⟨ha, hmem⟩]
    · rw [if_neg hmem, if_neg fun h => hmem h.2]
  · rw [if_neg ha, if_neg fun h => ha h.1]

theorem isNetworkPath_eq :
    isNetworkPath (t ++ [0]) = some (decide (t.getD 0 0 = 47 ∧ t.getD 1 0 = 47)) := by
  rw [isNetworkPath, getElem?_terminated (Nat.zero_le _), Option.bind_some]
  by_cases ha : t.getD 0 0 = 47
  · have hlt := getD_lt (by decide) ha
    rw [if_pos ha, getElem?_terminated (by omega), Option.map_some]
    simp only [ha, true_and]
    rfl
  · rw [if_neg ha, decide_eq_false fun h => ha h.1]

theorem hasNoPath_eq (h0 : 0 ∉ t) : hasNoPath (t ++ [0]) = some (decide (47 ∉ t ∧ 92 ∉ t)) := by
  rw [hasNoPath, strchr_eq h0 (by decide), strchr_eq h0 (by decide), Option.bind_some,
    Option.map_some]
  by_cases hs : 47 ∈ t <;> by_cases hb : 92 ∈ t <;> simp [hs, hb]

theorem hasHost_eq (h0 : 0 ∉ t) (protocol : Option (List UInt8)) (forceHost : ℤ) :
    hasHost protocol (t ++ [0]) forceHost (Webxs.closingBracket t) =
      some (decide (HasHost protocol t forceHost)) := by
  rw [hasHost, isNetworkPath_eq, hasNoPath_eq h0, Option.bind_some]
  split_ifs with hfile hforce hany hprotocol <;>
    refine congrArg some (Bool.eq_iff_iff.mpr (Iff.trans ?_ (decide_eq_true_iff).symm)) <;>
    unfold HasHost
  · exact iff_of_false (by decide) fun h => absurd (hfile.symm.trans h.1) (by decide)
  all_goals rw [Bool.not_eq_true] at hfile
  · exact iff_of_true rfl ⟨hfile, .inl hforce⟩
  all_goals rw [decide_eq_true_iff] at hany
  · exact iff_of_true rfl ⟨hfile, .inr (hany.imp_right (Or.imp_right .inl))⟩
  all_goals obtain ⟨hnet, hbracket, hscheme⟩ : _ ∧ _ ∧ _ := by simpa only [not_or] using hany
  · rw [decide_eq_true_iff]
    refine ⟨fun h => ⟨hfile, .inr (.inr (.inr (.inr ⟨hprotocol, h⟩)))⟩, fun h => ?_⟩
    rcases h.2 with h | h | h | h | h
    · exact absurd h hforce
    · exact absurd h hnet
    · exact absurd h hbracket
    · exact absurd h hscheme
    · exact h.2
  · refine iff_of_false (by decide) fun h => ?_
    rcases h.2 with h | h | h | h | h
    · exact hforce h
    · exact hnet h
    · exact hbracket h
    · exact hscheme h
    · exact hprotocol h.1

/-! ## The parts -/

/-- The cursor in a string with its NUL. -/
def terminated (s : UriCursor) : UriCursor :=
  { s with str := s.str ++ [0] }

theorem copy_str (s : UriCursor) (str t : List UInt8) :
    ({ s with str := str } : UriCursor).copy t =
      (s.copy t).map fun s' => { s' with str := str } := by
  unfold UriCursor.copy
  dsimp only
  split_ifs <;> rfl

theorem findProtocol_eq (h0 : 0 ∉ s.str) :
    findProtocol (terminated s) = s.findProtocol.map terminated := by
  have hle : s.str.findIdx (fun a => a == 58 || isSlash a || a == 91) ≤ s.str.length :=
    List.findIdx_le_length
  unfold findProtocol UriCursor.findProtocol
  simp only [terminated, scan_eq h0, copy_str, Option.bind_eq_bind, Option.bind_some]
  generalize s.str.findIdx _ = c at *
  rw [getElem?_terminated hle, Option.bind_some]
  split_ifs with h58 h1 hp
  · rfl
  · have hlt := getD_lt (by decide) (not_not.mp h58)
    rw [readBytes_terminated (by omega), Option.bind_some, List.drop_zero, drop_terminated hlt]
    cases s.copy (s.str.take c) <;> rfl
  · unfold UriCursor.copy
    split_ifs <;> rfl
  · rfl

theorem resetProtocol_eq (s : UriCursor) (instr : List UInt8) (forceHost : ℤ) :
    (terminated s).resetProtocol (instr ++ [0]) forceHost =
      terminated (s.resetProtocol instr forceHost) := by
  unfold UriCursor.resetProtocol
  by_cases hf : forceHost = 2 ∧ s.uri.port = 0
  · rw [if_pos hf]
    exact if_pos hf
  · rw [if_neg hf]
    exact if_neg hf

theorem findAddress_eq (h0 : 0 ∉ s.str) {p : ℕ} (hp : Webxs.closingBracket s.str = some p) :
    findAddress (terminated s) p = (s.findAddress p).map terminated := by
  obtain ⟨hopen, hlt, rfl⟩ : s.str.getD 0 0 = 91 ∧ s.str.idxOf 93 < s.str.length ∧
      s.str.idxOf 93 = p := by
    unfold Webxs.closingBracket at hp
    split_ifs at hp with hb
    exact ⟨hb.1, List.idxOf_lt_length_of_mem hb.2, Option.some.inj hp⟩
  have h0' := notMem_drop h0 (s.str.idxOf 93 + 1)
  unfold findAddress UriCursor.findAddress
  simp only [terminated, copy_str, Option.bind_eq_bind, drop_terminated hlt, scan_eq h0',
    Option.bind_some, getElem?_terminated (Nat.zero_le _)]
  rw [readBytes_terminated (by omega), Option.bind_some, ← List.drop_take]
  generalize s.str.drop (s.str.idxOf 93 + 1) = str at *
  have hc : str.findIdx isSlash ≤ str.length := List.findIdx_le_length
  generalize str.findIdx isSlash = c at *
  cases s.copy ((s.str.take (s.str.idxOf 93)).drop 1) with
  | none => rfl
  | some s' =>
    simp only [Option.map_some, Option.bind_some, drop_terminated hc]
    by_cases h58 : str.getD 0 0 = 58
    · have hpos := getD_lt (by decide) h58
      rw [if_pos h58, if_pos h58, readBytes_terminated (by omega), Option.bind_some,
        ← List.drop_take]
      unfold UriCursor.copy
      dsimp only
      split_ifs <;> rfl
    · rw [if_neg h58, if_neg h58]
      rfl

/-- A port is behind a colon of the host, which is in the block. -/
theorem findPort_eq (s : UriCursor) (host : ℕ) : findPort s host = some (s.findPort host) := by
  unfold findPort UriCursor.findPort
  dsimp only
  split_ifs with h58 hlt
  · rfl
  · have hidx := List.idxOf_lt_length_of_mem h58
    have hle : (cstr s.mem host).length ≤ (s.mem.drop host).length :=
      (List.takeWhile_prefix _).length_le
    rw [List.length_drop] at hle
    omega
  · rfl

theorem findPort_str (s : UriCursor) (str : List UInt8) (host : ℕ) :
    ({ s with str := str } : UriCursor).findPort host = { s.findPort host with str := str } := by
  unfold UriCursor.findPort
  dsimp only
  split_ifs <;> rfl

theorem findName_eq (h0 : 0 ∉ s.str) :
    findName (terminated s) = s.findName.map terminated := by
  have hdrop : s.str.dropWhile isSlash = s.str.drop (s.str.findIdx fun a => !isSlash a) :=
    List.dropWhile_eq_drop_findIdx_not
  have hle : s.str.findIdx (fun a => !isSlash a) ≤ s.str.length := List.findIdx_le_length
  have h0' : 0 ∉ s.str.dropWhile isSlash := fun hm => h0 (List.dropWhile_subset _ hm)
  unfold findName UriCursor.findName
  simp only [terminated, scan_eq h0, copy_str, Option.bind_eq_bind, Option.bind_some,
    drop_terminated hle, ← hdrop, scan_eq h0']
  generalize s.str.dropWhile isSlash = str at *
  have hc : str.findIdx isSlash ≤ str.length := List.findIdx_le_length
  generalize str.findIdx isSlash = c at *
  rw [readBytes_terminated (by omega), Option.bind_some, List.drop_zero, drop_terminated hc]
  by_cases hp : 0 < c
  · rw [if_pos hp, if_pos hp]
    cases s.copy (str.take c) with
    | none => rfl
    | some s' =>
      rw [Option.map_some, Option.bind_some, Option.map_some, Option.bind_some, findPort_eq]
      refine congrArg some ?_
      have hstr := findPort_str { s' with uri.host := some s.buf } (str.drop c) s.buf
      exact (findPort_str { s' with uri.host := some s.buf } (str.drop c ++ [0]) s.buf).trans
        (congrArg terminated hstr.symm)
  · rw [if_neg hp, if_neg hp]
    rfl

theorem findHost_eq (h0 : 0 ∉ s.str) (forceHost : ℤ) :
    findHost (terminated s) forceHost = (s.findHost forceHost).map terminated := by
  have hhost := hasHost_eq h0 s.protocol forceHost
  unfold findHost UriCursor.findHost
  simp only [terminated, closingBracket_eq h0, Option.bind_eq_bind, Option.bind_some]
  rw [show ({ s with str := s.str ++ [0] } : UriCursor).protocol = s.protocol from rfl, hhost,
    Option.bind_some]
  split_ifs with hd hh hh
  · cases hp : Webxs.closingBracket s.str with
    | none => exact findName_eq h0
    | some p => exact findAddress_eq h0 hp
  · exact absurd (of_decide_eq_true hd) hh
  · exact absurd (decide_eq_true hh) hd
  · rfl

theorem findPath_eq (h0 : 0 ∉ s.str) :
    findPath (terminated s) = s.findPath.map terminated := by
  have hc : s.str.findIdx (fun a => a == 63 || a == 35) ≤ s.str.length := List.findIdx_le_length
  unfold findPath UriCursor.findPath
  rw [show (terminated s).protocol = s.protocol from rfl]
  simp only [terminated, scan_eq h0, copy_str, Option.bind_eq_bind, Option.bind_some]
  generalize s.str.findIdx _ = c at *
  rw [getElem?_terminated (Nat.zero_le _), readBytes_terminated (by omega), Option.bind_some,
    Option.bind_some, List.drop_zero, drop_terminated hc]
  by_cases hp : 0 < c
  · rw [if_pos hp, if_pos hp]
    cases s.copy _ <;> rfl
  · rw [if_neg hp, if_neg hp]
    by_cases hf : isFile s.protocol = false
    · rw [if_pos hf, if_pos hf]
      unfold UriCursor.copy
      split_ifs <;> rfl
    · rw [if_neg hf, if_neg hf]
      rfl

theorem findQuery_eq (h0 : 0 ∉ s.str) :
    findQuery (terminated s) = s.findQuery.map terminated := by
  unfold findQuery UriCursor.findQuery
  simp only [terminated, copy_str, Option.bind_eq_bind, getElem?_terminated (Nat.zero_le _),
    Option.bind_some]
  by_cases hq : s.str.getD 0 0 = 63
  · have hlt := getD_lt (by decide) hq
    have h0' := notMem_drop h0 1
    rw [if_pos hq, if_pos hq, drop_terminated hlt, scan_eq h0', Option.bind_some]
    generalize s.str.drop 1 = str at *
    have hc : str.findIdx (fun a => a == 35) ≤ str.length := List.findIdx_le_length
    generalize str.findIdx _ = c at *
    rw [readBytes_terminated (by omega), Option.bind_some, List.drop_zero, drop_terminated hc]
    by_cases hp : 0 < c
    · rw [if_pos hp, if_pos hp]
      cases s.copy (str.take c) <;> rfl
    · rw [if_neg hp, if_neg hp]
      rfl
  · rw [if_neg hq, if_neg hq]
    rfl

theorem findHash_eq (h0 : 0 ∉ s.str) :
    findHash (terminated s) = s.findHash.map terminated := by
  unfold findHash UriCursor.findHash
  simp only [terminated, copy_str, Option.bind_eq_bind, getElem?_terminated (Nat.zero_le _),
    Option.bind_some]
  by_cases hq : s.str.getD 0 0 = 35
  · have hlt := getD_lt (by decide) hq
    have h0' := notMem_drop h0 1
    rw [if_pos hq, if_pos hq, drop_terminated hlt, scan_eq h0', Option.bind_some]
    generalize s.str.drop 1 = str at *
    have hc : str.findIdx (fun _ => false) = str.length :=
      List.findIdx_eq_length_of_false fun _ _ => rfl
    rw [hc, readBytes_terminated (by omega), Option.bind_some, List.drop_zero,
      drop_terminated le_rfl, List.take_length, List.drop_length]
    by_cases hp : 0 < str.length
    · rw [if_pos hp, if_pos hp]
      cases s.copy str <;> rfl
    · rw [if_neg hp, if_neg hp]
      rfl
  · rw [if_neg hq, if_neg hq]
    rfl

/-! ## The block -/

/-- The block of a result has `n` bytes. -/
def BlockOf (n : ℕ) (r : Option UriCursor) : Prop :=
  ∀ s ∈ r, s.mem.length = n

namespace BlockOf

variable {n : ℕ}

theorem of_eq (h : s.mem.length = n) : BlockOf n (some s) := by
  rintro _ ⟨⟩
  exact h

theorem copy_bind {f : UriCursor → Option UriCursor} (hs : s.mem.length = n)
    (h : ∀ s', s'.mem.length = n → BlockOf n (f s')) : BlockOf n ((s.copy t).bind f) := by
  unfold UriCursor.copy
  split_ifs with hlt
  · refine h _ ?_
    simp only [Arr.copyTo, List.length_set, List.length_append, List.length_take, List.length_drop]
    omega
  · rintro _ ⟨⟩

theorem findProtocol (h : s.mem.length = n) : BlockOf n s.findProtocol := by
  unfold UriCursor.findProtocol
  dsimp only
  split_ifs
  · exact of_eq h
  · exact copy_bind h fun s' h => of_eq h
  · exact copy_bind h fun s' h => of_eq h
  · exact of_eq h

theorem resetProtocol (h : s.mem.length = n) (instr : List UInt8) (forceHost : ℤ) :
    (s.resetProtocol instr forceHost).mem.length = n := by
  unfold UriCursor.resetProtocol
  split_ifs <;> exact h

theorem findPort (h : s.mem.length = n) (host : ℕ) : (s.findPort host).mem.length = n := by
  unfold UriCursor.findPort
  dsimp only
  split_ifs
  · rw [List.length_set, h]
  · exact h

theorem findHost (h : s.mem.length = n) (forceHost : ℤ) : BlockOf n (s.findHost forceHost) := by
  unfold UriCursor.findHost
  split_ifs
  · cases Webxs.closingBracket s.str with
    | some p =>
      refine copy_bind h fun s' h => ?_
      dsimp only
      split_ifs
      · exact copy_bind h fun s'' h => of_eq h
      · exact of_eq h
    | none =>
      unfold UriCursor.findName
      dsimp only
      split_ifs
      · refine copy_bind h fun s' h => of_eq ?_
        apply findPort
        exact h
      · exact of_eq h
  · exact of_eq h

theorem findPath (h : s.mem.length = n) : BlockOf n s.findPath := by
  unfold UriCursor.findPath
  dsimp only
  by_cases hp : 0 < s.str.findIdx fun a => a == 63 || a == 35
  · rw [if_pos hp]
    exact copy_bind h fun s' h => of_eq h
  · rw [if_neg hp]
    split_ifs
    · exact copy_bind h fun s' h => of_eq h
    · exact of_eq h

theorem findQuery (h : s.mem.length = n) : BlockOf n s.findQuery := by
  unfold UriCursor.findQuery
  split_ifs
  · dsimp only
    split_ifs
    · exact copy_bind h fun s' h => of_eq h
    · exact of_eq h
  · exact of_eq h

theorem findHash (h : s.mem.length = n) : BlockOf n s.findHash := by
  unfold UriCursor.findHash
  split_ifs
  · dsimp only
    split_ifs
    · exact copy_bind h fun s' h => of_eq h
    · exact of_eq h
  · exact of_eq h

end BlockOf

end InBlock

namespace UriStages

open InBlock

variable {instr : List UInt8} {forceHost : ℤ} {s₁ s₂ s₃ s₄ s₅ : UriCursor}

theorem length_mem (h : UriStages instr forceHost s₁ s₂ s₃ s₄ s₅) :
    s₅.mem.length = instr.length + 15 := by
  have h₀ : (UriCursor.init instr).mem.length = instr.length + 15 := by simp [UriCursor.init]
  have h₁ := BlockOf.findProtocol h₀ s₁ h.findProtocol
  have h₂ := BlockOf.findHost (BlockOf.resetProtocol h₁ instr forceHost) forceHost s₂ h.findHost
  have h₃ := BlockOf.findPath h₂ s₃ h.findPath
  have h₄ := BlockOf.findQuery h₃ s₄ h.findQuery
  exact BlockOf.findHash h₄ s₅ h.findHash

/-- All accesses are inside, and the call is that of the string. -/
theorem inBlock (h : UriStages instr forceHost s₁ s₂ s₃ s₄ s₅) (h0 : 0 ∉ instr) (hne : instr ≠ []) :
    InBlock.uriCreate (instr ++ [0]) forceHost = some (some (s₅.uri, s₅.mem)) := by
  have hinit := findProtocol_eq (s := UriCursor.init instr) h0
  rw [h.findProtocol] at hinit
  unfold terminated UriCursor.init at hinit
  have hlen : instr.findIdx (fun _ => false) = instr.length :=
    List.findIdx_eq_length_of_false fun _ _ => rfl
  obtain ⟨hn₁, hn₂, hn₃, hn₄⟩ := h.nul
  unfold InBlock.uriCreate
  simp only [Option.bind_eq_bind, scan_eq h0, Option.bind_some, hlen,
    if_neg (List.length_pos_iff.mpr hne).ne', hinit, Option.map_some]
  rw [show ({ s₁ with str := s₁.str ++ [0] } : UriCursor) = terminated s₁ from rfl,
    resetProtocol_eq, findHost_eq hn₁, h.findHost, Option.map_some, Option.bind_some,
    findPath_eq hn₂, h.findPath, Option.map_some, Option.bind_some, findQuery_eq hn₃, h.findQuery,
    Option.map_some, Option.bind_some, findHash_eq hn₄, h.findHash, Option.map_some,
    Option.bind_some]
  rfl

end UriStages

/-- The pointers of a record that are not null. -/
def Uri.pointers (u : Uri) : List ℕ :=
  [u.protocol, u.host, u.path, u.query, u.hash].filterMap id

theorem PointsTo.nul {T m : List UInt8} {o : Option ℕ} {t : Option (List UInt8)}
    (h : PointsTo T o t) (hm : T <+: m) : ∀ i ∈ o, ∃ k, i + k < m.length ∧ m[i + k]? = some 0 := by
  rintro i ⟨⟩
  match t, h with
  | some t, ⟨_, A, B, hT, hA⟩ =>
    obtain ⟨v, rfl⟩ := hm
    refine ⟨t.length, ?_, ?_⟩
    · rw [hT]
      simp only [List.length_append, List.length_cons]
      omega
    · rw [hT, List.append_assoc, List.append_assoc, ← hA, List.getElem?_append_right (by omega),
        Nat.add_sub_cancel_left, List.cons_append, List.getElem?_append_right le_rfl,
        Nat.sub_self]
      rfl

/-- For every string, `xs_uri_create` reads it up to its NUL at most and stores in its block of 15
bytes more than the string has, in which every part ends with a NUL. -/
theorem uriCreate_inBlock {instr : List UInt8} (h0 : 0 ∉ instr) (hne : instr ≠ []) (forceHost : ℤ) :
    ∃ u m, uriCreate instr forceHost = some (some (u, m)) ∧
      InBlock.uriCreate (instr ++ [0]) forceHost = some (some (u, m)) ∧
      m.length = instr.length + 15 ∧
      ∀ i ∈ u.pointers, ∃ k, i + k < m.length ∧ m[i + k]? = some 0 := by
  obtain ⟨s₁, s₂, s₃, s₄, s, T, hstages, h⟩ := uriCreate_stages h0 forceHost
  refine ⟨s.uri, s.mem, hstages.uriCreate_eq hne, hstages.inBlock h0 hne, hstages.length_mem, ?_⟩
  intro i hi
  obtain ⟨o, ho, hi⟩ := List.mem_filterMap.mp hi
  simp only [List.mem_cons, List.not_mem_nil, or_false] at ho
  rcases ho with rfl | rfl | rfl | rfl | rfl
  · exact h.protocol.nul h.text i hi
  · exact h.host.nul h.text i hi
  · exact h.path.nul h.text i hi
  · exact h.query.nul h.text i hi
  · exact h.hash.nul h.text i hi

theorem uriCreate_inBlock_address :
    ∃ u m, uriCreate (ascii "[::1]:80") 2 = some (some (u, m)) ∧
      InBlock.uriCreate (ascii "[::1]:80" ++ [0]) 2 = some (some (u, m)) ∧
      m.length = (ascii "[::1]:80").length + 15 ∧
      ∀ i ∈ u.pointers, ∃ k, i + k < m.length ∧ m[i + k]? = some 0 :=
  uriCreate_inBlock (by decide) (by decide) 2

end Webxs
