import Webxs.Uri

/-!
# The parts of a URL

What `xs_uri_create` computes, without its block : `uriSplit` splits a string into parts that are
lists. `uriCreate_spec` is the refinement : the call stays inside its block, whatever the string is,
and the strings at the pointers of the record are the parts. The relation that the steps keep is
`Represents` : the bytes before the cursor are strings with a NUL each, the pointers are offsets of
such strings, and there is room for what is left of the string.
-/

namespace Webxs

/-- The parts of a URL. -/
structure UriParts where
  port : ℤ
  protocol : Option (List UInt8)
  host : Option (List UInt8)
  path : Option (List UInt8)
  query : Option (List UInt8)
  hash : Option (List UInt8)
  deriving DecidableEq

/-- No parts. -/
def UriParts.empty : UriParts :=
  ⟨0, none, none, none, none, none⟩

/-- The strings at the pointers of a record with the block `m`. -/
def Uri.strings (u : Uri) (m : List UInt8) : UriParts :=
  ⟨u.port, u.protocol.map (cstr m), u.host.map (cstr m), u.path.map (cstr m), u.query.map (cstr m),
    u.hash.map (cstr m)⟩

/-! ## Splitting -/

/-- The protocol, and what follows its colon. -/
def splitProtocol (str : List UInt8) : UriParts × List UInt8 :=
  let c := str.findIdx fun a => a == 58 || isSlash a || a == 91
  if str.getD c 0 ≠ 58 then (.empty, str)
  else if 1 < c then
    ({ UriParts.empty with protocol := some (str.take c), port := schemePort (str.take c) },
      str.drop (c + 1))
  else if 0 < c then ({ UriParts.empty with protocol := some (ascii "file://") }, str)
  else (.empty, str)

namespace UriParts

variable (u : UriParts) (str : List UInt8)

/-- A protocol that has no default port, and is not asked for. -/
def resetProtocol (instr : List UInt8) (forceHost : ℤ) : UriParts × List UInt8 :=
  if forceHost = 2 ∧ u.port = 0 then ({ u with protocol := none }, instr) else (u, str)

/-- An IPv6 address, the bracket that closes it being at `p`, and its port. -/
def splitAddress (p : ℕ) : UriParts × List UInt8 :=
  let u := { u with host := some ((str.take p).drop 1) }
  let str := str.drop (p + 1)
  let c := str.findIdx isSlash
  (if str.getD 0 0 = 58 then { u with port := atoi ((str.take c).drop 1) } else u, str.drop c)

/-- A host `t` that may have a port. -/
def splitPort (t : List UInt8) : UriParts :=
  if 58 ∈ t then
    { u with host := some (t.take (t.idxOf 58)), port := atoi (t.drop (t.idxOf 58 + 1)) }
  else { u with host := some t }

/-- A host by its name. -/
def splitName : UriParts × List UInt8 :=
  let str := str.dropWhile isSlash
  let c := str.findIdx isSlash
  if 0 < c then (u.splitPort (str.take c), str.drop c) else (u, str)

/-- The host. -/
def splitHost (forceHost : ℤ) : UriParts × List UInt8 :=
  if HasHost u.protocol str forceHost then
    match closingBracket str with
    | some p => u.splitAddress str p
    | none => u.splitName str
  else (u, str)

/-- The path. -/
def splitPath : UriParts × List UInt8 :=
  let c := str.findIdx fun a => a == 63 || a == 35
  if 0 < c then
    let slash := if str.getD 0 0 ≠ 47 ∧ isFile u.protocol = false then [47] else []
    ({ u with path := some (slash ++ str.take c) }, str.drop c)
  else if isFile u.protocol = false then ({ u with path := some [47] }, str)
  else (u, str)

/-- The query. -/
def splitQuery : UriParts × List UInt8 :=
  if str.getD 0 0 = 63 then
    let str := str.drop 1
    let c := str.findIdx fun a => a == 35
    if 0 < c then ({ u with query := some (str.take c) }, str.drop c) else (u, str)
  else (u, str)

/-- The hash. -/
def splitHash : UriParts × List UInt8 :=
  if str.getD 0 0 = 35 then
    let str := str.drop 1
    if 0 < str.length then ({ u with hash := some str }, []) else (u, str)
  else (u, str)

end UriParts

/-- The parts of a string, without the block. -/
def uriSplit (instr : List UInt8) (forceHost : ℤ) : UriParts :=
  let r := splitProtocol instr
  let r := r.1.resetProtocol r.2 instr forceHost
  let r := r.1.splitHost r.2 forceHost
  let r := r.1.splitPath r.2
  let r := r.1.splitQuery r.2
  (r.1.splitHash r.2).1

/-! ## The relation -/

/-- The pointer `o` into bytes that begin with `T` is that of the string `t`. -/
def PointsTo (T : List UInt8) (o : Option ℕ) (t : Option (List UInt8)) : Prop :=
  match o, t with
  | none, none => True
  | some o, some t => 0 ∉ t ∧ ∃ A B, T = A ++ (t ++ 0 :: B) ∧ A.length = o
  | _, _ => False

/-- The strings before the cursor are the parts, and there is room for what is left of the string
and `k` bytes more. -/
structure Represents (T : List UInt8) (k : ℕ) (s : UriCursor) (u : UriParts) : Prop where
  text : T <+: s.mem
  buf : s.buf = T.length
  room : T.length + s.str.length + k ≤ s.mem.length
  nul : 0 ∉ s.str
  port : s.uri.port = u.port
  protocol : PointsTo T s.uri.protocol u.protocol
  host : PointsTo T s.uri.host u.host
  path : PointsTo T s.uri.path u.path
  query : PointsTo T s.uri.query u.query
  hash : PointsTo T s.uri.hash u.hash

variable {T m t : List UInt8} {o : Option ℕ} {q : Option (List UInt8)}

theorem PointsTo.append (h : PointsTo T o q) (X : List UInt8) : PointsTo (T ++ X) o q := by
  match o, q, h with
  | none, none, _ => trivial
  | some o, some t, ⟨h0, A, B, hT, hA⟩ => exact ⟨h0, A, B ++ X, by rw [hT]; simp, hA⟩

/-- A string that is stored at the end. -/
theorem PointsTo.self (h0 : 0 ∉ t) (X : List UInt8) :
    PointsTo (T ++ (t ++ 0 :: X)) (some T.length) (some t) :=
  ⟨h0, T, X, rfl, rfl⟩

theorem PointsTo.string (h : PointsTo T o q) (hm : T <+: m) : o.map (cstr m) = q := by
  match o, q, h with
  | none, none, _ => rfl
  | some o, some t, ⟨h0, A, B, hT, hA⟩ =>
    obtain ⟨v, rfl⟩ := hm
    have hdrop : (T ++ v).drop o = t ++ 0 :: (B ++ v) := by
      rw [hT, List.append_assoc, List.drop_left' hA]
      simp
    rw [Option.map_some, cstr_eq hdrop h0]

/-- A null pointer points to nothing anywhere. -/
theorem PointsTo.of_none (h : PointsTo T o q) (hq : q = none) (T' : List UInt8) :
    PointsTo T' o q := by
  subst hq
  match o, h with
  | none, _ => trivial

theorem UriCursor.copy_eq {s : UriCursor} (h : s.buf + t.length < s.mem.length) :
    ∃ m, s.copy t = some { s with mem := m, buf := s.buf + t.length + 1 } ∧
      Stored s.mem s.buf (t ++ [0]) m := by
  have hblock := Stored.block (b := s.mem) (d := s.buf) t (by omega)
  exact ⟨_, if_pos h, hblock.trans (.set (by rw [hblock.length]; exact h) 0)⟩

theorem getD_lt {l : List UInt8} {c : ℕ} {a : UInt8} (ha : a ≠ 0) (h : l.getD c 0 = a) :
    c < l.length := by
  by_contra hc
  rw [List.getD_eq_getElem?_getD, List.getElem?_eq_none (by omega)] at h
  exact ha h.symm

theorem notMem_take {l : List UInt8} (h : 0 ∉ l) (c : ℕ) : 0 ∉ l.take c :=
  fun hm => h (List.mem_of_mem_take hm)

theorem notMem_drop {l : List UInt8} (h : 0 ∉ l) (c : ℕ) : 0 ∉ l.drop c :=
  fun hm => h (List.mem_of_mem_drop hm)

namespace Represents

variable {k : ℕ} {s : UriCursor} {u : UriParts}

theorem protocol_eq (h : Represents T k s u) : s.protocol = u.protocol :=
  h.protocol.string h.text

/-- The string may be taken on at `str`, where there is room for it. -/
theorem skip (h : Represents T k s u) {str : List UInt8} (hstr : 0 ∉ str) {j : ℕ}
    (hroom : str.length + j ≤ s.str.length + k) : Represents T j { s with str := str } u :=
  { h with
    nul := hstr
    room := by
      have := h.room
      dsimp only
      omega }

/-- A string that fits is copied, and what was represented still is. -/
theorem copy (h : Represents T k s u) (t : List UInt8) {str : List UInt8} (hstr : 0 ∉ str)
    {j : ℕ} (hroom : t.length + 1 + str.length + j ≤ s.str.length + k) :
    ∃ m, s.copy t = some { s with mem := m, buf := s.buf + t.length + 1 } ∧
      m.length = s.mem.length ∧
      Represents (T ++ (t ++ [0])) j { s with mem := m, buf := s.buf + t.length + 1, str := str }
        u := by
  have hr := h.room
  have hbuf := h.buf
  obtain ⟨m, hcopy, hm⟩ := UriCursor.copy_eq (s := s) (t := t) (by omega)
  have htake := hm.take
  have hlen := hm.length
  rw [hbuf, ← List.prefix_iff_eq_take.mp h.text] at htake
  refine ⟨m, hcopy, hlen, ?_⟩
  exact {
    text := htake ▸ List.take_prefix _ _
    buf := by simp [hbuf]; omega
    room := by
      simp only [List.length_append, List.length_singleton]
      omega
    nul := hstr
    port := h.port
    protocol := h.protocol.append _
    host := h.host.append _
    path := h.path.append _
    query := h.query.append _
    hash := h.hash.append _ }

/-- A string that was copied can be pointed to. -/
theorem pointsTo (h : Represents T k s u) (h0 : 0 ∉ t) :
    PointsTo (T ++ (t ++ [0])) (some s.buf) (some t) :=
  h.buf ▸ PointsTo.self h0 []

/-- The protocol. -/
theorem findProtocol (h : Represents [] 15 s .empty) :
    ∃ s' T', s.findProtocol = some s' ∧ s'.mem.length = s.mem.length ∧
      s'.str = (splitProtocol s.str).2 ∧ Represents T' 7 s' (splitProtocol s.str).1 := by
  unfold UriCursor.findProtocol splitProtocol
  dsimp only
  generalize s.str.findIdx _ = c
  by_cases h58 : s.str.getD c 0 ≠ 58
  · rw [if_pos h58, if_pos h58]
    exact ⟨s, [], rfl, rfl, rfl, h.skip h.nul (by omega)⟩
  · rw [if_neg h58, if_neg h58]
    have hlt := getD_lt (by decide) (not_not.mp h58)
    by_cases h1 : 1 < c
    · rw [if_pos h1, if_pos h1]
      have h0 := notMem_take h.nul c
      obtain ⟨m, hcopy, hlen, hrep⟩ := h.copy (s.str.take c) (j := 7)
        (notMem_drop h.nul (c + 1)) (by simp only [List.length_take, List.length_drop]; omega)
      have hstr : cstr m s.buf = s.str.take c :=
        Option.some.inj ((h.pointsTo h0).string hrep.text)
      rw [hcopy]
      refine ⟨_, [] ++ (s.str.take c ++ [0]), rfl, hlen, rfl, ?_⟩
      exact { hrep with port := congrArg schemePort hstr, protocol := h.pointsTo h0 }
    · rw [if_neg h1, if_neg h1]
      by_cases hp : 0 < c
      · rw [if_pos hp, if_pos hp]
        have h0 : 0 ∉ ascii "file://" := by decide
        obtain ⟨m, hcopy, hlen, hrep⟩ := h.copy (ascii "file://") (j := 7) h.nul
          (by rw [show (ascii "file://").length = 7 from rfl]; omega)
        rw [hcopy]
        exact ⟨_, _, rfl, hlen, rfl, { hrep with protocol := h.pointsTo h0 }⟩
      · rw [if_neg hp, if_neg hp]
        exact ⟨s, [], rfl, rfl, rfl, h.skip h.nul (by omega)⟩

/-- The protocol is given up : the block is written anew. -/
theorem resetProtocol (h : Represents T 7 s u) {instr : List UInt8} (h0 : 0 ∉ instr)
    (hlen : s.mem.length = instr.length + 15)
    (hu : { u with port := 0, protocol := none } = UriParts.empty) (forceHost : ℤ) :
    ∃ T', (s.resetProtocol instr forceHost).str =
        (u.resetProtocol s.str instr forceHost).2 ∧
      Represents T' 7 (s.resetProtocol instr forceHost)
        (u.resetProtocol s.str instr forceHost).1 := by
  unfold UriCursor.resetProtocol UriParts.resetProtocol
  rw [h.port]
  by_cases hf : forceHost = 2 ∧ u.port = 0
  · rw [if_pos hf, if_pos hf]
    simp only [UriParts.empty, UriParts.mk.injEq, true_and] at hu
    obtain ⟨hhost, hpath, hquery, hhash⟩ := hu
    refine ⟨[], rfl, ?_⟩
    exact {
      text := List.nil_prefix
      buf := rfl
      room := by
        dsimp only [List.length_nil]
        omega
      nul := h0
      port := h.port
      protocol := trivial
      host := h.host.of_none hhost []
      path := h.path.of_none hpath []
      query := h.query.of_none hquery []
      hash := h.hash.of_none hhash [] }
  · rw [if_neg hf, if_neg hf]
    exact ⟨T, rfl, h⟩

/-- Cutting a string that is stored behind `T` at the index of `a`. -/
theorem set_idxOf {T t v : List UInt8} {a : UInt8} (ha : a ∈ t) (b : UInt8) :
    (T ++ (t ++ v)).set (T.length + t.idxOf a) b =
      T ++ (t.take (t.idxOf a) ++ b :: (t.drop (t.idxOf a + 1) ++ v)) := by
  have hi : t.idxOf a < t.length := List.idxOf_lt_length_of_mem ha
  rw [List.set_append_right _ _ (by omega), Nat.add_sub_cancel_left, List.set_append_left _ _ hi,
    List.set_eq_take_append_cons_drop, if_pos hi, List.append_assoc, List.cons_append]

/-- A port is taken off the host, and the cursor moved back behind the host. -/
theorem findPort (h : Represents T k s u) (h0 : 0 ∉ t) {str m : List UInt8} {j : ℕ}
    (hrep : Represents (T ++ (t ++ [0])) j
      { s with mem := m, buf := s.buf + t.length + 1, str := str } u) :
    ∃ s' T', ({ s with
          mem := m, buf := s.buf + t.length + 1, str := str,
          uri.host := some s.buf } : UriCursor).findPort s.buf = s' ∧ s'.str = str ∧
        Represents T' j s' (u.splitPort t) := by
  have hstr : cstr m s.buf = t := Option.some.inj ((h.pointsTo h0).string hrep.text)
  unfold UriCursor.findPort UriParts.splitPort
  dsimp only
  rw [hstr]
  by_cases h58 : 58 ∈ t
  · rw [if_pos h58, if_pos h58]
    have hi : t.idxOf 58 < t.length := List.idxOf_lt_length_of_mem h58
    obtain ⟨v, hv⟩ : T ++ (t ++ [0]) <+: m := hrep.text
    have hm : m.set (s.buf + t.idxOf 58) 0 =
        T ++ (t.take (t.idxOf 58) ++ 0 :: (t.drop (t.idxOf 58 + 1) ++ 0 :: v)) := by
      rw [h.buf, ← set_idxOf h58, ← hv]
      simp
    have hport : cstr (m.set (s.buf + t.idxOf 58) 0) (s.buf + t.idxOf 58 + 1) =
        t.drop (t.idxOf 58 + 1) := by
      refine cstr_eq (v := v) ?_ (notMem_drop h0 _)
      have hlen : (T ++ (t.take (t.idxOf 58) ++ [0])).length = s.buf + t.idxOf 58 + 1 := by
        simp [h.buf]
        omega
      have hcut : m.set (s.buf + t.idxOf 58) 0 =
          T ++ (t.take (t.idxOf 58) ++ [0]) ++ (t.drop (t.idxOf 58 + 1) ++ 0 :: v) := by
        rw [hm]
        simp
      rw [hcut, List.drop_left' hlen]
    have hroom := hrep.room
    refine ⟨_, T ++ (t.take (t.idxOf 58) ++ [0]), rfl, rfl, ?_⟩
    exact {
      text := ⟨t.drop (t.idxOf 58 + 1) ++ 0 :: v, by rw [hm]; simp⟩
      buf := by simp [h.buf]; omega
      room := by
        simp only [List.length_append, List.length_singleton, List.length_take,
          List.length_set] at hroom ⊢
        omega
      nul := hrep.nul
      port := congrArg atoi hport
      protocol := h.protocol.append _
      host := h.buf ▸ PointsTo.self (notMem_take h0 _) []
      path := h.path.append _
      query := h.query.append _
      hash := h.hash.append _ }
  · rw [if_neg h58, if_neg h58]
    exact ⟨_, T ++ (t ++ [0]), rfl, rfl, { hrep with host := h.pointsTo h0 }⟩

theorem findName (h : Represents T 7 s u) :
    ∃ s' T', s.findName = some s' ∧ s'.str = (u.splitName s.str).2 ∧
      Represents T' 6 s' (u.splitName s.str).1 := by
  unfold UriCursor.findName UriParts.splitName
  dsimp only
  have hstr : 0 ∉ s.str.dropWhile isSlash := fun hm => h.nul (List.dropWhile_subset _ hm)
  have hle : (s.str.dropWhile isSlash).length ≤ s.str.length := 
    (List.dropWhile_suffix _).length_le
  have hskip := h.skip hstr (j := 7) (by omega)
  generalize s.str.dropWhile isSlash = str at *
  have hc : str.findIdx isSlash ≤ str.length := List.findIdx_le_length
  generalize str.findIdx isSlash = c at *
  by_cases hp : 0 < c
  · rw [if_pos hp, if_pos hp]
    obtain ⟨m, hcopy, -, hrep⟩ := hskip.copy (str.take c) (j := 6) (notMem_drop hstr c)
      (by simp only [List.length_take, List.length_drop]; omega)
    rw [hcopy]
    obtain ⟨s', T', hs', hstr', hrep'⟩ := hskip.findPort (notMem_take hstr c) hrep
    exact ⟨s', T', congrArg some hs', hstr', hrep'⟩
  · rw [if_neg hp, if_neg hp]
    exact ⟨_, T, rfl, rfl, h.skip hstr (by omega)⟩

theorem findAddress (h : Represents T 7 s u) {p : ℕ} (hp : closingBracket s.str = some p) :
    ∃ s' T', s.findAddress p = some s' ∧ s'.str = (u.splitAddress s.str p).2 ∧
      Represents T' 6 s' (u.splitAddress s.str p).1 := by
  unfold UriCursor.findAddress UriParts.splitAddress
  have hlt : p < s.str.length := by
    unfold closingBracket at hp
    split_ifs at hp with hb
    exact Option.some.inj hp ▸ List.idxOf_lt_length_of_mem hb.2
  have h0 : 0 ∉ (s.str.take p).drop 1 := notMem_drop (notMem_take h.nul p) 1
  have hstr := notMem_drop h.nul (p + 1)
  obtain ⟨m, hcopy, -, hrep⟩ := h.copy ((s.str.take p).drop 1) (j := 7) hstr
    (by simp only [List.length_take, List.length_drop]; omega)
  rw [hcopy]
  simp only [Option.bind_eq_bind, Option.bind_some]
  generalize s.str.drop (p + 1) = str at *
  generalize (s.str.take p).drop 1 = t at *
  have hc : str.findIdx isSlash ≤ str.length := List.findIdx_le_length
  generalize str.findIdx isSlash = c at *
  have hhost : Represents (T ++ (t ++ [0])) 7
      { s with mem := m, buf := s.buf + t.length + 1, str := str, uri.host := some s.buf }
      { u with host := some t } :=
    { hrep with host := h.pointsTo h0 }
  by_cases h58 : str.getD 0 0 = 58
  · rw [if_pos h58, if_pos h58]
    have h0' : 0 ∉ (str.take c).drop 1 := notMem_drop (notMem_take hstr c) 1
    obtain ⟨m', hcopy', -, hrep'⟩ := hhost.copy ((str.take c).drop 1) (j := 6) (notMem_drop hstr c)
      (by simp only [List.length_take, List.length_drop]; omega)
    have hport := Option.some.inj ((hhost.pointsTo h0').string hrep'.text)
    have hroom := hrep'.room
    rw [hcopy']
    refine ⟨_, T ++ (t ++ [0]), rfl, rfl, ?_⟩
    exact { hhost with
      text := (List.prefix_append _ _).trans hrep'.text
      nul := notMem_drop hstr c
      port := congrArg atoi hport
      room := by
        simp only [List.length_append] at hroom ⊢
        omega }
  · rw [if_neg h58, if_neg h58]
    exact ⟨_, T ++ (t ++ [0]), rfl, rfl, hhost.skip (notMem_drop hstr c)
      (by simp only [List.length_drop]; omega)⟩

/-- The host. -/
theorem findHost (h : Represents T 7 s u) (forceHost : ℤ) :
    ∃ s' T', s.findHost forceHost = some s' ∧ s'.str = (u.splitHost s.str forceHost).2 ∧
      Represents T' 6 s' (u.splitHost s.str forceHost).1 := by
  unfold UriCursor.findHost UriParts.splitHost
  rw [h.protocol_eq]
  by_cases hh : HasHost u.protocol s.str forceHost
  · rw [if_pos hh, if_pos hh]
    cases hp : closingBracket s.str with
    | none => exact h.findName
    | some p => exact h.findAddress hp
  · rw [if_neg hh, if_neg hh]
    exact ⟨s, T, rfl, rfl, h.skip h.nul (by omega)⟩

/-- The path. -/
theorem findPath (h : Represents T 6 s u) :
    ∃ s' T', s.findPath = some s' ∧ s'.str = (u.splitPath s.str).2 ∧
      Represents T' 2 s' (u.splitPath s.str).1 := by
  unfold UriCursor.findPath UriParts.splitPath
  dsimp only
  rw [h.protocol_eq]
  have hc : s.str.findIdx (fun a => a == 63 || a == 35) ≤ s.str.length := List.findIdx_le_length
  generalize s.str.findIdx _ = c at *
  by_cases hp : 0 < c
  · rw [if_pos hp, if_pos hp]
    have hslash : ∀ d : Prop, [Decidable d] → 0 ∉ (if d then [47] else ([] : List UInt8)) ∧
        (if d then [47] else ([] : List UInt8)).length ≤ 1 := fun d _ => by
      split_ifs <;> simp
    obtain ⟨hz, hlen⟩ := hslash (s.str.getD 0 0 ≠ 47 ∧ isFile u.protocol = false)
    generalize (if s.str.getD 0 0 ≠ 47 ∧ isFile u.protocol = false then [47]
      else ([] : List UInt8)) = slash at *
    have h0 : 0 ∉ slash ++ s.str.take c := by
      simpa [hz] using notMem_take h.nul c
    obtain ⟨m, hcopy, -, hrep⟩ := h.copy (slash ++ s.str.take c) (j := 2) (notMem_drop h.nul c)
      (by simp only [List.length_append, List.length_take, List.length_drop]; omega)
    rw [hcopy]
    exact ⟨_, _, rfl, rfl, { hrep with path := h.pointsTo h0 }⟩
  · rw [if_neg hp, if_neg hp]
    by_cases hf : isFile u.protocol = false
    · rw [if_pos hf, if_pos hf]
      obtain ⟨m, hcopy, -, hrep⟩ := h.copy [47] (j := 2) h.nul
        (by rw [List.length_singleton]; omega)
      rw [hcopy]
      exact ⟨_, _, rfl, rfl, { hrep with path := h.pointsTo (by decide) }⟩
    · rw [if_neg hf, if_neg hf]
      exact ⟨s, T, rfl, rfl, h.skip h.nul (by omega)⟩

/-- The query. -/
theorem findQuery (h : Represents T 2 s u) :
    ∃ s' T', s.findQuery = some s' ∧ s'.str = (u.splitQuery s.str).2 ∧
      Represents T' 2 s' (u.splitQuery s.str).1 := by
  unfold UriCursor.findQuery UriParts.splitQuery
  by_cases hq : s.str.getD 0 0 = 63
  · rw [if_pos hq, if_pos hq]
    dsimp only
    have hlt := getD_lt (by decide) hq
    have hstr := notMem_drop h.nul 1
    have hlen : (s.str.drop 1).length + 1 = s.str.length := by
      rw [List.length_drop]
      omega
    have hskip := h.skip hstr (j := 3) (by omega)
    generalize s.str.drop 1 = str at *
    have hc : str.findIdx (fun a => a == 35) ≤ str.length := List.findIdx_le_length
    generalize str.findIdx _ = c at *
    by_cases hp : 0 < c
    · rw [if_pos hp, if_pos hp]
      obtain ⟨m, hcopy, -, hrep⟩ := hskip.copy (str.take c) (j := 2) (notMem_drop hstr c)
        (by simp only [List.length_take, List.length_drop]; omega)
      rw [hcopy]
      exact ⟨_, _, rfl, rfl, { hrep with query := hskip.pointsTo (notMem_take hstr c) }⟩
    · rw [if_neg hp, if_neg hp]
      exact ⟨_, T, rfl, rfl, h.skip hstr (by omega)⟩
  · rw [if_neg hq, if_neg hq]
    exact ⟨s, T, rfl, rfl, h⟩

/-- The hash. -/
theorem findHash (h : Represents T 2 s u) :
    ∃ s' T', s.findHash = some s' ∧ s'.str = (u.splitHash s.str).2 ∧
      Represents T' 0 s' (u.splitHash s.str).1 := by
  unfold UriCursor.findHash UriParts.splitHash
  by_cases hq : s.str.getD 0 0 = 35
  · rw [if_pos hq, if_pos hq]
    dsimp only
    have hstr := notMem_drop h.nul 1
    have hlen : (s.str.drop 1).length ≤ s.str.length := by
      rw [List.length_drop]
      omega
    have hskip := h.skip hstr (j := 2) (by omega)
    generalize s.str.drop 1 = str at *
    by_cases hp : 0 < str.length
    · rw [if_pos hp, if_pos hp]
      have hroom : str.length + 1 + ([] : List UInt8).length + 0 ≤ str.length + 2 := by simp
      obtain ⟨m, hcopy, -, hrep⟩ := hskip.copy str List.not_mem_nil hroom
      rw [hcopy]
      exact ⟨_, _, rfl, rfl, { hrep with hash := hskip.pointsTo hstr }⟩
    · rw [if_neg hp, if_neg hp]
      exact ⟨_, T, rfl, rfl, h.skip hstr (by omega)⟩
  · rw [if_neg hq, if_neg hq]
    exact ⟨s, T, rfl, rfl, h.skip h.nul (by omega)⟩

end Represents

theorem splitProtocol_rest (str : List UInt8) :
    { (splitProtocol str).1 with port := 0, protocol := none } = UriParts.empty := by
  unfold splitProtocol
  dsimp only
  split_ifs <;> rfl

/-- The cursor at the start of a call. -/
def UriCursor.init (instr : List UInt8) : UriCursor :=
  ⟨⟨0, none, none, none, none, none⟩, List.replicate (instr.length + 5 + 8 + 2) 0, 0, instr⟩

/-- The cursors between the parts of a call. -/
structure UriStages (instr : List UInt8) (forceHost : ℤ) (s₁ s₂ s₃ s₄ s₅ : UriCursor) : Prop where
  findProtocol : (UriCursor.init instr).findProtocol = some s₁
  findHost : (s₁.resetProtocol instr forceHost).findHost forceHost = some s₂
  findPath : s₂.findPath = some s₃
  findQuery : s₃.findQuery = some s₄
  findHash : s₄.findHash = some s₅
  nul : 0 ∉ (s₁.resetProtocol instr forceHost).str ∧ 0 ∉ s₂.str ∧ 0 ∉ s₃.str ∧ 0 ∉ s₄.str

/-- All parts stay in the block, and the last cursor represents the parts of the string. -/
theorem uriCreate_stages {instr : List UInt8} (h0 : 0 ∉ instr) (forceHost : ℤ) :
    ∃ s₁ s₂ s₃ s₄ s₅ T, UriStages instr forceHost s₁ s₂ s₃ s₄ s₅ ∧
      Represents T 0 s₅ (uriSplit instr forceHost) := by
  have hinit : Represents [] 15 (UriCursor.init instr) .empty :=
    { text := List.nil_prefix
      buf := rfl
      room := by
        simp only [UriCursor.init, List.length_nil, List.length_replicate]
        omega
      nul := h0, port := rfl, protocol := trivial, host := trivial, path := trivial
      query := trivial, hash := trivial }
  obtain ⟨s₁, T₁, hs₁, hlen, hstr₁, h₁⟩ := hinit.findProtocol
  dsimp only [UriCursor.init] at hstr₁ h₁ hlen
  rw [List.length_replicate] at hlen
  obtain ⟨T₂, hstr₂, h₂⟩ := h₁.resetProtocol h0 (by omega) (splitProtocol_rest instr) forceHost
  obtain ⟨s₃, T₃, hs₃, hstr₃, h₃⟩ := h₂.findHost forceHost
  obtain ⟨s₄, T₄, hs₄, hstr₄, h₄⟩ := h₃.findPath
  obtain ⟨s₅, T₅, hs₅, hstr₅, h₅⟩ := h₄.findQuery
  obtain ⟨s₆, T₆, hs₆, -, h₆⟩ := h₅.findHash
  rw [hstr₅, hstr₄, hstr₃, hstr₂, hstr₁] at h₆
  exact ⟨s₁, s₃, s₄, s₅, s₆, T₆, ⟨hs₁, hs₃, hs₄, hs₅, hs₆, h₂.nul, h₃.nul, h₄.nul, h₅.nul⟩, h₆⟩

theorem UriStages.uriCreate_eq {instr : List UInt8} {forceHost : ℤ} {s₁ s₂ s₃ s₄ s₅ : UriCursor}
    (h : UriStages instr forceHost s₁ s₂ s₃ s₄ s₅) (hne : instr ≠ []) :
    uriCreate instr forceHost = some (some (s₅.uri, s₅.mem)) := by
  have hinit := h.findProtocol
  unfold UriCursor.init at hinit
  unfold uriCreate
  rw [if_neg hne]
  simp only [Option.bind_eq_bind, hinit, h.findHost, h.findPath, h.findQuery, h.findHash,
    Option.bind_some]

/-- `xs_uri_create` stays inside its block, and the strings at the pointers are the parts. -/
theorem uriCreate_spec {instr : List UInt8} (h0 : 0 ∉ instr) (hne : instr ≠ []) (forceHost : ℤ) :
    ∃ u m, uriCreate instr forceHost = some (some (u, m)) ∧
      u.strings m = uriSplit instr forceHost := by
  obtain ⟨s₁, s₂, s₃, s₄, s, T, hstages, h⟩ := uriCreate_stages h0 forceHost
  refine ⟨s.uri, s.mem, hstages.uriCreate_eq hne, ?_⟩
  unfold Uri.strings
  rw [h.port, h.protocol.string h.text, h.host.string h.text, h.path.string h.text,
    h.query.string h.text, h.hash.string h.text]

end Webxs
