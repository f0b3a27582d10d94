import Mathlib.Data.List.TakeWhile
import Webxs.UriParts

/-!
# URLs of known schemes

A URL `scheme://host[:port][path][?query][#hash]` of one of the schemes that `xs_uri_create` has a
port for. The host is taken up to the next slash, so that without a path a query or a hash goes to
the host : `Url.splits_iff` says that the components are found exactly if there is a path, or
neither a query nor a hash.
-/

namespace Webxs

/-- The schemes with a default port. -/
inductive Scheme
  | http | https | ws | wss | ftp
  deriving DecidableEq

namespace Scheme

def text : Scheme → List UInt8
  | http => ascii "http"
  | https => ascii "https"
  | ws => ascii "ws"
  | wss => ascii "wss"
  | ftp => ascii "ftp"

def port : Scheme → ℕ
  | http => 80
  | https => 443
  | ws => 80
  | wss => 443
  | ftp => 21

end Scheme

/-- The value of decimal digits. -/
def decimalValue (d : List UInt8) : ℕ :=
  d.foldl (fun v a => v * 10 + (a.toNat - 48)) 0

/-- A URL by its components. -/
structure Url where
  scheme : Scheme
  host : List UInt8
  /-- Decimal digits. -/
  port : Option (List UInt8)
  path : Option (List UInt8)
  query : Option (List UInt8)
  hash : Option (List UInt8)
  host_ne_nil : host ≠ []
  host_notMem : ∀ a ∈ host, a ∉ [0, 47, 92, 58, 63, 35, 91, 93]
  port_digits : ∀ d ∈ port, (∀ a ∈ d, 48 ≤ a ∧ a ≤ 57) ∧ 1 ≤ decimalValue d ∧
    decimalValue d ≤ 65535
  path_absolute : ∀ p ∈ path, p.head? = some 47 ∧ ∀ a ∈ p, a ∉ [0, 63, 35]
  query_ne_nil : ∀ q ∈ query, q ≠ [] ∧ ∀ a ∈ q, a ∉ [0, 35]
  hash_ne_nil : ∀ h ∈ hash, h ≠ [] ∧ 0 ∉ h

namespace Url

variable (url : Url)

/-- The port with its colon. -/
def portText : List UInt8 :=
  url.port.elim [] (58 :: ·)

/-- The query and the hash with their delimiters. -/
def tailText : List UInt8 :=
  url.query.elim [] (63 :: ·) ++ url.hash.elim [] (35 :: ·)

/-- The URL. -/
def text : List UInt8 :=
  url.scheme.text ++ 58 :: 47 :: 47 ::
    (url.host ++ url.portText ++ (url.path.getD [] ++ url.tailText))

/-- The parts that the scheme gives. -/
def start : UriParts :=
  { UriParts.empty with protocol := some url.scheme.text, port := url.scheme.port }

/-- What splitting it should give. -/
def parts : UriParts where
  port := (url.port.map decimalValue).getD url.scheme.port
  protocol := some url.scheme.text
  host := some url.host
  path := some (url.path.getD [47])
  query := url.query
  hash := url.hash

/-- `xs_uri_create` gives exactly the components. -/
def Splits (forceHost : ℤ) : Prop :=
  ∃ u m, uriCreate url.text forceHost = some (some (u, m)) ∧ u.strings m = url.parts

end Url

/-! ## Cutting -/

/-- What has no stop in it is cut off whole, if a stop or nothing follows. -/
theorem findIdx_append_stop {p : UInt8 → Bool} {l r : List UInt8} (hl : ∀ a ∈ l, p a = false)
    (hr : ∀ a ∈ r.head?, p a = true) : (l ++ r).findIdx p = l.length := by
  induction l with
  | nil =>
    cases r with
    | nil => rfl
    | cons a r => simp [List.findIdx_cons, hr a rfl]
  | cons a l ih =>
    rw [List.forall_mem_cons] at hl
    simp [List.findIdx_cons, hl.1, ih hl.2]

theorem foldl_decimal {d : List UInt8} (hd : ∀ a ∈ d, 48 ≤ a ∧ a ≤ 57) (v : ℕ) :
    d.foldl (fun (v : ℤ) a => v * 10 + (a.toNat - 48)) v =
      ((d.foldl (fun v a => v * 10 + (a.toNat - 48)) v : ℕ) : ℤ) := by
  induction d generalizing v with
  | nil => rfl
  | cons a d ih =>
    rw [List.forall_mem_cons] at hd
    have ha : 48 ≤ a.toNat := by simpa [UInt8.le_iff_toNat_le] using hd.1.1
    rw [List.foldl_cons, List.foldl_cons, ← ih hd.2]
    congr 1
    push_cast
    omega

/-- The number that `atoi` reads of digits. -/
theorem atoi_digits {d : List UInt8} (hd : ∀ a ∈ d, 48 ≤ a ∧ a ≤ 57) (hne : d ≠ []) :
    atoi d = decimalValue d := by
  obtain ⟨a, l, rfl⟩ := List.exists_cons_of_ne_nil hne
  obtain ⟨h48, h57⟩ := hd a (by simp)
  have hspace : (a == 32 || (9 ≤ a && a ≤ 13)) = false := by
    simp only [UInt8.le_iff_toNat_le] at h48 h57
    simp only [Bool.or_eq_false_iff, beq_eq_false_iff_ne, Bool.and_eq_false_iff,
      decide_eq_false_iff_not, UInt8.le_iff_toNat_le, ne_eq, ← UInt8.toNat_inj]
    have h1 : (48 : UInt8).toNat = 48 := rfl
    have h2 : (32 : UInt8).toNat = 32 := rfl
    have h3 : (13 : UInt8).toNat = 13 := rfl
    omega
  have hall : (a :: l).takeWhile (fun a => decide (48 ≤ a ∧ a ≤ 57)) = a :: l :=
    List.takeWhile_eq_self_iff.mpr fun b hb => by simpa using hd b hb
  unfold atoi
  rw [List.dropWhile_cons_of_neg (by simp [hspace])]
  dsimp only
  split
  · rename_i h
    exact absurd (List.cons.inj h).1 (by rintro rfl; revert h48; decide)
  · rename_i h
    exact absurd (List.cons.inj h).1 (by rintro rfl; revert h48; decide)
  · rw [hall]
    exact foldl_decimal hd 0

theorem isSlash_digit {a : UInt8} (ha : 48 ≤ a ∧ a ≤ 57) : isSlash a = false := by
  rw [isSlash, Bool.or_eq_false_iff, beq_eq_false_iff_ne, beq_eq_false_iff_ne]
  constructor
  · rintro rfl
    exact absurd ha.1 (by decide)
  · rintro rfl
    exact absurd ha.2 (by decide)

/-! ## The stages -/

variable {u : UriParts} {str : List UInt8}

/-- The bytes of a query and a hash. -/
def delimitedSize (o : Option (List UInt8)) : ℕ :=
  o.elim 0 fun t => t.length + 1

theorem splitPath_size (u : UriParts) (str : List UInt8) :
    (u.splitPath str).2.length ≤ str.length ∧ (u.splitPath str).1.query = u.query ∧
      (u.splitPath str).1.hash = u.hash := by
  unfold UriParts.splitPath
  dsimp only
  split_ifs <;> simp

theorem splitQuery_size (u : UriParts) (str : List UInt8) :
    delimitedSize (u.splitQuery str).1.query + (u.splitQuery str).2.length ≤
        delimitedSize u.query + str.length ∧
      (u.splitQuery str).1.hash = u.hash := by
  unfold UriParts.splitQuery
  have hc : (str.drop 1).findIdx (fun a => a == 35) ≤ (str.drop 1).length :=
    List.findIdx_le_length
  by_cases hq : str.getD 0 0 = 63
  · have hlt := getD_lt (by decide) hq
    rw [if_pos hq]
    dsimp only
    split_ifs
    · simp only [delimitedSize, Option.elim, List.length_take, List.length_drop, and_true]
        at hc ⊢
      omega
    · simp only [List.length_drop, and_true]
      omega
  · rw [if_neg hq]
    exact ⟨le_rfl, rfl⟩

theorem splitHash_size (u : UriParts) (str : List UInt8) :
    delimitedSize (u.splitHash str).1.hash ≤ delimitedSize u.hash + str.length ∧
      (u.splitHash str).1.query = u.query := by
  unfold UriParts.splitHash
  by_cases hq : str.getD 0 0 = 35
  · have hlt := getD_lt (by decide) hq
    rw [if_pos hq]
    dsimp only
    split_ifs
    · simp only [delimitedSize, Option.elim, List.length_drop, and_true]
      omega
    · exact ⟨Nat.le_add_right _ _, rfl⟩
  · rw [if_neg hq]
    exact ⟨Nat.le_add_right _ _, rfl⟩

/-- What follows the host : the path, the query and the hash. -/
def UriParts.splitRest (u : UriParts) (str : List UInt8) : UriParts :=
  let r := u.splitPath str
  let r := r.1.splitQuery r.2
  (r.1.splitHash r.2).1

/-- No more bytes come out as a query and a hash than are left behind the host. -/
theorem splitRest_size (hq : u.query = none) (hh : u.hash = none) (str : List UInt8) :
    delimitedSize (u.splitRest str).query + delimitedSize (u.splitRest str).hash ≤
      str.length := by
  unfold UriParts.splitRest
  dsimp only
  obtain ⟨hp, hpq, hph⟩ := splitPath_size u str
  generalize u.splitPath str = r at *
  obtain ⟨hs, hsh⟩ := splitQuery_size r.1 r.2
  generalize r.1.splitQuery r.2 = r' at *
  obtain ⟨ht, htq⟩ := splitHash_size r'.1 r'.2
  rw [hpq, hq] at hs
  rw [hsh, hph, hh] at ht
  rw [htq]
  simp only [delimitedSize, Option.elim] at hs ht ⊢
  omega

/-- A path is taken up to the next delimiter. -/
theorem splitPath_of_absolute {p r : List UInt8} (hp : p.head? = some 47)
    (hstop : ∀ a ∈ p, a ∉ [0, 63, 35]) (hr : ∀ a ∈ r.head?, a = 63 ∨ a = 35) :
    u.splitPath (p ++ r) = ({ u with path := some p }, r) := by
  obtain ⟨p', rfl⟩ : ∃ p', p = 47 :: p' := by
    cases p with
    | nil => cases hp
    | cons a p' => exact ⟨p', by rw [Option.some.inj hp]⟩
  have hc : ((47 :: p') ++ r).findIdx (fun a => a == 63 || a == 35) = (47 :: p').length :=
    findIdx_append_stop (fun a ha => by have := hstop a ha; simp_all)
      (fun a ha => by simpa using hr a ha)
  unfold UriParts.splitPath
  dsimp only
  rw [hc, if_pos (by simp), if_neg (by simp), List.take_left, List.drop_left]
  rfl

/-- Without a path there is the root. -/
theorem splitPath_of_none {r : List UInt8} (hf : isFile u.protocol = false)
    (hr : ∀ a ∈ r.head?, a = 63 ∨ a = 35) :
    u.splitPath r = ({ u with path := some [47] }, r) := by
  have hc : r.findIdx (fun a => a == 63 || a == 35) = 0 := by
    rw [← List.nil_append r]
    exact findIdx_append_stop (by simp) (fun a ha => by simpa using hr a ha)
  unfold UriParts.splitPath
  dsimp only
  rw [hc, if_neg (by simp), if_pos hf]

/-- A query is taken up to the hash. -/
theorem splitQuery_of_query {q r : List UInt8} (hq : q ≠ []) (hstop : ∀ a ∈ q, a ∉ [0, 35])
    (hr : ∀ a ∈ r.head?, a = 35) :
    u.splitQuery (63 :: (q ++ r)) = ({ u with query := some q }, r) := by
  have hc : (q ++ r).findIdx (fun a => a == 35) = q.length :=
    findIdx_append_stop (fun a ha => by have := hstop a ha; simp_all)
      (fun a ha => by simpa using hr a ha)
  unfold UriParts.splitQuery
  rw [if_pos (by simp)]
  dsimp only
  rw [List.drop_succ_cons, List.drop_zero, hc, if_pos (List.length_pos_of_ne_nil hq),
    List.take_left, List.drop_left]

theorem splitQuery_of_none {r : List UInt8} (hr : ∀ a ∈ r.head?, a = 35) :
    u.splitQuery r = (u, r) := by
  unfold UriParts.splitQuery
  rw [if_neg]
  cases r with
  | nil => decide
  | cons a r => rw [hr a rfl]; simp

/-- The query and the hash. -/
theorem Url.splitTail (url : Url) (hq : u.query = none) (hh : u.hash = none) :
    let r := u.splitQuery url.tailText
    (r.1.splitHash r.2).1 = { u with query := url.query, hash := url.hash } := by
  have hhash : ∀ a ∈ (url.hash.elim [] (35 :: ·) : List UInt8).head?, a = 35 := by
    cases url.hash <;> simp
  have hlast : ∀ u' : UriParts, u'.hash = none →
      (u'.splitHash (url.hash.elim [] (35 :: ·))).1 = { u' with hash := url.hash } := by
    intro u' hu'
    unfold UriParts.splitHash
    cases h : url.hash with
    | none => simpa using congrArg (fun h => { u' with hash := h }) hu'
    | some t =>
      have ht := (url.hash_ne_nil t h).1
      simp [List.length_pos_iff.mpr ht]
  dsimp only
  unfold Url.tailText
  cases h : url.query with
  | none =>
    rw [Option.elim_none, List.nil_append, splitQuery_of_none hhash, hlast u hh, ← hq]
  | some q =>
    obtain ⟨hne, hstop⟩ := url.query_ne_nil q h
    rw [Option.elim_some, List.cons_append, splitQuery_of_query hne hstop hhash]
    exact hlast _ hh

namespace Url

variable (url : Url)

theorem tailText_head : ∀ a ∈ url.tailText.head?, a = 63 ∨ a = 35 := by
  unfold tailText
  cases url.query with
  | some q => simp
  | none => cases url.hash <;> simp

/-- The query and the hash take up the text behind the path. -/
theorem tailText_length :
    url.tailText.length = delimitedSize url.query + delimitedSize url.hash := by
  unfold tailText delimitedSize
  cases url.query <;> cases url.hash <;> simp [Nat.add_right_comm]

theorem tailText_eq_nil : url.tailText = [] ↔ url.query = none ∧ url.hash = none := by
  unfold tailText
  cases url.query <;> cases url.hash <;> simp

/-- No byte of the host and the port ends them. -/
theorem host_port_stop : ∀ a ∈ url.host ++ url.portText, isSlash a = false := by
  intro a ha
  rcases List.mem_append.mp ha with ha | ha
  · have := url.host_notMem a ha
    simp_all [isSlash]
  · unfold portText at ha
    cases h : url.port with
    | none => simp [h] at ha
    | some d =>
      rw [h, Option.elim_some, List.mem_cons] at ha
      rcases ha with rfl | ha
      · decide
      · exact isSlash_digit ((url.port_digits d h).1 a ha)

/-- The protocol is found, and gives its port. -/
theorem splitProtocol_text :
    splitProtocol url.text =
      (url.start,
        47 :: 47 :: (url.host ++ url.portText ++ (url.path.getD [] ++ url.tailText))) := by
  unfold text
  generalize 47 :: 47 :: (url.host ++ url.portText ++ (url.path.getD [] ++ url.tailText)) = r
  have hc : (url.scheme.text ++ 58 :: r).findIdx (fun a => a == 58 || isSlash a || a == 91) =
      url.scheme.text.length :=
    findIdx_append_stop (by cases url.scheme <;> decide +kernel) (by simp)
  have hport : schemePort url.scheme.text = url.scheme.port := by
    cases url.scheme <;> rfl
  have hlen : 1 < url.scheme.text.length := by
    cases url.scheme <;> decide
  unfold splitProtocol
  dsimp only
  rw [hc, if_neg (by simp), if_pos hlen, List.take_left, hport]
  simp [start]

/-- The string that is left with a host has no slashes in front. -/
theorem dropWhile_slashes (r : List UInt8) :
    (47 :: 47 :: (url.host ++ r)).dropWhile isSlash = url.host ++ r := by
  obtain ⟨a, h, hh⟩ := List.exists_cons_of_ne_nil url.host_ne_nil
  have ha : isSlash a = false := by
    have := url.host_notMem a (by simp [hh])
    simp_all [isSlash]
  rw [hh, List.dropWhile_cons_of_pos rfl, List.dropWhile_cons_of_pos rfl, List.cons_append,
    List.dropWhile_cons_of_neg (by simp [ha])]

/-- A host that is followed by nothing but its port. -/
theorem splitPort_host (u : UriParts) (hp : u.port = url.scheme.port) :
    u.splitPort (url.host ++ url.portText) =
      { u with host := some url.host, port := url.parts.port } := by
  have hhost : 58 ∉ url.host := fun h => by simpa using url.host_notMem _ h
  unfold UriParts.splitPort portText parts
  cases h : url.port with
  | none => simp [hhost, ← hp]
  | some d =>
    have hd := url.port_digits d h
    have hne : d ≠ [] := by
      rintro rfl
      exact absurd hd.2.1 (by decide)
    have hidx : (url.host ++ 58 :: d).idxOf 58 = url.host.length := by
      rw [List.idxOf_append_of_notMem hhost, List.idxOf_cons_self, Nat.add_zero]
    rw [Option.elim_some, if_pos (by simp), hidx, List.take_left]
    simp [atoi_digits hd.1 hne]

/-- A known scheme has a host, and the protocol is kept. -/
theorem hasHost (str : List UInt8) (forceHost : ℤ) :
    HasHost (some url.scheme.text) str forceHost := by
  refine ⟨?_, .inr (.inr (.inr (.inl ?_)))⟩ <;> cases url.scheme <;> decide

/-- The record with the scheme, the host and the port, and the string behind them. -/
theorem splitHost_text {forceHost : ℤ} {r : List UInt8} {c : ℕ}
    (hc : (url.host ++ url.portText ++ r).findIdx isSlash = (url.host ++ url.portText).length + c) :
    url.start.splitHost (47 :: 47 :: (url.host ++ url.portText ++ r)) forceHost =
      (url.start.splitPort (url.host ++ url.portText ++ r.take c), r.drop c) := by
  have hpos := List.length_pos_of_ne_nil url.host_ne_nil
  unfold UriParts.splitHost UriParts.splitName
  rw [show url.start.protocol = some url.scheme.text from rfl,
    if_pos (url.hasHost _ forceHost), show closingBracket (47 :: _) = none from rfl]
  dsimp only
  rw [List.append_assoc, dropWhile_slashes, ← List.append_assoc, hc,
    if_pos (by rw [List.length_append]; omega), List.take_length_add_append,
    List.drop_length_add_append]

/-- Splitting ends with the rest. -/
theorem uriSplit_text {forceHost : ℤ} (hf : forceHost = 0 ∨ forceHost = 1) {c : ℕ}
    (hc : (url.host ++ url.portText ++ (url.path.getD [] ++ url.tailText)).findIdx isSlash =
      (url.host ++ url.portText).length + c) :
    uriSplit url.text forceHost =
      (url.start.splitPort
          (url.host ++ url.portText ++ (url.path.getD [] ++ url.tailText).take c)).splitRest
        ((url.path.getD [] ++ url.tailText).drop c) := by
  have hreset : ¬(forceHost = 2 ∧ url.start.port = 0) := by omega
  unfold uriSplit
  rw [splitProtocol_text]
  dsimp only
  unfold UriParts.resetProtocol
  rw [if_neg hreset, url.splitHost_text hc]
  rfl

/-- The port and the host are cut off before a slash, or at the end. -/
theorem uriSplit_of_stop {forceHost : ℤ} (hf : forceHost = 0 ∨ forceHost = 1)
    (hstop : url.path.isSome ∨ url.tailText = []) : uriSplit url.text forceHost = url.parts := by
  have hhead : ∀ a ∈ (url.path.getD [] ++ url.tailText).head?, isSlash a = true := by
    cases h : url.path with
    | none =>
      rw [hstop.resolve_left (by simp [h])]
      simp
    | some p =>
      have hp := (url.path_absolute p h).1
      cases p with
      | nil => cases hp
      | cons a p =>
        obtain rfl := Option.some.inj hp
        simp [isSlash]
  have hc := findIdx_append_stop url.host_port_stop hhead
  rw [url.uriSplit_text hf (c := 0) hc, List.take_zero, List.append_nil, List.drop_zero,
    url.splitPort_host _ rfl]
  unfold UriParts.splitRest
  cases h : url.path with
  | none =>
    have hfile : isFile (some url.scheme.text) = false := by cases url.scheme <;> decide
    rw [Option.getD_none, List.nil_append, splitPath_of_none hfile url.tailText_head]
    exact (url.splitTail rfl rfl).trans (by simp [parts, h, start])
  | some p =>
    obtain ⟨hp, hstop⟩ := url.path_absolute p h
    rw [Option.getD_some, splitPath_of_absolute hp hstop url.tailText_head]
    exact (url.splitTail rfl rfl).trans (by simp [parts, h, start])

/-- Without a path, bytes of the query or the hash are lost to the host. -/
theorem uriSplit_of_lost {forceHost : ℤ} (hf : forceHost = 0 ∨ forceHost = 1)
    (hpath : url.path = none) (htail : url.tailText ≠ []) :
    uriSplit url.text forceHost ≠ url.parts := by
  intro heq
  obtain ⟨a, t, ht⟩ := List.exists_cons_of_ne_nil htail
  have ha : isSlash a = false := by
    rcases url.tailText_head a (by simp [ht]) with rfl | rfl <;> decide
  obtain ⟨c, hc⟩ : ∃ c, (url.host ++ url.portText ++ url.tailText).findIdx isSlash =
      (url.host ++ url.portText).length + (c + 1) := by
    refine ⟨t.findIdx isSlash, ?_⟩
    rw [List.findIdx_append, List.findIdx_eq_length.mpr url.host_port_stop, if_neg (by simp), ht,
      List.findIdx_cons, ha]
    simp [Nat.add_comm]
  have hsplit := url.uriSplit_text hf (c := c + 1) (by rw [hpath]; exact hc)
  have hsize := splitRest_size
    (u := url.start.splitPort (url.host ++ url.portText ++ url.tailText.take (c + 1)))
    (by unfold UriParts.splitPort; split_ifs <;> rfl)
    (by unfold UriParts.splitPort; split_ifs <;> rfl) (url.tailText.drop (c + 1))
  rw [hpath, Option.getD_none, List.nil_append, heq] at hsplit
  rw [← hsplit, List.length_drop, url.tailText_length] at hsize
  have hlen := url.tailText_length
  rw [ht, List.length_cons] at hlen
  simp only [parts] at hsize
  omega

theorem text_ne_nil : url.text ≠ [] := by
  simp [text]

/-- No byte of a URL is NUL. -/
theorem zero_notMem_text : 0 ∉ url.text := by
  have hscheme : 0 ∉ url.scheme.text := by
    cases url.scheme <;> decide
  have hhost : 0 ∉ url.host := fun h0 => url.host_notMem 0 h0 (by decide)
  have hport : 0 ∉ url.portText := by
    unfold portText
    cases h : url.port with
    | none => simp
    | some d => simpa using fun h0 => absurd ((url.port_digits d h).1 0 h0).1 (by decide)
  have hpath : 0 ∉ url.path.getD [] := by
    cases h : url.path with
    | none => simp
    | some p => exact fun h0 => (url.path_absolute p h).2 0 h0 (by decide)
  have hquery : 0 ∉ (url.query.elim [] (63 :: ·) : List UInt8) := by
    cases h : url.query with
    | none => simp
    | some q => simpa using fun h0 => (url.query_ne_nil q h).2 0 h0 (by decide)
  have hhash : 0 ∉ (url.hash.elim [] (35 :: ·) : List UInt8) := by
    cases h : url.hash with
    | none => simp
    | some t => simpa using (url.hash_ne_nil t h).2
  simp only [text, tailText, List.mem_append, List.mem_cons, hscheme, hhost, hport, hpath, hquery,
    hhash]
  decide

/-- A URL of a known scheme is split into its components exactly if it has a path, or neither a
query nor a hash. -/
theorem splits_iff (forceHost : ℤ) (hf : forceHost = 0 ∨ forceHost = 1) :
    url.Splits forceHost ↔ url.path.isSome ∨ (url.query = none ∧ url.hash = none) := by
  obtain ⟨u, m, hu, hm⟩ := uriCreate_spec url.zero_notMem_text url.text_ne_nil forceHost
  have hsplits : url.Splits forceHost ↔ uriSplit url.text forceHost = url.parts := by
    unfold Splits
    simp [hu, hm]
  rw [hsplits, ← tailText_eq_nil]
  constructor
  · intro h
    by_contra hlost
    rw [not_or, Option.not_isSome_iff_eq_none] at hlost
    exact url.uriSplit_of_lost hf hlost.1 hlost.2 h
  · exact url.uriSplit_of_stop hf

/-- `ws://h:81/p?q#f`. -/
def full : Url where
  scheme := .ws
  host := ascii "h"
  port := some (ascii "81")
  path := some (ascii "/p")
  query := some (ascii "q")
  hash := some (ascii "f")
  host_ne_nil := by decide
  host_notMem := by decide +kernel
  port_digits := by decide +kernel
  path_absolute := by decide +kernel
  query_ne_nil := by decide +kernel
  hash_ne_nil := by decide +kernel

theorem splits_full : full.Splits 1 :=
  (full.splits_iff 1 (.inr rfl)).mpr (.inl rfl)

/-- `http://h?q`. -/
def pathless : Url where
  scheme := .http
  host := ascii "h"
  port := none
  path := none
  query := some (ascii "q")
  hash := none
  host_ne_nil := by decide
  host_notMem := by decide +kernel
  port_digits := by decide +kernel
  path_absolute := by decide +kernel
  query_ne_nil := by decide +kernel
  hash_ne_nil := by decide +kernel

/-- The host of `http://h?q` is `h?q`, and it has no query. -/
theorem not_splits_pathless : ¬pathless.Splits 0 := by
  rintro ⟨u, m, hu, hm⟩
  obtain ⟨u', m', hu', hm'⟩ := uriCreate_spec pathless.zero_notMem_text pathless.text_ne_nil 0
  rw [hu] at hu'
  obtain ⟨rfl, rfl⟩ := Prod.mk.inj (Option.some.inj (Option.some.inj hu'))
  exact absurd (hm'.symm.trans hm) (by decide)

end Url

end Webxs
