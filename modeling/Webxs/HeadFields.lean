import Webxs.CanonicalHead
import Webxs.RequestText

/-!
# What a head says of its body

`xs_http_parseheaders` keeps the length of the body, whether it is chunked, whether an upgrade is
asked for and whether the connection is kept. It looks at one header after another, so for a
canonical head the four are those of the headers in their order (`httpParse_framing`).
-/

namespace Webxs

/-- What the headers say of the body and of the connection. -/
structure Framing where
  contentlen : ℕ
  chunked : Bool
  keepalive : Bool
  upgrade : ℕ

def HttpReq.framing (req : HttpReq) : Framing :=
  ⟨req.contentlen, req.chunked, req.keepalive, req.upgrade⟩

/-- One header more. -/
def Framing.add (strtod : List UInt8 → ℤ) (version : List UInt8) (f : Framing) (l : HeaderLine) :
    Framing where
  contentlen :=
    if eqCase l.name (ascii "Content-Length") then (strtod l.value % 2 ^ 64).toNat else f.contentlen
  chunked :=
    f.chunked || (eqCase l.name (ascii "Transfer-Encoding") && eqCase l.value (ascii "chunked"))
  keepalive := f.keepalive || keepsAlive version l
  upgrade := if eqCase l.name (ascii "Upgrade") then 1 else f.upgrade

theorem isControl_crlf : ∀ a ∈ ([13, 10] : List UInt8), isControl a = true := by
  decide +kernel

theorem isControl_cut : ∀ a ∈ ([0, 10] : List UInt8), isControl a = true := by
  decide +kernel

variable (strtod : List UInt8 → ℤ)

/-- A header whose name is at `na` and whose value is at `va`. -/
theorem httpPreparse_framing {req : HttpReq} {na va : ℕ} {version : List UInt8} {l : HeaderLine}
    (hname : StringAt req.buf na l.name) (hvalue : StringAt req.buf va l.value)
    (hversion : StringAt req.buf (req.version.getD 0) version) :
    (httpPreparse strtod req na va).framing = req.framing.add strtod version l := by
  rw [httpPreparse, HttpReq.framing]
  dsimp only
  rw [hname.cstr_eq, hvalue.cstr_eq, hversion.cstr_eq, Framing.add, keepsAlive, Bool.or_assoc]
  rfl

/-- The loop looks at one line after another. -/
theorem httpHeadersLoop_framing {base rlen : ℕ} {version : List UInt8} (ls : List HeaderLine) :
    ∀ (P : List UInt8) (req : HttpReq) n c, (∀ l ∈ ls, l.Canonical) → ls.length ≤ n →
      req.buf = P ++ (ls.flatMap HeaderLine.bytes ++ [13, 10] ++ [0]) → base + c ≤ P.length →
      (∀ a ∈ P.drop (base + c), isControl a = true) → base + rlen + 1 = req.buf.length →
      StringAt P (req.version.getD 0) version →
      (httpHeadersLoop strtod base rlen n req c).framing =
        ls.foldl (Framing.add strtod version) req.framing := by
  induction ls with
  | nil =>
    intro P req n c _ _ hbuf hc hP hrlen _
    cases n with
    | zero => rfl
    | succ n =>
      -- only the empty line is left
      refine congrArg HttpReq.framing (httpHeadersLoop_stop strtod (t := []) (Z := P ++ [13, 10]) n
        (by rw [hbuf, List.flatMap_nil]; simp) (by rw [List.length_append]; omega) (fun a ha => ?_)
        (by simp) hrlen (by simp))
      rw [List.drop_append_of_le_length hc] at ha
      obtain ha | ha := List.mem_append.mp ha
      · exact hP a ha
      · exact isControl_crlf a ha
  | cons l ls ih =>
    intro P req n c hls hn hbuf hc hP hrlen hv
    have hl := hls l List.mem_cons_self
    obtain ⟨n, rfl⟩ := Nat.exists_eq_succ_of_ne_zero (n := n) (by simp at hn; omega)
    rw [List.flatMap_cons, List.append_assoc, List.append_assoc, ← List.append_assoc _ _ [0]]
      at hbuf
    obtain ⟨c', hstep, hc'⟩ := httpHeadersLoop_line strtod hl n hbuf hc hP hrlen
    -- what is behind the cursor now
    obtain ⟨cut, hcut⟩ : ∃ cut, l.name ++ 0 :: 32 :: (l.value ++ [0, 10]) = cut := ⟨_, rfl⟩
    obtain ⟨rest, hrest⟩ : ∃ rest, ls.flatMap HeaderLine.bytes ++ [13, 10] = rest := ⟨_, rfl⟩
    have hbuf' : P ++ (l.name ++ 0 :: 32 :: (l.value ++ 0 :: 10 :: (rest ++ [0]))) =
        (P ++ cut) ++ (rest ++ [0]) := by
      rw [← hcut]
      simp
    have hname : StringAt (P ++ cut) P.length l.name :=
      ⟨P, 32 :: (l.value ++ [0, 10]), by rw [← hcut, List.append_assoc], rfl,
        zero_notMem_of_visible hl.name⟩
    have hvalue : StringAt (P ++ cut) (P.length + l.name.length + 2) l.value := by
      refine ⟨P ++ (l.name ++ [0, 32]), [10], by rw [← hcut]; simp, ?_, fun h0 => ?_⟩
      · simp only [List.length_append, List.length_cons, List.length_nil]
        omega
      · cases (hl.value 0 h0).1
    have hlen := congrArg List.length hbuf
    have hcutlen := congrArg List.length hcut
    simp only [List.length_append, List.length_cons, List.length_nil, HeaderLine.bytes, hrest]
      at hlen hcutlen
    rw [hrest] at hstep
    rw [hbuf'] at hstep
    rw [hstep, List.foldl_cons]
    have hcontrol : ∀ a ∈ (P ++ cut).drop (base + c'), isControl a = true := fun a ha => by
      rw [hc', ← hcut, show P ++ (l.name ++ 0 :: 32 :: (l.value ++ [0, 10])) =
          (P ++ l.name ++ 0 :: 32 :: l.value) ++ [0, 10] by simp,
        show P.length + l.name.length + 2 + l.value.length =
          (P ++ l.name ++ 0 :: 32 :: l.value).length by simp; omega, List.drop_left] at ha
      exact isControl_cut a ha
    obtain ⟨req', hreq'⟩ : ∃ req', httpPreparse strtod
        { req with buf := P ++ cut ++ (rest ++ [0]) } P.length (P.length + l.name.length + 2) =
        req' := ⟨_, rfl⟩
    have hframing : req'.framing = req.framing.add strtod version l := by
      rw [← hreq', httpPreparse_framing strtod (hname.append _) (hvalue.append _)
        ((hv.append cut).append _)]
      rfl
    have hbuf₁ : req'.buf = P ++ cut ++ (rest ++ [0]) := by
      rw [← hreq']
      rfl
    have hversion : req'.version = req.version := by
      rw [← hreq']
      rfl
    rw [hreq', ih (P ++ cut) req' n c' (fun l' hl' => hls l' (List.mem_cons_of_mem _ hl'))
      (by simpa using hn) (by rw [hbuf₁, hrest]) (by rw [hc', List.length_append]; omega) hcontrol
      (by rw [hbuf₁, List.length_append, List.length_append]; simp; omega)
      (by rw [hversion]; exact hv.append cut), hframing]

theorem zero_notMem_lines {ls : List HeaderLine} (hls : ∀ l ∈ ls, l.Canonical) :
    0 ∉ ls.flatMap HeaderLine.bytes ++ [13, 10] := by
  simp only [HeaderLine.bytes, List.mem_append, List.mem_flatMap, List.mem_cons, List.not_mem_nil,
    or_false]
  rintro (⟨l, hl, h0 | h0 | h0 | h0 | h0 | h0⟩ | h0 | h0)
  · exact zero_notMem_of_visible (hls l hl).name h0
  · cases h0
  · cases h0
  · cases ((hls l hl).value 0 h0).1
  all_goals cases h0

namespace RequestHead

variable {h : RequestHead}

/-- A canonical head is a text of a request. -/
def Canonical.text (hc : h.Canonical) : RequestText where
  lead := []
  method := h.method
  gap := [32]
  target := h.target
  gap' := [32]
  version := h.version
  tail := 13 :: 10 :: h.lines
  lead_blank := blank_nil
  method_ok := hc.method
  gap_blank := blank_space
  gap_ne := space_ne
  target_token := fun a ha => (isVisible_spec (hc.target a ha)).2.1
  target_ne := fun h0 => by cases h0 ▸ hc.target_head
  gap'_blank := blank_space
  gap'_ne := space_ne
  version_token := fun a ha => (isVisible_spec (hc.version a ha)).2.1
  tail_head := ⟨13, rfl, rfl⟩
  tail_last := by
    rw [lines, ← List.cons_append, ← List.cons_append, List.getLast?_append]
    rfl
  target_ok := fun a ha => (isVisible_spec (hc.target a ha)).1
  tail_noNul := by
    simp only [List.mem_append, List.mem_cons, not_or]
    exact ⟨zero_notMem_of_visible hc.version, by decide, by decide, zero_notMem_lines hc.headers⟩

theorem Canonical.text_text (hc : h.Canonical) : hc.text.text = h.bytes := by
  simp [text, RequestText.text, RequestText.body, RequestText.third, bytes]

end RequestHead

/-- The copy when the headers are read : the version is cut off, and behind it is what was sent. -/
theorem RequestText.cutTarget (q : RequestText) (req : HttpReq) :
    ∃ M, (httpParseUri (q.cut req) q.uriAt).buf = M ++ 0 :: (q.tail.tail ++ [0]) ∧
      M.length = q.versionAt + 5 + q.version.length ∧
      StringAt (M ++ [0]) (q.versionAt + 5) q.version := by
  obtain ⟨b, g, hg⟩ := List.exists_cons_of_ne_nil q.gap_ne
  obtain ⟨b', g', hg'⟩ := List.exists_cons_of_ne_nil q.gap'_ne
  have hA : q.uriAt = (q.method ++ 0 :: g).length := by
    rw [uriAt, hg, List.length_append, List.length_cons, List.length_cons]
  have hb' : isBlankOrEOL b' = true := by
    rw [isBlankOrEOL, q.gap'_blank b' (by rw [hg']; exact List.mem_cons_self)]
    rfl
  obtain ⟨C, hC⟩ : ∃ C, g' ++ (ascii "HTTP/" ++ (q.version ++ 0 :: (q.tail.tail ++ [0]))) = C :=
    ⟨_, rfl⟩
  have hcopy : q.copy = (q.method ++ 0 :: g) ++ (q.target ++ b' :: C) := by
    rw [copy, hg, hg', ← hC]
    simp only [List.tail_cons, List.append_assoc, List.cons_append]
  have hcut : httpTerminatetoken (q.cut req).buf q.uriAt =
      (((q.uriAt + q.target.length : ℕ) : ℤ) - q.uriAt + 1,
        (q.cut req).buf.set (q.uriAt + q.target.length) 0) := by
    rw [show (q.cut req).buf = q.copy from rfl, hcopy,
      httpTerminatetoken_token q.target_token hb' hA, ← List.append_assoc, ← List.append_assoc,
      set_append_cons _ _ _ _ (by rw [List.length_append, ← hA])]
    refine Prod.ext ?_ rfl
    dsimp only
    push_cast
    omega
  obtain ⟨hwithin, -⟩ := httpParseUri_within (Nat.le_add_right _ _) (by
    rw [show (q.cut req).buf = q.copy from rfl, hcopy, List.length_append, ← hA]
    simp only [List.length_append, List.length_cons]
    omega) hcut
  obtain ⟨T, hTlen, hT⟩ := hwithin.eq_append (A := q.method ++ 0 :: g) (T := q.target ++ [b'])
    (C := C) (by rw [show (q.cut req).buf = q.copy from rfl, hcopy]; simp) hA (by
      simp only [List.length_append, List.length_cons, List.length_nil] at hA ⊢
      omega)
  have hnumber : ((q.method ++ 0 :: g) ++ T ++ g' ++ ascii "HTTP/").length = q.versionAt + 5 := by
    rw [List.length_append, List.length_append, List.length_append, ← hA, hTlen, versionAt, hg',
      List.length_append, List.length_cons, List.length_nil, List.length_cons,
      show (ascii "HTTP/").length = 5 from rfl]
    omega
  refine ⟨(q.method ++ 0 :: g) ++ T ++ g' ++ ascii "HTTP/" ++ q.version, ?_, ?_, ?_⟩
  · rw [hT, ← hC]
    simp only [List.append_assoc]
  · rw [List.length_append, hnumber]
  · refine ⟨(q.method ++ 0 :: g) ++ T ++ g' ++ ascii "HTTP/", [], ?_, hnumber.symm, fun h0 =>
      q.tail_noNul (List.mem_append_left _ h0)⟩
    rw [List.append_assoc _ q.version]

/-- What a canonical head says of its body, in the order of its headers. -/
theorem httpParse_framing (req : HttpReq) {h : RequestHead} (hc : h.Canonical) :
    (httpParse strtod req h.bytes).2.framing =
      h.headers.foldl (Framing.add strtod h.version) ⟨0, false, false, 0⟩ := by
  obtain ⟨q, htext, hversion, htail⟩ : ∃ q : RequestText, q.text = h.bytes ∧
      q.version = h.version ∧ q.tail = 13 :: 10 :: h.lines := ⟨hc.text, hc.text_text, rfl, rfl⟩
  obtain ⟨M, hbuf, hM, hstring⟩ := q.cutTarget req
  have heol : eolIndex q.third = 5 + q.version.length := by
    have hline := eolIndex_append 13 (10 :: h.lines) q.number_noEOL
      (List.append_ne_nil_of_left_ne_nil (by decide) _)
    have hlf : eolIndex (13 :: 10 :: h.lines) = 0 := if_neg fun h' => h'.1 rfl
    rw [if_neg (by decide), hlf, List.length_append] at hline
    rw [RequestText.third, htail, ← List.append_assoc]
    exact Nat.succ_injective hline
  have hrest : q.headerText.length = h.lines.length + 1 := by
    rw [RequestText.headerText, List.length_drop, heol, RequestText.length_third, htail]
    simp only [List.length_cons]
    omega
  have hcursor : (M ++ [0]).length = q.versionAt + eolIndex q.third + 1 := by
    rw [List.length_append, hM, heol, List.length_singleton]
    omega
  have hsplit : M ++ [0, 10] = (M ++ [0]) ++ [10] := by simp
  have hlen := congrArg List.length hbuf
  rw [htail] at hlen
  simp only [List.tail_cons, List.length_append, List.length_cons, List.length_nil] at hlen hcursor
  rw [← htext, RequestText.httpParse_cut, ← hversion]
  dsimp only
  rw [httpParseheaders]
  refine (httpHeadersLoop_framing strtod h.headers (M ++ [0, 10]) _ _ 0 hc.headers hc.count ?_ ?_
    (fun a ha => ?_) ?_ (by rw [hsplit]; exact hstring.append [10])).trans rfl
  · rw [hbuf, htail]
    simp [RequestHead.lines]
  · rw [List.length_append, List.length_cons, List.length_singleton]
    omega
  · rw [hsplit, List.drop_left' (by rw [List.length_append, List.length_singleton]; omega)] at ha
    exact List.mem_singleton.mp ha ▸ rfl
  · omega

end Webxs
