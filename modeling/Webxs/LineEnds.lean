import Webxs.RequestText

/-!
# Line ends and spaces

A canonical head can be written in other ways : a line may end in a bare LF instead of CRLF, and the
space behind the colon of a header may be missing (`WrittenHead`). `xs_http_validrequest` frames all
of them. But `xs_http_skiptoEOL` stops one byte short of a bare LF, and `xs_http_skiptoken` looks
for a blank behind the name and not for the colon, so that `xs_http_parse` seldom reads the same as
from the canonical head : `tolerant_iff` says when.
-/

namespace Webxs

/-- The end of a line. -/
def eol (cr : Bool) : List UInt8 :=
  if cr then [13, 10] else [10]

/-- A header, and how it is written. -/
structure WrittenLine where
  line : HeaderLine
  space : Bool
  cr : Bool

namespace WrittenLine

/-- What is in front of the LF. -/
def text (w : WrittenLine) : List UInt8 :=
  w.line.name ++ 58 :: ((if w.space then [32] else []) ++
    (w.line.value ++ if w.cr then [13] else []))

def bytes (w : WrittenLine) : List UInt8 :=
  w.text ++ [10]

end WrittenLine

/-- A head, and how its lines are written. -/
structure WrittenHead where
  method : List UInt8
  target : List UInt8
  version : List UInt8
  lines : List WrittenLine
  firstCr : Bool
  lastCr : Bool

namespace WrittenHead

variable (w : WrittenHead)

/-- The canonical head. -/
def head : RequestHead :=
  ⟨w.method, w.target, w.version, w.lines.map WrittenLine.line⟩

/-- The headers and the empty line. -/
def headerBytes : List UInt8 :=
  w.lines.flatMap WrittenLine.bytes ++ eol w.lastCr

/-- The head as it is sent. -/
def bytes : List UInt8 :=
  w.method ++ 32 :: (w.target ++ 32 :: (ascii "HTTP/" ++ (w.version ++ (eol w.firstCr ++
    w.headerBytes))))

end WrittenHead

/-- The headers are read as they are : every space is there, and a header that ends in a bare LF has
no value, is the last one, and is followed by a bare LF. -/
def LinesKept (lastCr : Bool) : List WrittenLine → Prop
  | [] => True
  | w :: ws => w.space = true ∧ (w.cr = true ∨ w.line.value = [] ∧ ws = [] ∧ lastCr = false) ∧
    LinesKept lastCr ws

/-! ## The headers -/

theorem headerLines_control {a : UInt8} (ha : isControl a = true) (t : List UInt8) (n : ℕ) :
    headerLines n (a :: t) = headerLines n t := by
  cases n with
  | zero => rfl
  | succ n => rw [headerLines, headerLines, List.dropWhile_cons_of_pos ha]

theorem headerLines_eol (cr : Bool) (n : ℕ) : headerLines n (eol cr) = [] := by
  cases n with
  | zero => rfl
  | succ n => cases cr <;> rfl

section Line

variable {w : WrittenLine} {t : List UInt8}

/-- A header with its space splits behind the colon and the space. -/
theorem splitLine_of_space (hc : w.line.Canonical) (hspace : w.space = true) :
    SplitLine (w.bytes ++ t) w.line.name [32]
      (w.line.value ++ ((if w.cr then [13] else []) ++ 10 :: t)) := by
  obtain ⟨b, name, hname⟩ := List.exists_cons_of_ne_nil hc.name_ne
  refine ⟨?_, fun a ha => ?_, fun a ha => ?_, blank_space, space_ne, fun a ha => ?_,
    fun hnil => ?_⟩
  · rw [WrittenLine.bytes, WrittenLine.text, hspace, if_pos rfl]
    simp only [List.append_assoc, List.cons_append, List.nil_append]
  · obtain ha | ha := List.mem_append.mp ha
    · have hvis := (isVisible_spec (hc.name a ha)).2.1
      rw [isBlankOrEOL, Bool.or_eq_false_iff, Bool.or_eq_false_iff] at hvis
      exact hvis.1.1
    · rw [List.mem_singleton.mp ha]
      rfl
  · have hb : a = b := by
      rw [WrittenLine.bytes, WrittenLine.text, hname] at ha
      exact (Option.some.inj ha).symm
    rw [hb]
    exact (isVisible_spec (hc.name b (by rw [hname]; exact List.mem_cons_self))).2.2.1
  · cases hvalue : w.line.value with
    | nil =>
      rw [hvalue, List.nil_append] at ha
      split_ifs at ha <;> · obtain rfl := Option.some.inj ha
                            rfl
    | cons x value =>
      rw [hvalue] at ha
      obtain rfl := Option.some.inj ha
      exact hc.value_head x (by rw [hvalue]; rfl)
  · have hmem : (10 : UInt8) ∈ w.line.value ++ ((if w.cr then [13] else []) ++ 10 :: t) := by
      simp only [List.mem_append, List.mem_cons, true_or, or_true]
    rw [hnil] at hmem
    cases hmem

/-- With its space and with CRLF a header is read as it is. -/
theorem headerLines_crlf (hc : w.line.Canonical) (hspace : w.space = true) (hcr : w.cr = true)
    (n : ℕ) : headerLines (n + 1) (w.bytes ++ t) = w.line :: headerLines n t := by
  have hsplit := splitLine_of_space (t := t) hc hspace
  have heol : eolIndex (w.line.value ++ ([13] ++ 10 :: t)) = w.line.value.length := by
    cases hvalue : w.line.value with
    | nil => rfl
    | cons x value =>
      have h := eolIndex_append 13 (10 :: t) (S := w.line.value)
        (fun a ha => (hc.value a ha).2) (by rw [hvalue]; exact List.cons_ne_nil x value)
      rw [if_neg (by decide), show eolIndex (13 :: 10 :: t) = 0 from rfl, hvalue] at h
      rw [List.singleton_append]
      omega
  rw [hsplit.headerLines_succ, hcr, if_pos rfl, heol, List.take_left, ← List.drop_drop,
    List.drop_left, List.singleton_append, List.drop_succ_cons, List.drop_zero,
    headerLines_control rfl]

/-- Without its space a header is not read as it is : the byte behind the colon is taken for a part
of the name. -/
theorem headerLines_tight (hc : w.line.Canonical) (hspace : w.space = false) (n : ℕ)
    (ls : List HeaderLine) : headerLines (n + 1) (w.bytes ++ t) ≠ w.line :: ls := by
  obtain ⟨c, u, hcu, hblank⟩ : ∃ c u, w.line.value ++ ((if w.cr then [13] else []) ++ 10 :: t) =
      c :: u ∧ isBlank c = false := by
    cases hvalue : w.line.value with
    | nil =>
      rw [List.nil_append]
      split_ifs
      · exact ⟨13, 10 :: t, rfl, rfl⟩
      · exact ⟨10, t, rfl, rfl⟩
    | cons x value => exact ⟨x, _, rfl, hc.value_head x (by rw [hvalue]; rfl)⟩
  have hbytes : w.bytes ++ t = (w.line.name ++ [58, c]) ++ u := by
    rw [WrittenLine.bytes, WrittenLine.text, hspace, if_neg Bool.false_ne_true]
    simp only [List.append_assoc, List.cons_append, List.nil_append]
    rw [← hcu]
  have hhead : ∀ a ∈ (w.bytes ++ t).head?, isControl a = false := by
    obtain ⟨b, name, hname⟩ := List.exists_cons_of_ne_nil hc.name_ne
    intro a ha
    rw [hbytes, hname] at ha
    obtain rfl := Option.some.inj ha
    exact (isVisible_spec (hc.name b (by rw [hname]; exact List.mem_cons_self))).2.2.1
  have htoken : ∀ a ∈ w.line.name ++ [58, c], (!isBlank a) = true := by
    intro a ha
    rw [Bool.not_eq_true']
    obtain ha | ha := List.mem_append.mp ha
    · have hvis := (isVisible_spec (hc.name a ha)).2.1
      rw [isBlankOrEOL, Bool.or_eq_false_iff, Bool.or_eq_false_iff] at hvis
      exact hvis.1.1
    · obtain rfl | ha := List.mem_cons.mp ha
      · rfl
      · rw [List.mem_singleton.mp ha]
        exact hblank
  rw [headerLines, dropWhile_isControl_eq hhead, hbytes, List.takeWhile_append_of_pos htoken]
  split_ifs
  · intro h
    have hname := congrArg HeaderLine.name (List.cons.inj h).1
    have hlen := congrArg List.length hname
    simp only [List.length_dropLast, List.length_append, List.length_cons, List.length_nil] at hlen
    omega
  · exact fun h => by cases h

/-- With a bare LF the value is a byte short, or goes on behind the LF. -/
theorem headerLines_lf (hc : w.line.Canonical) (hspace : w.space = true) (hcr : w.cr = false)
    (h : w.line.value = [] → ∃ b s, t = b :: s ∧ b ≠ 10) (n : ℕ) (ls : List HeaderLine) :
    headerLines (n + 1) (w.bytes ++ t) ≠ w.line :: ls := by
  have hsplit := splitLine_of_space (t := t) hc hspace
  rw [hsplit.headerLines_succ, hcr, if_neg Bool.false_ne_true, List.nil_append]
  intro heq
  have hvalue := congrArg HeaderLine.value (List.cons.inj heq).1
  dsimp only at hvalue
  cases hv : w.line.value with
  | nil =>
    obtain ⟨b, s, rfl, hb⟩ := h hv
    rw [hv, List.nil_append, eolIndex, if_pos ⟨by decide, hb⟩, List.take_succ_cons] at hvalue
    cases hvalue
  | cons x value =>
    have heol := eolIndex_append 10 t (S := w.line.value) (fun a ha => (hc.value a ha).2)
      (by rw [hv]; exact List.cons_ne_nil x value)
    have hlen := congrArg List.length hvalue
    rw [if_pos rfl] at heol
    rw [List.length_take, List.length_append] at hlen
    omega

end Line

/-- The headers of the text are those of the canonical head if and only if they are kept. -/
theorem headerLines_written {lastCr : Bool} :
    ∀ (ws : List WrittenLine) n, ws.length ≤ n → (∀ w ∈ ws, w.line.Canonical) →
      (headerLines n (ws.flatMap WrittenLine.bytes ++ eol lastCr) = ws.map WrittenLine.line ↔
        LinesKept lastCr ws) := by
  intro ws
  induction ws with
  | nil => exact fun n _ _ => iff_of_true (headerLines_eol lastCr n) trivial
  | cons w ws ih =>
    intro n hn hws
    obtain ⟨n, rfl⟩ : ∃ n', n = n' + 1 := ⟨n - 1, by rw [List.length_cons] at hn; omega⟩
    have hc := hws w List.mem_cons_self
    have ih := ih n (by rw [List.length_cons] at hn; omega)
      fun w' hw' => hws w' (List.mem_cons_of_mem _ hw')
    rw [List.flatMap_cons, List.append_assoc, List.map_cons, LinesKept, ← ih]
    cases hspace : w.space with
    | false =>
      exact iff_of_false (headerLines_tight hc hspace n _) fun h => by cases h.1
    | true =>
      cases hcr : w.cr with
      | true =>
        rw [headerLines_crlf hc hspace hcr, List.cons.injEq]
        simp only [true_and, true_or]
      | false =>
        by_cases hlast : w.line.value = [] ∧ ws = [] ∧ lastCr = false
        · obtain ⟨hvalue, rfl, rfl⟩ := hlast
          have hsplit := splitLine_of_space (t := eol false) hc hspace
          refine iff_of_true ?_ ⟨rfl, .inr ⟨hvalue, rfl, rfl⟩, headerLines_eol false n⟩
          have hline : (⟨w.line.name, []⟩ : HeaderLine) = w.line := by rw [← hvalue]
          rw [List.flatMap_nil, List.nil_append, hsplit.headerLines_succ, hcr, hvalue,
            if_neg Bool.false_ne_true, List.nil_append, List.nil_append]
          -- the LF in front of the last LF ends the value
          show ⟨w.line.name, []⟩ :: headerLines n (eol false) = [w.line]
          rw [hline, headerLines_eol]
        · refine iff_of_false (headerLines_lf hc hspace hcr (fun hvalue => ?_) n _) fun h =>
            hlast (h.2.1.resolve_left Bool.false_ne_true)
          cases ws with
          | nil =>
            cases lastCr with
            | true => exact ⟨13, [10], rfl, by decide⟩
            | false => exact absurd ⟨hvalue, rfl, rfl⟩ hlast
          | cons w' ws =>
            obtain ⟨b, name, hname⟩ := List.exists_cons_of_ne_nil
              (hws w' (List.mem_cons_of_mem _ List.mem_cons_self)).name_ne
            refine ⟨b, _, by
              rw [List.flatMap_cons, WrittenLine.bytes, WrittenLine.text, hname]
              rfl, ?_⟩
            rintro rfl
            cases (hws w' (List.mem_cons_of_mem _ List.mem_cons_self)).name 10
              (by rw [hname]; exact List.mem_cons_self)

/-! ## Framing -/

theorem WrittenLine.text_spec {w : WrittenLine} (hc : w.line.Canonical) :
    (∀ a ∈ w.text, httpOkchar a = true ∧ a ≠ 10) ∧ ∃ b t, w.text = b :: t ∧ isVisible b = true := by
  refine ⟨fun a ha => ?_, ?_⟩
  · simp only [text, List.mem_append, List.mem_cons] at ha
    obtain ha | rfl | ha | ha | ha := ha
    · have hvis := hc.name a ha
      exact ⟨(isVisible_spec hvis).1, fun h10 => by simp [h10, isVisible] at hvis⟩
    · decide
    · split_ifs at ha
      · rw [List.mem_singleton.mp ha]
        decide
      · cases ha
    · exact ⟨(hc.value a ha).1, (hc.value a ha).2.2⟩
    · split_ifs at ha
      · rw [List.mem_singleton.mp ha]
        decide
      · cases ha
  · obtain ⟨b, name, hname⟩ := List.exists_cons_of_ne_nil hc.name_ne
    exact ⟨b, _, by rw [text, hname]; rfl, hc.name b (by rw [hname]; exact List.mem_cons_self)⟩

namespace WrittenHead

variable {w : WrittenHead}

theorem framed (hc : w.head.Canonical) :
    httpValidrequest w.bytes w.bytes.length = some (w.bytes.length : ℤ) := by
  have hvis : ∀ a, isVisible a = true → httpOkchar a = true ∧ a ≠ 10 := fun a ha =>
    ⟨(isVisible_spec ha).1, fun h10 => by simp [h10, isVisible] at ha⟩
  refine @httpValidrequest_lines (w.method ++ 32 :: (w.target ++ 32 :: (ascii "HTTP/" ++
    (w.version ++ if w.firstCr then [13] else [])))) (eol w.lastCr)
    (w.lines.map WrittenLine.text) ?_ (fun a ha => ?_) (fun u hu => ?_) _ ?_
  · cases w.lastCr
    · exact .inr rfl
    · exact .inl rfl
  · simp only [List.mem_append, List.mem_cons] at ha
    obtain ha | rfl | ha | rfl | ha | ha | ha := ha
    · exact hvis a ((httpValidmethod_spec hc.method).2.1 a ha)
    · decide
    · exact hvis a (hc.target a ha)
    · decide
    · exact (by decide +kernel : ∀ a ∈ ascii "HTTP/", httpOkchar a = true ∧ a ≠ 10) a ha
    · exact hvis a (hc.version a ha)
    · split_ifs at ha
      · rw [List.mem_singleton.mp ha]
        decide
      · cases ha
  · obtain ⟨l, hl, rfl⟩ := List.mem_map.mp hu
    exact WrittenLine.text_spec (hc.headers l.line (List.mem_map_of_mem hl))
  · rw [bytes, headerBytes, List.flatMap_map]
    cases w.firstCr <;>
      simp only [eol, if_true, Bool.false_eq_true, if_false, List.append_assoc,
        List.cons_append, List.nil_append]
    · rfl
    · rfl

/-! ## The request -/

theorem headerBytes_last (w : WrittenHead) : w.headerBytes.getLast? = some 10 := by
  rw [headerBytes, List.getLast?_append]
  cases w.lastCr <;> rfl

theorem okchar_bytes (hc : w.head.Canonical) : ∀ a ∈ w.bytes, httpOkchar a = true := by
  refine (head_of_framed (framed hc) ?_).1
  rw [bytes]
  exact List.append_ne_nil_of_right_ne_nil _ (List.cons_ne_nil _ _)

/-- The written head as a request. -/
def request (w : WrittenHead) (hc : w.head.Canonical) : RequestText where
  lead := []
  method := w.method
  gap := [32]
  target := w.target
  gap' := [32]
  version := w.version
  tail := eol w.firstCr ++ w.headerBytes
  lead_blank := blank_nil
  method_ok := hc.method
  gap_blank := blank_space
  gap_ne := space_ne
  target_token := fun a ha => (isVisible_spec (hc.target a ha)).2.1
  target_ne := fun hnil => by
    have hslash := hc.target_head
    rw [show w.head.target = w.target from rfl, hnil] at hslash
    cases hslash
  gap'_blank := blank_space
  gap'_ne := space_ne
  version_token := fun a ha => (isVisible_spec (hc.version a ha)).2.1
  tail_head := by
    cases w.firstCr
    · exact ⟨10, rfl, rfl⟩
    · exact ⟨13, rfl, rfl⟩
  tail_last := by
    rw [List.getLast?_append, headerBytes_last]
    rfl
  target_ok := fun a ha => (isVisible_spec (hc.target a ha)).1
  tail_noNul := fun h0 => by
    cases okchar_bytes hc 0 (by
      rw [bytes]
      simp only [List.mem_append, List.mem_cons] at h0 ⊢
      tauto)

theorem request_text (hc : w.head.Canonical) : (w.request hc).text = w.bytes := by
  simp only [RequestText.text, RequestText.body, RequestText.third, request, bytes,
    List.nil_append, List.singleton_append]

/-- The text of the headers begins with the LF of the first line. -/
theorem request_headers (hc : w.head.Canonical) :
    (w.request hc).headers = headerLines maxHeaders w.headerBytes := by
  have hS := (w.request hc).number_noEOL
  have hne : ascii "HTTP/" ++ (w.request hc).version ≠ [] :=
    List.append_ne_nil_of_left_ne_nil (by decide) _
  have htext : (w.request hc).headerText = 10 :: w.headerBytes := by
    rw [RequestText.headerText, RequestText.third, ← List.append_assoc]
    rw [show (w.request hc).tail = eol w.firstCr ++ w.headerBytes from rfl]
    generalize ascii "HTTP/" ++ (w.request hc).version = S at hS hne
    cases w.firstCr with
    | true =>
      have heol := eolIndex_append 13 (10 :: w.headerBytes) hS hne
      rw [if_neg (by decide), show eolIndex (13 :: 10 :: w.headerBytes) = 0 from rfl] at heol
      rw [show eol true ++ w.headerBytes = 13 :: 10 :: w.headerBytes from rfl, heol,
        ← List.drop_drop, List.drop_left]
      rfl
    | false =>
      have heol := eolIndex_append 10 w.headerBytes hS hne
      rw [if_pos rfl] at heol
      rw [show eol false ++ w.headerBytes = 10 :: w.headerBytes from rfl, heol, List.drop_left]
  rw [RequestText.headers, htext, headerLines_control rfl]

end WrittenHead

/-! ## The target in another copy -/

/-- Decoding does not look behind its source and its destination. -/
theorem uriDecodeLoop_append {dst src : ℕ} {dlen slen : ℤ} (form : Bool) (C : List UInt8) :
    ∀ n (m : List UInt8) (s d : ℕ) err, src + slen ≤ m.length → dst + dlen ≤ m.length →
      uriDecodeLoop dst src dlen slen form n (m ++ C) s d err =
        ((uriDecodeLoop dst src dlen slen form n m s d err).1 ++ C,
          (uriDecodeLoop dst src dlen slen form n m s d err).2) ∧
        (uriDecodeLoop dst src dlen slen form n m s d err).1.length = m.length := by
  intro n
  induction n with
  | zero => exact fun m s d err _ _ => ⟨rfl, rfl⟩
  | succ n ih =>
    intro m s d err hsrc hdst
    by_cases hend : slen ≤ s ∨ dlen ≤ d
    · have hstop : ∀ a : UInt8, slen ≤ s ∨ dlen ≤ d ∨ a = 0 := fun a =>
        hend.imp_right Or.inl
      rw [uriDecodeLoop, uriDecodeLoop]
      dsimp only
      rw [if_pos (hstop _), if_pos (hstop _)]
      exact ⟨rfl, rfl⟩
    · have hget : ∀ i : ℕ, i < m.length → (m ++ C).getD i 0 = m.getD i 0 := fun i hi => by
        rw [List.getD_eq_getElem?_getD, List.getD_eq_getElem?_getD, List.getElem?_append_left hi]
      have hset : ∀ a, (m ++ C).set (dst + d) a = m.set (dst + d) a ++ C := fun a =>
        List.set_append_left _ _ (by omega)
      have hwrite : ∀ a s' d' err',
          uriDecodeLoop dst src dlen slen form n (m.set (dst + d) a ++ C) s' d' err' =
            ((uriDecodeLoop dst src dlen slen form n (m.set (dst + d) a) s' d' err').1 ++ C,
              (uriDecodeLoop dst src dlen slen form n (m.set (dst + d) a) s' d' err').2) ∧
          (uriDecodeLoop dst src dlen slen form n (m.set (dst + d) a) s' d' err').1.length =
            m.length := fun a s' d' err' => by
        have h := ih (m.set (dst + d) a) s' d' err' (by rw [List.length_set]; exact hsrc)
          (by rw [List.length_set]; exact hdst)
        rwa [List.length_set] at h
      rw [uriDecodeLoop, uriDecodeLoop]
      dsimp only
      rw [hget _ (by omega)]
      by_cases hroom : (s : ℤ) + 2 < slen ∧ (d : ℤ) + 1 < dlen
      · rw [if_pos hroom, if_pos hroom, hget _ (by omega), hget _ (by omega), hset, hset, hset]
        split_ifs
        · exact ⟨rfl, rfl⟩
        · exact hwrite _ _ _ _
        · exact hwrite _ _ _ _
        · exact ih _ _ _ _ hsrc hdst
        · exact hwrite _ _ _ _
      · rw [if_neg hroom, if_neg hroom, hset, hset]
        split_ifs
        · exact ⟨rfl, rfl⟩
        · exact hwrite _ _ _ _
        · exact hwrite _ _ _ _
        · exact ⟨rfl, rfl⟩

section Append

variable {m : List UInt8} {o z : ℕ}

theorem copyTo_append {i : ℕ} {src : List UInt8} (h : i + src.length ≤ m.length)
    (C : List UInt8) : Arr.copyTo (m ++ C) i src = Arr.copyTo m i src ++ C := by
  rw [Arr.copyTo, Arr.copyTo, List.take_append_of_le_length (by omega),
    List.drop_append_of_le_length h]
  simp only [List.append_assoc]

theorem length_copyTo {i : ℕ} {src : List UInt8} (h : i + src.length ≤ m.length) :
    (Arr.copyTo m i src).length = m.length := by
  simp only [Arr.copyTo, List.length_append, List.length_take, List.length_drop]
  omega

theorem uriDecode_append {k : ℤ} (hm : o + k ≤ m.length) (C : List UInt8) :
    (uriDecode (m ++ C) o k o k false).2 = (uriDecode m o k o k false).2 ++ C ∧
      (uriDecode m o k o k false).2.length = m.length := by
  unfold uriDecode
  dsimp only
  by_cases h0 : k - 1 ≤ 0
  · rw [if_pos h0, if_pos h0]
    exact ⟨rfl, rfl⟩
  rw [if_neg h0, if_neg h0]
  obtain ⟨hloop, hlen⟩ := @uriDecodeLoop_append o o (k - 1) k false C
    k.toNat m 0 0 0 hm (by omega)
  have hd := (@uriDecodeLoop_within o m.length o o (k - 1) k false le_rfl (by omega) k.toNat
    m 0 0 0 (by omega)).2
  rw [hloop]
  generalize uriDecodeLoop o o (k - 1) k false k.toNat m 0 0 0 = res at hlen hd
  obtain ⟨m', s, d, err⟩ := res
  dsimp only at hlen hd ⊢
  split_ifs with hr
  · obtain ⟨-, hne, hroom⟩ := hr
    have hsrc : ((m' ++ C).drop (o + s)).take (k - s).toNat =
        (m'.drop (o + s)).take (k - s).toNat := by
      by_cases hpos : 0 < k - s
      · rw [List.drop_append_of_le_length (by omega), List.take_append_of_le_length (by
          rw [List.length_drop]
          omega)]
      · rw [show (k - s).toNat = 0 by omega, List.take_zero, List.take_zero]
    have hle : o + d + ((m'.drop (o + s)).take (k - s).toNat).length ≤ m'.length := by
      rw [List.length_take]
      omega
    rw [hsrc, copyTo_append hle, List.set_append_left _ _ (by rw [length_copyTo hle]; omega)]
    exact ⟨rfl, by rw [List.length_set, length_copyTo hle, hlen]⟩
  · exact ⟨List.set_append_left _ _ (by omega), by rw [List.length_set, hlen]⟩

theorem cutAt_append {uri : ℕ} (delim : UInt8) (hle : uri ≤ z) (hm : m[z]? = some 0)
    (C : List UInt8) :
    cutAt (m ++ C) uri delim = ((cutAt m uri delim).1, (cutAt m uri delim).2 ++ C) := by
  have hstr := (length_cstr_le hle hm).1
  have hz := (List.getElem?_eq_some_iff.mp hm).1
  unfold cutAt
  dsimp only
  rw [cstr_append hle hm]
  split_ifs
  · rw [List.set_append_left _ _ (by omega)]
  · rfl

theorem decodeAt_append {p : Option ℕ} (hp : ∀ i ∈ p, i ≤ z) (hm : m[z]? = some 0)
    (C : List UInt8) : decodeAt (m ++ C) p = decodeAt m p ++ C := by
  cases p with
  | none => rfl
  | some i =>
    have hi := hp i rfl
    have hstr := (length_cstr_le hi hm).1
    have hz := (List.getElem?_eq_some_iff.mp hm).1
    unfold decodeAt
    dsimp only
    rw [cstr_append hi hm, (uriDecode_append (by omega) C).1]

end Append

/-- Treating the target does not look behind the byte at its end. -/
theorem httpParseUri_append {req : HttpReq} {uri z : ℕ} {m : List UInt8} (C : List UInt8)
    (hle : uri ≤ z) (hz : z < m.length)
    (ht : httpTerminatetoken m uri = ((z : ℤ) - uri + 1, m.set z 0))
    (ht' : httpTerminatetoken (m ++ C) uri = ((z : ℤ) - uri + 1, m.set z 0 ++ C)) :
    (httpParseUri { req with buf := m ++ C } uri).buf =
        (httpParseUri { req with buf := m } uri).buf ++ C ∧
      (httpParseUri { req with buf := m ++ C } uri).firstLine =
        (httpParseUri { req with buf := m } uri).firstLine := by
  have h0 : (m.set z 0)[z]? = some 0 := List.getElem?_set_self hz
  obtain ⟨hw₁, hi₁⟩ := cutAt_within 35 hle h0
  have hc₁ := cutAt_append 35 hle h0 C
  unfold httpParseUri HttpReq.firstLine
  rw [ht, ht']
  dsimp only
  rw [hc₁]
  generalize cutAt (m.set z 0) uri 35 = r₁ at hw₁ hi₁
  obtain ⟨hash, b₁⟩ := r₁
  dsimp only at hw₁ hi₁ ⊢
  have h1 := hw₁.nul h0
  obtain ⟨hw₂, hi₂⟩ := cutAt_within 63 hle h1
  rw [cutAt_append 63 hle h1 C]
  generalize cutAt b₁ uri 63 = r₂ at hw₂ hi₂
  obtain ⟨query, b₂⟩ := r₂
  dsimp only at hw₂ hi₂ ⊢
  have h2 := hw₂.nul h1
  have hdec := decodePath_within hle h2 hi₁ hi₂
  have hlen : b₂.length = m.length := by
    rw [hw₂.length_eq, hw₁.length_eq, List.length_set]
  obtain ⟨ulen, hulen⟩ : ∃ ulen, query.elim (hash.elim ((z : ℤ) - uri + 1) fun ch => (uri : ℤ) - ch)
      (fun ch => (uri : ℤ) - ch) = ulen := ⟨_, rfl⟩
  have hle' : ulen ≤ (z : ℤ) - uri + 1 := by
    rw [← hulen]
    cases query with
    | some ch =>
      have := hi₂ ch rfl
      rw [Option.elim_some]
      omega
    | none =>
      cases hash with
      | some ch =>
        have := hi₁ ch rfl
        rw [Option.elim_none, Option.elim_some]
        omega
      | none => rw [Option.elim_none, Option.elim_none]
  rw [hulen] at hdec ⊢
  have h3 := hdec.nul h2
  have hw₃ := decodeAt_within h3 fun i hi => ⟨(hi₁ i hi).1.le, (hi₁ i hi).2⟩
  refine ⟨?_, rfl⟩
  rw [(uriDecode_append (by omega) C).1, decodeAt_append (fun i hi => (hi₁ i hi).2) h3,
    decodeAt_append (fun i hi => (hi₂ i hi).2) (hw₃.nul h3)]

/-! ## The canonical head and the others -/

/-- The same answer, and the same strings. -/
structure ParsedAlike (p p' : ℤ × HttpReq) : Prop where
  err : p.1 = p'.1
  method : p.2.method.map (cstr p.2.buf) = p'.2.method.map (cstr p'.2.buf)
  uri : p.2.uri.map (cstr p.2.buf) = p'.2.uri.map (cstr p'.2.buf)
  version : p.2.version.map (cstr p.2.buf) = p'.2.version.map (cstr p'.2.buf)
  headers : p.2.headerStrings = p'.2.headerStrings

namespace WrittenHead

/-- The canonical way to write a head. -/
def canonical (w : WrittenHead) : WrittenHead :=
  { w with lines := w.lines.map fun l => ⟨l.line, true, true⟩, firstCr := true, lastCr := true }

theorem canonical_head (w : WrittenHead) : w.canonical.head = w.head := by
  rw [head, head, canonical, List.map_map]
  rfl

theorem canonical_bytes (w : WrittenHead) : w.canonical.bytes = w.head.bytes := by
  rw [bytes, RequestHead.bytes, headerBytes, RequestHead.lines, canonical, head, List.flatMap_map,
    List.flatMap_map]
  have hline : ∀ l : WrittenLine, WrittenLine.bytes ⟨l.line, true, true⟩ = l.line.bytes := by
    intro l
    simp only [WrittenLine.bytes, WrittenLine.text, HeaderLine.bytes, if_true, List.append_assoc,
      List.cons_append, List.nil_append]
  rw [funext hline]
  rfl

variable {w : WrittenHead}

/-- The object with the copy up to the end of the target. -/
def lineReq (req : HttpReq) (method target : List UInt8) : HttpReq :=
  { reqClear req with
    buf := method ++ 0 :: (target ++ [32]), method := some 0, uri := some (method.length + 1)
    version := some (method.length + 1 + target.length + 1 + 5), status := none, hash := none
    query := none }

/-- The target is treated as if nothing followed it. -/
theorem parseUri_alike (req : HttpReq) (hc : w.head.Canonical) :
    (∃ C, (httpParseUri ((w.request hc).cut req) (w.request hc).uriAt).buf =
      (httpParseUri (lineReq req w.method w.target) (w.method.length + 1)).buf ++ C) ∧
    (httpParseUri ((w.request hc).cut req) (w.request hc).uriAt).firstLine =
      (httpParseUri (lineReq req w.method w.target) (w.method.length + 1)).firstLine ∧
    (httpParseUri (lineReq req w.method w.target) (w.method.length + 1)).buf[w.method.length + 1 +
      w.target.length]? = some 0 := by
  have htoken : ∀ a ∈ w.target, isBlankOrEOL a = false := (w.request hc).target_token
  have hA : w.method.length + 1 = (w.method ++ [0]).length := by
    rw [List.length_append, List.length_singleton]
  have hm : w.method ++ 0 :: (w.target ++ [32]) = (w.method ++ [0]) ++ (w.target ++ 32 :: []) := by
    rw [List.append_assoc, List.singleton_append]
  have hset : (w.method ++ 0 :: (w.target ++ [32])).set (w.method.length + 1 + w.target.length) 0 =
      (w.method ++ [0]) ++ (w.target ++ 0 :: []) := by
    rw [hm, ← List.append_assoc, set_append_cons _ _ _ _ (by rw [List.length_append, ← hA]),
      List.append_assoc]
  have hint : (w.target.length : ℤ) + 1 =
      ((w.method.length + 1 + w.target.length : ℕ) : ℤ) - (w.method.length + 1 : ℕ) + 1 := by
    push_cast
    omega
  have ht : httpTerminatetoken (w.method ++ 0 :: (w.target ++ [32])) (w.method.length + 1) =
      (((w.method.length + 1 + w.target.length : ℕ) : ℤ) - (w.method.length + 1 : ℕ) + 1,
        (w.method ++ 0 :: (w.target ++ [32])).set (w.method.length + 1 + w.target.length) 0) := by
    rw [hset, hm, httpTerminatetoken_token htoken rfl hA, hint]
  have hz : w.method.length + 1 + w.target.length <
      (w.method ++ 0 :: (w.target ++ [32])).length := by
    simp only [List.length_append, List.length_cons, List.length_nil]
    omega
  obtain ⟨C, hC⟩ : ∃ C, (w.request hc).copy = (w.method ++ 0 :: (w.target ++ [32])) ++ C := by
    refine ⟨ascii "HTTP/" ++ ((w.request hc).version ++ 0 :: ((w.request hc).tail.tail ++ [0])), ?_⟩
    rw [RequestText.copy]
    simp only [request, List.tail_cons, List.append_assoc, List.cons_append, List.nil_append]
  have ht' : httpTerminatetoken ((w.method ++ 0 :: (w.target ++ [32])) ++ C) (w.method.length + 1) =
      (((w.method.length + 1 + w.target.length : ℕ) : ℤ) - (w.method.length + 1 : ℕ) + 1,
        (w.method ++ 0 :: (w.target ++ [32])).set (w.method.length + 1 + w.target.length) 0 ++
          C) := by
    have hm' : (w.method ++ 0 :: (w.target ++ [32])) ++ C =
        (w.method ++ [0]) ++ (w.target ++ 32 :: C) := by
      simp only [List.append_assoc, List.cons_append, List.nil_append]
    rw [hset, hm', httpTerminatetoken_token htoken rfl hA, hint]
    simp only [List.append_assoc, List.cons_append, List.nil_append]
  have hcut : (w.request hc).cut req =
      { lineReq req w.method w.target with buf := (w.method ++ 0 :: (w.target ++ [32])) ++ C } := by
    rw [RequestText.cut, hC]
    rfl
  obtain ⟨hbuf, hfirst⟩ := @httpParseUri_append (lineReq req w.method w.target) _ _ _ C
    (Nat.le_add_right _ _) hz ht ht'
  rw [hcut]
  exact ⟨⟨C, hbuf⟩, hfirst, (httpParseUri_within (Nat.le_add_right _ _) hz ht).2⟩

/-- Of two ways to write the first line nothing is seen. -/
theorem firstLine_alike (strtod : List UInt8 → ℤ) (req : HttpReq) {w' : WrittenHead}
    (hc : w.head.Canonical) (hc' : w'.head.Canonical) (hm : w.method = w'.method)
    (ht : w.target = w'.target) (hv : w.version = w'.version) :
    ∃ r r', httpParse strtod req w.bytes = (0, r) ∧ httpParse strtod req w'.bytes = (0, r') ∧
      r.headerStrings = (w.request hc).headers.map (fun l => (l.name, l.value)) ∧
      r'.headerStrings = (w'.request hc').headers.map (fun l => (l.name, l.value)) ∧
      (ParsedAlike (0, r) (0, r') ↔ r.headerStrings = r'.headerStrings) := by
  obtain ⟨r, hr, hfirst, hstr, hmethod, hversion, hheaders, -⟩ :=
    (w.request hc).httpParse_text strtod req
  obtain ⟨r', hr', hfirst', hstr', hmethod', hversion', hheaders', -⟩ :=
    (w'.request hc').httpParse_text strtod req
  rw [request_text] at hr hr'
  refine ⟨r, r', hr, hr', hheaders, hheaders', fun h => h.headers, fun heq => ?_⟩
  obtain ⟨⟨C, hC⟩, hline, hnul⟩ := parseUri_alike req hc
  obtain ⟨⟨C', hC'⟩, hline', -⟩ := parseUri_alike req hc'
  rw [← hm, ← ht] at hC' hline'
  have hfields : r.firstLine = r'.firstLine := by rw [hfirst, hfirst', hline, hline']
  have hnumber : (w.request hc).versionAt = (w'.request hc').versionAt := by
    simp only [RequestText.versionAt, RequestText.uriAt, request, hm, ht]
  have huri : cstr r.buf (w.method.length + 1) = cstr r'.buf (w.method.length + 1) := by
    have h : cstr r.buf (w.method.length + 1) = _ := hstr _ (Nat.le_add_right _ _)
    have h' : cstr r'.buf (w'.method.length + 1) = _ := hstr' _ (Nat.le_add_right _ _)
    rw [h, hC, cstr_append (Nat.le_add_right _ _) hnul, hm, h', hC', hm]
    exact (cstr_append (Nat.le_add_right _ _) (by rw [← hm]; exact hnul) _).symm
  have hmethod₀ : r.method = some 0 := congrArg Prod.fst hfirst
  have hmethod₁ : r'.method = some 0 := congrArg Prod.fst hfirst'
  have huri₀ : r.uri = some (w.method.length + 1) := congrArg (fun p => p.2.1) hfirst
  have huri₁ : r'.uri = some (w.method.length + 1) := by
    rw [hm]
    exact congrArg (fun p => p.2.1) hfirst'
  have hversion₀ : r.version = some ((w.request hc).versionAt + 5) :=
    congrArg (fun p => p.2.2.1) hfirst
  have hversion₁ : r'.version = some ((w'.request hc').versionAt + 5) :=
    congrArg (fun p => p.2.2.1) hfirst'
  refine ⟨rfl, ?_, ?_, ?_, heq⟩
  · rw [hmethod₀, hmethod₁, Option.map_some, Option.map_some, hmethod, hmethod']
    exact congrArg some hm
  · rw [huri₀, huri₁, Option.map_some, Option.map_some, huri]
  · rw [hversion₀, hversion₁, Option.map_some, Option.map_some, hversion, hversion']
    exact congrArg some hv

theorem linesKept_canonical (ws : List WrittenLine) :
    LinesKept true (ws.map fun l => ⟨l.line, true, true⟩) := by
  induction ws with
  | nil => trivial
  | cons w ws ih => exact ⟨rfl, .inl rfl, ih⟩

theorem headers_written (hc : w.head.Canonical) :
    (w.request hc).headers = w.lines.map WrittenLine.line ↔ LinesKept w.lastCr w.lines := by
  have hcount : w.lines.length ≤ maxHeaders := by
    have h := hc.count
    rwa [head, List.length_map] at h
  rw [request_headers]
  exact headerLines_written w.lines maxHeaders hcount fun l hl =>
    hc.headers l.line (List.mem_map_of_mem hl)

end WrittenHead

/-- However a canonical head is written, it is framed; and it is parsed as the canonical head is if
and only if no space is missing, and only the last header, with no value and with a bare LF behind
its line, ends in a bare LF. The first line and the empty line may end in either way. -/
theorem tolerant_iff (strtod : List UInt8 → ℤ) (req : HttpReq) (w : WrittenHead)
    (hc : w.head.Canonical) :
    httpValidrequest w.bytes w.bytes.length = some (w.bytes.length : ℤ) ∧
      (ParsedAlike (httpParse strtod req w.bytes) (httpParse strtod req w.head.bytes) ↔
        LinesKept w.lastCr w.lines) := by
  refine ⟨w.framed hc, ?_⟩
  have hc' : w.canonical.head.Canonical := by
    rw [w.canonical_head]
    exact hc
  obtain ⟨r, r', hr, hr', hheaders, hheaders', halike⟩ :=
    WrittenHead.firstLine_alike strtod req hc hc' rfl rfl rfl
  have hkept := (WrittenHead.headers_written hc').mpr (WrittenHead.linesKept_canonical w.lines)
  have hlines : w.canonical.lines.map WrittenLine.line = w.lines.map WrittenLine.line := by
    rw [WrittenHead.canonical, List.map_map]
    rfl
  have hinj : Function.Injective fun l : HeaderLine => (l.name, l.value) := by
    rintro ⟨n, v⟩ ⟨n', v'⟩ h
    cases h
    rfl
  rw [w.canonical_bytes] at hr'
  rw [hr, hr', halike, hheaders, hheaders', hkept, hlines, List.map_inj_right hinj,
    WrittenHead.headers_written]

/-- A head with one header. -/
def hostHead (space cr : Bool) : WrittenHead :=
  ⟨ascii "GET", ascii "/", ascii "1.1", [⟨⟨ascii "Host", ascii "ab"⟩, space, cr⟩], false, false⟩

theorem hostHead_canonical (space cr : Bool) : (hostHead space cr).head.Canonical := by
  have hc : RequestHead.Canonical
      ⟨ascii "GET", ascii "/", ascii "1.1", [⟨ascii "Host", ascii "ab"⟩]⟩ := by
    refine ⟨by decide, by decide +kernel, by decide, by decide +kernel, fun l hl => ?_, by decide⟩
    rw [List.mem_singleton.mp hl]
    exact ⟨by decide, by decide +kernel, by decide +kernel, by decide +kernel⟩
  exact hc

/-- With bare LFs around the header. -/
theorem tolerant_iff_first :
    ParsedAlike
      (httpParse decimal (HttpReq.alloc 0 0) (ascii "GET / HTTP/1.1\nHost: ab\r\n\n"))
      (httpParse decimal (HttpReq.alloc 0 0) (ascii "GET / HTTP/1.1\r\nHost: ab\r\n\r\n")) :=
  (tolerant_iff decimal (HttpReq.alloc 0 0) (hostHead true true)
    (hostHead_canonical true true)).2.mpr ⟨rfl, .inl rfl, trivial⟩

/-- With a bare LF the last byte of the value is lost, without the space the header. -/
theorem not_tolerant_host :
    (hostHead true false).head.Canonical ∧ (hostHead false true).head.Canonical ∧
      ¬ParsedAlike (httpParse decimal (HttpReq.alloc 0 0) (hostHead true false).bytes)
        (httpParse decimal (HttpReq.alloc 0 0) (hostHead true false).head.bytes) ∧
      ¬ParsedAlike (httpParse decimal (HttpReq.alloc 0 0) (hostHead false true).bytes)
        (httpParse decimal (HttpReq.alloc 0 0) (hostHead false true).head.bytes) :=
  ⟨hostHead_canonical true false, hostHead_canonical false true,
    fun h => absurd h.headers (by decide +kernel), fun h => absurd h.headers (by decide +kernel)⟩

end Webxs
