import Webxs.Heads
import Webxs.Scanning

/-!
# Canonical heads

A canonical request head (`RequestHead.Canonical`) is a method, a target and a version on the first
line and a name and a value on each line behind it, written in the one way that is not open to
choice. `xs_http_validrequest` finds its end, whatever follows (`httpValidrequest_bytes`), and
`xs_http_parse` records the method, the version, and the names and values in their order
(`httpParse_bytes`).

Parsing cuts the copy as it goes : behind the cursor are strings, each with its NUL (`StringAt`),
and ahead of it lines that are not touched yet. No write goes back behind the cursor, so what was
recorded stays (`httpHeadersLoop_lines`).
-/

namespace Webxs

/-! ## Heads -/

/-- A printable character that is no space. -/
def isVisible (a : UInt8) : Bool :=
  33 ≤ a && a ≤ 126

/-- The name and the value of a header. -/
structure HeaderLine where
  name : List UInt8
  value : List UInt8

namespace HeaderLine

/-- The line of a header. -/
def bytes (l : HeaderLine) : List UInt8 :=
  l.name ++ 58 :: 32 :: (l.value ++ [13, 10])

/-- The name is visible, and the value is text on one line that does not begin with a blank. -/
structure Canonical (l : HeaderLine) : Prop where
  name_ne : l.name ≠ []
  name : ∀ a ∈ l.name, isVisible a = true
  value : ∀ a ∈ l.value, httpOkchar a = true ∧ a ≠ 13 ∧ a ≠ 10
  value_head : ∀ a ∈ l.value.head?, isBlank a = false

end HeaderLine

/-- What a request head says; `version` is what follows `HTTP/`. -/
structure RequestHead where
  method : List UInt8
  target : List UInt8
  version : List UInt8
  headers : List HeaderLine

namespace RequestHead

/-- The lines behind the first. -/
def lines (h : RequestHead) : List UInt8 :=
  h.headers.flatMap HeaderLine.bytes ++ [13, 10]

/-- The head as it is sent. -/
def bytes (h : RequestHead) : List UInt8 :=
  h.method ++ 32 :: (h.target ++ 32 :: (ascii "HTTP/" ++ (h.version ++ 13 :: 10 :: h.lines)))

/-- The method is known, target and version are visible, and there is room for the headers. -/
structure Canonical (h : RequestHead) : Prop where
  method : httpValidmethod h.method = true
  target : ∀ a ∈ h.target, isVisible a = true
  target_head : h.target.head? = some 47
  version : ∀ a ∈ h.version, isVisible a = true
  headers : ∀ l ∈ h.headers, l.Canonical
  count : h.headers.length ≤ maxHeaders

end RequestHead

/-! ## Characters -/

theorem isVisible_spec {a : UInt8} (h : isVisible a = true) :
    httpOkchar a = true ∧ isBlankOrEOL a = false ∧ isControl a = false ∧ a ≠ 0 := by
  simp only [isVisible, httpOkchar, isBlankOrEOL, isBlank, isControl, Bool.and_eq_true,
    Bool.or_eq_true, Bool.or_eq_false_iff, decide_eq_true_eq, decide_eq_false_iff_not, beq_iff_eq,
    beq_eq_false_iff_ne, ne_eq, UInt8.le_iff_toNat_le, UInt8.lt_iff_toNat_lt,
    ← UInt8.toNat_inj, UInt8.reduceToNat] at h ⊢
  omega

theorem httpValidmethod_spec {m : List UInt8} (h : httpValidmethod m = true) :
    m ≠ [] ∧ (∀ a ∈ m, isVisible a = true) ∧ m.take 5 ≠ ascii "HTTP/" := by
  simp only [httpValidmethod, decide_eq_true_eq, List.mem_cons, List.not_mem_nil, or_false] at h
  obtain rfl | rfl | rfl | rfl | rfl | rfl | rfl | rfl | rfl := h <;> decide +kernel

/-! ## Framing -/

/-- A text on one line is stepped over. -/
theorem httpValidLoop_text {buf : List UInt8} :
    ∀ (u v : List UInt8) n s, buf.drop s = u ++ v → (∀ a ∈ u, httpOkchar a = true ∧ a ≠ 10) →
      httpValidLoop buf (n + u.length) s = httpValidLoop buf n (s + u.length) := by
  intro u
  induction u with
  | nil => exact fun _ _ _ _ _ => rfl
  | cons a u ih =>
    intro v n s hd hu
    obtain ⟨ha, hd⟩ := getElem?_of_drop hd
    obtain ⟨hok, hne⟩ := hu a (by simp)
    have ih := ih v n (s + 1) hd fun b hb => hu b (by simp [hb])
    rw [List.length_cons, ← add_assoc, httpValidLoop]
    simp only [ha, hok, hne, Option.bind_eq_bind, Option.bind_some, Bool.true_eq_false, if_false]
    rw [ih]
    congr 1
    omega

/-- The line is not the last. -/
theorem httpValidLoop_line {buf : List UInt8} {n s : ℕ} {b : UInt8} {v : List UInt8}
    (hd : buf.drop s = 10 :: b :: v) (h10 : b ≠ 10) (h13 : b ≠ 13) :
    httpValidLoop buf (n + 1) s = httpValidLoop buf n (s + 1) := by
  obtain ⟨ha, hd⟩ := getElem?_of_drop hd
  obtain ⟨hb, -⟩ := getElem?_of_drop hd
  rw [httpValidLoop]
  simp [ha, hb, h10, h13, httpOkchar]

/-- An empty line follows. -/
theorem httpValidLoop_end {buf : List UInt8} {n s : ℕ} {v : List UInt8}
    (hd : buf.drop s = 10 :: 13 :: 10 :: v) :
    httpValidLoop buf (n + 2) s = some ((s : ℤ) + 3) := by
  obtain ⟨ha, hd⟩ := getElem?_of_drop hd
  obtain ⟨hb, hd⟩ := getElem?_of_drop hd
  obtain ⟨hc, -⟩ := getElem?_of_drop hd
  rw [httpValidLoop]
  simp [ha, hb, hc, httpOkchar]

/-- The text of a line, up to its line end. -/
def HeaderLine.text (l : HeaderLine) : List UInt8 :=
  l.name ++ 58 :: 32 :: (l.value ++ [13])

theorem HeaderLine.bytes_eq (l : HeaderLine) : l.bytes = l.text ++ [10] := by
  simp [HeaderLine.bytes, HeaderLine.text]

/-- It is text, and begins with a visible character. -/
theorem HeaderLine.Canonical.text_spec {l : HeaderLine} (hl : l.Canonical) :
    (∀ a ∈ l.text, httpOkchar a = true ∧ a ≠ 10) ∧
      ∃ b t, l.text = b :: t ∧ isVisible b = true := by
  refine ⟨fun a ha => ?_, ?_⟩
  · simp only [HeaderLine.text, List.mem_append, List.mem_cons, List.not_mem_nil, or_false] at ha
    obtain ha | rfl | rfl | ha | rfl := ha
    · have hvis := hl.name a ha
      exact ⟨(isVisible_spec hvis).1, fun h10 => by simp [h10, isVisible] at hvis⟩
    · decide
    · decide
    · exact ⟨(hl.value a ha).1, (hl.value a ha).2.2⟩
    · decide
  · obtain ⟨b, name, hname⟩ := List.exists_cons_of_ne_nil hl.name_ne
    exact ⟨b, _, by rw [HeaderLine.text, hname]; rfl, hl.name b (by simp [hname])⟩

/-- A bare LF follows. -/
theorem httpValidLoop_lf {buf : List UInt8} {n s : ℕ} {v : List UInt8}
    (hd : buf.drop s = 10 :: 10 :: v) : httpValidLoop buf (n + 1) s = some ((s : ℤ) + 2) := by
  obtain ⟨ha, hd⟩ := getElem?_of_drop hd
  obtain ⟨hb, -⟩ := getElem?_of_drop hd
  rw [httpValidLoop]
  simp [ha, hb, httpOkchar]

/-- The lines from a line end on, up to the empty one, which is `e`. -/
theorem httpValidLoop_lines {buf e : List UInt8} (he : e = [13, 10] ∨ e = [10]) :
    ∀ (us : List (List UInt8)) s,
      (∀ u ∈ us, (∀ a ∈ u, httpOkchar a = true ∧ a ≠ 10) ∧
        ∃ b t, u = b :: t ∧ isVisible b = true) →
      buf.drop s = 10 :: (us.flatMap (fun u => u ++ [10]) ++ e) →
      httpValidLoop buf (buf.length - 1 - s) s = some (buf.length : ℤ) := by
  intro us
  induction us with
  | nil =>
    intro s _ hd
    have hlen := congrArg List.length hd
    obtain rfl | rfl := he
    · simp only [List.length_drop, List.flatMap_nil, List.nil_append, List.length_cons,
        List.length_nil] at hlen
      rw [show buf.length - 1 - s = 0 + 2 by omega, httpValidLoop_end hd, Option.some.injEq]
      omega
    · simp only [List.length_drop, List.flatMap_nil, List.nil_append, List.length_cons,
        List.length_nil] at hlen
      rw [show buf.length - 1 - s = 0 + 1 by omega, httpValidLoop_lf hd, Option.some.injEq]
      omega
  | cons u us ih =>
    intro s hus hd
    obtain ⟨htext, b, t, hb, hvis⟩ := hus u List.mem_cons_self
    rw [List.flatMap_cons, List.append_assoc, List.append_assoc, List.singleton_append] at hd
    have hd₁ := hd
    rw [hb] at hd₁
    have hd₂ := (getElem?_of_drop hd).2
    have hd₃ : buf.drop (s + 1 + u.length) =
        10 :: (us.flatMap (fun u => u ++ [10]) ++ e) := by
      rw [← List.drop_drop, hd₂, List.drop_left]
    have hlen := congrArg List.length hd₃
    simp only [List.length_drop, List.length_cons] at hlen
    obtain ⟨n, hn⟩ : ∃ n, buf.length - 1 - s = n + u.length + 1 :=
      ⟨buf.length - 1 - s - 1 - u.length, by omega⟩
    rw [hn, httpValidLoop_line hd₁ (fun h => by simp [h, isVisible] at hvis)
      (fun h => by simp [h, isVisible] at hvis), httpValidLoop_text _ _ n _ hd₂ htext,
      ← ih _ (fun u' hu' => hus u' (List.mem_cons_of_mem _ hu')) hd₃]
    congr 1
    omega

/-- A first line, lines and an empty line make a framed head. -/
theorem httpValidrequest_lines {first e : List UInt8} {us : List (List UInt8)}
    (he : e = [13, 10] ∨ e = [10]) (hfirst : ∀ a ∈ first, httpOkchar a = true ∧ a ≠ 10)
    (hus : ∀ u ∈ us, (∀ a ∈ u, httpOkchar a = true ∧ a ≠ 10) ∧
      ∃ b t, u = b :: t ∧ isVisible b = true) {head : List UInt8}
    (hhead : head = first ++ 10 :: (us.flatMap (fun u => u ++ [10]) ++ e)) :
    httpValidrequest head head.length = some (head.length : ℤ) := by
  have hd : head.drop first.length = 10 :: (us.flatMap (fun u => u ++ [10]) ++ e) := by
    rw [hhead, List.drop_left]
  have hlen := congrArg List.length hhead
  rw [List.length_append, List.length_cons] at hlen
  rw [httpValidrequest, show ((head.length : ℤ) - 1).toNat =
    head.length - 1 - (0 + first.length) + first.length by omega,
    httpValidLoop_text first _ _ 0 hhead hfirst]
  exact httpValidLoop_lines he us _ hus (by rw [Nat.zero_add]; exact hd)

/-- A canonical head is framed, whatever follows it. -/
theorem httpValidrequest_bytes {h : RequestHead} (hc : h.Canonical) (rest : List UInt8) :
    httpValidrequest (h.bytes ++ rest) (h.bytes ++ rest).length = some (h.bytes.length : ℤ) := by
  have hfirst : h.bytes = (h.method ++ 32 :: (h.target ++ 32 :: (ascii "HTTP/" ++
      (h.version ++ [13])))) ++ 10 :: h.lines := by
    simp [RequestHead.bytes]
  have htext : ∀ a ∈ h.method ++ 32 :: (h.target ++ 32 :: (ascii "HTTP/" ++ (h.version ++ [13]))),
      httpOkchar a = true ∧ a ≠ 10 := by
    have hvis : ∀ a, isVisible a = true → httpOkchar a = true ∧ a ≠ 10 := fun a ha =>
      ⟨(isVisible_spec ha).1, fun h10 => by simp [h10, isVisible] at ha⟩
    intro a ha
    simp only [List.mem_append, List.mem_cons, List.not_mem_nil, or_false] at ha
    obtain ha | rfl | ha | rfl | ha | ha | rfl := ha
    · exact hvis a ((httpValidmethod_spec hc.method).2.1 a ha)
    · decide
    · exact hvis a (hc.target a ha)
    · decide
    · revert ha
      revert a
      decide +kernel
    · exact hvis a (hc.version a ha)
    · decide
  generalize h.method ++ 32 :: (h.target ++ 32 :: (ascii "HTTP/" ++ (h.version ++ [13]))) = text
    at hfirst htext
  have hvalid : httpValidrequest h.bytes h.bytes.length = some (h.bytes.length : ℤ) := by
    have hlines : h.lines = (h.headers.map HeaderLine.text).flatMap (fun u => u ++ [10]) ++
        [13, 10] := by
      rw [RequestHead.lines, List.flatMap_map, funext HeaderLine.bytes_eq]
    refine httpValidrequest_lines (.inl rfl) htext (fun u hu => ?_) (hlines ▸ hfirst)
    obtain ⟨l, hl, rfl⟩ := List.mem_map.mp hu
    exact (hc.headers l hl).text_spec
  have hne : (h.bytes.length : ℤ) ≠ 0 := by
    have := congrArg List.length hfirst
    simp only [List.length_append, List.length_cons] at this
    omega
  have hscan : headScan h.bytes = some (h.bytes.length : ℤ) := by
    rw [headScan, hvalid, Option.filter_eq_some_iff]
    exact ⟨rfl, by simpa using hne⟩
  rw [httpValidrequest_eq, headScan_incremental _ rest _ hscan]
  rfl

/-! ## Scans -/

/-- A scan stops at the first character that is none of its own, or at its bound. -/
theorem skipWhile_eq {p : UInt8 → Bool} {buf : List UInt8} :
    ∀ (u v : List UInt8) n c, buf.drop c = u ++ v → (∀ a ∈ u, p a = true) →
      (n = u.length ∨ u.length < n ∧ ∃ a t, v = a :: t ∧ p a = false) →
      skipWhile p buf n c = c + u.length := by
  intro u
  induction u with
  | nil =>
    intro v n c hd _ hn
    obtain rfl | ⟨hlt, a, t, rfl, ha⟩ := hn
    · rfl
    · obtain ⟨n, rfl⟩ := Nat.exists_eq_succ_of_ne_zero (by omega : n ≠ 0)
      rw [skipWhile, List.getD_eq_getElem?_getD, (getElem?_of_drop hd).1, Option.getD_some,
        if_neg (by simp [ha])]
      rfl
  | cons a u ih =>
    intro v n c hd hu hn
    obtain ⟨ha, hd⟩ := getElem?_of_drop hd
    obtain ⟨n, rfl⟩ := Nat.exists_eq_succ_of_ne_zero (n := n) (by
      rw [List.length_cons] at hn
      omega)
    rw [skipWhile, List.getD_eq_getElem?_getD, ha, Option.getD_some, if_pos (hu a (by simp)),
      ih v n (c + 1) hd (fun b hb => hu b (by simp [hb]))
        (by rw [List.length_cons] at hn; exact hn.imp (by omega) (.imp_left (by omega))),
      List.length_cons]
    omega

/-- The scan for a line end stops at the CR. -/
theorem httpEOLLoop_eq {buf : List UInt8} :
    ∀ (u v : List UInt8) n c, buf.drop c = u ++ 13 :: v → (∀ a ∈ u, a ≠ 13 ∧ a ≠ 10) →
      u.length ≤ n → httpEOLLoop buf n c = c + u.length := by
  intro u
  induction u with
  | nil =>
    intro v n c hd _ _
    cases n with
    | zero => rfl
    | succ n =>
      rw [httpEOLLoop, List.getD_eq_getElem?_getD, (getElem?_of_drop hd).1, if_neg (by simp)]
      rfl
  | cons a u ih =>
    intro v n c hd hu hn
    obtain ⟨ha, hd⟩ := getElem?_of_drop hd
    rw [List.length_cons] at hn
    obtain ⟨n, rfl⟩ := Nat.exists_eq_succ_of_ne_zero (by omega : n ≠ 0)
    -- the next character is in the text too, or is the CR
    obtain ⟨b, hb, hb10⟩ : ∃ b, buf[c + 1]? = some b ∧ b ≠ 10 := by
      cases u with
      | nil => exact ⟨13, (getElem?_of_drop hd).1, by decide⟩
      | cons b u => exact ⟨b, (getElem?_of_drop hd).1, (hu b (by simp)).2⟩
    rw [httpEOLLoop, List.getD_eq_getElem?_getD, List.getD_eq_getElem?_getD, ha, hb,
      Option.getD_some, Option.getD_some, if_pos ⟨(hu a (by simp)).1, hb10⟩,
      ih v n (c + 1) hd (fun b hb => hu b (by simp [hb])) (by omega), List.length_cons]
    omega

/-! ## Strings behind the cursor -/

/-- The string `s`, with its NUL, begins at `i` in `P`. -/
def StringAt (P : List UInt8) (i : ℕ) (s : List UInt8) : Prop :=
  ∃ A C, P = A ++ s ++ 0 :: C ∧ i = A.length ∧ 0 ∉ s

theorem StringAt.append {P : List UInt8} {i : ℕ} {s : List UInt8} (h : StringAt P i s)
    (Q : List UInt8) : StringAt (P ++ Q) i s := by
  obtain ⟨A, C, rfl, hi, hs⟩ := h
  exact ⟨A, C ++ Q, by simp, hi, hs⟩

theorem StringAt.cstr_eq {P : List UInt8} {i : ℕ} {s : List UInt8} (h : StringAt P i s) :
    cstr P i = s := by
  obtain ⟨A, C, rfl, rfl, hs⟩ := h
  exact Webxs.cstr_eq (v := C) (by rw [List.append_assoc, List.drop_left]) hs

/-- The strings recorded for the headers are the names and values of the lines. -/
def RecordsAt (P : List UInt8) (hs : List (ℕ × ℕ)) (ls : List HeaderLine) : Prop :=
  List.Forall₂ (fun h l => StringAt P h.1 l.name ∧ StringAt P h.2 l.value) hs ls

/-! ## Header lines -/

theorem set_append_cons (A C : List UInt8) (x y : UInt8) {i : ℕ} (hi : i = A.length) :
    (A ++ x :: C).set i y = A ++ y :: C := by
  subst hi
  simp

variable (strtod : List UInt8 → ℤ)

/-- One line : it is cut into its name and its value, and the cursor ends at the NUL behind the
value. -/
theorem httpHeadersLoop_line {l : HeaderLine} (hl : l.Canonical) {P R : List UInt8} {req : HttpReq}
    {base rlen c : ℕ} (n : ℕ) (hbuf : req.buf = P ++ (l.bytes ++ (R ++ [0])))
    (hc : base + c ≤ P.length) (hP : ∀ a ∈ P.drop (base + c), isControl a = true)
    (hrlen : base + rlen + 1 = req.buf.length) :
    ∃ c', httpHeadersLoop strtod base rlen (n + 1) req c =
        httpHeadersLoop strtod base rlen n
          (httpPreparse strtod { req with
            buf := P ++ (l.name ++ 0 :: 32 :: (l.value ++ 0 :: 10 :: (R ++ [0]))) }
            P.length (P.length + l.name.length + 2)) c' ∧
      base + c' = P.length + l.name.length + 2 + l.value.length := by
  obtain ⟨b, name, hname⟩ := List.exists_cons_of_ne_nil hl.name_ne
  have hvis : isVisible b = true := hl.name b (by simp [hname])
  have hbytes : l.bytes ++ (R ++ [0]) =
      (l.name ++ [58]) ++ 32 :: (l.value ++ 13 :: 10 :: (R ++ [0])) := by
    simp [HeaderLine.bytes]
  rw [hbytes] at hbuf
  have hlen := congrArg List.length hbuf
  simp only [List.length_append, List.length_cons, List.length_nil] at hlen
  -- the cursor after each of the four scans
  have h1 : skipWhile isControl (req.buf.drop base) (rlen - c) c = P.length - base := by
    have hd : (req.buf.drop base).drop c =
        P.drop (base + c) ++ b :: (name ++ 58 :: 32 :: (l.value ++ 13 :: 10 :: (R ++ [0]))) := by
      rw [List.drop_drop, hbuf, List.drop_append_of_le_length hc, hname]
      simp
    rw [skipWhile_eq _ _ _ _ hd hP (.inr ⟨by rw [List.length_drop]; omega, b, _, rfl,
      (isVisible_spec hvis).2.2.1⟩), List.length_drop]
    omega
  have h2 : httpSkiptoken (req.buf.drop base) rlen (P.length - base) =
      P.length - base + (l.name.length + 1) := by
    have hd : (req.buf.drop base).drop (P.length - base) =
        (l.name ++ [58]) ++ 32 :: (l.value ++ 13 :: 10 :: (R ++ [0])) := by
      rw [List.drop_drop, hbuf, show base + (P.length - base) = P.length by omega, List.drop_left]
    have htoken : ∀ a ∈ l.name ++ [58], (!isBlank a) = true := fun a ha => by
      rw [List.mem_append, List.mem_singleton] at ha
      obtain ha | rfl := ha
      · have := (isVisible_spec (hl.name a ha)).2.1
        simp only [isBlankOrEOL, Bool.or_eq_false_iff] at this
        simp [this]
      · rfl
    rw [httpSkiptoken, skipWhile_eq _ _ _ _ hd htoken (.inr ⟨by
      simp only [List.length_append, List.length_cons, List.length_nil]
      omega, 32, _, rfl, rfl⟩)]
    simp only [List.length_append, List.length_cons, List.length_nil]
  have hcolon : req.buf.getD (base + (P.length - base + (l.name.length + 1)) - 1) 0 = 58 := by
    rw [show base + (P.length - base + (l.name.length + 1)) - 1 = P.length + l.name.length by omega,
      hbuf, List.getD_eq_getElem?_getD, List.getElem?_append_right (by omega)]
    simp
  have hset : req.buf.set (base + (P.length - base + (l.name.length + 1)) - 1) 0 =
      (P ++ l.name) ++ 0 :: 32 :: (l.value ++ 13 :: 10 :: (R ++ [0])) := by
    rw [hbuf, show P ++ ((l.name ++ [58]) ++ 32 :: (l.value ++ 13 :: 10 :: (R ++ [0]))) =
      (P ++ l.name) ++ 58 :: 32 :: (l.value ++ 13 :: 10 :: (R ++ [0])) by simp]
    exact set_append_cons _ _ _ _ (by rw [List.length_append]; omega)
  have h3 : httpSkipspace
      (((P ++ l.name) ++ 0 :: 32 :: (l.value ++ 13 :: 10 :: (R ++ [0]))).drop base) rlen
      (P.length - base + (l.name.length + 1)) = P.length - base + (l.name.length + 2) := by
    have hd : (((P ++ l.name) ++ 0 :: 32 :: (l.value ++ 13 :: 10 :: (R ++ [0]))).drop base).drop
        (P.length - base + (l.name.length + 1)) = [32] ++ (l.value ++ 13 :: 10 :: (R ++ [0])) := by
      rw [List.drop_drop, show base + (P.length - base + (l.name.length + 1)) =
        (P ++ l.name ++ [0]).length by simp; omega,
        show (P ++ l.name) ++ 0 :: 32 :: (l.value ++ 13 :: 10 :: (R ++ [0])) =
          (P ++ l.name ++ [0]) ++ ([32] ++ (l.value ++ 13 :: 10 :: (R ++ [0]))) by simp,
        List.drop_left]
    -- the value does not begin with a blank, and if it is empty the CR is next
    have hstop : ∃ a t, l.value ++ 13 :: 10 :: (R ++ [0]) = a :: t ∧ isBlank a = false := by
      cases hv : l.value with
      | nil => exact ⟨13, _, rfl, rfl⟩
      | cons a v => exact ⟨a, _, rfl, hl.value_head a (by simp [hv])⟩
    rw [httpSkipspace, skipWhile_eq _ _ _ _ hd (by simp [isBlank]) (.inr ⟨by
      simp only [List.length_cons, List.length_nil]
      omega, hstop⟩)]
    rfl
  have h4 : httpSkiptoEOL
      (((P ++ l.name) ++ 0 :: 32 :: (l.value ++ 13 :: 10 :: (R ++ [0]))).drop base) rlen
      (P.length - base + (l.name.length + 2)) =
        P.length - base + (l.name.length + 2) + l.value.length := by
    have hd : (((P ++ l.name) ++ 0 :: 32 :: (l.value ++ 13 :: 10 :: (R ++ [0]))).drop base).drop
        (P.length - base + (l.name.length + 2)) = l.value ++ 13 :: 10 :: (R ++ [0]) := by
      rw [List.drop_drop, show base + (P.length - base + (l.name.length + 2)) =
        (P ++ l.name ++ [0, 32]).length by simp; omega,
        show (P ++ l.name) ++ 0 :: 32 :: (l.value ++ 13 :: 10 :: (R ++ [0])) =
          (P ++ l.name ++ [0, 32]) ++ (l.value ++ 13 :: 10 :: (R ++ [0])) by simp,
        List.drop_left]
    rw [httpSkiptoEOL, httpEOLLoop_eq _ _ _ _ hd (fun a ha => (hl.value a ha).2) (by omega)]
  have hset' : ((P ++ l.name) ++ 0 :: 32 :: (l.value ++ 13 :: 10 :: (R ++ [0]))).set
      (base + (P.length - base + (l.name.length + 2) + l.value.length)) 0 =
      P ++ (l.name ++ 0 :: 32 :: (l.value ++ 0 :: 10 :: (R ++ [0]))) := by
    rw [show (P ++ l.name) ++ 0 :: 32 :: (l.value ++ 13 :: 10 :: (R ++ [0])) =
      (P ++ l.name ++ 0 :: 32 :: l.value) ++ 13 :: 10 :: (R ++ [0]) by simp,
      set_append_cons _ _ _ _ (by simp; omega)]
    simp
  refine ⟨P.length - base + (l.name.length + 2) + l.value.length, ?_, by omega⟩
  rw [httpHeadersLoop]
  simp only [h1, h2, hcolon, hset, h3, h4, hset', ne_eq, not_true_eq_false, if_false]
  rw [if_neg (by omega), show base + (P.length - base) = P.length by omega,
    show base + (P.length - base + (l.name.length + 2)) = P.length + l.name.length + 2 by omega]

theorem zero_notMem_of_visible {s : List UInt8} (h : ∀ a ∈ s, isVisible a = true) : 0 ∉ s :=
  fun h0 => absurd (h 0 h0) (by decide)

/-- All lines : each is recorded in its turn. -/
theorem httpHeadersLoop_lines {base rlen : ℕ} :
    ∀ (ls : List HeaderLine) (P : List UInt8) (req : HttpReq) n c, (∀ l ∈ ls, l.Canonical) →
      ls.length ≤ n → req.buf = P ++ (ls.flatMap HeaderLine.bytes ++ [13, 10] ++ [0]) →
      base + c ≤ P.length → (∀ a ∈ P.drop (base + c), isControl a = true) →
      base + rlen + 1 = req.buf.length →
      ∃ r Q hs, httpHeadersLoop strtod base rlen n req c = r ∧ r.buf = P ++ Q ∧
        r.headers = req.headers ++ hs ∧ RecordsAt (P ++ Q) hs ls ∧ r.method = req.method ∧
        r.version = req.version := by
  intro ls
  induction ls with
  | nil =>
    intro P req n c _ _ hbuf hc hP hrlen
    refine ⟨req, _, [], ?_, hbuf, by simp, .nil, rfl, rfl⟩
    cases n with
    | zero => rfl
    | succ n =>
      have hd : (req.buf.drop base).drop c = (P.drop (base + c) ++ [13, 10]) ++ [0] := by
        rw [List.drop_drop, hbuf, List.drop_append_of_le_length hc]
        simp
      have hlen := congrArg List.length hbuf
      simp only [List.flatMap_nil, List.nil_append, List.length_append, List.length_cons,
        List.length_nil] at hlen
      have hctl : ∀ a ∈ P.drop (base + c) ++ [13, 10], isControl a = true := fun a ha => by
        simp only [List.mem_append, List.mem_cons, List.not_mem_nil, or_false] at ha
        obtain ha | rfl | rfl := ha
        · exact hP a ha
        · rfl
        · rfl
      have hlast : (P.drop (base + c) ++ [13, 10]).length = rlen - c := by
        simp only [List.length_append, List.length_drop, List.length_cons, List.length_nil]
        omega
      rw [httpHeadersLoop, skipWhile_eq _ _ _ _ hd hctl (.inl hlast.symm), hlast]
      exact if_pos (by omega)
  | cons l ls ih =>
    intro P req n c hls hn hbuf hc hP hrlen
    have hl := hls l (by simp)
    obtain ⟨n, rfl⟩ := Nat.exists_eq_succ_of_ne_zero (n := n) (by simp at hn; omega)
    rw [List.flatMap_cons, List.append_assoc, List.append_assoc, ← List.append_assoc _ _ [0]]
      at hbuf
    obtain ⟨c', hstep, hc'⟩ := httpHeadersLoop_line strtod hl n hbuf hc hP hrlen
    -- what is behind the cursor now
    generalize hcut : l.name ++ 0 :: 32 :: (l.value ++ [0, 10]) = cut
    have hcutlen : cut.length = l.name.length + l.value.length + 4 := by
      rw [← hcut]
      simp
      omega
    have hbuf' : P ++ (l.name ++ 0 :: 32 :: (l.value ++ 0 :: 10 ::
        (ls.flatMap HeaderLine.bytes ++ [13, 10] ++ [0]))) =
        (P ++ cut) ++ (ls.flatMap HeaderLine.bytes ++ [13, 10] ++ [0]) := by
      rw [← hcut]
      simp
    have hctl : ∀ a ∈ (P ++ cut).drop (base + c'), isControl a = true := fun a ha => by
      rw [hc', show P ++ cut = (P ++ l.name ++ 0 :: 32 :: l.value) ++ [0, 10] by rw [← hcut]; simp,
        show P.length + l.name.length + 2 + l.value.length =
          (P ++ l.name ++ 0 :: 32 :: l.value).length by simp; omega, List.drop_left] at ha
      simp only [List.mem_cons, List.not_mem_nil, or_false] at ha
      obtain rfl | rfl := ha <;> rfl
    have hlen := congrArg List.length hbuf
    have hlen' := congrArg List.length hbuf'
    simp only [List.length_append, List.length_cons, List.length_nil, HeaderLine.bytes]
      at hlen hlen'
    obtain ⟨r, Q, hs, hr, hrbuf, hrh, hrec, hm, hv⟩ := ih (P ++ cut)
      (httpPreparse strtod { req with buf := P ++ (l.name ++ 0 :: 32 :: (l.value ++ 0 :: 10 ::
        (ls.flatMap HeaderLine.bytes ++ [13, 10] ++ [0]))) } P.length
        (P.length + l.name.length + 2)) n c' (fun l' hl' => hls l' (by simp [hl']))
      (by simpa using hn) hbuf' (by rw [hc', List.length_append]; omega) hctl (by
        simp only [httpPreparse, List.length_append, List.length_cons, List.length_nil]
        omega)
    refine ⟨r, cut ++ Q, (P.length, P.length + l.name.length + 2) :: hs, hstep.trans hr, ?_, ?_, ?_,
      hm, hv⟩
    · rw [hrbuf, List.append_assoc]
    · rw [hrh, httpPreparse, List.append_assoc]
      rfl
    · rw [← List.append_assoc]
      refine .cons ⟨StringAt.append ⟨P, 32 :: (l.value ++ [0, 10]), ?_, rfl, ?_⟩ Q,
        StringAt.append ⟨P ++ (l.name ++ [0, 32]), [10], ?_, ?_, ?_⟩ Q⟩ hrec
      · rw [← hcut, List.append_assoc]
      · exact zero_notMem_of_visible hl.name
      · rw [← hcut]
        simp
      · simp
        omega
      · exact fun h0 => absurd (hl.value 0 h0).1 (by decide)

/-! ## The first line -/

theorem isBlankOrEOL_of_visible {s : List UInt8} (h : ∀ a ∈ s, isVisible a = true) :
    ∀ a ∈ s, (!isBlankOrEOL a) = true := fun a ha => by
  rw [(isVisible_spec (h a ha)).2.1]
  rfl

/-- A visible token is cut off at the blank or the line end behind it. -/
theorem httpTerminatetoken_eq {A s C : List UInt8} {x : UInt8} {o : ℕ}
    (hs : ∀ a ∈ s, isVisible a = true) (hx : isBlankOrEOL x = true) (ho : o = A.length) :
    httpTerminatetoken (A ++ (s ++ x :: C)) o =
      ((s.length : ℤ) + 1, A ++ (s ++ 0 :: C)) := by
  subst ho
  have hd : (A ++ (s ++ x :: C)).drop A.length = s ++ x :: C := List.drop_left
  have hskip := skipWhile_eq s (x :: C) ((A ++ (s ++ x :: C)).length - A.length) A.length hd
    (isBlankOrEOL_of_visible hs)
    (.inr ⟨by simp only [List.length_append, List.length_cons]; omega, x, C, rfl, by simp [hx]⟩)
  unfold httpTerminatetoken
  dsimp only
  rw [hskip]
  refine Prod.ext (by push_cast; omega) ?_
  dsimp only
  rw [← List.append_assoc, set_append_cons _ _ _ _ (by simp), List.append_assoc]

/-- A visible token and the space behind it are stepped over. -/
theorem httpSkiptokenandspace_eq {A s C : List UInt8} {b : UInt8} {rlen o : ℕ}
    (hs : ∀ a ∈ s, isVisible a = true) (hb : isVisible b = true) (ho : o = A.length)
    (hlen : A.length + s.length + 1 < rlen) :
    httpSkiptokenandspace (A ++ (s ++ 32 :: b :: C)) rlen o = o + s.length + 1 := by
  subst ho
  have hd : (A ++ (s ++ 32 :: b :: C)).drop A.length = s ++ 32 :: b :: C := List.drop_left
  have hd' : (A ++ (s ++ 32 :: b :: C)).drop (A.length + s.length) = [32] ++ b :: C := by
    rw [← List.append_assoc, ← List.length_append, List.drop_left]
    rfl
  have hblank := (isVisible_spec hb).2.1
  simp only [isBlankOrEOL, Bool.or_eq_false_iff] at hblank
  rw [httpSkiptokenandspace, skipWhile_eq _ _ _ _ hd (isBlankOrEOL_of_visible hs)
    (.inr ⟨by omega, 32, _, rfl, rfl⟩), httpSkipspace, skipWhile_eq _ _ _ _ hd' (by simp [isBlank])
    (.inr ⟨by simp only [List.length_cons, List.length_nil]; omega, b, C, rfl, hblank.1.1⟩)]
  rfl

/-- The names and values that were recorded. -/
def HttpReq.headerStrings (req : HttpReq) : List (List UInt8 × List UInt8) :=
  req.headers.map fun h => (cstr req.buf h.1, cstr req.buf h.2)

theorem RecordsAt.map_cstr {P : List UInt8} {hs : List (ℕ × ℕ)} {ls : List HeaderLine}
    (h : RecordsAt P hs ls) :
    hs.map (fun h => (cstr P h.1, cstr P h.2)) = ls.map fun l => (l.name, l.value) := by
  induction h with
  | nil => rfl
  | cons hl _ ih => rw [List.map_cons, List.map_cons, ih, hl.1.cstr_eq, hl.2.cstr_eq]

namespace RequestHead

/-- The copy of a head, with `a` behind the method and `b` behind the version. -/
def copy (h : RequestHead) (a b : UInt8) : List UInt8 :=
  h.method ++ a :: (h.target ++ 32 :: (ascii "HTTP/" ++ (h.version ++ b :: 10 :: (h.lines ++ [0]))))

/-- Where the target begins. -/
def uriAt (h : RequestHead) : ℕ :=
  h.method.length + 1

/-- Where the third part of the first line begins. -/
def versionAt (h : RequestHead) : ℕ :=
  h.uriAt + h.target.length + 1

variable (h : RequestHead) (a b : UInt8)

theorem bytes_append : h.bytes ++ [0] = h.copy 32 13 := by
  simp [bytes, copy]

theorem copy_eq_uri :
    h.copy a b = (h.method ++ [a]) ++ (h.target ++ 32 :: (ascii "HTTP/" ++
      (h.version ++ b :: 10 :: (h.lines ++ [0])))) := by
  simp [copy]

theorem copy_eq_version :
    h.copy a b = (h.method ++ a :: (h.target ++ [32])) ++ (ascii "HTTP/" ++
      (h.version ++ b :: 10 :: (h.lines ++ [0]))) := by
  simp [copy]

theorem copy_eq_number :
    h.copy a b = (h.method ++ a :: (h.target ++ 32 :: ascii "HTTP/")) ++
      (h.version ++ b :: 10 :: (h.lines ++ [0])) := by
  simp [copy]

theorem length_uri : h.uriAt = (h.method ++ [a]).length := by
  simp [uriAt]

theorem length_version : h.versionAt = (h.method ++ a :: (h.target ++ [32])).length := by
  simp only [versionAt, uriAt, List.length_append, List.length_cons, List.length_nil]
  omega

theorem length_number :
    h.versionAt + 5 = (h.method ++ a :: (h.target ++ 32 :: ascii "HTTP/")).length := by
  simp only [versionAt, uriAt, List.length_append, List.length_cons]
  rw [show (ascii "HTTP/").length = 5 from rfl]
  omega

theorem length_bytes :
    h.bytes.length = h.versionAt + 5 + h.version.length + 2 + h.lines.length := by
  simp only [bytes, versionAt, uriAt, List.length_append, List.length_cons]
  rw [show (ascii "HTTP/").length = 5 from rfl]
  omega

variable {h}

theorem Canonical.exists_target (hc : h.Canonical) : ∃ t, h.target = 47 :: t := by
  have hhead := hc.target_head
  cases ht : h.target with
  | nil => simp [ht] at hhead
  | cons a t =>
    rw [ht, List.head?_cons, Option.some.injEq] at hhead
    exact ⟨t, by rw [hhead]⟩

/-! The three parts of the first line. -/

theorem Canonical.skipspace (hc : h.Canonical) : httpSkipspace h.bytes h.bytes.length 0 = 0 := by
  obtain ⟨hne, hvis, -⟩ := httpValidmethod_spec hc.method
  obtain ⟨b, m, hm⟩ := List.exists_cons_of_ne_nil hne
  have hb := (isVisible_spec (hvis b (by simp [hm]))).2.1
  simp only [isBlankOrEOL, Bool.or_eq_false_iff] at hb
  refine skipWhile_eq [] h.bytes _ 0 rfl (by simp) (.inr ⟨?_, b, ?_, ?_, hb.1.1⟩)
  · rw [length_bytes, List.length_nil]
    omega
  · exact m ++ 32 :: (h.target ++ 32 :: (ascii "HTTP/" ++ (h.version ++ 13 :: 10 :: h.lines)))
  · rw [bytes, hm]
    rfl

theorem Canonical.skipMethod (hc : h.Canonical) :
    httpSkiptokenandspace (h.copy 32 13) h.bytes.length 0 = h.uriAt := by
  obtain ⟨t, ht⟩ := hc.exists_target
  have hlen := h.length_bytes
  have hskip : httpSkiptokenandspace ([] ++ (h.method ++ 32 :: 47 :: (t ++ 32 ::
      (ascii "HTTP/" ++ (h.version ++ 13 :: 10 :: (h.lines ++ [0])))))) h.bytes.length 0 =
      0 + h.method.length + 1 :=
    httpSkiptokenandspace_eq (httpValidmethod_spec hc.method).2.1 rfl rfl
      (by rw [List.length_nil]; unfold versionAt uriAt at hlen; omega)
  rw [Nat.zero_add] at hskip
  rw [copy, ht]
  exact hskip

theorem Canonical.skipTarget (hc : h.Canonical) :
    httpSkiptokenandspace (h.copy 32 13) h.bytes.length h.uriAt = h.versionAt := by
  have hlen := h.length_bytes
  have hskip : httpSkiptokenandspace ((h.method ++ [32]) ++ (h.target ++ 32 :: 72 ::
      (ascii "TTP/" ++ (h.version ++ 13 :: 10 :: (h.lines ++ [0]))))) h.bytes.length h.uriAt =
      h.uriAt + h.target.length + 1 :=
    httpSkiptokenandspace_eq hc.target rfl (h.length_uri 32)
      (by rw [← h.length_uri 32]; unfold versionAt at hlen; omega)
  rw [copy_eq_uri]
  exact hskip

theorem Canonical.skipVersion (hc : h.Canonical) :
    httpSkiptoEOL (h.copy 32 13) h.bytes.length h.versionAt =
      h.versionAt + 5 + h.version.length := by
  have hd : (h.copy 32 13).drop h.versionAt =
      (ascii "HTTP/" ++ h.version) ++ 13 :: 10 :: (h.lines ++ [0]) := by
    rw [copy_eq_version, h.length_version 32, List.drop_left, List.append_assoc]
  have htext : ∀ a ∈ ascii "HTTP/" ++ h.version, a ≠ 13 ∧ a ≠ 10 := fun a ha => by
    have hvis : isVisible a = true := by
      rw [List.mem_append] at ha
      obtain ha | ha := ha
      · revert ha
        revert a
        decide +kernel
      · exact hc.version a ha
    exact ⟨fun h => by simp [h, isVisible] at hvis, fun h => by simp [h, isVisible] at hvis⟩
  have hlen := h.length_bytes
  have hlen5 : (ascii "HTTP/" ++ h.version).length = 5 + h.version.length := by
    rw [List.length_append]
    rfl
  rw [httpSkiptoEOL, httpEOLLoop_eq _ _ _ _ hd htext (by omega), hlen5]
  omega

/-! The cuts. -/

theorem Canonical.cutMethod (hc : h.Canonical) :
    httpTerminatetoken (h.copy 32 13) 0 = ((h.method.length : ℤ) + 1, h.copy 0 13) :=
  httpTerminatetoken_eq (A := []) (httpValidmethod_spec hc.method).2.1 rfl rfl

theorem Canonical.cutVersion (hc : h.Canonical) :
    httpTerminatetoken (h.copy 0 13) (h.versionAt + 5) =
      ((h.version.length : ℤ) + 1, h.copy 0 0) := by
  rw [copy_eq_number, copy_eq_number]
  exact httpTerminatetoken_eq hc.version rfl (h.length_number 0)

theorem Canonical.cutTarget (hc : h.Canonical) :
    httpTerminatetoken (h.copy 0 0) h.uriAt =
      (((h.uriAt + h.target.length : ℕ) : ℤ) - h.uriAt + 1,
        (h.copy 0 0).set (h.uriAt + h.target.length) 0) := by
  rw [copy_eq_uri, httpTerminatetoken_eq hc.target rfl (h.length_uri 0)]
  refine Prod.ext (by push_cast; omega) ?_
  dsimp only
  rw [← List.append_assoc _ h.target (32 :: _), set_append_cons _ _ _ _
    (by rw [List.length_append, ← h.length_uri 0])]
  simp

theorem Canonical.take_version :
    ((h.copy 32 13).drop h.versionAt).take 5 = ascii "HTTP/" := by
  rw [copy_eq_version, h.length_version 32, List.drop_left]
  exact List.take_left' rfl

theorem Canonical.validmethod (hc : h.Canonical) :
    httpValidmethod (cstr (h.copy 0 13) 0) = true := by
  have h0 := zero_notMem_of_visible (httpValidmethod_spec hc.method).2.1
  rw [copy, cstr_eq (i := 0) List.drop_zero h0]
  exact hc.method

theorem Canonical.getD_uri (hc : h.Canonical) : (h.copy 0 13).getD h.uriAt 0 = 47 := by
  obtain ⟨t, ht⟩ := hc.exists_target
  rw [copy_eq_uri, ht, List.getD_eq_getElem?_getD, h.length_uri 0,
    List.getElem?_append_right le_rfl]
  simp

end RequestHead

/-- The first line : the method and the version are found and cut off, and the target is decoded in
its place. -/
theorem httpParse_eq (req : HttpReq) {h : RequestHead} (hc : h.Canonical) :
    ∃ (r : HttpReq) (T : List UInt8), T.length = h.target.length + 1 ∧
      r.buf = (h.method ++ 0 :: (T ++ (ascii "HTTP/" ++ (h.version ++ [0, 10])))) ++
        (h.lines ++ [0]) ∧
      r.headers = [] ∧ r.method = some 0 ∧ r.version = some (h.versionAt + 5) ∧
      httpParse strtod req h.bytes = (0, httpParseheaders strtod r
        (h.versionAt + 5 + h.version.length + 1) (h.lines.length + 1)) := by
  have hlen := h.length_bytes
  generalize hreq : ({ reqClear req with
    buf := h.copy 0 0, method := some 0, uri := some h.uriAt, version := some (h.versionAt + 5),
    status := none, hash := none, query := none } : HttpReq) = req'
  have hbuf : req'.buf = h.copy 0 0 := by rw [← hreq]
  have hz : h.uriAt + h.target.length < req'.buf.length := by
    rw [hbuf, RequestHead.copy_eq_uri]
    simp only [List.length_append, List.length_cons, List.length_nil, RequestHead.uriAt]
    omega
  obtain ⟨hw, -⟩ := httpParseUri_within (Nat.le_add_right _ _) hz (by rw [hbuf]; exact hc.cutTarget)
  obtain ⟨T, hT, hTbuf⟩ := hw.eq_append (A := h.method ++ [0]) (T := h.target ++ [32])
    (C := ascii "HTTP/" ++ (h.version ++ 0 :: 10 :: (h.lines ++ [0])))
    (by rw [hbuf, RequestHead.copy_eq_uri]; simp) (h.length_uri 0)
    (by simp only [List.length_append, List.length_cons, List.length_nil, RequestHead.uriAt]; omega)
  refine ⟨httpParseUri req' h.uriAt, T, by rw [hT]; simp, by rw [hTbuf]; simp,
    by rw [← hreq]; rfl, by rw [← hreq]; rfl, by rw [← hreq]; rfl, ?_⟩
  unfold httpParse
  simp only [hc.skipspace, List.drop_zero, Nat.sub_zero, h.bytes_append, hc.skipMethod,
    hc.skipTarget, hc.skipVersion, RequestHead.Canonical.take_version, if_true]
  rw [if_neg (by omega)]
  simp only [HttpReq.terminate, hc.cutMethod, hc.validmethod, hc.getD_uri, hc.cutVersion,
    Bool.true_eq_false, if_false, ne_eq, not_true_eq_false, false_and]
  rw [hreq, show h.bytes.length - (h.versionAt + 5 + h.version.length) - 1 = h.lines.length + 1 by
    omega]

/-- A canonical head is accepted, and its method, its version and its headers are recorded. -/
theorem httpParse_bytes (req : HttpReq) {h : RequestHead} (hc : h.Canonical) :
    (∀ rest, httpValidrequest (h.bytes ++ rest) (h.bytes ++ rest).length =
      some (h.bytes.length : ℤ)) ∧
    ∃ r, httpParse strtod req h.bytes = (0, r) ∧
      r.headerStrings = h.headers.map (fun l => (l.name, l.value)) ∧
      r.method.map (cstr r.buf) = some h.method ∧ r.version.map (cstr r.buf) = some h.version := by
  refine ⟨httpValidrequest_bytes hc, ?_⟩
  obtain ⟨r, T, hT, hbuf, hnone, hmethod, hversion, hparse⟩ := httpParse_eq strtod req hc
  -- what is cut, up to the LF of the first line
  generalize hP : h.method ++ 0 :: (T ++ (ascii "HTTP/" ++ (h.version ++ [0, 10]))) = P at hbuf
  have hnumber : (h.method ++ 0 :: (T ++ ascii "HTTP/")).length = h.versionAt + 5 := by
    simp only [RequestHead.versionAt, RequestHead.uriAt, List.length_append, List.length_cons, hT]
    rw [show (ascii "HTTP/").length = 5 from rfl]
    omega
  have hPnumber : P = (h.method ++ 0 :: (T ++ ascii "HTTP/")) ++ (h.version ++ 0 :: [10]) := by
    rw [← hP]
    simp
  have hlast : P.drop (h.versionAt + 5 + h.version.length + 1 + 0) = [10] := by
    rw [hPnumber, show (h.method ++ 0 :: (T ++ ascii "HTTP/")) ++ (h.version ++ 0 :: [10]) =
      ((h.method ++ 0 :: (T ++ ascii "HTTP/")) ++ (h.version ++ [0])) ++ [10] by simp]
    refine List.drop_left' ?_
    rw [List.length_append, hnumber, List.length_append, List.length_cons, List.length_nil]
    omega
  have hPlen : P.length = h.versionAt + 5 + h.version.length + 2 := by
    rw [hPnumber, List.length_append, hnumber, List.length_append, List.length_cons,
      List.length_cons, List.length_nil]
    omega
  have hrlen : h.versionAt + 5 + h.version.length + 1 + (h.lines.length + 1) + 1 =
      r.buf.length := by
    rw [hbuf, List.length_append, hPlen, List.length_append, List.length_cons, List.length_nil]
    omega
  obtain ⟨r', Q, hs, hr', hbuf', hheaders, hrec, hm', hv'⟩ := httpHeadersLoop_lines strtod
    h.headers P r (maxHeaders - r.headers.length) 0 hc.headers (by rw [hnone]; exact hc.count) hbuf
    (by omega) (by rw [hlast]; simp [isControl]) hrlen
  have hm : StringAt P 0 h.method :=
    ⟨[], _, by rw [← hP]; rfl, rfl, zero_notMem_of_visible (httpValidmethod_spec hc.method).2.1⟩
  have hv : StringAt P (h.versionAt + 5) h.version :=
    ⟨h.method ++ 0 :: (T ++ ascii "HTTP/"), [10], by rw [hPnumber, List.append_assoc _ h.version],
      hnumber.symm, zero_notMem_of_visible hc.version⟩
  refine ⟨r', by rw [hparse, httpParseheaders, hr'], ?_, ?_, ?_⟩
  · rw [HttpReq.headerStrings, hheaders, hnone, List.nil_append, hbuf']
    exact hrec.map_cstr
  · rw [hm', hmethod, hbuf', Option.map_some, (hm.append Q).cstr_eq]
  · rw [hv', hversion, hbuf', Option.map_some, (hv.append Q).cstr_eq]

/-- A head with one header. -/
theorem httpParse_bytes_host :
    ∃ r, httpParse decimal (HttpReq.alloc 0 0) (ascii "GET / HTTP/1.1\r\nHost: a\r\n\r\n") =
        (0, r) ∧
      r.headerStrings = [(ascii "Host", ascii "a")] := by
  have hc : RequestHead.Canonical
      ⟨ascii "GET", ascii "/", ascii "1.1", [⟨ascii "Host", ascii "a"⟩]⟩ := by
    refine ⟨by decide, by decide +kernel, by decide, by decide +kernel, fun l hl => ?_, by decide⟩
    rw [List.mem_singleton] at hl
    subst hl
    exact ⟨by decide, by decide +kernel, by decide +kernel, by decide +kernel⟩
  obtain ⟨r, hr, hs, -⟩ := (httpParse_bytes decimal (HttpReq.alloc 0 0) hc).2
  exact ⟨r, hr, hs⟩

end Webxs
