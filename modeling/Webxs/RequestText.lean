import Webxs.HeaderText
import Webxs.HeadFraming

/-!
# The text of a request

A head that `xs_http_validrequest` frames and `xs_http_parse` accepts as a request is a method, a
target and a version, with blanks between them, and what follows (`RequestText`). Blanks may also
come first, and the version is whatever follows `HTTP/`. The parser finds the three parts, cuts
them off, and goes on with the headers behind the end of the first line (`httpParse_text`).
-/

namespace Webxs

/-- A request : `tail` is what follows the version. -/
structure RequestText where
  lead : List UInt8
  method : List UInt8
  gap : List UInt8
  target : List UInt8
  gap' : List UInt8
  version : List UInt8
  tail : List UInt8
  lead_blank : ∀ a ∈ lead, isBlank a = true
  method_ok : httpValidmethod method = true
  gap_blank : ∀ a ∈ gap, isBlank a = true
  gap_ne : gap ≠ []
  target_token : ∀ a ∈ target, isBlankOrEOL a = false
  target_ne : target ≠ []
  gap'_blank : ∀ a ∈ gap', isBlank a = true
  gap'_ne : gap' ≠ []
  version_token : ∀ a ∈ version, isBlankOrEOL a = false
  tail_head : ∃ a ∈ tail.head?, isBlankOrEOL a = true
  tail_last : tail.getLast? = some 10
  target_ok : ∀ a ∈ target, httpOkchar a = true
  tail_noNul : 0 ∉ version ++ tail

namespace RequestText

variable (q : RequestText)

/-- The third part of the first line and all behind it. -/
def third : List UInt8 :=
  ascii "HTTP/" ++ (q.version ++ q.tail)

/-- The request without the blanks in front. -/
def body : List UInt8 :=
  q.method ++ (q.gap ++ (q.target ++ (q.gap' ++ q.third)))

/-- The request as it is sent. -/
def text : List UInt8 :=
  q.lead ++ q.body

/-- Where the target begins, in the copy. -/
def uriAt : ℕ :=
  q.method.length + q.gap.length

/-- Where the third part begins. -/
def versionAt : ℕ :=
  q.uriAt + q.target.length + q.gap'.length

/-- The text of the headers. -/
def headerText : List UInt8 :=
  q.third.drop (eolIndex q.third + 1)

/-- The headers. -/
def headers : List HeaderLine :=
  headerLines maxHeaders q.headerText

end RequestText

/-! ## Scans of tokens -/

section Tokens

variable {m A s C w : List UInt8} {x : UInt8} {n o : ℕ}

/-- A token and the blanks behind it are stepped over. -/
theorem httpSkiptokenandspace_token {g : List UInt8} (hd : m.drop o = s ++ (g ++ (C ++ w)))
    (hn : n = o + (s ++ (g ++ C)).length) (hs : ∀ a ∈ s, isBlankOrEOL a = false)
    (hg : ∀ a ∈ g, isBlank a = true) (hgne : g ≠ []) (hC : ∃ a ∈ C.head?, isBlank a = false) :
    httpSkiptokenandspace m n o = o + s.length + g.length := by
  obtain ⟨b, g', hbg⟩ := List.exists_cons_of_ne_nil hgne
  obtain ⟨a, ha, hblank⟩ := hC
  obtain ⟨C', rfl⟩ := List.head?_eq_some_iff.mp (Option.mem_def.mp ha)
  simp only [List.length_append, List.length_cons] at hn
  have hb : (!isBlankOrEOL b) = false := by
    simp [isBlankOrEOL, hg b (by rw [hbg]; exact List.mem_cons_self)]
  have htoken : skipWhile (fun a => !isBlankOrEOL a) m (n - o) o = o + s.length := by
    refine skipWhile_eq s (g ++ (a :: C' ++ w)) (n - o) o hd (fun x hx => ?_)
      (.inr ⟨by omega, b, g' ++ (a :: C' ++ w), by rw [hbg]; rfl, hb⟩)
    rw [hs x hx]
    rfl
  have hd' : m.drop (o + s.length) = g ++ (a :: C' ++ w) := by
    rw [← List.drop_drop, hd, List.drop_left]
  rw [httpSkiptokenandspace, htoken, httpSkipspace]
  exact skipWhile_eq g (a :: C' ++ w) _ _ hd' hg (.inr ⟨by omega, a, C' ++ w, rfl, hblank⟩)

/-- A token is cut off at the blank or the line end behind it. -/
theorem httpTerminatetoken_token (hs : ∀ a ∈ s, isBlankOrEOL a = false)
    (hx : isBlankOrEOL x = true) (ho : o = A.length) :
    httpTerminatetoken (A ++ (s ++ x :: C)) o = ((s.length : ℤ) + 1, A ++ (s ++ 0 :: C)) := by
  subst ho
  have hd : (A ++ (s ++ x :: C)).drop A.length = s ++ x :: C := List.drop_left
  have hskip := skipWhile_eq (p := fun a => !isBlankOrEOL a) s (x :: C)
    ((A ++ (s ++ x :: C)).length - A.length) A.length hd (fun a ha => by rw [hs a ha]; rfl)
    (.inr ⟨by simp only [List.length_append, List.length_cons]; omega, x, C, rfl, by simp [hx]⟩)
  unfold httpTerminatetoken
  dsimp only
  rw [hskip]
  refine Prod.ext (by push_cast; omega) ?_
  dsimp only
  rw [← List.append_assoc, set_append_cons _ _ _ _ (by rw [List.length_append]),
    List.append_assoc]

end Tokens

/-! ## The first line -/

namespace RequestText

variable (q : RequestText)

/-- The copy with the method and the version cut off. -/
def copy : List UInt8 :=
  q.method ++ (0 :: q.gap.tail ++ (q.target ++ (q.gap' ++ (ascii "HTTP/" ++
    (q.version ++ 0 :: (q.tail.tail ++ [0]))))))

/-- The object when the first line is cut. -/
def cut (req : HttpReq) : HttpReq :=
  { reqClear req with
    buf := q.copy, method := some 0, uri := some q.uriAt, version := some (q.versionAt + 5),
    status := none, hash := none, query := none }

theorem method_token : ∀ a ∈ q.method, isBlankOrEOL a = false := fun a ha =>
  (isVisible_spec ((httpValidmethod_spec q.method_ok).2.1 a ha)).2.1

theorem method_ne : q.method ≠ [] :=
  (httpValidmethod_spec q.method_ok).1

theorem method_noNul : 0 ∉ q.method :=
  zero_notMem_of_visible (httpValidmethod_spec q.method_ok).2.1

theorem length_third : q.third.length = 5 + q.version.length + q.tail.length := by
  rw [third, List.length_append, List.length_append, show (ascii "HTTP/").length = 5 from rfl]
  omega

theorem length_body : q.body.length = q.versionAt + q.third.length := by
  simp only [body, versionAt, uriAt, List.length_append]
  omega

theorem drop_uri (w : List UInt8) :
    (q.body ++ w).drop q.uriAt = q.target ++ (q.gap' ++ (q.third ++ w)) := by
  rw [body, ← List.append_assoc q.method, List.append_assoc _ _ w,
    List.drop_left' (by rw [List.length_append, uriAt]), List.append_assoc, List.append_assoc]

theorem drop_version (w : List UInt8) : (q.body ++ w).drop q.versionAt = q.third ++ w := by
  rw [versionAt, ← List.drop_drop, ← List.drop_drop, drop_uri, List.drop_left, List.drop_left]

theorem skipspace : httpSkipspace q.text q.text.length 0 = q.lead.length := by
  obtain ⟨b, m, hm⟩ := List.exists_cons_of_ne_nil q.method_ne
  have hb := q.method_token b (by rw [hm]; exact List.mem_cons_self)
  rw [isBlankOrEOL, Bool.or_eq_false_iff, Bool.or_eq_false_iff] at hb
  have hskip := skipWhile_eq q.lead q.body q.text.length 0 (p := isBlank) rfl q.lead_blank
    (.inr ⟨?_, b, m ++ (q.gap ++ (q.target ++ (q.gap' ++ q.third))), ?_, hb.1.1⟩)
  · rw [httpSkipspace, Nat.sub_zero]
    exact hskip.trans (Nat.zero_add _)
  · rw [text, List.length_append, body, hm, List.length_append, List.length_cons]
    omega
  · rw [body, hm]
    rfl

theorem skipMethod : httpSkiptokenandspace (q.body ++ [0]) q.body.length 0 = q.uriAt := by
  obtain ⟨a, t, ht⟩ := List.exists_cons_of_ne_nil q.target_ne
  have ha := q.target_token a (by rw [ht]; exact List.mem_cons_self)
  rw [isBlankOrEOL, Bool.or_eq_false_iff, Bool.or_eq_false_iff] at ha
  have hskip := httpSkiptokenandspace_token (m := q.body ++ [0]) (o := 0) (w := [0])
    (C := q.target ++ (q.gap' ++ q.third)) (n := q.body.length) (by rw [List.drop_zero, body]; simp)
    (by rw [body, Nat.zero_add]) q.method_token q.gap_blank q.gap_ne
    ⟨a, by rw [ht]; rfl, ha.1.1⟩
  rw [hskip, Nat.zero_add, uriAt]

theorem skipTarget : httpSkiptokenandspace (q.body ++ [0]) q.body.length q.uriAt = q.versionAt :=
  httpSkiptokenandspace_token (q.drop_uri [0])
    (by simp only [body, uriAt, List.length_append]; omega) q.target_token q.gap'_blank q.gap'_ne
    ⟨72, rfl, rfl⟩

theorem skipVersion : httpSkiptoEOL (q.body ++ [0]) q.body.length q.versionAt =
    q.versionAt + eolIndex q.third :=
  httpEOLLoop_text q.third _ _ (q.drop_version [0]) (by rw [length_body]; omega)

theorem take_version : ((q.body ++ [0]).drop q.versionAt).take 5 = ascii "HTTP/" := by
  rw [drop_version, third, List.append_assoc]
  exact List.take_left' rfl

theorem cutMethod : httpTerminatetoken (q.body ++ [0]) 0 = ((q.method.length : ℤ) + 1,
    q.method ++ (0 :: q.gap.tail ++ (q.target ++ (q.gap' ++ (q.third ++ [0]))))) := by
  obtain ⟨b, g, hg⟩ := List.exists_cons_of_ne_nil q.gap_ne
  have hb : isBlankOrEOL b = true := by
    rw [isBlankOrEOL, q.gap_blank b (by rw [hg]; exact List.mem_cons_self)]
    rfl
  have hcut := httpTerminatetoken_token (A := [])
    (C := g ++ (q.target ++ (q.gap' ++ (q.third ++ [0])))) q.method_token hb rfl
  rw [List.nil_append, List.nil_append] at hcut
  rw [hg, List.tail_cons, List.cons_append, ← hcut, body, hg]
  simp

theorem cutVersion : httpTerminatetoken
    (q.method ++ (0 :: q.gap.tail ++ (q.target ++ (q.gap' ++ (q.third ++ [0])))))
    (q.versionAt + 5) = ((q.version.length : ℤ) + 1, q.copy) := by
  obtain ⟨b, hb, hblank⟩ := q.tail_head
  obtain ⟨t, ht⟩ := List.head?_eq_some_iff.mp (Option.mem_def.mp hb)
  obtain ⟨g, gap, hg⟩ := List.exists_cons_of_ne_nil q.gap_ne
  have hcut := httpTerminatetoken_token (o := q.versionAt + 5) (C := t ++ [0])
    (A := q.method ++ (0 :: q.gap.tail ++ (q.target ++ (q.gap' ++ ascii "HTTP/"))))
    q.version_token hblank (by
      simp only [versionAt, uriAt, hg, List.tail_cons, List.length_append, List.length_cons]
      rw [show (ascii "HTTP/").length = 5 from rfl]
      omega)
  rw [copy, third, ht, List.tail_cons]
  simp only [List.append_assoc, List.cons_append] at hcut ⊢
  exact hcut

theorem validmethod : httpValidmethod (cstr (q.method ++ (0 :: q.gap.tail ++ (q.target ++
    (q.gap' ++ (q.third ++ [0]))))) 0) = true := by
  rw [List.cons_append, cstr_eq List.drop_zero q.method_noNul]
  exact q.method_ok

/-- The second byte of the target, or what follows it, is allowed. -/
theorem okchar_uri : httpOkchar ((q.method ++ (0 :: q.gap.tail ++ (q.target ++
    (q.gap' ++ (q.third ++ [0]))))).getD (q.uriAt + 1) 0) = true := by
  obtain ⟨b, g, hg⟩ := List.exists_cons_of_ne_nil q.gap_ne
  obtain ⟨a, t, ht⟩ := List.exists_cons_of_ne_nil q.target_ne
  obtain ⟨d, g', hg'⟩ := List.exists_cons_of_ne_nil q.gap'_ne
  have hlen : q.uriAt = (q.method ++ 0 :: g).length := by
    rw [uriAt, hg, List.length_append, List.length_cons, List.length_cons]
  have hget : ∀ l : List UInt8, (q.method ++ (0 :: g ++ l)).getD (q.uriAt + 1) 0 = l.getD 1 0 := by
    intro l
    rw [← List.append_assoc, hlen, List.getD_eq_getElem?_getD, List.getD_eq_getElem?_getD,
      List.getElem?_append_right (by omega), Nat.add_sub_cancel_left]
  rw [hg, List.tail_cons, hget, ht]
  cases t with
  | nil =>
    have hd := q.gap'_blank d (by rw [hg']; exact List.mem_cons_self)
    rw [hg']
    show httpOkchar d = true
    rw [isBlank, Bool.or_eq_true, beq_iff_eq, beq_iff_eq] at hd
    obtain rfl | rfl := hd <;> rfl
  | cons c t => exact q.target_ok c (by rw [ht]; exact List.mem_cons_of_mem _ List.mem_cons_self)

/-- The parser cuts the first line, treats the target and reads the headers behind the line. -/
theorem httpParse_cut (strtod : List UInt8 → ℤ) (req : HttpReq) :
    httpParse strtod req q.text = (0, httpParseheaders strtod (httpParseUri (q.cut req) q.uriAt)
      (q.versionAt + eolIndex q.third + 1) q.headerText.length) := by
  have hbody := q.length_body
  have hthird := q.length_third
  have hdrop : q.text.drop q.lead.length = q.body := List.drop_left
  have hlen : q.text.length - q.lead.length = q.body.length := by
    rw [text, List.length_append]
    omega
  have hheader : q.body.length - (q.versionAt + eolIndex q.third) - 1 = q.headerText.length := by
    rw [headerText, List.length_drop]
    omega
  have hcut : ({ reqClear req with
      buf := q.copy, method := some 0, uri := some q.uriAt, version := some (q.versionAt + 5),
      status := none, hash := none, query := none } : HttpReq) = q.cut req := rfl
  unfold httpParse
  simp only [q.skipspace, hdrop, hlen, q.skipMethod, q.skipTarget, q.skipVersion, q.take_version,
    if_true]
  rw [if_neg (by rw [text, List.length_append]; omega)]
  simp only [HttpReq.terminate, q.cutMethod, q.validmethod, q.okchar_uri, q.cutVersion,
    Bool.true_eq_false, if_false, and_false]
  rw [hcut, hheader]

end RequestText

/-! ## The headers -/

/-- A line that has no line end before `x` ends in front of a LF, or not before `x`. -/
theorem eolIndex_append {S : List UInt8} (x : UInt8) (t : List UInt8)
    (hS : ∀ a ∈ S, a ≠ 13 ∧ a ≠ 10) (hne : S ≠ []) :
    eolIndex (S ++ x :: t) + 1 =
      if x = 10 then S.length else S.length + (eolIndex (x :: t) + 1) := by
  induction S with
  | nil => exact absurd rfl hne
  | cons a S ih =>
    obtain ⟨ha13, -⟩ := hS a List.mem_cons_self
    cases S with
    | nil =>
      rw [List.singleton_append, eolIndex]
      split_ifs with h10 hx hx
      · exact absurd hx h10.2
      · rw [List.length_singleton]
        omega
      · rfl
      · exact absurd ⟨ha13, hx⟩ h10
    | cons b S =>
      have hb := (hS b (List.mem_cons_of_mem _ List.mem_cons_self)).2
      have hrec := ih (fun c hc => hS c (List.mem_cons_of_mem _ hc)) (List.cons_ne_nil b S)
      rw [List.cons_append] at hrec
      rw [List.cons_append, List.cons_append, eolIndex, if_pos ⟨ha13, hb⟩, hrec]
      simp only [List.length_cons]
      split_ifs <;> omega

/-- A string that ends at a NUL is not touched by what follows. -/
theorem cstr_append {P : List UInt8} {i z : ℕ} (hi : i ≤ z) (hz : P[z]? = some 0)
    (Q : List UInt8) : cstr (P ++ Q) i = cstr P i := by
  have hlen := (length_cstr_le hi hz).1
  have hlt := (List.getElem?_eq_some_iff.mp hz).1
  obtain ⟨h0, heq | ⟨v, heq⟩⟩ := cstr_spec P i
  · have hdrop := congrArg List.length heq
    rw [List.length_drop] at hdrop
    omega
  · refine cstr_eq (v := v ++ Q) ?_ h0
    rw [List.drop_append_of_le_length (by omega), heq, List.append_assoc, List.cons_append]

namespace RequestText

variable (q : RequestText)

/-- There is no line end in the third part before the tail. -/
theorem number_noEOL : ∀ a ∈ ascii "HTTP/" ++ q.version, a ≠ 13 ∧ a ≠ 10 := by
  intro a ha
  obtain ha | ha := List.mem_append.mp ha
  · exact (by decide +kernel : ∀ a ∈ ascii "HTTP/", a ≠ 13 ∧ a ≠ 10) a ha
  · have htoken := q.version_token a ha
    constructor <;> rintro rfl <;> cases htoken

/-- Behind the first line, as it is cut, there is nothing but the controls that end it, and the
headers of the rest are the headers. -/
theorem exists_headers : ∃ e, e ≤ q.tail.tail.length ∧
    (∀ M : List UInt8, M.length = q.versionAt + 5 + q.version.length →
      q.versionAt + eolIndex q.third + 1 ≤ (M ++ 0 :: q.tail.tail.take e).length ∧
      ∀ a ∈ (M ++ 0 :: q.tail.tail.take e).drop (q.versionAt + eolIndex q.third + 1),
        isControl a = true) ∧
    ∀ n, headerLines n q.headerText = headerLines n (q.tail.tail.drop e) := by
  obtain ⟨x, hx, -⟩ := q.tail_head
  obtain ⟨t, ht⟩ := List.head?_eq_some_iff.mp (Option.mem_def.mp hx)
  have hlen : (ascii "HTTP/" ++ q.version).length = 5 + q.version.length := by
    rw [List.length_append]
    rfl
  have hthird : q.third = (ascii "HTTP/" ++ q.version) ++ x :: t := by
    rw [third, ht, List.append_assoc]
  have heol := eolIndex_append x t q.number_noEOL (List.append_ne_nil_of_left_ne_nil (by decide) _)
  rw [← hthird, hlen] at heol
  rw [headerText, ht, List.tail_cons]
  split_ifs at heol with h10
  · -- the line ends in front of its LF, which the NUL has replaced
    refine ⟨0, Nat.zero_le _, fun M hM => ?_, fun n => ?_⟩
    · rw [show q.versionAt + eolIndex q.third + 1 = M.length by omega, List.take_zero]
      refine ⟨by simp, fun a ha => ?_⟩
      rw [List.drop_left, List.mem_singleton] at ha
      rw [ha]
      rfl
    · rw [heol, hthird, List.drop_left' hlen, h10, List.drop_zero]
      cases n with
      | zero => rfl
      | succ n => rw [headerLines, headerLines, List.dropWhile_cons_of_pos (by decide)]
  · -- the line ends at its CR, or further on
    have hlt := eolIndex_lt (List.cons_ne_nil x t)
    rw [List.length_cons] at hlt
    refine ⟨eolIndex (x :: t), by omega, fun M hM => ?_, fun n => ?_⟩
    · have hend : (M ++ 0 :: t.take (eolIndex (x :: t))).length =
          q.versionAt + eolIndex q.third + 1 := by
        rw [List.length_append, List.length_cons, List.length_take]
        omega
      refine ⟨hend.ge, fun a ha => ?_⟩
      rw [List.drop_of_length_le hend.le] at ha
      cases ha
    · rw [heol, ← List.drop_drop, hthird, List.drop_left' hlen, List.drop_succ_cons]

/-- What `xs_http_parse` makes of a request : the fields of the first line are those that cutting
and decoding the target gives, with its strings, the headers are those of the text, and the
version and the headers say whether the connection is kept. -/
theorem httpParse_text (strtod : List UInt8 → ℤ) (req : HttpReq) :
    ∃ r, httpParse strtod req q.text = (0, r) ∧
      r.firstLine = (httpParseUri (q.cut req) q.uriAt).firstLine ∧
      (∀ i ≤ q.uriAt + q.target.length,
        cstr r.buf i = cstr (httpParseUri (q.cut req) q.uriAt).buf i) ∧
      cstr r.buf 0 = q.method ∧ cstr r.buf (q.versionAt + 5) = q.version ∧
      r.headerStrings = q.headers.map (fun l => (l.name, l.value)) ∧
      r.keepalive = q.headers.any (keepsAlive q.version) := by
  obtain ⟨b, g, hg⟩ := List.exists_cons_of_ne_nil q.gap_ne
  obtain ⟨b', g', hg'⟩ := List.exists_cons_of_ne_nil q.gap'_ne
  obtain ⟨x, hx, -⟩ := q.tail_head
  obtain ⟨t, ht⟩ := List.head?_eq_some_iff.mp (Option.mem_def.mp hx)
  obtain ⟨e, he, hcursor, hlines⟩ := q.exists_headers
  rw [ht, List.tail_cons] at he hcursor hlines
  have hb' : isBlankOrEOL b' = true := by
    rw [isBlankOrEOL, q.gap'_blank b' (by rw [hg']; exact List.mem_cons_self)]
    rfl
  have hA : q.uriAt = (q.method ++ 0 :: g).length := by
    rw [uriAt, hg, List.length_append, List.length_cons, List.length_cons]
  -- the copy around the target
  obtain ⟨C, hC⟩ : ∃ C, g' ++ (ascii "HTTP/" ++ (q.version ++ 0 :: (t ++ [0]))) = C := ⟨_, rfl⟩
  have hcopy : q.copy = (q.method ++ 0 :: g) ++ (q.target ++ b' :: C) := by
    rw [copy, hg, hg', ht, ← hC]
    simp only [List.tail_cons, List.append_assoc, List.cons_append]
  have hcut : httpTerminatetoken (q.cut req).buf q.uriAt =
      (((q.uriAt + q.target.length : ℕ) : ℤ) - q.uriAt + 1,
        (q.cut req).buf.set (q.uriAt + q.target.length) 0) := by
    rw [show (q.cut req).buf = q.copy from rfl, hcopy,
      httpTerminatetoken_token q.target_token hb' hA, ← List.append_assoc, ← List.append_assoc,
      set_append_cons _ _ _ _ (by rw [List.length_append, ← hA])]
    refine Prod.ext ?_ rfl
    dsimp only
    push_cast
    omega
  obtain ⟨hwithin, hnul⟩ := httpParseUri_within (Nat.le_add_right _ _) (by
    rw [show (q.cut req).buf = q.copy from rfl, hcopy, List.length_append, ← hA]
    simp only [List.length_append, List.length_cons]
    omega) hcut
  obtain ⟨T, hTlen, hT⟩ := hwithin.eq_append (A := q.method ++ 0 :: g) (T := q.target ++ [b'])
    (C := C) (by rw [show (q.cut req).buf = q.copy from rfl, hcopy]; simp) hA (by
      simp only [List.length_append, List.length_cons, List.length_nil] at hA ⊢
      omega)
  obtain ⟨r₁, hr₁⟩ : ∃ r₁, httpParseUri (q.cut req) q.uriAt = r₁ := ⟨_, rfl⟩
  rw [hr₁] at hnul hT
  -- what is behind the cursor when the headers are read
  obtain ⟨M, hM⟩ : ∃ M, (q.method ++ 0 :: g) ++ T ++ g' ++ ascii "HTTP/" ++ q.version = M :=
    ⟨_, rfl⟩
  have hMlen : M.length = q.versionAt + 5 + q.version.length := by
    rw [← hM]
    simp only [List.length_append, List.length_cons, List.length_nil, versionAt, hg', hTlen] at hA ⊢
    rw [show (ascii "HTTP/").length = 5 from rfl]
    omega
  have hbuf : r₁.buf = (M ++ 0 :: t.take e) ++ (t.drop e ++ [0]) := by
    have hsplit : t.take e ++ (t.drop e ++ [0]) = t ++ [0] := by
      rw [← List.append_assoc, List.take_append_drop]
    rw [hT, ← hC, ← hM, List.append_assoc _ (0 :: t.take e), List.cons_append, hsplit]
    simp only [List.append_assoc]
  obtain ⟨hcur, hcontrol⟩ := hcursor M hMlen
  have hversion : StringAt (M ++ 0 :: t.take e) (q.versionAt + 5) q.version := by
    refine ⟨(q.method ++ 0 :: g) ++ T ++ g' ++ ascii "HTTP/", t.take e, by rw [hM], ?_,
      fun h0 => q.tail_noNul (List.mem_append_left _ h0)⟩
    have hlen := congrArg List.length hM
    rw [List.length_append] at hlen
    omega
  have hnulP : (M ++ 0 :: t.take e)[q.uriAt + q.target.length]? = some 0 := by
    rw [hbuf, List.getElem?_append_left (by
      rw [List.length_append, hMlen, versionAt]
      omega)] at hnul
    exact hnul
  have htext : LineText ((t.drop e).dropWhile isControl) := by
    refine LineText.of_suffix (t := q.tail) ⟨fun h0 => q.tail_noNul (List.mem_append_right _ h0),
      .inr q.tail_last⟩ ?_
    rw [ht]
    exact ((List.dropWhile_suffix _).trans (List.drop_suffix e t)).trans (List.suffix_cons x t)
  have hrlen : q.versionAt + eolIndex q.third + 1 + q.headerText.length + 1 = r₁.buf.length := by
    have hle := eolIndex_lt (s := q.third) (by
      rw [third]
      exact List.append_ne_nil_of_left_ne_nil (by decide) _)
    have hthird := q.length_third
    rw [hbuf, headerText, List.length_drop, List.length_append, List.length_append, hMlen]
    simp only [List.length_cons, List.length_append, List.length_take, List.length_drop, ht,
      List.length_nil] at hthird ⊢
    omega
  obtain ⟨r, Q, hs, hr, hrbuf, hheaders, hrec, hkeep, hfirst⟩ := httpHeadersLoop_text strtod
    maxHeaders (M ++ 0 :: t.take e) (t.drop e) r₁ 0 htext hbuf
    hcur hcontrol (by rw [← hr₁]; exact hversion) hrlen
  have hempty : r₁.headers = [] := by
    rw [← hr₁]
    rfl
  have halive : r₁.keepalive = false := by
    rw [← hr₁]
    rfl
  rw [hempty, List.nil_append] at hheaders
  rw [halive, Bool.false_or, ← hlines] at hkeep
  refine ⟨r, ?_, by rw [hfirst, hr₁], fun i hi => ?_, ?_, ?_, ?_, hkeep⟩
  · rw [httpParse_cut, hr₁, httpParseheaders, hempty]
    exact Prod.ext rfl hr
  · rw [hr₁, hrbuf, hbuf, cstr_append hi hnulP, cstr_append hi hnulP]
  · rw [hrbuf]
    refine cstr_eq (v := g ++ T ++ g' ++ ascii "HTTP/" ++ q.version ++ 0 :: t.take e ++ Q) ?_
      q.method_noNul
    rw [List.drop_zero, ← hM]
    simp only [List.append_assoc, List.cons_append]
  · rw [hrbuf]
    exact (hversion.append Q).cstr_eq
  · rw [HttpReq.headerStrings, hrbuf, hheaders, hrec.map_cstr, headers, hlines]

end RequestText

/-! ## Every request is such a text -/

/-- Everything in a framed head may stand there, and the head ends in LF. -/
theorem head_of_framed {head : List UInt8}
    (h : httpValidrequest head head.length = some (head.length : ℤ)) (hne : head ≠ []) :
    (∀ a ∈ head, httpOkchar a = true) ∧ head.getLast? = some 10 := by
  have hpos := List.length_pos_of_ne_nil hne
  obtain ⟨t, r, hr, ht, hstop⟩ := httpValidrequest_stops head
  obtain rfl := Option.some.inj (hr.symm.trans h)
  obtain ⟨k, hend, hk⟩ : ∃ k, HeadEnd head t k ∧ head.length = k := by
    generalize hr' : (head.length : ℤ) = r at hstop
    cases hstop with
    | bad => omega
    | frame hend => exact ⟨_, hend, by omega⟩
    | rest => omega
  subst hk
  obtain ⟨h0, ⟨h1, hlen⟩ | ⟨h1, h2, hlen⟩⟩ := hend
  · refine ⟨fun a ha => ?_, ?_⟩
    · obtain ⟨i, hi⟩ := List.mem_iff_getElem?.mp ha
      have hlt := (List.getElem?_eq_some_iff.mp hi).1
      obtain hit | rfl | rfl : i < t ∨ i = t ∨ i = t + 1 := by omega
      · exact (ht i hit).1 a hi
      · rw [Option.some.inj (hi.symm.trans h0)]
        rfl
      · rw [Option.some.inj (hi.symm.trans h1)]
        rfl
    · rw [List.getLast?_eq_getElem?, hlen, ← h1]
      congr 1
  · refine ⟨fun a ha => ?_, ?_⟩
    · obtain ⟨i, hi⟩ := List.mem_iff_getElem?.mp ha
      have hlt := (List.getElem?_eq_some_iff.mp hi).1
      obtain hit | rfl | rfl | rfl : i < t ∨ i = t ∨ i = t + 1 ∨ i = t + 2 := by omega
      · exact (ht i hit).1 a hi
      · rw [Option.some.inj (hi.symm.trans h0)]
        rfl
      · rw [Option.some.inj (hi.symm.trans h1)]
        rfl
      · rw [Option.some.inj (hi.symm.trans h2)]
        rfl
    · rw [List.getLast?_eq_getElem?, hlen, ← h2]
      congr 1

/-- What follows the first token of a text and the blanks behind it. -/
def afterToken (t : List UInt8) : List UInt8 :=
  (t.dropWhile fun a => !isBlankOrEOL a).dropWhile isBlank

theorem afterToken_split (t : List UInt8) :
    (t.takeWhile fun a => !isBlankOrEOL a) ++
      (((t.dropWhile fun a => !isBlankOrEOL a).takeWhile isBlank) ++ afterToken t) = t := by
  rw [afterToken, List.takeWhile_append_dropWhile, List.takeWhile_append_dropWhile]

theorem httpSkiptokenandspace_text {m t w : List UInt8} {n o : ℕ} (hd : m.drop o = t ++ w)
    (hn : n = o + t.length) :
    httpSkiptokenandspace m n o + (afterToken t).length = o + t.length ∧
      m.drop (httpSkiptokenandspace m n o) = afterToken t ++ w := by
  have hsplit := afterToken_split t
  obtain ⟨s, hs⟩ : ∃ s, (t.takeWhile fun a => !isBlankOrEOL a) = s := ⟨_, rfl⟩
  obtain ⟨u, hu⟩ : ∃ u, (t.dropWhile fun a => !isBlankOrEOL a) = u := ⟨_, rfl⟩
  have hlen := congrArg List.length hsplit
  have htoken := skipWhile_text (p := fun a => !isBlankOrEOL a) (n := n - o) hd (by omega)
  rw [hs] at htoken hsplit hlen
  rw [hu] at hsplit hlen
  have hsu : s ++ u = t := by
    rw [← hs, ← hu]
    exact List.takeWhile_append_dropWhile
  have hd' : m.drop (o + s.length) = u ++ w := by
    rw [← List.drop_drop, hd, ← hsu, List.append_assoc, List.drop_left]
  have hlen' := congrArg List.length hsu
  simp only [List.length_append] at hlen hlen'
  have hspace := skipWhile_text (p := isBlank) (n := n - (o + s.length)) hd' (by omega)
  have heq : httpSkiptokenandspace m n o = o + s.length + (u.takeWhile isBlank).length := by
    rw [httpSkiptokenandspace, htoken, httpSkipspace, hspace]
  refine ⟨by omega, ?_⟩
  have hrest : u = u.takeWhile isBlank ++ afterToken t := by
    rw [afterToken, hu, List.takeWhile_append_dropWhile]
  rw [heq, ← List.drop_drop, hd', hrest, List.append_assoc, ← hrest, List.drop_left]

/-- Where the third part begins with a byte of a token, neither the second part nor one of the two
gaps is empty. -/
theorem afterToken_ne {t : List UInt8} {a : UInt8} (h : (afterToken t).head? = some a)
    (ha : isBlankOrEOL a = false) :
    (t.dropWhile fun a => !isBlankOrEOL a).takeWhile isBlank ≠ [] := by
  intro hnil
  have hsplit : (t.dropWhile fun a => !isBlankOrEOL a).takeWhile isBlank ++ afterToken t =
      t.dropWhile fun a => !isBlankOrEOL a := List.takeWhile_append_dropWhile
  rw [hnil, List.nil_append] at hsplit
  have hstop := List.head?_dropWhile_not (fun a => !isBlankOrEOL a) t
  rw [← hsplit, h] at hstop
  have hblank : (!isBlankOrEOL a) = false := hstop
  rw [ha] at hblank
  cases hblank

theorem token_ne {t : List UInt8} {a : UInt8} (h : (afterToken t).head? = some a)
    (ha : isBlankOrEOL a = false) (hhead : ∀ b ∈ t.head?, isBlank b = false) :
    (t.takeWhile fun a => !isBlankOrEOL a) ≠ [] := by
  intro hnil
  have hsplit : (t.takeWhile fun a => !isBlankOrEOL a) ++ (t.dropWhile fun a => !isBlankOrEOL a) =
      t := List.takeWhile_append_dropWhile
  rw [hnil, List.nil_append] at hsplit
  refine afterToken_ne h ha ?_
  rw [hsplit]
  cases t with
  | nil => rfl
  | cons b t => exact List.takeWhile_cons_of_neg (by rw [hhead b rfl]; decide)

theorem head?_afterToken {t : List UInt8} : ∀ b ∈ (afterToken t).head?, isBlank b = false := by
  intro b hb
  have hstop := List.head?_dropWhile_not isBlank (t.dropWhile fun a => !isBlankOrEOL a)
  rw [show (t.dropWhile fun a => !isBlankOrEOL a).dropWhile isBlank = afterToken t from rfl,
    Option.mem_def.mp hb] at hstop
  exact hstop

/-- Three parts, the third of which begins with `HTTP/`, make a request. -/
theorem exists_text {lead body : List UInt8} (hlead : ∀ a ∈ lead, isBlank a = true)
    (hok : ∀ a ∈ body, httpOkchar a = true) (hlast : body.getLast? = some 10)
    (hmethod : httpValidmethod (body.takeWhile fun a => !isBlankOrEOL a) = true)
    {rest : List UInt8} (hthird : afterToken (afterToken body) = ascii "HTTP/" ++ rest) :
    ∃ q : RequestText, q.text = lead ++ body := by
  have hH : (afterToken (afterToken body)).head? = some 72 := by
    rw [hthird]
    rfl
  have hgap' := afterToken_ne hH rfl
  have htarget := token_ne hH rfl head?_afterToken
  have hsplit := afterToken_split body
  have hsplit' := afterToken_split (afterToken body)
  rw [hthird] at hsplit'
  -- the second part is there, so the first gap is
  have hgap : (body.dropWhile fun a => !isBlankOrEOL a).takeWhile isBlank ≠ [] := by
    obtain ⟨b, t, hbt⟩ := List.exists_cons_of_ne_nil htarget
    have hb : isBlankOrEOL b = false := by
      have hmem := List.mem_takeWhile_imp (p := fun a => !isBlankOrEOL a)
        (hbt ▸ List.mem_cons_self : b ∈ (afterToken body).takeWhile fun a => !isBlankOrEOL a)
      rwa [Bool.not_eq_true'] at hmem
    refine afterToken_ne (a := b) ?_ hb
    rw [← hsplit', hbt]
    rfl
  obtain ⟨v, hv⟩ : ∃ v, (rest.takeWhile fun a => !isBlankOrEOL a) = v := ⟨_, rfl⟩
  obtain ⟨tl, htl⟩ : ∃ tl, (rest.dropWhile fun a => !isBlankOrEOL a) = tl := ⟨_, rfl⟩
  have hrest : v ++ tl = rest := by
    rw [← hv, ← htl]
    exact List.takeWhile_append_dropWhile
  have hmem : ∀ a ∈ rest, a ∈ body := by
    intro a ha
    rw [← hsplit, ← hsplit']
    simp only [List.mem_append]
    tauto
  have hmem' : ∀ a ∈ afterToken body, a ∈ body := by
    intro a ha
    rw [← hsplit]
    simp only [List.mem_append]
    tauto
  -- the LF at the end is behind the version
  have hlast' : rest.getLast? = some 10 := by
    rw [← hsplit, ← hsplit', ← List.append_assoc, ← List.append_assoc, ← List.append_assoc,
      ← List.append_assoc, List.getLast?_append] at hlast
    cases hr : rest.getLast? with
    | none =>
      rw [List.getLast?_eq_none_iff.mp hr] at hlast
      rw [List.getLast?_nil, Option.none_or, List.getLast?_append] at hlast
      cases hlast
    | some a =>
      rw [hr] at hlast
      exact hlast
  have htlne : tl ≠ [] := by
    intro hnil
    have h10 : (10 : UInt8) ∈ v := by
      rw [← hrest, hnil, List.append_nil] at hlast'
      exact List.mem_of_getLast? hlast'
    rw [← hv] at h10
    have htoken := List.mem_takeWhile_imp (p := fun a => !isBlankOrEOL a) h10
    cases htoken
  obtain ⟨x, t, hxt⟩ := List.exists_cons_of_ne_nil htlne
  have htoken : ∀ {l : List UInt8} {a}, a ∈ (l.takeWhile fun a => !isBlankOrEOL a) →
      isBlankOrEOL a = false := by
    intro l a ha
    have h := List.mem_takeWhile_imp (p := fun a => !isBlankOrEOL a) ha
    rwa [Bool.not_eq_true'] at h
  refine ⟨{
    lead := lead
    method := body.takeWhile fun a => !isBlankOrEOL a
    gap := (body.dropWhile fun a => !isBlankOrEOL a).takeWhile isBlank
    target := (afterToken body).takeWhile fun a => !isBlankOrEOL a
    gap' := ((afterToken body).dropWhile fun a => !isBlankOrEOL a).takeWhile isBlank
    version := v
    tail := tl
    lead_blank := hlead
    method_ok := hmethod
    gap_blank := fun a ha => List.mem_takeWhile_imp ha
    gap_ne := hgap
    target_token := fun a ha => htoken ha
    target_ne := htarget
    gap'_blank := fun a ha => List.mem_takeWhile_imp ha
    gap'_ne := hgap'
    version_token := fun a ha => htoken (hv ▸ ha)
    tail_head := ?_
    tail_last := ?_
    target_ok := fun a ha => hok a (hmem' a ((List.takeWhile_prefix _).subset ha))
    tail_noNul := ?_ }, ?_⟩
  · refine ⟨x, by rw [hxt]; rfl, ?_⟩
    have hstop := List.head?_dropWhile_not (fun a => !isBlankOrEOL a) rest
    rw [htl, hxt] at hstop
    have hx : (!isBlankOrEOL x) = false := hstop
    rwa [Bool.not_eq_false'] at hx
  · rw [← hrest, hxt, List.getLast?_append_cons] at hlast'
    rw [hxt, hlast']
  · rw [hrest]
    intro h0
    cases hok 0 (hmem 0 h0)
  · rw [RequestText.text, RequestText.body, RequestText.third]
    dsimp only
    rw [hrest, hsplit', hsplit]

/-- A comparison that does not reach the NUL behind a text. -/
theorem exists_append_of_take {t s : List UInt8} (h : (t ++ [0]).take s.length = s) (hs : 0 ∉ s) :
    ∃ rest, t = s ++ rest := by
  by_cases hlen : s.length ≤ t.length
  · rw [List.take_append_of_le_length hlen] at h
    exact ⟨t.drop s.length, by rw [← h, List.length_take, Nat.min_eq_left hlen,
      List.take_append_drop]⟩
  · rw [List.take_of_length_le (by rw [List.length_append, List.length_singleton]; omega)] at h
    exact absurd (h ▸ List.mem_append_right t (List.mem_singleton_self 0)) hs

/-- The first token of a head, cut off. -/
theorem cutFirst_cstr {body : List UInt8} (hok : ∀ a ∈ body, httpOkchar a = true)
    (hlast : body.getLast? = some 10) :
    cstr (httpTerminatetoken (body ++ [0]) 0).2 0 = body.takeWhile fun a => !isBlankOrEOL a := by
  obtain ⟨s, hs⟩ : ∃ s, (body.takeWhile fun a => !isBlankOrEOL a) = s := ⟨_, rfl⟩
  obtain ⟨u, hu⟩ : ∃ u, (body.dropWhile fun a => !isBlankOrEOL a) = u := ⟨_, rfl⟩
  have hsplit : s ++ u = body := by
    rw [← hs, ← hu]
    exact List.takeWhile_append_dropWhile
  have htoken : ∀ a ∈ s, isBlankOrEOL a = false := by
    intro a ha
    rw [← hs] at ha
    have h := List.mem_takeWhile_imp (p := fun a => !isBlankOrEOL a) ha
    rwa [Bool.not_eq_true'] at h
  cases u with
  | nil =>
    rw [List.append_nil] at hsplit
    rw [← hsplit] at hlast
    cases htoken 10 (List.mem_of_getLast? hlast)
  | cons x t =>
    have hstop := List.head?_dropWhile_not (fun a => !isBlankOrEOL a) body
    rw [hu] at hstop
    have hx : (!isBlankOrEOL x) = false := hstop
    rw [Bool.not_eq_false'] at hx
    have hcut : httpTerminatetoken (s ++ x :: (t ++ [0])) 0 = _ :=
      httpTerminatetoken_token (A := []) (C := t ++ [0]) htoken hx rfl
    rw [hs, ← hsplit, List.append_assoc, List.cons_append, hcut]
    refine cstr_eq List.drop_zero fun h0 => ?_
    cases hok 0 (by rw [← hsplit]; exact List.mem_append_left _ h0)

/-- Every head that is framed and accepted as a request is the text of a request. -/
theorem exists_requestText (strtod : List UInt8 → ℤ) (req : HttpReq) {head : List UInt8}
    (hframed : httpValidrequest head head.length = some (head.length : ℤ))
    (hparse : (httpParse strtod req head).1 = 0)
    (hmethod : (httpParse strtod req head).2.method ≠ none) :
    ∃ q : RequestText, q.text = head := by
  obtain ⟨lead, hlead⟩ : ∃ lead, head.takeWhile isBlank = lead := ⟨_, rfl⟩
  obtain ⟨body, hbody⟩ : ∃ body, head.dropWhile isBlank = body := ⟨_, rfl⟩
  have hsplit : lead ++ body = head := by
    rw [← hlead, ← hbody]
    exact List.takeWhile_append_dropWhile
  have hskip : httpSkipspace head head.length 0 = lead.length := by
    have h := skipWhile_text (p := isBlank) (m := head) (w := []) (c := 0) (n := head.length)
      (List.append_nil head).symm rfl
    rw [hlead, Nat.zero_add] at h
    exact h
  have hdrop : head.drop lead.length = body := by
    rw [← hsplit, List.drop_left]
  have hlen : head.length - lead.length = body.length := by
    rw [← hsplit, List.length_append]
    omega
  unfold httpParse at hparse hmethod
  simp only [hskip, hdrop, hlen] at hparse hmethod
  by_cases hshort : head.length ≤ lead.length
  · rw [if_pos hshort] at hparse
    cases hparse
  rw [if_neg hshort] at hparse hmethod
  have hne : head ≠ [] := by
    rintro rfl
    exact hshort (Nat.zero_le _)
  obtain ⟨hok, hlast⟩ := head_of_framed hframed hne
  have hbodyne : body ≠ [] := by
    rintro rfl
    rw [List.length_nil] at hlen
    omega
  obtain ⟨-, hd₁⟩ := httpSkiptokenandspace_text (m := body ++ [0]) (o := 0) (t := body) (w := [0])
    (n := body.length) rfl (Nat.zero_add _).symm
  obtain ⟨hn₁, -⟩ := httpSkiptokenandspace_text (m := body ++ [0]) (o := 0) (t := body) (w := [0])
    (n := body.length) rfl (Nat.zero_add _).symm
  obtain ⟨uri, huri⟩ : ∃ uri, httpSkiptokenandspace (body ++ [0]) body.length 0 = uri := ⟨_, rfl⟩
  rw [huri] at hd₁ hn₁ hparse hmethod
  obtain ⟨-, hd₂⟩ := httpSkiptokenandspace_text hd₁ (n := body.length) (by omega)
  rw [hd₂] at hparse hmethod
  by_cases hhttp : (afterToken (afterToken body) ++ [0]).take 5 = ascii "HTTP/"
  · rw [if_pos hhttp] at hparse hmethod
    have hok' : ∀ a ∈ body, httpOkchar a = true := fun a ha =>
      hok a (by rw [← hsplit]; exact List.mem_append_right lead ha)
    have hlast' : body.getLast? = some 10 := by
      rw [← hsplit, List.getLast?_append, List.getLast?_eq_some_getLast hbodyne] at hlast
      rw [List.getLast?_eq_some_getLast hbodyne]
      exact hlast
    have hmethodok : httpValidmethod (body.takeWhile fun a => !isBlankOrEOL a) = true := by
      rw [HttpReq.terminate, cutFirst_cstr hok' hlast'] at hparse
      by_contra hbad
      rw [Bool.not_eq_true] at hbad
      rw [if_pos hbad] at hparse
      cases hparse
    obtain ⟨rest, hrest⟩ := exists_append_of_take (s := ascii "HTTP/") hhttp (by decide)
    obtain ⟨q, hq⟩ : ∃ q : RequestText, q.text = lead ++ body := exists_text (fun a ha => by
      rw [← hlead] at ha
      exact List.mem_takeWhile_imp ha) hok' hlast' hmethodok hrest
    exact ⟨q, hq.trans hsplit⟩
  · -- neither a response nor an error leaves a method
    rw [if_neg hhttp] at hmethod
    exfalso
    split_ifs at hmethod
    · exact hmethod (httpParseheaders_method strtod _ _ _)
    · exact hmethod rfl

theorem blank_nil : ∀ a ∈ ([] : List UInt8), isBlank a = true := by simp

theorem blank_space : ∀ a ∈ ([32] : List UInt8), isBlank a = true := by simp [isBlank]

theorem space_ne : ([32] : List UInt8) ≠ [] := by decide

theorem validmethod_get : httpValidmethod (ascii "GET") = true := by decide

theorem token_version : ∀ a ∈ ascii "1.1", isBlankOrEOL a = false := by decide +kernel

/-- A request with the method GET and of version 1.1. -/
def getText (target tail : List UInt8) (htoken : ∀ a ∈ target, isBlankOrEOL a = false)
    (hne : target ≠ []) (hok : ∀ a ∈ target, httpOkchar a = true)
    (hhead : ∃ a ∈ tail.head?, isBlankOrEOL a = true) (hlast : tail.getLast? = some 10)
    (h0 : 0 ∉ ascii "1.1" ++ tail) : RequestText where
  lead := []
  method := ascii "GET"
  gap := [32]
  target := target
  gap' := [32]
  version := ascii "1.1"
  tail := tail
  lead_blank := blank_nil
  method_ok := validmethod_get
  gap_blank := blank_space
  gap_ne := space_ne
  target_token := htoken
  target_ne := hne
  gap'_blank := blank_space
  gap'_ne := space_ne
  version_token := token_version
  tail_head := hhead
  tail_last := hlast
  target_ok := hok
  tail_noNul := h0

end Webxs
