import Webxs.JsonText
import Webxs.Scanning

/-!
# The JSON reader on JSON texts

One lemma for each kind of call (`jsonNext_objectStart`, `jsonNext_key`, `jsonNext_string`, …) says
what the call returns at a token and where the text goes on. The scan that every call begins with
stops at the next quote, colon, comma or NUL, and outside of strings a JSON text has no escape
before that (`Ahead`).

A number, `true`, `false` or `null` ends for the reader where the scan does, so its slice is right
only if a comma follows at once; else the slice holds what is behind it too, or the call fails.
By induction on the text, the tags of a document are read if and only if a comma follows every
such scalar (`JsonDocument.reads_iff`).
-/

namespace Webxs

/-! ## Bytes -/

/-- A byte at which an unquoted scan goes on. -/
def isPlain (a : UInt8) : Prop :=
  a ≠ 0 ∧ a ≠ 92 ∧ a ≠ 34 ∧ a ≠ 58 ∧ a ≠ 44

instance : DecidablePred isPlain :=
  fun a => inferInstanceAs (Decidable (a ≠ 0 ∧ a ≠ 92 ∧ a ≠ 34 ∧ a ≠ 58 ∧ a ≠ 44))

theorem Blank.isPlain {b : Blank} {a : UInt8} (ha : a ∈ b.text) : isPlain a := by
  obtain rfl | rfl | rfl | rfl := b.isspace_of_mem a ha <;> simp [Webxs.isPlain]

theorem Blank.isspace {b : Blank} {a : UInt8} (ha : a ∈ b.text) : isspace a = true := by
  obtain rfl | rfl | rfl | rfl := b.isspace_of_mem a ha <;> rfl

/-! ## Skipping spaces -/

variable {m : List UInt8} {mend : ℕ}

/-- From `p` the spaces `blank` are skipped. -/
theorem skipspaces_eq {p : ℕ} {blank : Blank} {a : UInt8} {l : List UInt8}
    (h : m.drop p = blank.text ++ a :: l) (ha : isspace a = false) :
    skipspaces m p = some (p + blank.text.length) := by
  rw [skipspaces, h, skipspacesLoop_append fun _ hb => blank.isspace hb, skipspacesLoop,
    if_neg (by simp [ha])]

theorem skipspaces_self {p : ℕ} {a : UInt8} {l : List UInt8} (h : m.drop p = a :: l)
    (ha : isspace a = false) : skipspaces m p = some p := by
  rw [skipspaces, h, skipspacesLoop, if_neg (by simp [ha])]

theorem drop_of_append {l w f : List UInt8} {i : ℕ} (h : l.drop i = w ++ f) :
    l.drop (i + w.length) = f := by
  rw [← List.drop_drop, h, List.drop_left]

/-! ## Unquoted scans -/

/-- Where an unquoted scan stops at once. -/
def Stops (l : List UInt8) : Prop :=
  ∃ c l', l = c :: l' ∧ (c = 0 ∨ c = 58 ∨ c = 44 ∨ (c = 34 ∧ l' ≠ []))

/-- An unquoted scan stops, and meets no escape before. -/
def Ahead (l : List UInt8) : Prop :=
  ∃ w f, l = w ++ f ∧ (∀ a ∈ w, isPlain a) ∧ Stops f

theorem Ahead.append {w f : List UInt8} (h : Ahead f) (hw : ∀ a ∈ w, isPlain a) :
    Ahead (w ++ f) := by
  obtain ⟨w', f', rfl, hw', hf⟩ := h
  refine ⟨w ++ w', f', by simp, fun a ha => ?_, hf⟩
  obtain ha | ha := List.mem_append.mp ha
  · exact hw a ha
  · exact hw' a ha

theorem Ahead.cons {a : UInt8} {f : List UInt8} (h : Ahead f) (ha : isPlain a) : Ahead (a :: f) :=
  h.append (w := [a]) fun b hb => by simpa [List.mem_singleton.mp hb] using ha

theorem Stops.ahead {f : List UInt8} (h : Stops f) : Ahead f :=
  ⟨[], f, rfl, by simp, h⟩

theorem loop_plain {w f : List UInt8} (hw : ∀ a ∈ w, isPlain a) (i : ℕ) (e : Bool) :
    jsonReadStringLoop 34 92 false (w ++ f) i e =
      jsonReadStringLoop 34 92 false f (i + w.length) e := by
  induction w generalizing i with
  | nil => rfl
  | cons a w ih =>
    obtain ⟨h0, h92, h34, h58, h44⟩ := hw a (by simp)
    rw [List.cons_append, jsonReadStringLoop_cons, if_neg h0, if_neg h92, if_neg h34,
      if_neg (by simp [h58, h44]), ih (fun b hb => hw b (by simp [hb])), List.length_cons]
    congr 1
    omega

theorem loop_stops {f : List UInt8} (h : Stops f) (i : ℕ) (e : Bool) :
    ∃ ret n, jsonReadStringLoop 34 92 false f i e = some (ret, n, e) ∧ i ≤ n ∧
      (f.head? ≠ some 34 → n = i) := by
  obtain ⟨c, l', rfl, rfl | rfl | rfl | ⟨rfl, hl⟩⟩ := h
  · exact ⟨false, i, by simp [jsonReadStringLoop_cons], le_rfl, fun _ => rfl⟩
  · exact ⟨true, i, by simp [jsonReadStringLoop_cons], le_rfl, fun _ => rfl⟩
  · exact ⟨true, i, by simp [jsonReadStringLoop_cons], le_rfl, fun _ => rfl⟩
  · obtain ⟨b, l, rfl⟩ := List.exists_cons_of_ne_nil hl
    exact ⟨true, i + 1, by simp [jsonReadStringLoop_cons], by omega, by simp⟩

/-- The scan of a token that is no string and begins with the bytes `w`. -/
theorem jsonReadString_plain {q : ℕ} {w f : List UInt8} {a : UInt8} (hq : m.drop q = a :: w ++ f)
    (hsp : isspace a = false) (ha : isPlain a) (hw : ∀ b ∈ w, isPlain b) (hf : Stops f) :
    ∃ n, jsonReadString m q 34 34 92 = some (some n, false) ∧ q + w.length < n ∧
      (f.head? ≠ some 34 → n = q + w.length + 1) := by
  obtain ⟨ret, n, hloop, hn, hn'⟩ := loop_stops hf (q + (a :: w).length) false
  have haw : ∀ b ∈ a :: w, isPlain b := by
    intro b hb
    obtain rfl | hb := List.mem_cons.mp hb
    · exact ha
    · exact hw b hb
  refine ⟨n, ?_, ?_, ?_⟩
  · have h34 : (a == 34) = false := by simpa using ha.2.2.1
    rw [jsonReadString, skipspaces_self hq hsp]
    simp only [Option.bind_eq_bind, Option.bind_some, (getElem?_of_drop hq).1, h34]
    rw [if_neg (by simp), hq, loop_plain haw, hloop]
    simp
  · rw [List.length_cons] at hn
    omega
  · intro h
    rw [hn' h, List.length_cons]
    omega

/-! ## Strings -/

theorem loop_quoted {a : UInt8} (h0 : a ≠ 0) (h92 : a ≠ 92) (h34 : a ≠ 34) (l : List UInt8) (i : ℕ)
    (e : Bool) :
    jsonReadStringLoop 34 92 true (a :: l) i e = jsonReadStringLoop 34 92 true l (i + 1) e := by
  rw [jsonReadStringLoop_cons, if_neg h0, if_neg h92, if_neg h34, if_neg (by simp)]

theorem isHex.quoted {a : UInt8} (h : isHex a) : a ≠ 0 ∧ a ≠ 92 ∧ a ≠ 34 := by
  have hall : ∀ a ∈ ascii "0123456789ABCDEFabcdef", a ≠ 0 ∧ a ≠ 92 ∧ a ≠ 34 := by
    decide +kernel
  exact hall a h

theorem loop_char (x : StringChar) (l : List UInt8) (i : ℕ) (e : Bool) :
    jsonReadStringLoop 34 92 true (x.text ++ l) i e =
      jsonReadStringLoop 34 92 true l (i + x.text.length) (e || x.isEscape) := by
  cases x with
  | plain a h =>
    have h0 : a ≠ 0 := by
      rintro rfl
      exact absurd h.1 (by decide)
    simp [StringChar.text, StringChar.isEscape, loop_quoted h0 h.2.2 h.2.1]
  | escape a h => simp [StringChar.text, StringChar.isEscape, jsonReadStringLoop_cons 34 92 true 92]
  | unicode a b c d h =>
    obtain ⟨ha, hb, hc, hd⟩ := h
    simp [StringChar.text, StringChar.isEscape, jsonReadStringLoop_cons 34 92 true 92,
      loop_quoted ha.quoted.1 ha.quoted.2.1 ha.quoted.2.2,
      loop_quoted hb.quoted.1 hb.quoted.2.1 hb.quoted.2.2,
      loop_quoted hc.quoted.1 hc.quoted.2.1 hc.quoted.2.2,
      loop_quoted hd.quoted.1 hd.quoted.2.1 hd.quoted.2.2]

theorem loop_string (s : List StringChar) {f : List UInt8} (hf : f ≠ []) (i : ℕ) (e : Bool) :
    jsonReadStringLoop 34 92 true (stringBody s ++ 34 :: f) i e =
      some (true, i + (stringBody s).length + 1, e || s.any StringChar.isEscape) := by
  induction s generalizing i e with
  | nil =>
    obtain ⟨b, f, rfl⟩ := List.exists_cons_of_ne_nil hf
    simp [stringBody, jsonReadStringLoop_cons]
  | cons x s ih =>
    have hbody : stringBody (x :: s) = x.text ++ stringBody s := rfl
    rw [hbody, List.append_assoc, loop_char, ih]
    simp only [List.length_append, List.any_cons, Bool.or_assoc, Option.some.injEq, Prod.mk.injEq,
      true_and, and_true]
    omega

theorem length_stringText (s : List StringChar) :
    (stringText s).length = (stringBody s).length + 2 := by
  simp [stringText]

variable {q : ℕ} {s : List StringChar} {f : List UInt8}

theorem stringText_append (s : List StringChar) (f : List UInt8) :
    stringText s ++ f = 34 :: (stringBody s ++ 34 :: f) := by
  simp [stringText]

theorem jsonReadString_string (hq : m.drop q = stringText s ++ f) (hf : f ≠ []) :
    jsonReadString m q 34 34 92 =
      some (some (q + (stringText s).length), s.any StringChar.isEscape) := by
  rw [stringText_append] at hq
  obtain ⟨h34, hdrop⟩ := getElem?_of_drop hq
  rw [jsonReadString, skipspaces_self hq rfl]
  simp only [Option.bind_eq_bind, Option.bind_some, h34]
  rw [if_pos (by decide), hdrop, beq_self_eq_true, loop_string s hf, length_stringText]
  simp only [Option.bind_some, true_or, if_true, Option.some.injEq, Prod.mk.injEq,
    Bool.false_or, and_true]
  omega

theorem jsonSlice_string (hq : m.drop q = stringText s ++ f) (tag : JsonTag) (permissive : Bool) :
    jsonSlice m tag permissive q (q + (stringText s).length) =
      some (some ({ tag with ptr := some (q + 1), len := (stringBody s).length },
        q + (stringText s).length)) := by
  rw [stringText_append] at hq
  obtain ⟨h34, hdrop⟩ := getElem?_of_drop hq
  have hend : m[q + (stringBody s).length + 1]? = some 34 := by
    have := (getElem?_of_drop (drop_of_append hdrop)).1
    rw [← this]
    congr 1
    omega
  have hn : q + (stringText s).length - 1 = q + (stringBody s).length + 1 := by
    rw [length_stringText]
    omega
  unfold jsonSlice
  simp only [hn, h34, hend, Option.bind_eq_bind, Option.bind_some]
  rw [if_neg (by omega), if_neg (by simp), if_neg (by simp)]
  simp only [length_stringText, ne_eq, not_true_eq_false, if_false, if_true, hend,
    Option.bind_some, Option.some.injEq, Prod.mk.injEq, JsonTag.mk.injEq, true_and, and_true]
  omega

/-! ## Numbers and words -/

/-- What the bytes of a number are. -/
def numberBytes : List UInt8 :=
  ascii "+-.0123456789Ee"

theorem isDigit.mem {a : UInt8} (h : isDigit a) : a ∈ numberBytes := by
  have hall : ∀ a ∈ ascii "0123456789", a ∈ numberBytes := by decide +kernel
  exact hall a h

/-- None of them stops a scan, is a space, begins a word or a container. -/
theorem plain_of_mem : ∀ a ∈ numberBytes,
    isPlain a ∧ isspace a = false ∧
      (lower a ≠ 116 ∧ lower a ≠ 102 ∧ lower a ≠ 110) ∧ a ≠ 123 ∧ a ≠ 125 ∧ a ≠ 91 ∧ a ≠ 93 := by
  decide +kernel

theorem Number.mem_text {n : Number} {a : UInt8} (ha : a ∈ n.text) : a ∈ numberBytes := by
  have hdigits : ∀ d : Digits, a ∈ d.text → a ∈ numberBytes := fun d h =>
    (d.isDigit_of_mem a h).mem
  have hlit : ∀ b, a = b → b ∈ numberBytes → a ∈ numberBytes := fun b h hb => h ▸ hb
  obtain ⟨minus, int, hint, frac, exp⟩ := n
  simp only [Number.text, List.mem_append] at ha
  obtain ((ha | ha) | ha) | ha := ha
  · cases minus <;> simp at ha
    exact hlit _ ha (by decide)
  · exact hdigits _ ha
  · cases frac with
    | none => simp at ha
    | some d =>
      obtain ha | ha := List.mem_cons.mp ha
      · exact hlit _ ha (by decide)
      · exact hdigits _ ha
  · cases exp with
    | none => simp at ha
    | some e =>
      obtain ⟨upper, sign, d⟩ := e
      obtain ha | ha := List.mem_cons.mp ha
      · cases upper
        · exact hlit 101 ha (by decide)
        · exact hlit 69 ha (by decide)
      · obtain ha | ha := List.mem_append.mp ha
        · cases sign with
          | none => simp at ha
          | some plus => exact hlit _ (List.mem_singleton.mp ha) (by cases plus <;> decide)
        · exact hdigits _ ha

theorem Number.text_ne_nil (n : Number) : n.text ≠ [] := by
  have := n.int.ne_nil
  simp [Number.text, this]

/-- The first byte of a scalar without quotes, and the others. -/
theorem bareText_eq (b : Bare) :
    ∃ a w, b.text = a :: w ∧ (∀ x ∈ a :: w, isPlain x) ∧ isspace a = false ∧
      a ≠ 123 ∧ a ≠ 125 ∧ a ≠ 91 ∧ a ≠ 93 := by
  cases b with
  | number n =>
    obtain ⟨a, w, h⟩ := List.exists_cons_of_ne_nil n.text_ne_nil
    have hmem : ∀ x ∈ a :: w, x ∈ numberBytes := fun x hx => Number.mem_text (h ▸ hx)
    obtain ⟨-, hsp, -, hmark⟩ := plain_of_mem a (hmem a (by simp))
    exact ⟨a, w, h, fun x hx => (plain_of_mem x (hmem x hx)).1, hsp, hmark⟩
  | true => exact ⟨116, ascii "rue", by decide, by decide +kernel, by decide⟩
  | false => exact ⟨102, ascii "alse", by decide, by decide +kernel, by decide⟩
  | null => exact ⟨110, ascii "ull", by decide, by decide +kernel, by decide⟩

/-! ## Words -/

theorem strncmpCase_self {w f : List UInt8} {i : ℕ} (hw : ∀ a ∈ w, a ≠ 0)
    (h : m.drop i = w ++ f) : strncmpCase m i w w.length = some true := by
  induction w generalizing i with
  | nil => rfl
  | cons a w ih =>
    obtain ⟨ha, hdrop⟩ := getElem?_of_drop h
    rw [List.length_cons, strncmpCase, ha]
    have ha0 : a ≠ 0 := hw a (by simp)
    simp only [Option.bind_eq_bind, Option.bind_some, ne_eq, not_true_eq_false, if_false, ha0,
      or_self]
    exact ih (fun b hb => hw b (by simp [hb])) hdrop

theorem strncmpCase_ne {a b : UInt8} {w : List UInt8} {i n : ℕ} (h : m[i]? = some a)
    (hne : lower a ≠ lower b) : strncmpCase m i (b :: w) (n + 1) = some false := by
  simp [strncmpCase, h, hne]

/-- The text goes on where the scan ended, behind a word right there. -/
def Bare.next (b : Bare) (q n : ℕ) : ℕ :=
  match b with
  | .number _ => n
  | _ => q + b.text.length

theorem jsonScalar_bare (b : Bare) (hq : m.drop q = b.text ++ f) (n : ℕ) :
    jsonScalar m (.clear false) false q n =
      some ({ b.tag q with len := (n : ℤ) - q }, some (b.next q n)) := by
  have hword : ∀ {w : List UInt8}, (∀ a ∈ w, a ≠ 0) → m.drop q = w ++ f →
      strncmpCase m q w w.length = some true := fun hw h => strncmpCase_self hw h
  unfold jsonScalar jsonBare
  cases b with
  | number k =>
    obtain ⟨a, w, h⟩ := List.exists_cons_of_ne_nil k.text_ne_nil
    obtain ⟨hplain, -, hlower, -⟩ := plain_of_mem a (Number.mem_text (n := k) (by simp [h]))
    have ha : m[q]? = some a := (getElem?_of_drop (hq.trans (by rw [Bare.text, h]; rfl))).1
    simp only [ha, Option.bind_eq_bind, Option.bind_some]
    rw [if_pos hplain.2.2.1, if_neg (by simpa using hlower), if_pos trivial]
    rfl
  | true =>
    have ha : m[q]? = some 116 := (getElem?_of_drop hq).1
    simp only [ha, Option.bind_eq_bind, Option.bind_some]
    rw [if_pos (by decide), if_pos (by decide), show strncmpCase m q (ascii "true") 4 = some true
      from hword (by decide +kernel) hq]
    rfl
  | false =>
    have ha : m[q]? = some 102 := (getElem?_of_drop hq).1
    simp only [ha, Option.bind_eq_bind, Option.bind_some]
    rw [if_pos (by decide), if_pos (by decide), show strncmpCase m q (ascii "true") 4 = some false
      from strncmpCase_ne ha (by decide), show strncmpCase m q (ascii "false") 5 = some true
      from hword (by decide +kernel) hq]
    rfl
  | null =>
    have ha : m[q]? = some 110 := (getElem?_of_drop hq).1
    simp only [ha, Option.bind_eq_bind, Option.bind_some]
    rw [if_pos (by decide), if_pos (by decide), show strncmpCase m q (ascii "true") 4 = some false
      from strncmpCase_ne ha (by decide), show strncmpCase m q (ascii "false") 5 = some false
      from strncmpCase_ne ha (by decide), show strncmpCase m q (ascii "null") 4 = some true
      from hword (by decide +kernel) hq]
    rfl

/-! ## Calls -/

/-- The text ends at the first NUL, which is at `mend`. -/
structure Terminated (m : List UInt8) (mend : ℕ) : Prop where
  length_eq : m.length = mend + 1
  nul : m[mend]? = some 0

theorem Terminated.lt (hm : Terminated m mend) {a : UInt8} {l : List UInt8}
    (h : m.drop q = a :: l) (ha : a ≠ 0) : q < mend := by
  have hq := (getElem?_of_drop h).1
  have hlt := (List.getElem?_eq_some_iff.mp hq).1
  rw [hm.length_eq] at hlt
  obtain hlt | rfl := Nat.lt_or_eq_of_le (Nat.le_of_lt_succ hlt)
  · exact hlt
  · exact absurd (Option.some.inj (hq.symm.trans hm.nul)) ha

variable {p n : ℕ} {a : UInt8} {l : List UInt8} {st last : JsonState} {stack : List JsonState}

/-- A call goes by the first byte of the next token. -/
theorem jsonNext_eq (hm : Terminated m mend) (hp : skipspaces m p = some q) (hq : m.drop q = a :: l)
    (ha : a ≠ 0) {e : Bool} (hscan : jsonReadString m q 34 34 92 = some (some n, e)) (hn : q < n) :
    jsonNext m mend ⟨p, st, stack⟩ false =
      jsonDispatch m ⟨p, st, stack⟩ (.clear e) false q n a := by
  have hpq := (skipspaces_spec hp).1
  have hlt := hm.lt hq ha
  rw [jsonNext_token (show p < mend by omega) hp (getElem?_of_drop hq).1 hscan hn, implicit_false]

/-- A scan from a byte that is no token of its own ends somewhere. -/
theorem jsonReadString_ahead (hq : m.drop q = a :: l) (hsp : isspace a = false) (ha : isPlain a)
    (hl : Ahead l) : ∃ n, jsonReadString m q 34 34 92 = some (some n, false) ∧ q < n := by
  obtain ⟨w, f, rfl, hw, hf⟩ := hl
  obtain ⟨n, hscan, hn, -⟩ := jsonReadString_plain hq hsp ha hw hf
  exact ⟨n, hscan, by omega⟩

theorem jsonNext_objectStart (stack : List JsonState) (hm : Terminated m mend)
    (hp : skipspaces m p = some q) (hq : m.drop q = 123 :: l) (hl : Ahead l)
    (hst : st ≠ .minusOne) (hobj : st ≠ .objectStart) :
    jsonNext m mend ⟨p, st, stack⟩ false =
      some (.success, some (markTag .objectStart),
        ⟨q + 1, .objectStart, .objectStart :: stack⟩) := by
  obtain ⟨n, hscan, hn⟩ := jsonReadString_ahead hq rfl (by decide) hl
  rw [jsonNext_eq hm hp hq (by decide) hscan hn, jsonDispatch, if_neg hst,
    if_neg (fun h => hobj h.1), if_pos rfl]
  rfl

theorem jsonNext_arrayStart (stack : List JsonState) (hm : Terminated m mend)
    (hp : skipspaces m p = some q) (hq : m.drop q = 91 :: l) (hl : Ahead l)
    (hst : st ≠ .minusOne) (hobj : st ≠ .objectStart) :
    jsonNext m mend ⟨p, st, stack⟩ false =
      some (.success, some (markTag .arrayStart),
        ⟨q + 1, .arrayStart, .arrayStart :: stack⟩) := by
  obtain ⟨n, hscan, hn⟩ := jsonReadString_ahead hq rfl (by decide) hl
  rw [jsonNext_eq hm hp hq (by decide) hscan hn, jsonDispatch, if_neg hst,
    if_neg (fun h => hobj h.1), if_neg (by decide), if_neg (by decide), if_pos rfl]
  rfl

/-- Where the text goes on behind an end at `q` : a comma is skipped. -/
def behind (q : ℕ) (after : Blank) (c : UInt8) : ℕ :=
  if c = 44 then q + 1 + after.text.length + 1 else q + 1 + after.text.length

theorem jsonEnd_eq {js : Json} {tag : JsonTag} {start : JsonState} {type : JsonType} {b c : UInt8}
    {after : Blank} {g : List UInt8} (hstack : js.mstack = start :: last :: stack)
    (hq : m.drop q = b :: (after.text ++ c :: g)) (hc : isspace c = false) :
    jsonEnd m js tag start type q =
      some (.success, some { tag with type := type },
        ⟨behind q after c, last, last :: stack⟩) := by
  have hdrop := (getElem?_of_drop hq).2
  have hcm := (getElem?_of_drop (drop_of_append hdrop)).1
  unfold jsonEnd
  simp only [hstack, ne_eq, not_true_eq_false, if_false, skipspaces_eq hdrop hc, hcm,
    Option.bind_eq_bind, Option.bind_some]
  rfl

theorem jsonNext_objectEnd (st last : JsonState) (stack : List JsonState) (hm : Terminated m mend)
    (hp : skipspaces m p = some q) {c : UInt8} {after : Blank} {g : List UInt8}
    (hq : m.drop q = 125 :: (after.text ++ c :: g))
    (hc : isspace c = false) (hl : Ahead (c :: g)) (hst : st ≠ .minusOne) :
    jsonNext m mend ⟨p, st, .objectStart :: last :: stack⟩ false =
      some (.success, some (markTag .objectEnd), ⟨behind q after c, last, last :: stack⟩) := by
  obtain ⟨n, hscan, hn⟩ := jsonReadString_ahead hq rfl (by decide)
    (hl.append fun _ hb => Blank.isPlain hb)
  rw [jsonNext_eq hm hp hq (by decide) hscan hn, jsonDispatch, if_neg hst,
    if_neg (fun h => h.2 rfl), if_neg (by decide), if_pos rfl, jsonEnd_eq rfl hq hc]
  rfl

theorem jsonNext_arrayEnd (st last : JsonState) (stack : List JsonState) (hm : Terminated m mend)
    (hp : skipspaces m p = some q) {c : UInt8} {after : Blank} {g : List UInt8}
    (hq : m.drop q = 93 :: (after.text ++ c :: g))
    (hc : isspace c = false) (hl : Ahead (c :: g)) (hst : st ≠ .minusOne)
    (hobj : st ≠ .objectStart) :
    jsonNext m mend ⟨p, st, .arrayStart :: last :: stack⟩ false =
      some (.success, some (markTag .arrayEnd), ⟨behind q after c, last, last :: stack⟩) := by
  obtain ⟨n, hscan, hn⟩ := jsonReadString_ahead hq rfl (by decide)
    (hl.append fun _ hb => Blank.isPlain hb)
  rw [jsonNext_eq hm hp hq (by decide) hscan hn, jsonDispatch, if_neg hst,
    if_neg (fun h => hobj h.1), if_neg (by decide), if_neg (by decide), if_neg (by decide),
    if_pos rfl, jsonEnd_eq rfl hq hc]
  rfl

theorem KeyColon.text_append (k : KeyColon) (f : List UInt8) :
    k.text ++ f = k.before.text ++ (stringText k.key ++ (k.after.text ++ 58 :: f)) := by
  simp [KeyColon.text]

theorem jsonNext_key (stack : List JsonState) (hm : Terminated m mend) {k : KeyColon}
    (hp : m.drop p = k.text ++ f) :
    jsonNext m mend ⟨p, .objectStart, stack⟩ false =
      some (.success, some (k.tag p), ⟨p + k.text.length, .value, stack⟩) := by
  rw [k.text_append] at hp
  have hskip : skipspaces m p = some (p + k.before.text.length) :=
    skipspaces_eq (by rw [hp, stringText_append]) rfl
  have hq := drop_of_append hp
  have hcolon := drop_of_append hq
  have hscan := jsonReadString_string hq (by simp)
  have hlen := length_stringText k.key
  have hnext := (getElem?_of_drop (drop_of_append hcolon)).1
  rw [stringText_append] at hq
  rw [jsonNext_eq hm hskip hq (by decide) hscan (by omega), jsonDispatch, if_neg (by simp),
    if_pos ⟨rfl, by decide⟩, jsonKey, jsonSlice_string (by rw [stringText_append, hq])]
  simp only [Option.bind_eq_bind, Option.bind_some, skipspaces_eq hcolon rfl, hnext]
  rw [if_neg (by simp)]
  have htext : k.text.length = k.before.text.length + (stringText k.key).length +
      k.after.text.length + 1 := by
    simp only [KeyColon.text, List.length_append, List.length_singleton]
    omega
  simp only [Option.some.injEq, Prod.mk.injEq, Json.mk.injEq, true_and, and_true]
  exact ⟨rfl, by omega⟩

/-- Where the text goes on behind a scalar that ends at `n`. -/
def behindScalar (n : ℕ) (after : Blank) (c : UInt8) : ℕ :=
  if c = 44 then n + after.text.length + 1 else n

theorem jsonAfterScalar_eq {js : Json} {after : Blank} {c : UInt8} {g : List UInt8}
    (hst : js.mstate ≠ .zero) (hn : m.drop n = after.text ++ c :: g)
    (hc : c = 44 ∨ c = 93 ∨ c = 125) :
    jsonAfterScalar m js n = some (some (behindScalar n after c)) := by
  have hsp : isspace c = false := by obtain rfl | rfl | rfl := hc <;> rfl
  have hcm := (getElem?_of_drop (drop_of_append hn)).1
  unfold jsonAfterScalar
  rw [if_pos hst]
  simp only [Option.bind_eq_bind, skipspaces_eq hn hsp, Option.bind_some, hcm]
  rw [if_neg (by tauto)]
  rfl

theorem jsonDispatch_value (hst : st = .arrayStart ∨ st = .value) {tag : JsonTag}
    (ha : a ≠ 123 ∧ a ≠ 125 ∧ a ≠ 91 ∧ a ≠ 93) :
    jsonDispatch m ⟨p, st, stack⟩ tag false q n a =
      jsonValue m ⟨p, st, stack⟩ tag false q n := by
  obtain ⟨h1, h2, h3, h4⟩ := ha
  obtain rfl | rfl := hst
  · rw [jsonDispatch, if_neg (by simp), if_neg (by simp), if_neg h1, if_neg h2, if_neg h3,
      if_neg h4]
  · rw [jsonDispatch, if_neg (by simp), if_neg (by simp), if_neg h1, if_neg h2, if_neg h3,
      if_neg h4]

theorem jsonValue_eq (hst : st = .arrayStart ∨ st = .value) {tag tag' : JsonTag} {n' : ℕ}
    {after : Blank} {c : UInt8} {g : List UInt8}
    (hscalar : jsonScalar m tag false q n = some (tag', some n'))
    (hn : m.drop n' = after.text ++ c :: g) (hc : c = 44 ∨ c = 93 ∨ c = 125) :
    jsonValue m ⟨p, st, last :: stack⟩ tag false q n =
      some (.success, some tag', ⟨behindScalar n' after c, last, last :: stack⟩) := by
  have hzero : st ≠ .zero := by obtain rfl | rfl := hst <;> simp
  unfold jsonValue
  rw [if_pos (by tauto)]
  simp only [hscalar, Option.bind_eq_bind, Option.bind_some]
  rw [jsonAfterScalar_eq hzero hn hc]
  rfl

theorem jsonNext_string (hm : Terminated m mend) (hp : skipspaces m p = some q)
    (hst : st = .arrayStart ∨ st = .value) {after : Blank} {c : UInt8} {g : List UInt8}
    (hq : m.drop q = stringText s ++ (after.text ++ c :: g)) (hc : c = 44 ∨ c = 93 ∨ c = 125) :
    jsonNext m mend ⟨p, st, last :: stack⟩ false =
      some (.success, some (stringTag .value .string q s),
        ⟨behindScalar (q + (stringText s).length) after c, last, last :: stack⟩) := by
  have hscan := jsonReadString_string hq (by simp)
  have hlen := length_stringText s
  have hslice := jsonSlice_string hq (.clear (s.any StringChar.isEscape)) false
  have hq' := hq
  rw [stringText_append] at hq'
  have hscalar : jsonScalar m (.clear (s.any StringChar.isEscape)) false q
      (q + (stringText s).length) =
        some (stringTag .value .string q s, some (q + (stringText s).length)) := by
    unfold jsonScalar
    simp only [(getElem?_of_drop hq').1, Option.bind_eq_bind, Option.bind_some]
    rw [if_neg (by simp), hslice]
    rfl
  rw [jsonNext_eq hm hp hq' (by decide) hscan (by omega), jsonDispatch_value hst (by decide),
    jsonValue_eq hst hscalar (drop_of_append hq) hc]

theorem jsonNext_bare (hm : Terminated m mend) (hp : skipspaces m p = some q)
    (hst : st = .arrayStart ∨ st = .value) {b : Bare} {g : List UInt8}
    (hq : m.drop q = b.text ++ 44 :: g) :
    jsonNext m mend ⟨p, st, last :: stack⟩ false =
      some (.success, some (b.tag q), ⟨q + b.text.length + 1, last, last :: stack⟩) := by
  obtain ⟨a, w, htext, hplain, hsp, hmark⟩ := bareText_eq b
  have hq' : m.drop q = a :: w ++ 44 :: g := by rw [hq, htext]
  obtain ⟨n, hscan, -, hn⟩ := jsonReadString_plain hq' hsp (hplain a (by simp))
    (fun x hx => hplain x (by simp [hx])) ⟨44, g, rfl, by simp⟩
  have hlen : b.text.length = w.length + 1 := by rw [htext, List.length_cons]
  obtain rfl : n = q + b.text.length := by
    rw [hn (by simp)]
    omega
  have hscalar : jsonScalar m (.clear false) false q (q + b.text.length) =
      some (b.tag q, some (q + b.text.length)) := by
    rw [jsonScalar_bare b hq]
    have hl : (((q + b.text.length : ℕ) : ℤ) - q) = b.text.length := by omega
    rw [hl]
    cases b <;> rfl
  rw [jsonNext_eq hm hp hq' (hplain a (by simp)).1 hscan (by omega), jsonDispatch_value hst hmark,
    jsonValue_eq hst hscalar (show _ = (⟨[], by simp⟩ : Blank).text ++ 44 :: g from
      drop_of_append hq) (.inl rfl)]
  rfl

/-- A scalar without quotes that no comma follows at once is not read with its slice. -/
theorem jsonNext_bare_ne (hm : Terminated m mend) (hp : skipspaces m p = some q)
    (hst : st = .arrayStart ∨ st = .value) {b : Bare} {after : Blank} {c : UInt8} {g : List UInt8}
    (hq : m.drop q = b.text ++ (after.text ++ c :: g)) (hc : c = 44 ∨ c = 93 ∨ c = 125)
    (hl : Ahead (c :: g)) (hne : ¬(after.text = [] ∧ c = 44)) (js' : Json) :
    jsonNext m mend ⟨p, st, stack⟩ false ≠ some (.success, some (b.tag q), js') := by
  obtain ⟨a, w, htext, hplain, hsp, hmark⟩ := bareText_eq b
  obtain ⟨w', f, hg, hw', hf⟩ := hl
  have hq' : m.drop q = a :: (w ++ after.text ++ w') ++ f := by
    rw [hq, htext, hg]
    simp
  obtain ⟨n, hscan, hn, -⟩ := jsonReadString_plain hq' hsp (hplain a (by simp))
    (fun x hx => by
      simp only [List.mem_append] at hx
      obtain (hx | hx) | hx := hx
      · exact hplain x (by simp [hx])
      · exact Blank.isPlain hx
      · exact hw' x hx) hf
  -- the scan went on behind the scalar
  have hlong : 0 < after.text.length + w'.length := by
    by_contra h0
    obtain ⟨hafter, hnil⟩ : after.text = [] ∧ w' = [] :=
      ⟨List.length_eq_zero_iff.mp (by omega), List.length_eq_zero_iff.mp (by omega)⟩
    rw [hnil] at hg
    obtain ⟨x, f', hfx, hx⟩ := hf
    obtain ⟨rfl, -⟩ := List.cons.inj (hg.trans hfx)
    have h44 : c ≠ 44 := fun h => hne ⟨hafter, h⟩
    obtain rfl | rfl := hc.resolve_left h44 <;> simp at hx
  rw [jsonNext_eq hm hp hq' (hplain a (by simp)).1 hscan (by omega), jsonDispatch_value hst hmark]
  intro h
  obtain ⟨-, ⟨tag', n', hscalar, htag⟩, -⟩ := jsonValue_success h
  rw [jsonScalar_bare b hq] at hscalar
  obtain rfl := Option.some.inj htag
  have hlen : ((n : ℤ) - q) = (b.tag q).len :=
    congrArg JsonTag.len (Prod.mk.inj (Option.some.inj hscalar)).1
  have hw : b.text.length = w.length + 1 := by rw [htext, List.length_cons]
  have htag : (b.tag q).len = b.text.length := rfl
  simp only [List.length_append] at hn
  omega

/-! ## Values -/

theorem JsonMembers.ahead : ∀ (ms : JsonMembers) (f : List UInt8), Ahead (ms.text ++ f)
  | .one k before v after, f => by
    rw [JsonMembers.text, List.append_assoc, k.text_append, stringText_append]
    exact (Stops.ahead ⟨34, _, rfl, by simp⟩).append fun _ ha => Blank.isPlain ha
  | .cons k before v after ms, f => by
    rw [JsonMembers.text, List.append_assoc, k.text_append, stringText_append]
    exact (Stops.ahead ⟨34, _, rfl, by simp⟩).append fun _ ha => Blank.isPlain ha

mutual

/-- In front of a value a scan meets no escape. -/
theorem JsonText.ahead : ∀ (v : JsonText) {f : List UInt8}, Ahead f → Ahead (v.text ++ f)
  | .string s, f, hf => by
    rw [JsonText.text, stringText_append]
    exact Stops.ahead ⟨34, _, rfl, by simp⟩
  | .bare b, f, hf => by
    obtain ⟨a, w, h, hplain, -⟩ := bareText_eq b
    rw [JsonText.text, h]
    exact hf.append hplain
  | .object blank, f, hf => by
    rw [JsonText.text, List.cons_append, List.append_assoc]
    exact ((hf.cons (by decide)).append fun _ ha => Blank.isPlain ha).cons (by decide)
  | .objectOf ms, f, hf => by
    rw [JsonText.text, List.cons_append, List.append_assoc]
    exact (ms.ahead _).cons (by decide)
  | .array blank, f, hf => by
    rw [JsonText.text, List.cons_append, List.append_assoc]
    exact ((hf.cons (by decide)).append fun _ ha => Blank.isPlain ha).cons (by decide)
  | .arrayOf es, f, hf => by
    rw [JsonText.text, List.cons_append, List.append_assoc]
    exact (es.ahead (hf.cons (by decide))).cons (by decide)

theorem JsonElements.ahead : ∀ (es : JsonElements) {f : List UInt8}, Ahead f → Ahead (es.text ++ f)
  | .one before v after, f, hf => by
    simp only [JsonElements.text, List.append_assoc]
    exact (v.ahead (hf.append fun _ ha => Blank.isPlain ha)).append fun _ ha => Blank.isPlain ha
  | .cons before v after es, f, hf => by
    simp only [JsonElements.text, List.append_assoc, List.cons_append]
    have hcomma : Ahead (44 :: (es.text ++ f)) := Stops.ahead ⟨44, _, rfl, by simp⟩
    exact (v.ahead (hcomma.append fun _ ha => Blank.isPlain ha)).append
      fun _ ha => Blank.isPlain ha

end

theorem jsonReads_cons {js js' : Json} {tag : JsonTag} {toks : List JsonTag}
    (h : jsonNext m mend js false = some (.success, some tag, js')) :
    JsonReads m mend js (tag :: toks) ↔ JsonReads m mend js' toks := by
  constructor
  · rintro ⟨js'', h', hreads⟩
    cases h.symm.trans h'
    exact hreads
  · exact fun hreads => ⟨js', h, hreads⟩

/-- The text goes on from `p'` behind a value whose next byte that is no space is `c`, at `i`. -/
def Behind (m : List UInt8) (p' i : ℕ) (c : UInt8) : Prop :=
  (c = 44 → p' = i + 1) ∧ (c ≠ 44 → skipspaces m p' = some i)

theorem behind_behind {after : Blank} {c : UInt8} {g : List UInt8} {i : ℕ}
    (hq : m.drop (q + 1) = after.text ++ c :: g) (hc : isspace c = false)
    (hi : i = q + 1 + after.text.length) : Behind m (behind q after c) i c := by
  subst hi
  refine ⟨fun h => if_pos h, fun h => ?_⟩
  rw [behind, if_neg h]
  exact skipspaces_self (drop_of_append hq) hc

theorem behindScalar_behind {after : Blank} {c : UInt8} {g : List UInt8} {i : ℕ}
    (hn : m.drop n = after.text ++ c :: g) (hc : isspace c = false)
    (hi : i = n + after.text.length) : Behind m (behindScalar n after c) i c := by
  subst hi
  refine ⟨fun h => if_pos h, fun h => ?_⟩
  rw [behindScalar, if_neg h]
  exact skipspaces_eq hn hc

mutual

/-- The tags of a value are read if and only if a comma follows every scalar without quotes. -/
theorem JsonText.reads (hm : Terminated m mend) : ∀ (v : JsonText) {p : ℕ} (st last : JsonState)
    (stack : List JsonState) (before after : Blank) {c : UInt8} {g : List UInt8},
    m.drop p = before.text ++ (v.text ++ (after.text ++ c :: g)) → isspace c = false →
    Ahead (c :: g) →
    (v.IsContainer ∨ (st = .arrayStart ∨ st = .value) ∧ (c = 44 ∨ c = 93 ∨ c = 125)) →
    st ≠ .minusOne → st ≠ .objectStart →
    ∃ p', Behind m p' (p + before.text.length + v.text.length + after.text.length) c ∧
      ∀ rest, JsonReads m mend ⟨p, st, last :: stack⟩
          (v.tags (p + before.text.length) ++ rest) ↔
        (v.CommaBehind ∧ (v.IsBare → after.text = [] ∧ c = 44)) ∧
          JsonReads m mend ⟨p', last, last :: stack⟩ rest
  | .string s, p, st, last, stack, before, after, c, g, hp, hsp, hl, hv, hst, hobj => by
    obtain ⟨hst, hc⟩ := hv.resolve_left id
    have hq := drop_of_append hp
    have hskip : skipspaces m p = some (p + before.text.length) :=
      skipspaces_eq (by rw [hp, JsonText.text, stringText_append]) rfl
    refine ⟨_, behindScalar_behind (drop_of_append hq) hsp rfl, fun rest => ?_⟩
    rw [JsonText.tags, List.singleton_append, jsonReads_cons (jsonNext_string hm hskip hst hq hc)]
    simp [JsonText.CommaBehind, JsonText.IsBare, JsonText.text]
  | .bare b, p, st, last, stack, before, after, c, g, hp, hsp, hl, hv, hst, hobj => by
    obtain ⟨hst, hc⟩ := hv.resolve_left id
    have hq := drop_of_append hp
    obtain ⟨a, w, htext, -, hspa, -⟩ := bareText_eq b
    have hskip : skipspaces m p = some (p + before.text.length) :=
      skipspaces_eq (by rw [hp, JsonText.text, htext]; rfl) hspa
    refine ⟨_, behindScalar_behind (drop_of_append hq) hsp rfl, fun rest => ?_⟩
    by_cases h : after.text = [] ∧ c = 44
    · obtain ⟨hafter, rfl⟩ := h
      rw [hafter, List.nil_append] at hq
      rw [JsonText.tags, List.singleton_append, jsonReads_cons (jsonNext_bare hm hskip hst hq)]
      simp [JsonText.CommaBehind, JsonText.text, behindScalar, hafter]
    · constructor
      · rintro ⟨js', hnext, -⟩
        exact absurd hnext (jsonNext_bare_ne hm hskip hst hq hc hl h js')
      · rintro ⟨⟨-, hb⟩, -⟩
        exact absurd (hb trivial) h
  | .object blank, p, st, last, stack, before, after, c, g, hp, hsp, hl, hv, hst, hobj => by
    have hq := drop_of_append hp
    rw [JsonText.text, List.cons_append, List.append_assoc] at hq hp
    have hskip := skipspaces_eq hp rfl
    have hin := (getElem?_of_drop hq).2
    have hend := drop_of_append hin
    have hlend : Ahead (125 :: (after.text ++ c :: g)) :=
      (hl.append fun _ ha => Blank.isPlain ha).cons (by decide)
    have hstart := jsonNext_objectStart (last :: stack) hm hskip hq
      (hlend.append fun _ ha => Blank.isPlain ha) hst hobj
    have hclose := jsonNext_objectEnd .objectStart last stack hm
      (skipspaces_eq hin rfl) hend hsp hl (by simp)
    refine ⟨_, behind_behind (getElem?_of_drop hend).2 hsp ?_, fun rest => ?_⟩
    · simp only [JsonText.text, List.length_cons, List.length_append, List.length_nil]
      omega
    · rw [JsonText.tags, List.cons_append, List.singleton_append, jsonReads_cons hstart,
        jsonReads_cons hclose]
      simp [JsonText.CommaBehind, JsonText.IsBare]
  | .objectOf ms, p, st, last, stack, before, after, c, g, hp, hsp, hl, hv, hst, hobj => by
    have hq := drop_of_append hp
    rw [JsonText.text, List.cons_append, List.append_assoc] at hq hp
    have hskip := skipspaces_eq hp rfl
    have hin := (getElem?_of_drop hq).2
    have hend := drop_of_append hin
    have hlend : Ahead (125 :: (after.text ++ c :: g)) :=
      (hl.append fun _ ha => Blank.isPlain ha).cons (by decide)
    have hstart := jsonNext_objectStart (last :: stack) hm hskip hq (ms.ahead _) hst hobj
    obtain ⟨p', hp', hms⟩ := ms.reads hm (last :: stack) hin hlend
    have hclose := jsonNext_objectEnd .objectStart last stack hm
      hp' hend hsp hl (by simp)
    refine ⟨_, behind_behind (getElem?_of_drop hend).2 hsp ?_, fun rest => ?_⟩
    · simp only [JsonText.text, List.length_cons, List.length_append, List.length_nil]
      omega
    · rw [JsonText.tags, List.cons_append, List.append_assoc, List.singleton_append,
        jsonReads_cons hstart, hms, jsonReads_cons hclose]
      simp [JsonText.CommaBehind, JsonText.IsBare]
  | .array blank, p, st, last, stack, before, after, c, g, hp, hsp, hl, hv, hst, hobj => by
    have hq := drop_of_append hp
    rw [JsonText.text, List.cons_append, List.append_assoc] at hq hp
    have hskip := skipspaces_eq hp rfl
    have hin := (getElem?_of_drop hq).2
    have hend := drop_of_append hin
    have hlend : Ahead (93 :: (after.text ++ c :: g)) :=
      (hl.append fun _ ha => Blank.isPlain ha).cons (by decide)
    have hstart := jsonNext_arrayStart (last :: stack) hm hskip hq
      (hlend.append fun _ ha => Blank.isPlain ha) hst hobj
    have hclose := jsonNext_arrayEnd .arrayStart last stack hm
      (skipspaces_eq hin rfl) hend hsp hl (by simp) (by simp)
    refine ⟨_, behind_behind (getElem?_of_drop hend).2 hsp ?_, fun rest => ?_⟩
    · simp only [JsonText.text, List.length_cons, List.length_append, List.length_nil]
      omega
    · rw [JsonText.tags, List.cons_append, List.singleton_append, jsonReads_cons hstart,
        jsonReads_cons hclose]
      simp [JsonText.CommaBehind, JsonText.IsBare]
  | .arrayOf es, p, st, last, stack, before, after, c, g, hp, hsp, hl, hv, hst, hobj => by
    have hq := drop_of_append hp
    rw [JsonText.text, List.cons_append, List.append_assoc] at hq hp
    have hskip := skipspaces_eq hp rfl
    have hin := (getElem?_of_drop hq).2
    have hend := drop_of_append hin
    have hlend : Ahead (93 :: (after.text ++ c :: g)) :=
      (hl.append fun _ ha => Blank.isPlain ha).cons (by decide)
    have hstart := jsonNext_arrayStart (last :: stack) hm hskip hq (es.ahead hlend) hst
      hobj
    obtain ⟨p', hp', hes⟩ := es.reads hm (last :: stack) hin hlend
    have hclose := jsonNext_arrayEnd .arrayStart last stack hm
      hp' hend hsp hl (by simp) (by simp)
    refine ⟨_, behind_behind (getElem?_of_drop hend).2 hsp ?_, fun rest => ?_⟩
    · simp only [JsonText.text, List.length_cons, List.length_append, List.length_nil]
      omega
    · rw [JsonText.tags, List.cons_append, List.append_assoc, List.singleton_append,
        jsonReads_cons hstart, hes, jsonReads_cons hclose]
      simp [JsonText.CommaBehind, JsonText.IsBare]

theorem JsonMembers.reads (hm : Terminated m mend) : ∀ (ms : JsonMembers) {p : ℕ}
    (stack : List JsonState) {f : List UInt8}, m.drop p = ms.text ++ 125 :: f →
    Ahead (125 :: f) →
    ∃ p', skipspaces m p' = some (p + ms.text.length) ∧
      ∀ rest, JsonReads m mend ⟨p, .objectStart, .objectStart :: stack⟩ (ms.tags p ++ rest) ↔
        ms.CommaBehind ∧ JsonReads m mend ⟨p', .objectStart, .objectStart :: stack⟩ rest
  | .one k before v after, p, stack, f, hp, hl => by
    simp only [JsonMembers.text, List.append_assoc] at hp
    have hkey := jsonNext_key (.objectStart :: stack) hm hp
    obtain ⟨p', hp', hv⟩ := v.reads hm .value .objectStart stack before after
      (drop_of_append hp) rfl hl (.inr ⟨.inr rfl, by simp⟩) (by simp) (by simp)
    refine ⟨p', ?_, fun rest => ?_⟩
    · rw [hp'.2 (by decide)]
      simp only [JsonMembers.text, List.length_append, Option.some.injEq]
      omega
    · rw [JsonMembers.tags, List.cons_append, jsonReads_cons hkey, hv]
      simp [JsonMembers.CommaBehind]
  | .cons k before v after ms, p, stack, f, hp, hl => by
    simp only [JsonMembers.text, List.append_assoc, List.cons_append] at hp
    have hkey := jsonNext_key (.objectStart :: stack) hm hp
    have hp1 := drop_of_append hp
    have hcomma : Ahead (44 :: (ms.text ++ 125 :: f)) := Stops.ahead ⟨44, _, rfl, by simp⟩
    obtain ⟨p1, hp1', hv⟩ := v.reads hm .value .objectStart stack before after hp1 rfl hcomma
      (.inr ⟨.inr rfl, .inl rfl⟩) (by simp) (by simp)
    have hrest := (getElem?_of_drop (drop_of_append (drop_of_append (drop_of_append hp1)))).2
    rw [← hp1'.1 rfl] at hrest
    obtain ⟨p', hp', hms⟩ := ms.reads hm stack hrest hl
    refine ⟨p', ?_, fun rest => ?_⟩
    · rw [hp', hp1'.1 rfl]
      simp only [JsonMembers.text, List.length_append, List.length_cons, Option.some.injEq]
      omega
    · rw [JsonMembers.tags, List.cons_append, List.append_assoc, jsonReads_cons hkey, hv,
        ← hp1'.1 rfl, hms]
      simp [JsonMembers.CommaBehind, and_assoc]

theorem JsonElements.reads (hm : Terminated m mend) : ∀ (es : JsonElements) {p : ℕ}
    (stack : List JsonState) {f : List UInt8}, m.drop p = es.text ++ 93 :: f →
    Ahead (93 :: f) →
    ∃ p', skipspaces m p' = some (p + es.text.length) ∧
      ∀ rest, JsonReads m mend ⟨p, .arrayStart, .arrayStart :: stack⟩ (es.tags p ++ rest) ↔
        es.CommaBehind ∧ JsonReads m mend ⟨p', .arrayStart, .arrayStart :: stack⟩ rest
  | .one before v after, p, stack, f, hp, hl => by
    simp only [JsonElements.text, List.append_assoc] at hp
    obtain ⟨p', hp', hv⟩ := v.reads hm .arrayStart .arrayStart stack before after hp rfl hl
      (.inr ⟨.inl rfl, by simp⟩) (by simp) (by simp)
    refine ⟨p', ?_, fun rest => ?_⟩
    · rw [hp'.2 (by decide)]
      simp only [JsonElements.text, List.length_append, Option.some.injEq]
      omega
    · rw [JsonElements.tags, hv]
      simp [JsonElements.CommaBehind]
  | .cons before v after es, p, stack, f, hp, hl => by
    simp only [JsonElements.text, List.append_assoc, List.cons_append] at hp
    have hcomma : Ahead (44 :: (es.text ++ 93 :: f)) := Stops.ahead ⟨44, _, rfl, by simp⟩
    obtain ⟨p1, hp1', hv⟩ := v.reads hm .arrayStart .arrayStart stack before after hp rfl
      hcomma (.inr ⟨.inl rfl, .inl rfl⟩) (by simp) (by simp)
    have hrest := (getElem?_of_drop (drop_of_append (drop_of_append (drop_of_append hp)))).2
    rw [← hp1'.1 rfl] at hrest
    obtain ⟨p', hp', hes⟩ := es.reads hm stack hrest hl
    refine ⟨p', ?_, fun rest => ?_⟩
    · rw [hp', hp1'.1 rfl]
      simp only [JsonElements.text, List.length_append, List.length_cons, Option.some.injEq]
      omega
    · rw [JsonElements.tags, List.append_assoc, hv, ← hp1'.1 rfl, hes]
      simp [JsonElements.CommaBehind, and_assoc]

end

/-! ## Documents -/

theorem terminated_text (text : List UInt8) : Terminated (text ++ [0]) text.length :=
  ⟨by simp, by simp⟩

/-- Behind the top level the text ends. -/
theorem jsonReads_end (mend : ℕ) (hp : skipspaces m p = some q) (hq : m.drop q = [0]) :
    JsonReads m mend ⟨p, .minusOne, [.minusOne]⟩ [] := by
  refine ⟨none, ⟨p, .minusOne, [.minusOne]⟩, ?_⟩
  have hscan : jsonReadString m q 34 34 92 = some (some q, false) := by
    rw [jsonReadString, skipspaces_self hq rfl]
    simp only [Option.bind_eq_bind, Option.bind_some, (getElem?_of_drop hq).1]
    rw [if_neg (by decide), hq]
    rfl
  unfold jsonNext
  split_ifs
  · rfl
  · simp only [Option.bind_eq_bind, hp, Option.bind_some, hscan]
    rw [if_pos le_rfl]
    rfl

/-- A document is read, with the slices of its scalars, if and only if a comma follows every
number, `true`, `false` and `null` at once. -/
theorem JsonDocument.reads_iff (d : JsonDocument) :
    JsonReads (d.text ++ [0]) d.text.length jsonCreate d.tags ↔ d.value.CommaBehind := by
  obtain ⟨before, v, hv, after⟩ := d
  simp only [JsonDocument.text, JsonDocument.tags]
  set text := before.text ++ (v.text ++ after.text) with htext
  have hdrop : (text ++ [0]).drop 0 = before.text ++ (v.text ++ (after.text ++ 0 :: [])) := by
    simp [htext]
  obtain ⟨p', hp', hreads⟩ := v.reads (terminated_text text) .zero .minusOne [] before after
    hdrop rfl (Stops.ahead ⟨0, [], rfl, by simp⟩) (.inl hv) (by simp) (by simp)
  have hend := jsonReads_end text.length (hp'.2 (by decide))
    (drop_of_append (drop_of_append (drop_of_append hdrop)))
  have hbare : ¬v.IsBare := by cases v <;> simp_all [JsonText.IsBare, JsonText.IsContainer]
  have := hreads []
  rw [List.append_nil, Nat.zero_add] at this
  rw [jsonCreate, this]
  simp [hend, hbare]

/-- The document `[1]` is not read. -/
theorem not_jsonDocument_reads :
    ¬∀ d : JsonDocument, JsonReads (d.text ++ [0]) d.text.length jsonCreate d.tags := by
  intro h
  let one : Number := ⟨false, ⟨[49], by simp, by simp [isDigit]; decide⟩, by simp, none, none⟩
  let empty : Blank := ⟨[], by simp⟩
  obtain ⟨js, h1, js', h2, -⟩ := h ⟨empty, .arrayOf (.one empty (.bare (.number one)) empty),
    trivial, empty⟩
  have h1' : jsonNext [91, 49, 93, 0] 3 jsonCreate false =
      some (.success, some (markTag .arrayStart), ⟨1, .arrayStart, [.arrayStart, .minusOne]⟩) := by
    decide
  cases h1'.symm.trans h1
  have h2' : (jsonNext [91, 49, 93, 0] 3 ⟨1, .arrayStart, [.arrayStart, .minusOne]⟩ false).map
      Prod.fst = some .errSyntax := by
    decide
  rw [show jsonNext [91, 49, 93, 0] 3 ⟨1, .arrayStart, [.arrayStart, .minusOne]⟩ false = _ from h2]
    at h2'
  cases h2'

end Webxs
