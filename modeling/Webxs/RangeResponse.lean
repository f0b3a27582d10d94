import Webxs.FileResponse

/-!
# The response to a range request

RFC 7233 counts the bytes of a range with the last one (`RangeSpec.selected`). The number behind the
`-` of a `Range` header is such a last byte, but `xs_http_fileresponse` takes it for the `re` that
the range ends in front of, and the size of the file as well where there is no number. It announces
`re - rs` bytes and the range `rs-re`, which are never the length and the ends of one range. So no
range is answered as the RFC has it (`not_rangeServed`).
-/

namespace Webxs

/-- A number in decimal digits. -/
structure Decimal where
  digits : List UInt8
  isdigit : ∀ a ∈ digits, Stdio.isdigit a = true
  ne_nil : digits ≠ []

def Decimal.value (n : Decimal) : ℕ :=
  digitsValue n.digits

/-- The ranges of RFC 7233. -/
inductive RangeSpec
  | firstLast (a b : Decimal)
  | first (a : Decimal)
  | suffix (n : Decimal)

namespace RangeSpec

/-- The value of the `Range` header. -/
def text : RangeSpec → List UInt8
  | firstLast a b => ascii "bytes=" ++ (a.digits ++ 45 :: b.digits)
  | first a => ascii "bytes=" ++ (a.digits ++ [45])
  | suffix n => ascii "bytes=" ++ 45 :: n.digits

/-- The first and the last byte that are selected of `size` bytes, if the range is satisfiable. -/
def selected (size : ℕ) : RangeSpec → Option (ℕ × ℕ)
  | firstLast a b =>
    if a.value ≤ b.value ∧ a.value < size then some (a.value, min b.value (size - 1)) else none
  | first a => if a.value < size then some (a.value, size - 1) else none
  | suffix n => if 1 ≤ n.value ∧ 1 ≤ size then some (size - n.value, size - 1) else none

/-- The `rs` and `re` that `xs_http_fileresponse` has after the patterns. -/
def scanned (huge : ℤ → ℤ) (size : ℕ) : RangeSpec → ℤ × ℤ
  | firstLast a b => (storeInt64 huge a.value, storeInt64 huge b.value)
  | first a => (storeInt64 huge a.value, size)
  | suffix n => (storeInt64 huge (-n.value), size)

end RangeSpec

/-! ## The patterns -/

theorem isdigit_bounds {a : UInt8} (h : Stdio.isdigit a = true) : 48 ≤ a.toNat ∧ a.toNat ≤ 57 := by
  simp only [Stdio.isdigit, Bool.and_eq_true, decide_eq_true_eq] at h
  exact h

/-- Digits are scanned up to their end. -/
theorem scanInt64_digits (huge : ℤ → ℤ) (n : Decimal) {t : List UInt8}
    (ht : ∀ a ∈ t.head?, Stdio.isdigit a = false) :
    scanInt64 huge (n.digits ++ t) = some (storeInt64 huge n.value, t) ∧
      scanInt64 huge (45 :: (n.digits ++ t)) = some (storeInt64 huge (-n.value), t) := by
  have htake : (n.digits ++ t).takeWhile Stdio.isdigit = n.digits := by
    rw [List.takeWhile_append_of_pos n.isdigit]
    cases t with
    | nil => simp
    | cons a t => rw [List.takeWhile_cons_of_neg (by simp [ht a rfl]), List.append_nil]
  have hdrop : (n.digits ++ t).dropWhile Stdio.isdigit = t := by
    rw [List.dropWhile_append_of_pos n.isdigit]
    cases t with
    | nil => rfl
    | cons a t => exact List.dropWhile_cons_of_neg (by simp [ht a rfl])
  constructor
  · obtain ⟨a, l, hl⟩ := List.exists_cons_of_ne_nil n.ne_nil
    obtain ⟨hlo, hhi⟩ := isdigit_bounds (n.isdigit a (by rw [hl]; simp))
    have hspace : Stdio.isspace a = false := by
      simp only [Stdio.isspace, Bool.or_eq_false_iff, Bool.and_eq_false_imp,
        decide_eq_false_iff_not, decide_eq_true_eq, UInt8.le_iff_toNat_le, ← UInt8.toNat_inj]
      simp
      omega
    have hsign : ∀ c : UInt8, c.toNat < 48 → ¬(n.digits ++ t).head? = some c := by
      intro c hc h
      rw [hl, List.cons_append, List.head?_cons, Option.some.injEq] at h
      rw [h] at hlo
      omega
    have hstart : (n.digits ++ t).dropWhile Stdio.isspace = n.digits ++ t := by
      rw [hl, List.cons_append, List.dropWhile_cons_of_neg (by simp [hspace])]
    simp only [scanInt64, hstart, hsign 45 (by decide), hsign 43 (by decide), or_self, if_false,
      htake, hdrop, n.ne_nil, Decimal.value]
  · have hstart : (45 :: (n.digits ++ t)).dropWhile Stdio.isspace = 45 :: (n.digits ++ t) :=
      List.dropWhile_cons_of_neg (by decide)
    simp only [scanInt64, hstart, List.head?_cons, true_or, if_true, List.tail_cons, htake, hdrop,
      n.ne_nil, if_false, Decimal.value]

theorem rangeStart_text (huge : ℤ → ℤ) (s : List UInt8) :
    rangeStart huge (ascii "bytes=" ++ s) = scanInt64 huge s := by
  rw [rangeStart, if_pos (List.prefix_append _ s)]
  exact congrArg (scanInt64 huge) (@List.drop_left _ (ascii "bytes=") _)

/-- A range in decimal is read by the first pattern or the second, a suffix as a negative start. -/
theorem scanRange_text (huge : ℤ → ℤ) (spec : RangeSpec) (size : ℕ) :
    scanRange huge spec.text size = some (spec.scanned huge size) := by
  cases spec with
  | firstLast a b =>
    have hstart := (scanInt64_digits huge a (t := 45 :: b.digits)
      fun c hc => by cases hc; decide).1
    have hdigits := (scanInt64_digits huge b (t := []) (by simp)).1
    rw [List.append_nil] at hdigits
    have hend : rangeEnd huge (45 :: b.digits) = some (storeInt64 huge b.value) := by
      simp only [rangeEnd, hdigits, Option.map_some]
    rw [RangeSpec.text, scanRange_of_start ((rangeStart_text huge _).trans hstart), hend,
      Option.getD_some, RangeSpec.scanned]
  | first a =>
    have hstart := (scanInt64_digits huge a (t := [45])
      fun c hc => by cases hc; decide).1
    have hend : rangeEnd huge [45] = none := rfl
    rw [RangeSpec.text, scanRange_of_start ((rangeStart_text huge _).trans hstart), hend,
      Option.getD_none, RangeSpec.scanned]
  | suffix n =>
    have hstart := (scanInt64_digits huge n (t := []) (by simp)).2
    rw [List.append_nil] at hstart
    have hend : rangeEnd huge [] = none := rfl
    rw [RangeSpec.text, scanRange_of_start ((rangeStart_text huge _).trans hstart), hend,
      Option.getD_none, RangeSpec.scanned]

/-! ## The response -/

/-- The `Content-Length` of the response, of type `size_t` and written by `%zd`; a response with
status 400 has its own. -/
def fileContentLength (huge : ℤ → ℤ) (h : Option (List UInt8)) (size : ℕ) (dobody : Bool) :
    Option ℤ :=
  match h.bind fun h => scanRange huge h size with
  | none => some (if dobody = true then size else 0)
  | some (rs, re) =>
    if re < rs ∨ (size : ℤ) < re % 2 ^ 64 then none
    else some (if dobody = true then Int.bmod (re - rs) (2 ^ 64) else 0)

/-- The response to a range is the one of RFC 7233. -/
def RangeServed (huge : ℤ → ℤ) (spec : RangeSpec) (size : ℕ) (dobody : Bool) : Prop :=
  ∃ first last : ℕ, spec.selected size = some (first, last) ∧
    (httpFileresponse huge (some spec.text) size dobody).statuscode = 206 ∧
    fileContentLength huge (some spec.text) size dobody = some ((last : ℤ) + 1 - first) ∧
    (httpFileresponse huge (some spec.text) size dobody).contentRange =
      some ((first : ℤ), (last : ℤ), size) ∧
    (dobody = true →
      (httpFileresponse huge (some spec.text) size dobody).filedata = some (first, last + 1))

theorem selected_le {spec : RangeSpec} {size first last : ℕ}
    (h : spec.selected size = some (first, last)) : first ≤ last ∧ last < size := by
  cases spec <;> simp only [RangeSpec.selected] at h <;> split_ifs at h <;> cases h <;> omega

/-- What the response is made of. -/
theorem reply_text (huge : ℤ → ℤ) (spec : RangeSpec) (size : ℕ) (dobody : Bool) {rs re : ℤ}
    (hs : spec.scanned huge size = (rs, re))
    (h206 : (httpFileresponse huge (some spec.text) size dobody).statuscode = 206) :
    fileContentLength huge (some spec.text) size dobody =
        some (if dobody = true then Int.bmod (re - rs) (2 ^ 64) else 0) ∧
      (httpFileresponse huge (some spec.text) size dobody).contentRange = some (rs, re, size) := by
  unfold fileContentLength
  unfold httpFileresponse at h206 ⊢
  rw [Option.bind_some, scanRange_text, hs] at h206 ⊢
  dsimp only at h206 ⊢
  by_cases hbad : re < rs ∨ (size : ℤ) < re % 2 ^ 64
  · rw [if_pos hbad] at h206
    exact absurd h206 (by decide)
  · rw [if_neg hbad, if_neg hbad]
    exact ⟨rfl, rfl⟩

/-- No range is served as it is selected. -/
theorem not_rangeServed (huge : ℤ → ℤ) (spec : RangeSpec) (size : ℕ) (dobody : Bool) :
    ¬RangeServed huge spec size dobody := by
  rintro ⟨first, last, hsel, h206, hlength, hrange, -⟩
  obtain ⟨hl, hr⟩ := reply_text huge spec size dobody rfl h206
  rw [hl, Option.some.injEq] at hlength
  rw [hr, Option.some.injEq, Prod.mk.injEq, Prod.mk.injEq] at hrange
  obtain ⟨hrs, hre, -⟩ := hrange
  rw [hrs, hre] at hlength
  have hle := (selected_le hsel).1
  split_ifs at hlength
  · -- the length would be one more than the distance of the ends
    rw [Int.bmod_def] at hlength
    split_ifs at hlength <;> omega
  · omega

/-- The first five of ten bytes : four are announced. -/
theorem not_rangeServed_firstFive :
    ∃ spec : RangeSpec, spec.text = ascii "bytes=0-4" ∧ spec.selected 10 = some (0, 4) ∧
      fileContentLength id (some spec.text) 10 true = some 4 ∧ ¬RangeServed id spec 10 true := by
  refine ⟨.firstLast ⟨ascii "0", by decide +kernel, by decide +kernel⟩
    ⟨ascii "4", by decide +kernel, by decide +kernel⟩, rfl, rfl, by decide +kernel, ?_⟩
  rintro ⟨first, last, hsel, -, hlength, -⟩
  have hfour : fileContentLength id (some (ascii "bytes=0-4")) 10 true = some 4 := by
    decide +kernel
  obtain ⟨rfl, rfl⟩ := Prod.mk.inj (Option.some.inj hsel)
  exact absurd (Option.some.inj (hfour.symm.trans hlength)) (by decide)

end Webxs
