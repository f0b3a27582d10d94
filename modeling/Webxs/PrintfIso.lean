import Mathlib.Data.Nat.Digits.Lemmas
import Webxs.PrintfText

/-!
# Integers as ISO C prints them

`isoText` is what a conversion `d`, `i`, `u`, `o`, `x` or `X` of ISO C is for a value : the digits
of the precision, the sign or the prefix, and the padding of the width around both. `printedText` is
what `xs_sprintf_core` makes of it, which counts the width for the digits alone and writes the
zeros of a precision in front of the padding. `printedText_eq_iff` says when they are the same.
-/

namespace Webxs

/-! ## The texts -/

/-- A digit. -/
def digitByte (upper : Bool) (d : ℕ) : UInt8 :=
  UInt8.ofNat (if d < 10 then d + 48 else if upper then d + 55 else d + 87)

/-- The digits of a number, the last one first. Zero has one. -/
def lowDigits (r v : ℕ) : List ℕ :=
  if v = 0 then [0] else Nat.digits r v

/-- The digits of a number. Zero has none. -/
def numeral (r : ℕ) (upper : Bool) (v : ℕ) : List UInt8 :=
  (Nat.digits r v).reverse.map (digitByte upper)

/-- A field of width `w` : a sign or a prefix, and digits. -/
def isoField (left zero : Bool) (w : ℕ) (sign ds : List UInt8) : List UInt8 :=
  let k := w - (sign.length + ds.length)
  if left then sign ++ ds ++ List.replicate k 32
  else if zero then sign ++ List.replicate k 48 ++ ds
  else List.replicate k 32 ++ sign ++ ds

/-- The digits of a number with a precision, 1 if none is given; `#` makes the first digit of an
octal number a zero. -/
def isoDigits (f : Flags) (p : Option ℕ) (r : ℕ) (c : UInt8) (v : ℕ) : List UInt8 :=
  let num := numeral r (c = 88) v
  let ds := List.replicate (p.getD 1 - num.length) 48 ++ num
  if f.alt = true ∧ r = 8 ∧ ds.head? ≠ some 48 then 48 :: ds else ds

/-- The sign of a signed conversion, or the prefix of an unsigned one. -/
def isoSign (f : Flags) (signed : Bool) (r : ℕ) (c : UInt8) (v : ℤ) : List UInt8 :=
  if signed then
    if v < 0 then [45] else if f.plus then [43] else if f.space then [32] else []
  else if f.alt = true ∧ r = 16 ∧ v ≠ 0 then [48, c] else []

/-- The conversion of `v`. A `0` flag counts if there is no precision. -/
def isoText (f : Flags) (w : ℕ) (p : Option ℕ) (signed : Bool) (r : ℕ) (c : UInt8) (v : ℤ) :
    List UInt8 :=
  isoField f.left (f.zero && p.isNone) w (isoSign f signed r c v) (isoDigits f p r c v.natAbs)

/-- Digits that are padded to `w`. -/
def fieldText (left : Bool) (pad : UInt8) (w : ℕ) (ds : List UInt8) : List UInt8 :=
  if left then ds ++ List.replicate (w - ds.length) pad
  else List.replicate (w - ds.length) pad ++ ds

/-- What is written behind the sign. -/
def numberText (f : Flags) (w : ℕ) (p : Option ℕ) (ds : List UInt8) : List UInt8 :=
  List.replicate (p.getD 0 - ds.length) 48 ++ fieldText f.left (if f.zero then 48 else 32) w ds

/-- The sign that is written for the value `z`, which has 64 bits if it is `wide`. -/
def printedSign (f : Flags) (wide : Bool) (r : ℕ) (c : UInt8) (z : ℤ) : List UInt8 :=
  if z < 0 then [45]
  else if f.plus then [43]
  else if f.space then [32]
  else if f.alt = true ∧ wide = false ∧ z ≠ 0 then
    if r = 8 then [48] else if r = 16 then [48, c] else []
  else []

/-- The digits that are written. -/
def printedDigits (r : ℕ) (c : UInt8) (z : ℤ) : List UInt8 :=
  if z = 0 then [48] else numeral r (c = 88) z.natAbs

/-- What `xs_sprintf_core` writes. -/
def printedText (f : Flags) (w : ℕ) (p : Option ℕ) (wide : Bool) (r : ℕ) (c : UInt8) (z : ℤ) :
    List UInt8 :=
  printedSign f wide r c z ++
    if z = 0 ∧ p = some 0 then [] else numberText f w p (printedDigits r c z)

/-! ## Digits one by one -/

section LowDigits

variable {r v : ℕ}

theorem lowDigits_eq (hr : 2 ≤ r) :
    lowDigits r v = v % r :: if 0 < v / r then lowDigits r (v / r) else [] := by
  unfold lowDigits
  by_cases hv : v = 0
  · rw [hv, if_pos rfl, Nat.zero_div, Nat.zero_mod, if_neg (Nat.lt_irrefl 0)]
  · rw [if_neg hv, Nat.digits_def' hr (Nat.pos_of_ne_zero hv)]
    by_cases hq : 0 < v / r
    · rw [if_pos hq, if_neg hq.ne']
    · rw [if_neg hq, Nat.eq_zero_of_not_pos hq, Nat.digits_zero]

theorem lowDigits_pos (hr : 2 ≤ r) : 0 < (lowDigits r v).length := by
  rw [lowDigits_eq hr, List.length_cons]
  exact Nat.succ_pos _

theorem lowDigits_reverse (upper : Bool) :
    ((lowDigits r v).map (digitByte upper)).reverse =
      if v = 0 then [48] else numeral r upper v := by
  unfold lowDigits numeral
  split_ifs
  · rfl
  · exact List.map_reverse.symm

end LowDigits

/-! ## Fields -/

section Fields

variable {f : Flags} {left zero : Bool} {w : ℕ} {p : Option ℕ} {sign ds : List UInt8} {a : UInt8}

theorem length_isoField :
    (isoField left zero w sign ds).length = max w (sign.length + ds.length) := by
  unfold isoField
  dsimp only
  split_ifs <;> simp only [List.length_append, List.length_replicate] <;> omega

theorem mem_isoField (h : a ∈ isoField left zero w sign ds) :
    a = 32 ∨ a = 48 ∨ a ∈ sign ∨ a ∈ ds := by
  unfold isoField at h
  dsimp only at h
  split_ifs at h <;> simp only [List.mem_append, List.mem_replicate] at h <;> tauto

theorem mem_isoField_sign (h : a ∈ sign) : a ∈ isoField left zero w sign ds := by
  unfold isoField
  dsimp only
  split_ifs <;> simp only [List.mem_append, h, true_or, or_true]

theorem isoField_of_le (h : w ≤ sign.length + ds.length) :
    isoField left zero w sign ds = sign ++ ds := by
  unfold isoField
  dsimp only
  rw [Nat.sub_eq_zero_of_le h]
  split_ifs <;> simp

theorem length_fieldText (pad : UInt8) :
    (fieldText left pad w ds).length = max w ds.length := by
  unfold fieldText
  split_ifs <;> simp only [List.length_append, List.length_replicate] <;> omega

theorem fieldText_of_le (pad : UInt8) (h : w ≤ ds.length) : fieldText left pad w ds = ds := by
  unfold fieldText
  rw [Nat.sub_eq_zero_of_le h]
  split_ifs <;> simp

theorem length_numberText :
    (numberText f w p ds).length = p.getD 0 - ds.length + max w ds.length := by
  unfold numberText
  rw [List.length_append, List.length_replicate, length_fieldText]

theorem mem_numberText (h : a ∈ numberText f w p ds) : a = 48 ∨ a = 32 ∨ a ∈ ds := by
  unfold numberText fieldText at h
  split_ifs at h <;> simp only [List.mem_append, List.mem_replicate] at h <;> tauto

/-- A number without padding. -/
theorem numberText_of_le (h : w ≤ ds.length) :
    numberText f w p ds = List.replicate (p.getD 0 - ds.length) 48 ++ ds := by
  unfold numberText
  rw [fieldText_of_le _ h]

/-- The padding of digits alone is the same if zeros are written in front of them only, and not
where ISO C ignores the flag. -/
theorem fieldText_eq_iff (hw : ds.length < w) :
    fieldText f.left (if f.zero then 48 else 32) w ds =
        isoField f.left (f.zero && p.isNone) w [] ds ↔
      ¬(f.zero = true ∧ (f.left = true ∨ p.isSome = true)) := by
  have hk : w - ds.length ≠ 0 := by omega
  unfold fieldText isoField
  simp only [List.length_nil, Nat.zero_add, List.nil_append, List.append_nil]
  cases f.left <;> cases f.zero <;> cases p <;> simp [hk]

/-- Behind the same sign, with the same digits, the texts are the same if there is nothing to pad,
or neither a sign nor zeros of the precision in front of the padding. -/
theorem sign_numberText_eq_iff :
    sign ++ numberText f w p ds = isoField f.left (f.zero && p.isNone) w sign
        (List.replicate (p.getD 0 - ds.length) 48 ++ ds) ↔
      w ≤ ds.length ∨ sign = [] ∧ p.getD 0 ≤ ds.length ∧
        ¬(f.zero = true ∧ (f.left = true ∨ p.isSome = true)) := by
  by_cases hw : w ≤ ds.length
  · refine iff_of_true ?_ (.inl hw)
    rw [numberText_of_le hw, isoField_of_le]
    rw [List.length_append]
    omega
  rw [or_iff_right hw]
  by_cases hfront : sign = [] ∧ p.getD 0 ≤ ds.length
  · obtain ⟨rfl, hp⟩ := hfront
    rw [numberText, Nat.sub_eq_zero_of_le hp]
    simp only [List.replicate_zero, List.nil_append, true_and, hp]
    exact fieldText_eq_iff (Nat.lt_of_not_le hw)
  · refine iff_of_false (fun h => hfront ?_) fun h => hfront ⟨h.1, h.2.1⟩
    have hlen := congrArg List.length h
    rw [List.length_append, length_numberText, length_isoField, List.length_append,
      List.length_replicate] at hlen
    rw [← List.length_eq_zero_iff]
    omega

/-- A sign alone is padded to the width. -/
theorem sign_eq_iff : sign = isoField left zero w sign [] ↔ w ≤ sign.length := by
  constructor
  · intro h
    have hlen := congrArg List.length h
    rw [length_isoField, List.length_nil] at hlen
    omega
  · intro h
    rw [isoField_of_le (by rw [List.length_nil]; omega), List.append_nil]

/-- An octal number of the 32-bit path gets its zero behind `#` in front of everything else. -/
theorem zero_numberText_eq_iff :
    48 :: numberText f w p ds = isoField left zero w []
        (if p.getD 0 ≤ ds.length then 48 :: ds
          else List.replicate (p.getD 0 - ds.length) 48 ++ ds) ↔
      w ≤ ds.length ∧ p.getD 0 ≤ ds.length := by
  constructor
  · intro h
    have hlen := congrArg List.length h
    rw [List.length_cons, length_numberText, length_isoField, List.length_nil, Nat.zero_add,
      apply_ite List.length, List.length_append, List.length_replicate, List.length_cons] at hlen
    split_ifs at hlen <;> omega
  · rintro ⟨hw, hp⟩
    rw [numberText_of_le hw, if_pos hp, isoField_of_le (by rw [List.length_cons]; omega),
      Nat.sub_eq_zero_of_le hp]
    rfl

/-- An octal number of the 64-bit path gets no zero behind `#` but one of the padding. -/
theorem fieldText_eq_zero_iff (hds : ds.head? ≠ some 48) (hpos : 0 < ds.length) :
    fieldText f.left (if f.zero then 48 else 32) w ds =
        isoField f.left (f.zero && p.isNone) w [] (48 :: ds) ↔
      f.left = false ∧ f.zero = true ∧ ds.length < w ∧ (p = none ∨ w = ds.length + 1) := by
  obtain ⟨d, ds, rfl⟩ := List.exists_cons_of_length_pos hpos
  have hd : d ≠ 48 := fun h => hds (by rw [h]; rfl)
  rcases Nat.lt_or_ge (d :: ds).length w with hw | hw
  swap
  · rw [fieldText_of_le _ hw, isoField_of_le (by simp only [List.length_cons] at hw ⊢; omega)]
    refine iff_of_false (fun h => ?_) fun h => by omega
    have hlen := congrArg List.length h
    simp at hlen
  obtain ⟨k, rfl⟩ : ∃ k, w = (d :: ds).length + 1 + k := ⟨w - (d :: ds).length - 1, by omega⟩
  have hpads : (d :: ds).length + 1 + k - (d :: ds).length = k + 1 := by omega
  have hpads' : (d :: ds).length + 1 + k - (([] : List UInt8).length + (48 :: d :: ds).length) =
      k := by
    simp only [List.length_nil, List.length_cons]
    omega
  have hwidth : (d :: ds).length + 1 + k = (d :: ds).length + 1 ↔ k = 0 := by omega
  unfold fieldText isoField
  dsimp only
  rw [hpads, hpads', hwidth]
  simp only [List.nil_append, List.append_nil, hw, true_and]
  cases f.left with
  | true => simp [hd]
  | false =>
    cases f.zero with
    | false => simp [List.replicate_succ']
    | true =>
      cases p with
      | none => simp [List.replicate_succ']
      | some q =>
        cases k with
        | zero => simp
        | succ k => simp [List.replicate_succ]

end Fields

/-! ## Digits -/

section Digits

variable {f : Flags} {p : Option ℕ} {r : ℕ} {c a : UInt8} {z : ℤ} {upper : Bool} {v : ℕ}

theorem digitByte_plain : ∀ upper, ∀ d < 16,
    digitByte upper d ∉ [32, 43, 45, 88, 120] ∧ (digitByte upper d = 48 → d = 0) := by
  decide

theorem mem_numeral (h2 : 2 ≤ r) (h16 : r ≤ 16) (h : a ∈ numeral r upper v) :
    a ∉ [32, 43, 45, 88, 120] := by
  obtain ⟨d, hd, rfl⟩ := List.mem_map.mp h
  have hlt : d < r := Nat.digits_lt_base h2 (List.mem_reverse.mp hd)
  exact (digitByte_plain upper d (by omega)).1

/-- A number other than zero has digits, and the first is not a zero. -/
theorem numeral_head (h2 : 2 ≤ r) (h16 : r ≤ 16) (hv : v ≠ 0) :
    0 < (numeral r upper v).length ∧ (numeral r upper v).head? ≠ some 48 := by
  have hne : Nat.digits r v ≠ [] := Nat.digits_ne_nil_iff_ne_zero.mpr hv
  refine ⟨?_, fun h => ?_⟩
  · rw [numeral, List.length_map, List.length_reverse]
    exact List.length_pos_of_ne_nil hne
  · rw [numeral, List.head?_map, List.head?_reverse, List.getLast?_eq_some_getLast hne,
      Option.map_some, Option.some.injEq] at h
    have hlt : (Nat.digits r v).getLast hne < r := Nat.digits_lt_base h2 (List.getLast_mem hne)
    exact Nat.getLast_digit_ne_zero r hv ((digitByte_plain upper _ (by omega)).2 h)

theorem length_printedDigits_pos (h2 : 2 ≤ r) (h16 : r ≤ 16) :
    0 < (printedDigits r c z).length := by
  unfold printedDigits
  split_ifs with hz
  · exact Nat.one_pos
  · exact (numeral_head h2 h16 (Int.natAbs_ne_zero.mpr hz)).1

theorem mem_printedDigits (h2 : 2 ≤ r) (h16 : r ≤ 16) (h : a ∈ printedDigits r c z) :
    a ∉ [32, 43, 45, 88, 120] := by
  unfold printedDigits at h
  split_ifs at h
  · rw [List.mem_singleton.mp h]
    decide
  · exact mem_numeral h2 h16 h

/-- The digits of ISO C but for `#`, if any are printed. -/
theorem zeros_numeral (h2 : 2 ≤ r) (h16 : r ≤ 16) (hsilent : ¬(z = 0 ∧ p = some 0)) :
    List.replicate (p.getD 1 - (numeral r (c = 88) z.natAbs).length) 48 ++
        numeral r (c = 88) z.natAbs =
      List.replicate (p.getD 0 - (printedDigits r c z).length) 48 ++ printedDigits r c z := by
  unfold printedDigits
  by_cases hz : z = 0
  · subst hz
    rw [if_pos rfl]
    have hnum : numeral r (c = 88) (0 : ℤ).natAbs = [] := by
      rw [Int.natAbs_zero, numeral, Nat.digits_zero]
      rfl
    rw [hnum, List.append_nil, List.length_nil, List.length_singleton, ← List.replicate_succ']
    congr 1
    cases p with
    | none => rfl
    | some q =>
      have : q ≠ 0 := fun h => hsilent ⟨rfl, by rw [h]⟩
      simp only [Option.getD_some]
      omega
  · rw [if_neg hz]
    cases p with
    | none =>
      have hpos : 0 < (numeral r (c = 88) z.natAbs).length :=
        (numeral_head h2 h16 (Int.natAbs_ne_zero.mpr hz)).1
      simp only [Option.getD_none]
      rw [show 1 - (numeral r (c = 88) z.natAbs).length = 0 by omega, Nat.zero_sub]
    | some q => rfl

/-- Only a sign or the letter of a prefix is neither a space nor a digit. -/
theorem mem_isoText {f : Flags} {w : ℕ} {signed : Bool} {z : ℤ} (h2 : 2 ≤ r) (h16 : r ≤ 16)
    (h : a ∈ isoText f w p signed r c z) (ha : a ∈ [32, 43, 45, 88, 120]) :
    a = 32 ∨ a ∈ isoSign f signed r c z := by
  have h48 : a ≠ 48 := fun h48 => by
    rw [h48] at ha
    exact absurd ha (by decide)
  obtain h | h | h | h := mem_isoField h
  · exact .inl h
  · exact absurd h h48
  · exact .inr h
  · refine absurd h fun h => ?_
    have hds : a = 48 ∨ a ∈ numeral r (c = 88) z.natAbs := by
      unfold isoDigits at h
      dsimp only at h
      split_ifs at h <;> simp only [List.mem_cons, List.mem_append, List.mem_replicate] at h <;>
        tauto
    obtain h | h := hds
    · exact h48 h
    · exact mem_numeral h2 h16 h ha

theorem mem_printed {f : Flags} {w : ℕ} (h2 : 2 ≤ r) (h16 : r ≤ 16)
    (h : a ∈ numberText f w p (printedDigits r c z)) (ha : a ∈ [32, 43, 45, 88, 120]) :
    a = 32 := by
  obtain h | h | h := mem_numberText h
  · rw [h] at ha
    exact absurd ha (by decide)
  · exact h
  · exact absurd ha (mem_printedDigits h2 h16 h)

/-- The digits with their precision. -/
theorem isoDigits_eq {f : Flags} (h2 : 2 ≤ r) (h16 : r ≤ 16) (hsilent : ¬(z = 0 ∧ p = some 0)) :
    isoDigits f p r c z.natAbs =
      if f.alt = true ∧ r = 8 ∧ z ≠ 0 ∧ p.getD 0 ≤ (printedDigits r c z).length then
        48 :: printedDigits r c z
      else List.replicate (p.getD 0 - (printedDigits r c z).length) 48 ++ printedDigits r c z := by
  have hpos : 0 < (printedDigits r c z).length := length_printedDigits_pos h2 h16
  unfold isoDigits
  dsimp only
  rw [zeros_numeral h2 h16 hsilent]
  have hhead : (List.replicate (p.getD 0 - (printedDigits r c z).length) 48 ++
      printedDigits r c z).head? ≠ some 48 ↔
        z ≠ 0 ∧ p.getD 0 ≤ (printedDigits r c z).length := by
    by_cases hp : p.getD 0 ≤ (printedDigits r c z).length
    · rw [Nat.sub_eq_zero_of_le hp, List.replicate_zero, List.nil_append, and_iff_left hp]
      by_cases hz : z = 0
      · rw [printedDigits, if_pos hz]
        exact iff_of_false (fun h => h rfl) fun h => h hz
      · rw [printedDigits, if_neg hz]
        exact iff_of_true (numeral_head h2 h16 (Int.natAbs_ne_zero.mpr hz)).2 hz
    · obtain ⟨k, hk⟩ : ∃ k, p.getD 0 - (printedDigits r c z).length = k + 1 :=
        ⟨p.getD 0 - (printedDigits r c z).length - 1, by omega⟩
      rw [hk, List.replicate_succ]
      exact iff_of_false (fun h => h rfl) fun h => hp h.2
  simp only [hhead]
  by_cases h : f.alt = true ∧ r = 8 ∧ z ≠ 0 ∧ p.getD 0 ≤ (printedDigits r c z).length
  · rw [if_pos h, if_pos h, Nat.sub_eq_zero_of_le h.2.2.2]
    rfl
  · rw [if_neg h, if_neg h]

end Digits

/-! ## When the texts are the same -/

/-- Digits alone : nothing of the precision stands in front of the padding, and zeros fill the
field only where ISO C has them. -/
def FillsField (f : Flags) (p : Option ℕ) (n : ℕ) : Prop :=
  p.getD 0 ≤ n ∧ ¬(f.zero = true ∧ (f.left = true ∨ p.isSome = true))

/-- For a value `z` of `n` digits what is written is what ISO C has. -/
def FollowsIso (f : Flags) (w : ℕ) (p : Option ℕ) (signed wide : Bool) (r n : ℕ) (z : ℤ) : Prop :=
  if z = 0 ∧ p = some 0 then
    if signed then w ≤ if f.plus || f.space then 1 else 0
    else f.plus = false ∧ ¬(f.alt = true ∧ r = 8) ∧ w = if f.space then 1 else 0
  else if signed then
    w ≤ n ∨ (0 ≤ z ∧ f.plus = false ∧ f.space = false) ∧ FillsField f p n
  else (0 ≤ z ∧ f.plus = false ∧ f.space = false) ∧
    if f.alt = true ∧ z ≠ 0 ∧ r = 8 then
      if wide then
        if n < p.getD 0 then w ≤ n
        else f.left = false ∧ f.zero = true ∧ n < w ∧ (p = none ∨ w = n + 1)
      else w ≤ n ∧ p.getD 0 ≤ n
    else if f.alt = true ∧ z ≠ 0 ∧ r = 16 then wide = false ∧ w ≤ n
    else w ≤ n ∨ FillsField f p n

section Compare

variable {f : Flags} {w : ℕ} {p : Option ℕ} {wide : Bool} {r : ℕ} {c : UInt8} {z : ℤ}

/-- A signed number. -/
theorem printedText_signed_iff :
    printedText f w p wide 10 c z = isoText f w p true 10 c z ↔
      FollowsIso f w p true wide 10 (printedDigits 10 c z).length z := by
  have hsign : printedSign f wide 10 c z = isoSign f true 10 c z := by
    unfold printedSign isoSign
    simp
  unfold printedText isoText FollowsIso
  rw [hsign, if_pos rfl, if_pos rfl]
  by_cases hsilent : z = 0 ∧ p = some 0
  · rw [if_pos hsilent, if_pos hsilent, List.append_nil]
    obtain ⟨rfl, rfl⟩ := hsilent
    have hds : isoDigits f (some 0) 10 c (0 : ℤ).natAbs = [] := by
      simp [isoDigits, numeral]
    have hlen : (isoSign f true 10 c 0).length = if f.plus || f.space then 1 else 0 := by
      unfold isoSign
      cases f.plus <;> cases f.space <;> rfl
    rw [hds, ← hlen]
    exact sign_eq_iff
  · have hnil : isoSign f true 10 c z = [] ↔ 0 ≤ z ∧ f.plus = false ∧ f.space = false := by
      unfold isoSign
      split_ifs <;> simp_all
    rw [if_neg hsilent, if_neg hsilent, isoDigits_eq (by decide) (by decide) hsilent,
      if_neg fun h => absurd h.2.1 (by decide), sign_numberText_eq_iff, hnil]
    rfl

/-- An unsigned conversion has no sign. -/
theorem notMem_isoText {a : UInt8} {v : ℤ} (h2 : 2 ≤ r) (h16 : r ≤ 16)
    (hc : r = 16 → c = 88 ∨ c = 120) (ha : a ∈ [43, 45]) : a ∉ isoText f w p false r c v := by
  intro h
  have hmem : ∀ b ∈ ([43, 45] : List UInt8), b ∈ ([32, 43, 45, 88, 120] : List UInt8) ∧ b ≠ 32 ∧
      b ≠ 48 ∧ b ≠ 88 ∧ b ≠ 120 := by
    decide +kernel
  obtain ⟨hall, h32, h48, h88, h120⟩ := hmem a ha
  obtain h | h := mem_isoText h2 h16 h hall
  · exact h32 h
  · unfold isoSign at h
    rw [if_neg (by decide)] at h
    split_ifs at h with hpre
    · obtain h | h := List.mem_pair.mp h
      · exact h48 h
      · obtain rfl | rfl := hc hpre.2.1
        · exact h88 h
        · exact h120 h
    · cases h

/-- A letter of a prefix is in the text of ISO C, but not in a number alone. -/
theorem printed_prefix_ne (h2 : 2 ≤ r) (h16 : r ≤ 16) (hr : r = 16) (hc : c = 88 ∨ c = 120)
    (halt : f.alt = true) (hz : z ≠ 0) {sign : List UInt8} (hsign : ∀ a ∈ sign, a = 32) :
    sign ++ numberText f w p (printedDigits r c z) ≠ isoText f w p false r c z := by
  intro h
  have hmem : c ∈ isoText f w p false r c z := by
    refine mem_isoField_sign ?_
    unfold isoSign
    rw [if_neg (by decide), if_pos ⟨halt, hr, hz⟩]
    exact List.mem_cons_of_mem _ List.mem_cons_self
  have hall : c ∈ ([32, 43, 45, 88, 120] : List UInt8) ∧ c ≠ 32 := by
    obtain rfl | rfl := hc <;> decide
  rw [← h, List.mem_append] at hmem
  obtain hmem | hmem := hmem
  · exact hall.2 (hsign c hmem)
  · exact hall.2 (mem_printed h2 h16 hmem hall.1)

/-- A space in front of an unsigned number is too much. -/
theorem printed_space_ne (h2 : 2 ≤ r) (h16 : r ≤ 16) (hc : r = 16 → c = 88 ∨ c = 120)
    (hsilent : ¬(z = 0 ∧ p = some 0)) :
    [32] ++ numberText f w p (printedDigits r c z) ≠ isoText f w p false r c z := by
  by_cases hpre : f.alt = true ∧ r = 16 ∧ z ≠ 0
  · exact printed_prefix_ne h2 h16 hpre.2.1 (hc hpre.2.1) hpre.1 hpre.2.2 (by simp)
  intro h
  have hsign : isoSign f false r c z = [] := by
    unfold isoSign
    rw [if_neg (by decide), if_neg hpre]
  rw [isoText, hsign, isoDigits_eq h2 h16 hsilent] at h
  have hlen := congrArg List.length h
  rw [List.length_append, length_numberText, length_isoField, List.length_nil,
    List.length_singleton] at hlen
  split_ifs at h hlen with hoctal
  · rw [List.length_cons] at hlen
    have hw : w ≤ (printedDigits r c z).length := by omega
    rw [isoField_of_le (by simp only [List.length_nil, List.length_cons]; omega)] at h
    exact absurd (List.cons.inj h).1 (by decide)
  · rw [List.length_append, List.length_replicate] at hlen
    omega

/-- Where no digit is printed. -/
theorem silent_unsigned_iff (hplus : f.plus = false) :
    printedSign f wide r c 0 = isoText f w (some 0) false r c 0 ↔
      ¬(f.alt = true ∧ r = 8) ∧ w = if f.space then 1 else 0 := by
  have hsign : printedSign f wide r c 0 = List.replicate (if f.space then 1 else 0) 32 := by
    unfold printedSign
    rw [hplus]
    cases f.space <;> simp
  have hiso : isoText f w (some 0) false r c 0 = isoField f.left false w []
      (if f.alt = true ∧ r = 8 then [48] else []) := by
    simp [isoText, isoSign, isoDigits, numeral]
  rw [hsign, hiso]
  by_cases hoctal : f.alt = true ∧ r = 8
  · rw [if_pos hoctal]
    refine iff_of_false (fun h => ?_) fun h => h.1 hoctal
    have hmem : (48 : UInt8) ∈ isoField f.left false w [] [48] := by
      unfold isoField
      split_ifs <;> simp
    rw [← h] at hmem
    exact absurd (List.eq_of_mem_replicate hmem) (by decide)
  · rw [if_neg hoctal, iff_true_intro hoctal, true_and]
    have hfield : isoField f.left false w [] [] = List.replicate w 32 := by
      unfold isoField
      cases f.left <;> simp
    rw [hfield, List.replicate_inj]
    exact ⟨fun h => h.1.symm, fun h => ⟨h.symm, .inr rfl⟩⟩

/-- An unsigned number that no sign is written for. -/
theorem printedText_plain_iff (hr : r = 8 ∨ r = 10 ∨ r = 16) (hc : r = 16 → c = 88 ∨ c = 120)
    (hz : 0 ≤ z) (hplus : f.plus = false) (hspace : f.space = false)
    (hsilent : ¬(z = 0 ∧ p = some 0)) :
    printedText f w p wide r c z = isoText f w p false r c z ↔
      FollowsIso f w p false wide r (printedDigits r c z).length z := by
  have h2 : 2 ≤ r := by omega
  have h16 : r ≤ 16 := by omega
  have hpos : 0 < (printedDigits r c z).length := length_printedDigits_pos h2 h16
  have hsign : printedSign f wide r c z = if f.alt = true ∧ wide = false ∧ z ≠ 0 then
      if r = 8 then [48] else if r = 16 then [48, c] else [] else [] := by
    unfold printedSign
    rw [if_neg (by omega), hplus, hspace]
    rfl
  unfold printedText FollowsIso
  rw [if_neg hsilent, if_neg hsilent, if_neg (by decide), and_iff_right ⟨hz, hplus, hspace⟩]
  by_cases hoctal : f.alt = true ∧ z ≠ 0 ∧ r = 8
  · rw [if_pos hoctal]
    obtain ⟨halt, hne, h8⟩ := hoctal
    have hiso : isoSign f false r c z = [] := by
      unfold isoSign
      rw [if_neg (by decide), if_neg fun h => by omega]
    have hhead : (printedDigits r c z).head? ≠ some 48 := by
      rw [printedDigits, if_neg hne]
      exact (numeral_head h2 h16 (Int.natAbs_ne_zero.mpr hne)).2
    rw [isoText, hiso, isoDigits_eq h2 h16 hsilent]
    simp only [halt, h8, hne, ne_eq, not_false_eq_true, true_and]
    cases wide with
    | false =>
      have hzero : printedSign f false 8 c z = [48] := by
        rw [← h8, hsign, if_pos ⟨halt, rfl, hne⟩, if_pos h8]
      rw [hzero, if_neg (by decide : ¬false = true)]
      exact zero_numberText_eq_iff
    | true =>
      have hnone : printedSign f true 8 c z = [] := by
        rw [← h8, hsign, if_neg fun h => absurd h.2.1 (by decide)]
      rw [hnone, if_pos rfl]
      rw [h8] at hhead hpos
      by_cases hp : p.getD 0 ≤ (printedDigits 8 c z).length
      · rw [if_pos hp, if_neg (by omega), numberText, Nat.sub_eq_zero_of_le hp]
        exact fieldText_eq_zero_iff hhead hpos
      · rw [if_neg hp, if_pos (by omega), sign_numberText_eq_iff]
        exact or_iff_left fun h => hp h.2.1
  rw [if_neg hoctal]
  have hdigits : isoDigits f p r c z.natAbs = List.replicate
      (p.getD 0 - (printedDigits r c z).length) 48 ++ printedDigits r c z := by
    rw [isoDigits_eq h2 h16 hsilent, if_neg fun h => hoctal ⟨h.1, h.2.2.1, h.2.1⟩]
  by_cases hhex : f.alt = true ∧ z ≠ 0 ∧ r = 16
  · rw [if_pos hhex]
    obtain ⟨halt, hne, hr16⟩ := hhex
    cases wide with
    | false =>
      have hpre : printedSign f false r c z = isoSign f false r c z := by
        rw [hsign, isoSign, if_pos ⟨halt, rfl, hne⟩, if_neg (by omega), if_pos hr16,
          if_neg (by decide), if_pos ⟨halt, hr16, hne⟩]
      have hcons : isoSign f false r c z ≠ [] := by
        rw [isoSign, if_neg (by decide), if_pos ⟨halt, hr16, hne⟩]
        exact List.cons_ne_nil _ _
      rw [hpre, isoText, hdigits, sign_numberText_eq_iff, and_iff_right rfl]
      exact or_iff_left fun h => hcons h.1
    | true =>
      have hnone : printedSign f true r c z = [] := by
        rw [hsign, if_neg fun h => absurd h.2.1 (by decide)]
      rw [hnone]
      exact iff_of_false (printed_prefix_ne h2 h16 hr16 (hc hr16) halt hne (by simp))
        fun h => absurd h.1 (by decide)
  · rw [if_neg hhex]
    have hnone : printedSign f wide r c z = [] := by
      rw [hsign]
      split_ifs with h h8 h16
      · exact absurd ⟨h.1, h.2.2, h8⟩ hoctal
      · exact absurd ⟨h.1, h.2.2, h16⟩ hhex
      · rfl
      · rfl
    have hiso : isoSign f false r c z = [] := by
      rw [isoSign, if_neg (by decide), if_neg fun h => hhex ⟨h.1, h.2.2, h.2.1⟩]
    rw [hnone, isoText, hiso, hdigits, sign_numberText_eq_iff, and_iff_right rfl]
    rfl

/-- An unsigned number : a negative one of the signed type and a plus are never right. -/
theorem printedText_unsigned_iff (hr : r = 8 ∨ r = 10 ∨ r = 16)
    (hc : r = 16 → c = 88 ∨ c = 120) {v : ℤ} (hv : 0 ≤ z → v = z) :
    printedText f w p wide r c z = isoText f w p false r c v ↔
      FollowsIso f w p false wide r (printedDigits r c z).length z := by
  have h2 : 2 ≤ r := by omega
  have h16 : r ≤ 16 := by omega
  have hfollows : FollowsIso f w p false wide r (printedDigits r c z).length z →
      0 ≤ z ∧ f.plus = false := by
    unfold FollowsIso
    by_cases hsilent : z = 0 ∧ p = some 0
    · rw [if_pos hsilent, if_neg (by decide)]
      exact fun h => ⟨by omega, h.1⟩
    · rw [if_neg hsilent, if_neg (by decide)]
      exact fun h => ⟨h.1.1, h.1.2.1⟩
  have hsigned : ∀ a ∈ ([43, 45] : List UInt8), a ∈ printedSign f wide r c z →
      ¬printedText f w p wide r c z = isoText f w p false r c v := by
    intro a ha hmem h
    have hiso : a ∈ isoText f w p false r c v := by
      rw [← h]
      exact List.mem_append_left _ hmem
    exact notMem_isoText h2 h16 hc ha hiso
  by_cases hz : z < 0
  · refine iff_of_false (hsigned 45 (by decide) ?_) fun h => by have := hfollows h; omega
    rw [printedSign, if_pos hz]
    exact List.mem_singleton_self _
  obtain rfl := hv (by omega)
  by_cases hplus : f.plus = true
  · refine iff_of_false (hsigned 43 (by decide) ?_) fun h => by
      rw [(hfollows h).2] at hplus
      cases hplus
    rw [printedSign, if_neg hz, if_pos hplus]
    exact List.mem_singleton_self _
  rw [Bool.not_eq_true] at hplus
  by_cases hsilent : v = 0 ∧ p = some 0
  · obtain ⟨rfl, rfl⟩ := hsilent
    unfold printedText FollowsIso
    rw [if_pos ⟨rfl, rfl⟩, if_pos ⟨rfl, rfl⟩, if_neg (by decide), List.append_nil,
      silent_unsigned_iff hplus, and_iff_right hplus]
  cases hspace : f.space with
  | false => exact printedText_plain_iff hr hc (by omega) hplus hspace hsilent
  | true =>
    refine iff_of_false ?_ fun h => ?_
    · unfold printedText
      rw [if_neg hsilent, printedSign, if_neg hz, hplus, hspace]
      exact printed_space_ne h2 h16 hc hsilent
    · unfold FollowsIso at h
      rw [if_neg hsilent, if_neg (by decide), hspace] at h
      exact absurd h.1.2.2 (by decide)

end Compare

end Webxs
