import Webxs.Heads
import Webxs.PrintfBounds
import Webxs.PrintfIso

/-!
# Integer conversions

An `IntSpec` is a `%` with flags, a width, a precision and one of the conversions `d`, `i`, `u`,
`o`, `x` and `X`, and an `IntArg` is its argument with the modifier that says how wide it is. The
format is read as a single item (`IntSpec.matches_format`), which is written as `printedText` says
(`IntSpec.rendered_item`). So `xs_sprintf` produces what ISO C has exactly if the texts are the
same (`IntSpec.produces_iff`).
-/

namespace Webxs

/-! ## Conversions -/

inductive Flag
  | zero
  | left
  | plus
  | space
  | alt
  deriving DecidableEq

def Flag.byte : Flag → UInt8
  | .zero => 48
  | .left => 45
  | .plus => 43
  | .space => 32
  | .alt => 35

def digitChar (d : Fin 10) : UInt8 :=
  UInt8.ofNat (d.val + 48)

/-- A width or a precision : digits, or `*` and an argument. -/
inductive Amount
  | digits (ds : List (Fin 10))
  | star (n : ℕ)

namespace Amount

def text : Amount → List UInt8
  | digits ds => ds.map digitChar
  | star _ => [42]

def args : Amount → List Arg
  | digits _ => []
  | star n => [.int (BitVec.ofNat 32 n)]

def value : Amount → ℕ
  | digits ds => ds.foldl (fun n d => n * 10 + d.val) 0
  | star n => n

end Amount

/-- The letter of a conversion. -/
inductive Conversion
  | d
  | i
  | u
  | o
  | x
  | X

namespace Conversion

def byte : Conversion → UInt8
  | d => 100
  | i => 105
  | u => 117
  | o => 111
  | x => 120
  | X => 88

def base : Conversion → ℕ
  | d | i | u => 10
  | o => 8
  | x | X => 16

def signed : Conversion → Bool
  | d | i => true
  | u | o | x | X => false

end Conversion

/-- An argument without modifier, with `ll` and with `z`. -/
inductive IntArg
  | int (v : BitVec 32)
  | longLong (v : BitVec 64)
  | size (v : BitVec 64)

namespace IntArg

def modifier : IntArg → List UInt8
  | int _ => []
  | longLong _ => [108, 108]
  | size _ => [122]

def arg : IntArg → Arg
  | int v => .int v
  | longLong v | size v => .int64 v

def wide : IntArg → Bool
  | int _ => false
  | longLong _ | size _ => true

/-- As a signed number. -/
def toInt : IntArg → ℤ
  | int v => v.toInt
  | longLong v | size v => v.toInt

/-- As an unsigned number. -/
def toNat : IntArg → ℕ
  | int v => v.toNat
  | longLong v | size v => v.toNat

end IntArg

/-- A conversion with a width and a precision up to 100. A zero in front of a width is a flag. -/
structure IntSpec where
  flags : List Flag
  width : Amount
  precision : Option Amount
  conv : Conversion
  width_head : ∀ ds, width = .digits ds → ds.head? ≠ some 0
  width_le : width.value ≤ 100
  precision_le : ∀ p, precision = some p → p.value ≤ 100

namespace IntSpec

variable (e : IntSpec) (v : IntArg)

/-- The flags that are given. -/
def f : Flags :=
  ⟨.zero ∈ e.flags, .left ∈ e.flags, .plus ∈ e.flags, .space ∈ e.flags, .alt ∈ e.flags⟩

/-- The precision, if there is one. -/
def p : Option ℕ :=
  e.precision.map Amount.value

def format : List UInt8 :=
  37 :: (e.flags.map Flag.byte ++ (e.width.text ++
    ((e.precision.elim [] fun p => 46 :: p.text) ++ (v.modifier ++ [e.conv.byte]))))

def args : List Arg :=
  e.width.args ++ (e.precision.elim [] Amount.args ++ [v.arg])

/-- What ISO C prints. -/
def isoText : List UInt8 :=
  Webxs.isoText e.f e.width.value e.p e.conv.signed e.conv.base e.conv.byte
    (if e.conv.signed then v.toInt else v.toNat)

/-- The number of digits of the argument. -/
def digitCount : ℕ :=
  (lowDigits e.conv.base v.toInt.natAbs).length

/-- The condition for the argument. -/
def Follows : Prop :=
  FollowsIso e.f e.width.value e.p e.conv.signed v.wide e.conv.base (e.digitCount v) v.toInt

/-- The item that is read. -/
def item : IntConv where
  f := e.f
  w := BitVec.ofNat 32 e.width.value
  pr := e.p.elim (-1) (BitVec.ofNat 32)
  vs := if v.wide then 8 else 4
  r := e.conv.base
  c := e.conv.byte
  v := match v with
    | .int v => v.signExtend 64
    | .longLong _ | .size _ => 0
  v64 := match v with
    | .int _ => 0
    | .longLong v | .size v => v

end IntSpec

/-- The characters that `xs_sprintf` leaves in a buffer. -/
def produced (str fmt : List UInt8) (ap : List Arg) : Option (List UInt8) :=
  (sprintf str fmt ap).map fun r => cstr r.2 0

/-! ## Reading -/

/-- What follows on a width or a precision. -/
def EndsNumber (l : List UInt8) : Prop :=
  ∀ a ∈ l.head?, a ∈ ([46, 100, 105, 117, 111, 120, 88, 108, 122] : List UInt8)

section Reading

variable {rest : List UInt8}

theorem endsNumber_plain : ∀ a ∈ ([46, 100, 105, 117, 111, 120, 88, 108, 122] : List UInt8),
    a ∉ ([37, 48, 45, 43, 32, 35] : List UInt8) ∧ a ≠ 42 ∧ ¬(48 ≤ a ∧ a ≤ 57) := by
  decide +kernel

theorem digit_plain : ∀ d : Fin 10,
    48 ≤ digitChar d ∧ digitChar d ≤ 57 ∧ digitChar d ≠ 42 ∧
      (digitChar d).toBitVec.setWidth 32 - 48 = BitVec.ofNat 32 d.val ∧
      (d ≠ 0 → digitChar d ∉ ([37, 48, 45, 43, 32, 35] : List UInt8)) := by
  decide +kernel

theorem endsNumber_cons {a : UInt8} {l : List UInt8}
    (h : a ∈ ([46, 100, 105, 117, 111, 120, 88, 108, 122] : List UInt8)) : EndsNumber (a :: l) := by
  intro b hb
  obtain rfl : a = b := Option.some.inj hb
  exact h

/-- Flags on top of those that were read before. -/
def Flags.add (f : Flags) (fs : List Flag) : Flags :=
  ⟨f.zero || decide (.zero ∈ fs), f.left || decide (.left ∈ fs), f.plus || decide (.plus ∈ fs),
    f.space || decide (.space ∈ fs), f.alt || decide (.alt ∈ fs)⟩

theorem readFlags_append (fs : List Flag) (f : Flags)
    (h : ∀ a ∈ rest.head?, a ∉ ([48, 45, 43, 32, 35] : List UInt8)) :
    readFlags f (fs.map Flag.byte ++ rest) = (f.add fs, rest) := by
  induction fs generalizing f with
  | nil =>
    have hadd : f.add [] = f := by
      simp [Flags.add]
    rw [hadd, List.map_nil, List.nil_append]
    cases rest with
    | nil => rfl
    | cons a rest =>
      have ha := h a rfl
      simp only [List.mem_cons, List.not_mem_nil, or_false, not_or] at ha
      rw [readFlags, if_neg ha.1, if_neg ha.2.1, if_neg ha.2.2.1, if_neg ha.2.2.2.1,
        if_neg ha.2.2.2.2]
  | cons g fs ih =>
    rw [List.map_cons, List.cons_append, readFlags]
    cases g <;> simp [Flag.byte, ih, Flags.add]

theorem readDigits_append (ds : List (Fin 10)) (n : ℕ)
    (h : ∀ a ∈ rest.head?, ¬(48 ≤ a ∧ a ≤ 57)) :
    readDigits (BitVec.ofNat 32 n) (ds.map digitChar ++ rest) =
      (BitVec.ofNat 32 (ds.foldl (fun n d => n * 10 + d.val) n), rest) := by
  induction ds generalizing n with
  | nil =>
    rw [List.map_nil, List.nil_append, List.foldl_nil]
    cases rest with
    | nil => rfl
    | cons a rest => rw [readDigits, if_neg (h a rfl)]
  | cons d ds ih =>
    obtain ⟨hge, hle, -, hd, -⟩ := digit_plain d
    have hstep : BitVec.ofNat 32 n * 10 + ((digitChar d).toBitVec.setWidth 32 - 48) =
        BitVec.ofNat 32 (n * 10 + d.val) := by
      rw [BitVec.ofNat_add, BitVec.ofNat_mul, hd]
      rfl
    rw [List.map_cons, List.cons_append, readDigits, if_pos ⟨hge, hle⟩, hstep, ih,
      List.foldl_cons]

theorem readWidth_text (a : Amount) (ap : List Arg) (h : EndsNumber rest) :
    readWidth (a.text ++ rest) (a.args ++ ap) = some (BitVec.ofNat 32 a.value, rest, ap) := by
  cases a with
  | star n => rfl
  | digits ds =>
    have hdigits : readDigits 0 (ds.map digitChar ++ rest) =
        (BitVec.ofNat 32 (Amount.digits ds).value, rest) :=
      readDigits_append ds 0 fun a ha => (endsNumber_plain a (h a ha)).2.2
    have hhead : ∀ l, ds.map digitChar ++ rest ≠ 42 :: l := by
      intro l hl
      cases ds with
      | nil =>
        rw [List.map_nil, List.nil_append] at hl
        subst hl
        exact (endsNumber_plain 42 (h 42 rfl)).2.1 rfl
      | cons d ds => exact (digit_plain d).2.2.1 (List.cons.inj hl).1
    unfold readWidth
    split
    · rename_i l hl
      exact absurd hl (hhead l)
    · rw [Amount.text, hdigits]
      rfl

theorem readPrecision_text (p : Option Amount) (ap : List Arg) (h : EndsNumber rest)
    (hpoint : rest.head? ≠ some 46) :
    readPrecision ((p.elim [] fun p => 46 :: p.text) ++ rest) (p.elim [] Amount.args ++ ap) =
      some ((p.map Amount.value).elim (-1) (BitVec.ofNat 32), rest, ap) := by
  cases p with
  | some p => exact readWidth_text p ap h
  | none =>
    unfold readPrecision
    split
    · rename_i l hl
      exact absurd (congrArg List.head? hl) hpoint
    · rfl

theorem conv_ends (c : Conversion) (v : IntArg) : EndsNumber (v.modifier ++ [c.byte]) := by
  cases v <;> cases c <;> exact endsNumber_cons (by decide)

theorem conv_head (c : Conversion) (v : IntArg) : (v.modifier ++ [c.byte]).head? ≠ some 46 := by
  cases v <;> cases c <;> exact fun h => absurd (Option.some.inj h) (by decide)

theorem readModifier_conv (c : Conversion) (v : IntArg) :
    readModifier (v.modifier ++ [c.byte]) = (if v.wide then 8 else 4, [c.byte]) := by
  cases v <;> cases c <;> rfl

namespace IntSpec

variable (e : IntSpec) (v : IntArg)

theorem precision_ends :
    EndsNumber ((e.precision.elim [] fun p => 46 :: p.text) ++ (v.modifier ++ [e.conv.byte])) := by
  cases e.precision with
  | none => exact conv_ends e.conv v
  | some p => exact endsNumber_cons List.mem_cons_self

/-- No flag stands in front of the width, and no `%`. -/
theorem width_plain {rest : List UInt8} (h : EndsNumber rest) :
    ∀ a ∈ (e.width.text ++ rest).head?, a ∉ ([37, 48, 45, 43, 32, 35] : List UInt8) := by
  intro a ha
  cases hw : e.width with
  | star n =>
    rw [hw] at ha
    obtain rfl : 42 = a := Option.some.inj ha
    decide
  | digits ds =>
    rw [hw] at ha
    cases ds with
    | nil => exact (endsNumber_plain a (h a ha)).1
    | cons d ds =>
      obtain rfl : digitChar d = a := Option.some.inj ha
      have hd : d ≠ 0 := fun hd => e.width_head _ hw (congrArg some hd)
      exact (digit_plain d).2.2.2.2 hd

theorem readConversion_conv (ap : List Arg) :
    readConversion e.f (BitVec.ofNat 32 e.width.value) (e.p.elim (-1) (BitVec.ofNat 32))
      (if v.wide then 8 else 4) e.conv.byte (v.arg :: ap) = some (.int (e.item v), ap) := by
  unfold item
  cases v <;> cases e.conv <;> rfl

theorem readFlags_format :
    readFlags ⟨false, false, false, false, false⟩ (e.format v).tail =
      (e.f, e.width.text ++ ((e.precision.elim [] fun p => 46 :: p.text) ++
        (v.modifier ++ [e.conv.byte]))) := by
  have hplain := e.width_plain (e.precision_ends v)
  rw [format, List.tail_cons, readFlags_append _ _ fun a ha hmem =>
    hplain a ha (List.mem_cons_of_mem _ hmem), Flags.add, f]
  simp only [Bool.false_or]

theorem format_head : (e.format v).tail.head? ≠ some 37 := by
  unfold format
  rw [List.tail_cons]
  cases e.flags with
  | nil => exact fun h => e.width_plain (e.precision_ends v) 37 h List.mem_cons_self
  | cons g fs =>
    refine fun h => absurd (Option.some.inj h) ?_
    cases g <;> decide

theorem readSpec_format :
    readSpec (e.format v).tail (e.args v) = some (.int (e.item v), [], []) := by
  unfold readSpec args
  rw [readFlags_format]
  dsimp only
  rw [readWidth_text e.width _ (e.precision_ends v)]
  dsimp only [Option.bind_eq_bind, Option.bind_some]
  rw [readPrecision_text e.precision [v.arg] (conv_ends e.conv v) (conv_head e.conv v)]
  dsimp only [Option.bind_eq_bind, Option.bind_some]
  rw [readModifier_conv]
  dsimp only
  rw [← p, readConversion_conv]
  rfl

/-- The format is a single item. -/
theorem matches_format : Matches (e.format v) (e.args v) [.int (e.item v)] := by
  have hread : readItem (e.format v) (e.args v) = some (.int (e.item v), [], []) := by
    unfold readItem
    split
    · rename_i fmt hfmt
      exact absurd (by rw [hfmt]; rfl) (e.format_head v)
    · rename_i fmt hfmt
      rw [← readSpec_format, hfmt, List.tail_cons]
    · rename_i hne
      exact absurd rfl (hne _)
  exact .cons (List.cons_ne_nil _ _) hread (.nil _)

end IntSpec

end Reading

/-! ## Bits and digits -/

theorem and_bit_ne_zero {n : ℕ} (x : BitVec n) (i : ℕ) :
    x &&& BitVec.twoPow n i ≠ 0 ↔ x.getLsbD i = true := by
  rw [BitVec.and_twoPow]
  by_cases h : x.getLsbD i = true
  · rw [if_pos h]
    refine iff_of_true (fun h0 => ?_) h
    have hi := BitVec.lt_of_getLsbD h
    have := congrArg (BitVec.getLsbD · i) h0
    simp [hi] at this
  · rw [if_neg h]
    exact iff_of_false (fun h0 => h0 rfl) h

theorem top_bit (x : BitVec 64) : x &&& 0x8000000000000000 ≠ 0 ↔ x.toInt < 0 := by
  rw [show (0x8000000000000000 : BitVec 64) = BitVec.twoPow 64 63 from rfl, and_bit_ne_zero,
    ← BitVec.msb_eq_getLsbD_last x, BitVec.msb_eq_toInt, decide_eq_true_iff]

theorem top_bit_signExtend (x : BitVec 32) : x.signExtend 64 &&& 0x80000000 ≠ 0 ↔ x.toInt < 0 := by
  rw [show (0x80000000 : BitVec 64) = BitVec.twoPow 64 31 from rfl, and_bit_ne_zero,
    BitVec.getLsbD_signExtend, if_pos (by decide), decide_eq_true (by decide : 31 < 64),
    Bool.true_and,
    ← BitVec.msb_eq_getLsbD_last x, BitVec.msb_eq_toInt, decide_eq_true_iff]

theorem toNat_natAbs (x : BitVec 64) :
    (if x.toInt < 0 then 0 - x else x).toNat = x.toInt.natAbs := by
  have hx := x.isLt
  have hsub : (0 - x).toNat = (2 ^ 64 - x.toNat) % 2 ^ 64 := by
    rw [BitVec.toNat_sub, BitVec.ofNat_eq_ofNat, BitVec.toNat_ofNat, Nat.zero_mod, Nat.add_zero]
  rw [BitVec.toInt_eq_toNat_cond]
  by_cases h : 2 * x.toNat < 2 ^ 64
  · rw [if_pos h, if_neg (by omega)]
    omega
  · rw [if_neg h, if_pos (by omega), hsub]
    omega

theorem byte_eq {c : UInt8} {d : ℕ} (hc : 9 < d → c = 88 ∨ c = 120) :
    (if 9 < d then UInt8.ofNat (d - 10) + (if c = 120 then 97 else 65) else UInt8.ofNat d + 48) =
      digitByte (c = 88) d := by
  unfold digitByte
  by_cases hd : 9 < d
  · rw [if_pos hd, if_neg (show ¬d < 10 by omega)]
    obtain rfl | rfl := hc hd
    · rw [if_neg (by decide), if_pos (by decide), show d + 55 = d - 10 + 65 by omega,
        UInt8.ofNat_add]
      rfl
    · rw [if_pos rfl, if_neg (by decide), show d + 87 = d - 10 + 97 by omega, UInt8.ofNat_add]
      rfl
  · rw [if_neg hd, if_pos (show d < 10 by omega), UInt8.ofNat_add]
    rfl

/-- The scratch array is large enough for all of the digits. -/
theorem convertToBackwardsStr_eq {r : ℕ} {c : UInt8} (hr : 2 ≤ r)
    (hc : 10 < r → c = 88 ∨ c = 120) {n v : ℕ} (hn : 0 < n) (hv : v < r ^ n) :
    convertToBackwardsStr n v r c = (lowDigits r v).map (digitByte (c = 88)) := by
  induction n generalizing v with
  | zero => omega
  | succ n ih =>
    have hlt : v % r < r := Nat.mod_lt v (by omega)
    have hdiv : v / r < r ^ n := Nat.div_lt_of_lt_mul (by rwa [← Nat.pow_succ'])
    rw [convertToBackwardsStr, lowDigits_eq hr, List.map_cons, byte_eq fun h => hc (by omega)]
    by_cases hq : v / r = 0
    · rw [if_pos hq, hq, if_neg (Nat.lt_irrefl 0), List.map_nil]
    · have hn : n ≠ 0 := by
        rintro rfl
        exact hq (Nat.lt_one_iff.mp hdiv)
      rw [if_neg hq, if_pos (Nat.pos_of_ne_zero hq), ih (Nat.pos_of_ne_zero hn) hdiv]
theorem signExtend_ne_zero (x : BitVec 32) : x.signExtend 64 ≠ 0 ↔ x.toInt ≠ 0 := by
  have hsame : (x.signExtend 64).toInt = x.toInt := BitVec.toInt_signExtend_of_le (by decide)
  rw [← hsame]
  exact not_congr BitVec.toInt_inj.symm

theorem toNat_of_nonneg {n : ℕ} (x : BitVec n) (h : 0 ≤ x.toInt) : (x.toNat : ℤ) = x.toInt := by
  have hx := x.isLt
  rw [BitVec.toInt_eq_toNat_cond] at h ⊢
  split_ifs at h ⊢ <;> omega

theorem toInt_ofNat {n : ℕ} (h : n ≤ 100) : (BitVec.ofNat 32 n).toInt = n := by
  rw [BitVec.toInt_ofNat', Int.bmod_eq_of_le (by omega) (by omega)]

/-! ## What is written -/

namespace IntSpec

variable (e : IntSpec) (v : IntArg)

theorem neg_item : (e.item v).neg = decide (v.toInt < 0) := by
  unfold IntConv.neg item
  cases v with
  | int v => exact decide_eq_decide.mpr (top_bit_signExtend v)
  | longLong v => exact decide_eq_decide.mpr (top_bit v)
  | size v => exact decide_eq_decide.mpr (top_bit v)

theorem magnitude_item : (e.item v).magnitude = v.toInt.natAbs := by
  unfold IntConv.magnitude
  rw [neg_item]
  simp only [decide_eq_true_eq]
  cases v with
  | int v =>
    have hsame : (v.signExtend 64).toInt = v.toInt := BitVec.toInt_signExtend_of_le (by decide)
    have habs := toNat_natAbs (v.signExtend 64)
    rw [hsame] at habs
    exact habs
  | longLong v => exact toNat_natAbs v
  | size v => exact toNat_natAbs v

theorem sign_item :
    (e.item v).sign = printedSign e.f v.wide e.conv.base e.conv.byte v.toInt := by
  have hv : (e.item v).v ≠ 0 ↔ v.wide = false ∧ v.toInt ≠ 0 := by
    cases v with
    | int v => exact (signExtend_ne_zero v).trans (iff_and_self.mpr fun _ => rfl)
    | longLong v => exact iff_of_false (fun h => h rfl) fun h => Bool.noConfusion h.1
    | size v => exact iff_of_false (fun h => h rfl) fun h => Bool.noConfusion h.1
  unfold IntConv.sign printedSign
  rw [neg_item]
  simp only [hv, decide_eq_true_eq]
  rfl

/-- The precision as it is read. -/
theorem pr_item : (e.item v).pr.toInt = (e.p.elim (-1) fun k => (k : ℤ)) := by
  show (e.p.elim (-1) (BitVec.ofNat 32)).toInt = _
  unfold p
  cases hp : e.precision with
  | none => rfl
  | some p => exact toInt_ofNat (e.precision_le p hp)

theorem silent_item : (e.item v).Silent (e.item v).pr.toInt ↔ v.toInt = 0 ∧ e.p = some 0 := by
  have hpr : (e.item v).pr.toInt = 0 ↔ e.p = some 0 := by
    rw [pr_item]
    cases e.p <;> simp
  have hzero : (e.item v).v = 0 ∧ (e.item v).v64 = 0 ↔ v.toInt = 0 := by
    cases v with
    | int v =>
      refine (and_iff_left rfl).trans (Decidable.not_iff_not.mp (signExtend_ne_zero v))
    | longLong v => exact (and_iff_right rfl).trans BitVec.toInt_inj.symm
    | size v => exact (and_iff_right rfl).trans BitVec.toInt_inj.symm
  unfold IntConv.Silent
  rw [neg_item, decide_eq_false_iff_not, hpr, hzero]
  exact ⟨fun h => ⟨h.2.2, h.2.1⟩, fun h => ⟨by omega, h.2, h.1⟩⟩

theorem two_le_base (c : Conversion) : 2 ≤ c.base ∧ c.base ≤ 16 := by
  cases c <;> decide

theorem byte_of_base {c : Conversion} (h : 10 < c.base) : c.byte = 88 ∨ c.byte = 120 := by
  cases c <;> revert h <;> decide

theorem backwards_item :
    (e.item v).backwards.reverse = printedDigits e.conv.base e.conv.byte v.toInt := by
  have hbase := two_le_base e.conv
  have habs : v.toInt.natAbs < e.conv.base ^ 64 := by
    refine lt_of_lt_of_le ?_ (Nat.pow_le_pow_left hbase.1 64)
    cases v with
    | int v => have := v.toInt_lt; have := v.le_toInt; simp only [IntArg.toInt]; omega
    | longLong v => have := v.toInt_lt; have := v.le_toInt; simp only [IntArg.toInt]; omega
    | size v => have := v.toInt_lt; have := v.le_toInt; simp only [IntArg.toInt]; omega
  unfold IntConv.backwards printedDigits
  rw [magnitude_item]
  refine (congrArg List.reverse (convertToBackwardsStr_eq hbase.1 byte_of_base (by decide)
    habs)).trans ?_
  rw [lowDigits_reverse]
  simp only [Int.natAbs_eq_zero]

/-- The zeros of the precision. -/
theorem fillCount_item : ((e.item v).fillCount (e.item v).pr.toInt).toNat =
    e.p.getD 0 - (e.item v).backwards.length := by
  have hpos := (e.item v).length_backwards_pos
  have hle := (e.item v).length_backwards_le
  rw [pr_item]
  cases hp : e.p with
  | none =>
    rw [Option.elim_none, fillCount_of_le _ (by omega) (by omega), Option.getD_none]
    omega
  | some k =>
    have hk : k ≤ 100 := by
      obtain ⟨p, hprec, rfl⟩ := Option.map_eq_some_iff.mp hp
      exact e.precision_le p hprec
    rw [Option.elim_some, fillCount_of_le _ (by omega) (by omega), Option.getD_some]
    omega

theorem rendered_item : (Item.int (e.item v)).rendered =
    printedText e.f e.width.value e.p v.wide e.conv.base e.conv.byte v.toInt := by
  have hlen : (e.item v).backwards.length = (e.item v).backwards.reverse.length :=
    List.length_reverse.symm
  have hw : (e.item v).w.toInt = e.width.value := toInt_ofNat e.width_le
  have hpads : ((e.width.value : ℤ) - (e.item v).backwards.reverse.length).toNat =
      e.width.value - (e.item v).backwards.reverse.length := by omega
  rw [Item.rendered, printedText, sign_item, ← backwards_item]
  simp only [silent_item]
  rw [IntConv.number, numberText, fieldText, fillCount_item, hlen, hw, hpads]
  rfl

theorem printedDigits_eq :
    printedDigits e.conv.base e.conv.byte v.toInt =
      ((lowDigits e.conv.base v.toInt.natAbs).map (digitByte (e.conv.byte = 88))).reverse := by
  rw [lowDigits_reverse, printedDigits]
  simp only [Int.natAbs_eq_zero]

theorem length_printedDigits :
    (printedDigits e.conv.base e.conv.byte v.toInt).length = e.digitCount v := by
  rw [printedDigits_eq, List.length_reverse, List.length_map, digitCount]

theorem length_rendered : (Item.int (e.item v)).rendered.length ≤ 202 := by
  have hw : (e.item v).w.toInt = e.width.value := toInt_ofNat e.width_le
  have hwle := e.width_le
  have hle := (e.item v).length_backwards_le
  have hpr : e.p.getD 0 ≤ 100 := by
    cases hp : e.p with
    | none => exact Nat.zero_le _
    | some k =>
      obtain ⟨p, hprec, rfl⟩ := Option.map_eq_some_iff.mp hp
      exact e.precision_le p hprec
  have hsign : (e.item v).sign.length ≤ 2 := by
    unfold IntConv.sign
    split_ifs <;> simp
  rw [Item.rendered, List.length_append]
  split_ifs
  · rw [List.length_nil]
    omega
  · rw [length_number, fillCount_item, hw, List.length_reverse]
    omega

theorem digitByte_ne_zero : ∀ upper, ∀ d < 16, digitByte upper d ≠ 0 := by
  decide

/-- No NUL is printed. -/
theorem zero_notMem_rendered : 0 ∉ (Item.int (e.item v)).rendered := by
  have hbyte : e.conv.byte ≠ 0 := by
    cases e.conv <;> decide
  have hdigits : 0 ∉ printedDigits e.conv.base e.conv.byte v.toInt := by
    unfold printedDigits
    split_ifs
    · decide
    · intro h
      obtain ⟨d, hd, h0⟩ := List.mem_map.mp h
      have hlt := Nat.digits_lt_base (two_le_base e.conv).1 (List.mem_reverse.mp hd)
      exact digitByte_ne_zero _ d (hlt.trans_le (two_le_base e.conv).2) h0
  rw [rendered_item, printedText, List.mem_append, not_or]
  constructor
  · unfold printedSign
    split_ifs <;> simp [hbyte.symm]
  · split_ifs
    · exact List.not_mem_nil
    · intro h
      obtain h | h | h := mem_numberText h
      · exact absurd h (by decide)
      · exact absurd h (by decide)
      · exact hdigits h

end IntSpec

/-- What fits is what is left in the buffer. -/
theorem produced_rendering {str fmt : List UInt8} {ap : List Arg} {is : List Item}
    (h : Matches fmt ap is) (hne : 1 < str.length) (hfit : (rendering is).length < str.length)
    (hwide : (fixed (str.length - 1)).WideFits 0 is) (h0 : 0 ∉ rendering is) :
    produced str fmt ap = some (rendering is) := by
  have hlen : str.length - 1 ≠ 0 := by omega
  obtain ⟨o, hrun, htot, hind, htake, hstr⟩ := writeItems_fixed_start _ (Nat.pos_of_ne_zero hlen)
    (Nat.sub_le str.length 1) (by omega) hwide
  have hformats : Formats str fmt ap (rendering is) := by
    refine formats_of_core (List.ne_nil_of_length_pos (by omega))
      (sprintfCore_of_fixed hlen h hrun) hstr fun _ => ?_
    rw [← hind]
    exact ⟨by rw [htot, Nat.cast_zero, add_zero], hind ▸ htake⟩
  obtain ⟨r, str', hsprintf, -, -, hout⟩ := hformats
  obtain ⟨post, hpost⟩ := (hout hfit).2
  rw [List.append_assoc, List.singleton_append] at hpost
  have hcstr : cstr str' 0 = rendering is :=
    cstr_eq (v := post) (by rw [List.drop_zero, hpost]) h0
  rw [produced, hsprintf, Option.map_some]
  exact congrArg some hcstr

namespace IntSpec

variable (e : IntSpec) (v : IntArg)

theorem produced_eq {str : List UInt8} (hlen : 256 ≤ str.length) :
    produced str (e.format v) (e.args v) =
      some (printedText e.f e.width.value e.p v.wide e.conv.base e.conv.byte v.toInt) := by
  have hrender : rendering [.int (e.item v)] = (Item.int (e.item v)).rendered :=
    List.flatMap_singleton _ _
  have hle := e.length_rendered v
  rw [← rendered_item, ← hrender]
  refine produced_rendering (e.matches_format v) (by omega) (by rw [hrender]; omega)
    (fun _ => ⟨trivial, trivial⟩) ?_
  rw [hrender]
  exact e.zero_notMem_rendered v

theorem produces_iff {str : List UInt8} (hlen : 256 ≤ str.length) :
    produced str (e.format v) (e.args v) = some (e.isoText v) ↔ e.Follows v := by
  rw [e.produced_eq v hlen, Option.some_inj, isoText, Follows, ← length_printedDigits]
  by_cases hsigned : e.conv.signed = true
  · have hbase : e.conv.base = 10 := by
      cases hc : e.conv <;> rw [hc] at hsigned <;> first | rfl | cases hsigned
    rw [hsigned, if_pos rfl, hbase]
    exact printedText_signed_iff
  · rw [Bool.not_eq_true] at hsigned
    rw [hsigned, if_neg (by decide)]
    refine printedText_unsigned_iff ?_ (fun h => byte_of_base (by omega)) fun hv => ?_
    · cases e.conv <;> decide
    · cases v with
      | int v => exact toNat_of_nonneg v hv
      | longLong v => exact toNat_of_nonneg v hv
      | size v => exact toNat_of_nonneg v hv

/-- Nothing in front of the digits of a width. -/
theorem nil_head : ∀ ds, Amount.digits [] = .digits ds → ds.head? ≠ some 0 := by
  intro ds h
  cases h
  exact nofun

/-- No precision. -/
theorem none_precision_le : ∀ p, (none : Option Amount) = some p → p.value ≤ 100 :=
  fun _ h => absurd h.symm (Option.some_ne_none _)

/-- A conversion without flags, width and precision. -/
def bare (c : Conversion) : IntSpec where
  flags := []
  width := .digits []
  precision := none
  conv := c
  width_head := nil_head
  width_le := Nat.zero_le _
  precision_le := none_precision_le

/-- `"%d"` of 42. -/
theorem produces_iff_bare : produced (List.replicate 256 0) ((bare .d).format (.int 42))
    ((bare .d).args (.int 42)) = some ((bare .d).isoText (.int 42)) := by
  refine ((bare .d).produces_iff (.int 42) (by rw [List.length_replicate])).mpr ?_
  unfold Follows FollowsIso
  rw [if_neg fun h => absurd h.1 (by decide), if_pos (by decide)]
  exact .inl (Nat.zero_le _)

/-- `"%u"` of the largest number. -/
theorem not_produces : ¬produced (List.replicate 256 0) ((bare .u).format (.int 0xFFFFFFFF))
    ((bare .u).args (.int 0xFFFFFFFF)) = some ((bare .u).isoText (.int 0xFFFFFFFF)) := by
  intro h
  rw [(bare .u).produced_eq _ (by rw [List.length_replicate])] at h
  have hz : (IntArg.int 0xFFFFFFFF).toInt = -1 := by decide
  have hfollows := (printedText_unsigned_iff (.inr (.inl rfl)) (fun h => absurd h (by decide))
    (by rw [hz]; omega)).mp (Option.some.inj h)
  unfold FollowsIso at hfollows
  rw [hz, if_neg (by decide), if_neg (by decide)] at hfollows
  exact absurd hfollows.1.1 (by decide)

end IntSpec

end Webxs
