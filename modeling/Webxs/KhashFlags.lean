import Mathlib.Data.Nat.Size
import Mathlib.Tactic.IntervalCases
import Webxs.Khash

/-!
# The flags and the sizes of a hash table

Two bits for each slot, sixteen slots to a word : `emptyBit` and `delBit` read them, and the macros
of `khash.h` change those of one slot only (`flagBit_acClear`, `flagBit_acSet`). `kroundup32` fills
the bits below the highest one of `x - 1`, and so rounds up to a power of two
(`kroundup32_eq_two_pow`); of a table of that size, at least one slot in four stays empty
(`acUpper_lt`).
-/

namespace Webxs

namespace Khash

/-! ## Two bits of a word -/

/-- Bit `b` of the flags of slot `i`. -/
def flagBit (b : ℕ) (flag : List (BitVec 32)) (i : ℕ) : Bool :=
  (flag.getD (i / 16) 0).getLsbD (2 * (i % 16) + b)

/-- Slot `i` is marked empty. -/
def emptyBit : List (BitVec 32) → ℕ → Bool :=
  flagBit 1

/-- Slot `i` is marked deleted. -/
def delBit : List (BitVec 32) → ℕ → Bool :=
  flagBit 0

theorem and_eq_zero_iff {m : BitVec 32} (hm : ∀ b, 2 ≤ b → m.getLsbD b = false) (x : BitVec 32) :
    x &&& m = 0#32 ↔ (m.getLsbD 0 && x.getLsbD 0 || m.getLsbD 1 && x.getLsbD 1) = false := by
  rw [BitVec.eq_of_getLsbD_eq_iff, Bool.or_eq_false_iff]
  simp only [BitVec.getLsbD_and, BitVec.getLsbD_zero]
  constructor
  · intro h
    exact ⟨by rw [Bool.and_comm, h 0 (by omega)], by rw [Bool.and_comm, h 1 (by omega)]⟩
  · rintro ⟨h0, h1⟩ b -
    rw [Bool.and_comm]
    rcases b with _ | _ | b
    · exact h0
    · exact h1
    · rw [hm _ (by omega), Bool.false_and]

theorem slotShift (i : ℕ) : (i &&& 0xf) <<< 1 = 2 * (i % 16) := by
  have hand : i &&& 0xf = i % 16 := Nat.and_two_pow_sub_one_eq_mod i 4
  rw [hand, Nat.shiftLeft_eq]
  omega

theorem slotWord (i : ℕ) : i >>> 4 = i / 16 :=
  Nat.shiftRight_eq_div_pow i 4

variable {m : BitVec 32} {flag : List (BitVec 32)} {i : ℕ}

theorem acTest_eq (hm : ∀ b, 2 ≤ b → m.getLsbD b = false) (hi : i < 16 * flag.length) :
    acTest m flag i =
      some (m.getLsbD 0 && delBit flag i || m.getLsbD 1 && emptyBit flag i) := by
  have hlt : i / 16 < flag.length := by omega
  rw [acTest, slotWord, slotShift, List.getElem?_eq_getElem hlt, Option.map_some]
  congr 1
  rw [Bool.eq_iff_iff, decide_eq_true_iff, ne_eq, and_eq_zero_iff hm, Bool.not_eq_false]
  simp only [BitVec.getLsbD_ushiftRight, delBit, emptyBit, flagBit,
    List.getD_eq_getElem?_getD, List.getElem?_eq_getElem hlt, Option.getD_some, Nat.add_comm,
    Nat.zero_add]

/-- The bits of `m`, moved to slot `i`, are among those of slot `j` if that is the slot. -/
theorem getLsbD_slotMask (hm : ∀ b, 2 ≤ b → m.getLsbD b = false) (i j : ℕ) {b : ℕ} (hb : b < 2)
    (hword : j / 16 = i / 16) :
    (m <<< (2 * (i % 16))).getLsbD (2 * (j % 16) + b) = (decide (j = i) && m.getLsbD b) := by
  have hlt : 2 * (j % 16) + b < 32 := by omega
  rw [BitVec.getLsbD_shiftLeft, decide_eq_true hlt, Bool.true_and]
  rcases Nat.lt_trichotomy (j % 16) (i % 16) with h | h | h
  · rw [decide_eq_true (by omega : 2 * (j % 16) + b < 2 * (i % 16)),
      decide_eq_false (by omega : j ≠ i)]
    rfl
  · rw [decide_eq_false (by omega), decide_eq_true (by omega : j = i), h,
      Nat.add_sub_cancel_left]
    rfl
  · rw [hm _ (by omega), decide_eq_false (by omega : j ≠ i), Bool.and_false, Bool.false_and]

/-- A word of the flags is replaced; only bits `m` of slot `i` differ. -/
theorem flagBit_set {f : BitVec 32 → BitVec 32 → BitVec 32} {g : Bool → Bool → Bool}
    (hf : ∀ x y c, (f x y).getLsbD c = g (x.getLsbD c) (y.getLsbD c))
    (hg : ∀ x, g x false = x) (hm : ∀ b, 2 ≤ b → m.getLsbD b = false)
    (hi : i < 16 * flag.length) {b : ℕ} (hb : b < 2) (j : ℕ) :
    flagBit b (flag.set (i / 16) (f (flag.getD (i / 16) 0) (m <<< (2 * (i % 16))))) j =
      g (flagBit b flag j) (decide (j = i) && m.getLsbD b) := by
  have hlt : i / 16 < flag.length := by omega
  rw [flagBit, flagBit, List.getD_eq_getElem?_getD, List.getElem?_set]
  split_ifs with hword
  · rw [Option.getD_some, hf, getLsbD_slotMask hm i j hb hword.symm, hword]
  · have hne : j ≠ i := fun h => hword (by rw [h])
    rw [← List.getD_eq_getElem?_getD, decide_eq_false hne, Bool.false_and, hg]

theorem acClear_eq (hi : i < 16 * flag.length) :
    acClear m flag i = some (flag.set (i / 16)
      (flag.getD (i / 16) 0 &&& ~~~(m <<< (2 * (i % 16))))) := by
  have hlt : i / 16 < flag.length := by omega
  rw [acClear, slotWord, slotShift, List.getD_eq_getElem?_getD, List.getElem?_eq_getElem hlt]
  rfl

theorem acSet_eq (hi : i < 16 * flag.length) :
    acSet m flag i = some (flag.set (i / 16)
      (flag.getD (i / 16) 0 ||| (m <<< (2 * (i % 16))))) := by
  have hlt : i / 16 < flag.length := by omega
  rw [acSet, slotWord, slotShift, List.getD_eq_getElem?_getD, List.getElem?_eq_getElem hlt]
  rfl

theorem flagBit_acClear (hm : ∀ b, 2 ≤ b → m.getLsbD b = false) (hi : i < 16 * flag.length) :
    ∃ flag', acClear m flag i = some flag' ∧ flag'.length = flag.length ∧
      ∀ b < 2, ∀ j, flagBit b flag' j = (flagBit b flag j && !(decide (j = i) && m.getLsbD b)) := by
  have hf : ∀ (x y : BitVec 32) c, (x &&& ~~~y).getLsbD c = (x.getLsbD c && !y.getLsbD c) := by
    intro x y c
    rw [BitVec.getLsbD_and, BitVec.getLsbD_not]
    rcases Nat.lt_or_ge c 32 with hc | hc
    · rw [decide_eq_true hc, Bool.true_and]
    · rw [BitVec.getLsbD_of_ge x c hc, Bool.false_and, Bool.false_and]
  refine ⟨_, acClear_eq hi, List.length_set, fun b hb j => ?_⟩
  exact flagBit_set (f := fun x y => x &&& ~~~y) (g := fun x y => x && !y) hf
    (fun x => Bool.and_true x) hm hi hb j

theorem flagBit_acSet (hm : ∀ b, 2 ≤ b → m.getLsbD b = false) (hi : i < 16 * flag.length) :
    ∃ flag', acSet m flag i = some flag' ∧ flag'.length = flag.length ∧
      ∀ b < 2, ∀ j, flagBit b flag' j = (flagBit b flag j || (decide (j = i) && m.getLsbD b)) :=
  ⟨_, acSet_eq hi, List.length_set, fun _ hb j =>
    flagBit_set (f := (· ||| ·)) (g := (· || ·)) (fun x y _ => BitVec.getLsbD_or (x := x) (y := y))
      Bool.or_false hm hi hb j⟩

/-! ## The macros -/

theorem bits_one : ∀ b, 2 ≤ b → (1#32).getLsbD b = false := by
  intro b hb
  rw [BitVec.getLsbD_one, decide_eq_false (by omega : b ≠ 0), Bool.and_false]

theorem bits_two : ∀ b, 2 ≤ b → (2#32).getLsbD b = false := by
  intro b hb
  rw [show 2#32 = BitVec.twoPow 32 1 from rfl, BitVec.getLsbD_twoPow,
    decide_eq_false (by omega : 1 ≠ b), Bool.and_false]

theorem bits_three : ∀ b, 2 ≤ b → (3#32).getLsbD b = false := by
  intro b hb
  rw [show 3#32 = 1#32 ||| 2#32 from rfl, BitVec.getLsbD_or, bits_one b hb, bits_two b hb]
  rfl

theorem acIsempty_eq (hi : i < 16 * flag.length) : acIsempty flag i = some (emptyBit flag i) :=
  (acTest_eq bits_two hi).trans (by simp)

theorem acIsdel_eq (hi : i < 16 * flag.length) : acIsdel flag i = some (delBit flag i) :=
  (acTest_eq bits_one hi).trans (by simp)

theorem acIseither_eq (hi : i < 16 * flag.length) :
    acIseither flag i = some (delBit flag i || emptyBit flag i) :=
  (acTest_eq bits_three hi).trans (by simp)

theorem acSetIsemptyFalse_spec (hi : i < 16 * flag.length) :
    ∃ flag', acSetIsemptyFalse flag i = some flag' ∧ flag'.length = flag.length ∧
      (∀ j, emptyBit flag' j = (emptyBit flag j && !decide (j = i))) ∧
      ∀ j, delBit flag' j = delBit flag j := by
  obtain ⟨flag', heq, hlen, hbit⟩ := flagBit_acClear bits_two hi
  refine ⟨flag', heq, hlen, fun j => ?_, fun j => ?_⟩
  · simpa [emptyBit] using hbit 1 Nat.one_lt_two j
  · simpa [delBit] using hbit 0 Nat.two_pos j

theorem acSetIsbothFalse_spec (hi : i < 16 * flag.length) :
    ∃ flag', acSetIsbothFalse flag i = some flag' ∧ flag'.length = flag.length ∧
      (∀ j, emptyBit flag' j = (emptyBit flag j && !decide (j = i))) ∧
      ∀ j, delBit flag' j = (delBit flag j && !decide (j = i)) := by
  obtain ⟨flag', heq, hlen, hbit⟩ := flagBit_acClear bits_three hi
  refine ⟨flag', heq, hlen, fun j => ?_, fun j => ?_⟩
  · simpa [emptyBit] using hbit 1 Nat.one_lt_two j
  · simpa [delBit] using hbit 0 Nat.two_pos j

theorem acSetIsdelTrue_spec (hi : i < 16 * flag.length) :
    ∃ flag', acSetIsdelTrue flag i = some flag' ∧ flag'.length = flag.length ∧
      (∀ j, emptyBit flag' j = emptyBit flag j) ∧
      ∀ j, delBit flag' j = (delBit flag j || decide (j = i)) := by
  obtain ⟨flag', heq, hlen, hbit⟩ := flagBit_acSet bits_one hi
  refine ⟨flag', heq, hlen, fun j => ?_, fun j => ?_⟩
  · simpa [emptyBit] using hbit 1 Nat.one_lt_two j
  · simpa [delBit] using hbit 0 Nat.two_pos j

/-- Flags that `memset` has filled mark every slot empty. -/
theorem flagBit_emptyFlags {n i b : ℕ} (hb : b < 2) (hi : i < 16 * (emptyFlags n).length) :
    flagBit b (emptyFlags n) i = decide (b = 1) := by
  have hlt : i / 16 < acFsize n := by
    rw [emptyFlags, List.length_replicate] at hi
    omega
  rw [flagBit, emptyFlags, List.getD_eq_getElem?_getD, List.getElem?_replicate, if_pos hlt,
    Option.getD_some]
  have hmod : i % 16 < 16 := Nat.mod_lt i (by omega)
  generalize i % 16 = r at hmod ⊢
  interval_cases b <;> interval_cases r <;> rfl

/-- There are flags for every slot. -/
theorem le_acFsize {n e : ℕ} (hn : n = 2 ^ e) : n ≤ 16 * acFsize n := by
  unfold acFsize
  split_ifs with h
  · omega
  · have he : 4 ≤ e := by
      by_contra hlt
      have := Nat.pow_le_pow_right (Nat.two_pos) (by omega : e ≤ 3)
      omega
    obtain ⟨d, rfl⟩ := Nat.exists_eq_add_of_le he
    rw [slotWord, hn, Nat.pow_add]
    omega

/-! ## The sizes -/

/-- Each bit of `y` says whether one of the `d` bits of `x` from there on is set. -/
def Smeared (d : ℕ) (x y : BitVec 32) : Prop :=
  ∀ i, y.getLsbD i = true ↔ ∃ e < d, x.getLsbD (i + e) = true

theorem Smeared.double {d : ℕ} {x y : BitVec 32} (h : Smeared d x y) :
    Smeared (2 * d) x (y ||| (y >>> d)) := by
  intro i
  rw [BitVec.getLsbD_or, BitVec.getLsbD_ushiftRight, Bool.or_eq_true, h i, h (d + i)]
  constructor
  · rintro (⟨e, he, hbit⟩ | ⟨e, he, hbit⟩)
    · exact ⟨e, by omega, hbit⟩
    · exact ⟨d + e, by omega, by rwa [← Nat.add_assoc, Nat.add_comm i d]⟩
  · rintro ⟨e, he, hbit⟩
    rcases Nat.lt_or_ge e d with hlt | hge
    · exact .inl ⟨e, hlt, hbit⟩
    · exact .inr ⟨e - d, by omega, by rwa [show d + i + (e - d) = i + e by omega]⟩

/-- All bits up to the highest are set. -/
theorem Smeared.toNat_eq {x y : BitVec 32} (h : Smeared 32 x y) :
    y.toNat = 2 ^ Nat.size x.toNat - 1 := by
  refine Nat.eq_of_testBit_eq fun i => ?_
  rw [Nat.testBit_two_pow_sub_one, Bool.eq_iff_iff, decide_eq_true_iff, Nat.lt_size]
  refine (h i).trans ⟨fun ⟨e, _, hbit⟩ => ?_, fun hle => ?_⟩
  · exact (Nat.pow_le_pow_right Nat.two_pos (by omega)).trans (Nat.ge_two_pow_of_testBit hbit)
  · obtain ⟨j, hj, hbit⟩ := Nat.exists_ge_and_testBit_of_ge_two_pow hle
    have hlt : j < 32 := by
      by_contra hge
      exact absurd hbit (by rw [show x.toNat.testBit j = x.getLsbD j from rfl,
        BitVec.getLsbD_of_ge x j (by omega)]; exact Bool.noConfusion)
    exact ⟨j - i, by omega, by rwa [show i + (j - i) = j by omega]⟩

/-- `kroundup32` leaves one more than the bits of `x - 1` hold. -/
theorem toNat_kroundup32 (x : BitVec 32) :
    (kroundup32 x).toNat = 2 ^ Nat.size (x - 1).toNat % 2 ^ 32 := by
  have hone : Smeared 1 (x - 1) (x - 1) := fun i => by simp
  have h := hone.double.double.double.double.double.toNat_eq
  have hpos : 0 < 2 ^ Nat.size (x - 1).toNat := Nat.two_pow_pos _
  rw [kroundup32, BitVec.toNat_add]
  refine (congrArg (fun y => (y + 1) % 2 ^ 32) h).trans ?_
  rw [Nat.sub_add_cancel hpos]

/-- The number of slots `kh_resize` takes : a power of two. -/
def roundSlots (x : BitVec 32) : ℕ :=
  if (kroundup32 x).toNat < 4 then 4 else (kroundup32 x).toNat

theorem roundSlots_eq_two_pow (x : BitVec 32) : ∃ e, 2 ≤ e ∧ e < 32 ∧ roundSlots x = 2 ^ e := by
  unfold roundSlots
  split_ifs with h
  · exact ⟨2, by omega, by omega, rfl⟩
  · rw [toNat_kroundup32] at h ⊢
    rcases Nat.lt_or_ge (Nat.size (x - 1).toNat) 32 with hlt | hge
    · rw [Nat.mod_eq_of_lt (Nat.pow_lt_pow_right Nat.one_lt_two hlt)] at h ⊢
      refine ⟨_, ?_, hlt, rfl⟩
      by_contra hsmall
      have := Nat.pow_le_pow_right Nat.two_pos (by omega : Nat.size (x - 1).toNat ≤ 1)
      omega
    · rw [Nat.mod_eq_zero_of_dvd (Nat.pow_dvd_pow 2 hge)] at h
      omega

theorem roundSlots_eq {x : BitVec 32} {e : ℕ} (he : 2 ≤ e) (hlt : e < 32)
    (hsize : Nat.size (x - 1).toNat = e) : roundSlots x = 2 ^ e := by
  have hpow : 2 ^ 2 ≤ 2 ^ e := Nat.pow_le_pow_right Nat.two_pos he
  rw [roundSlots, toNat_kroundup32, hsize,
    Nat.mod_eq_of_lt (Nat.pow_lt_pow_right Nat.one_lt_two hlt), if_neg (by omega)]

/-- One slot less is rounded to the same size. -/
theorem roundSlots_pred {e : ℕ} (he : 2 ≤ e) (hlt : e < 32) :
    roundSlots (BitVec.ofNat 32 (2 ^ e) - 1) = 2 ^ e := by
  have hpow : 2 ^ 2 ≤ 2 ^ e := Nat.pow_le_pow_right Nat.two_pos he
  have hmax : 2 ^ e < 2 ^ 32 := Nat.pow_lt_pow_right Nat.one_lt_two hlt
  have hhalf : 2 ^ e = 2 ^ (e - 1) * 2 := by rw [← Nat.pow_succ, Nat.succ_eq_add_one,
    Nat.sub_add_cancel (by omega)]
  have hsub : (BitVec.ofNat 32 (2 ^ e) - 1 - 1).toNat = 2 ^ e - 2 := by
    simp only [BitVec.toNat_sub, BitVec.toNat_ofNat, BitVec.ofNat_eq_ofNat]
    omega
  refine roundSlots_eq he hlt ?_
  rw [hsub]
  refine Nat.le_antisymm (Nat.size_le.mpr (by omega)) ?_
  have hsize : e - 1 < Nat.size (2 ^ e - 2) := Nat.lt_size.mpr (by omega)
  omega

/-- One slot more is rounded to twice the size. -/
theorem roundSlots_succ {e : ℕ} (he : 2 ≤ e) (hlt : e < 31) :
    roundSlots (BitVec.ofNat 32 (2 ^ e) + 1) = 2 ^ (e + 1) := by
  have hmax : 2 ^ e < 2 ^ 32 := Nat.pow_lt_pow_right Nat.one_lt_two (by omega)
  refine roundSlots_eq (by omega) (by omega) ?_
  rw [BitVec.add_sub_cancel, BitVec.toNat_ofNat, Nat.mod_eq_of_lt hmax, Nat.size_pow]

theorem roundSlots_one : roundSlots 1 = 4 := rfl

/-- At least one slot in four stays empty. -/
theorem acUpper_lt {n : ℕ} (hn : 3 ≤ n) : acUpper n < n := by
  unfold acUpper
  omega

theorem acUpper_mono {n n' : ℕ} (h : n ≤ n') : acUpper n ≤ acUpper n' := by
  unfold acUpper
  omega

end Khash

end Webxs
