import Mathlib.Data.List.GetD
import Mathlib.Logic.Function.Iterate

/-!
# The register of a cyclic redundancy check

A register of `w` bits is shifted right, and where a bit 1 falls out the polynomial `p` is added,
its own highest term left out (`step`). This is linear, and one to one if the highest bit of `p` is
set (`step_injective`). What `n` shifts make of it can be looked up by its low `n` bits
(`steps_eq`). Data go in bit by bit at the low end (`feed`); up to `w` bits may as well be added at
once before the shifts (`feed_eq_steps`). So data that differ only within `w`
consecutive bits leave different registers (`feed_ne_of_burst`).
-/

namespace CrcRegister

variable {w : ℕ} (p : BitVec w)

/-- One shift. -/
def step (x : BitVec w) : BitVec w :=
  (x >>> 1) ^^^ (if x.getLsbD 0 then p else 0#w)

/-- `n` shifts. -/
def steps (n : ℕ) : BitVec w → BitVec w :=
  (step p)^[n]

/-- A bit at the low end. -/
def lowBit (w : ℕ) (b : Bool) : BitVec w :=
  BitVec.ofNat w b.toNat

/-- The register after some bits. -/
def feed (x : BitVec w) (bits : List Bool) : BitVec w :=
  bits.foldl (fun x b => step p (x ^^^ lowBit w b)) x

/-- The word of some bits, the first one lowest. -/
def ofBits (w : ℕ) : List Bool → BitVec w
  | [] => 0#w
  | b :: bits => lowBit w b ^^^ (ofBits w bits <<< 1)

/-! ## Shifting -/

@[simp]
theorem steps_zero (x : BitVec w) : steps p 0 x = x := rfl

theorem steps_succ (n : ℕ) (x : BitVec w) : steps p (n + 1) x = steps p n (step p x) := rfl

theorem steps_add (n k : ℕ) (x : BitVec w) : steps p (n + k) x = steps p n (steps p k x) :=
  Function.iterate_add_apply (step p) n k x

theorem step_xor (x y : BitVec w) : step p (x ^^^ y) = step p x ^^^ step p y := by
  have hif : (if (x ^^^ y).getLsbD 0 then p else 0#w) =
      (if x.getLsbD 0 then p else 0#w) ^^^ (if y.getLsbD 0 then p else 0#w) := by
    rw [BitVec.getLsbD_xor]
    rcases x.getLsbD 0 with _ | _ <;> rcases y.getLsbD 0 with _ | _ <;> simp
  rw [step, step, step, hif, BitVec.ushiftRight_xor_distrib]
  ac_rfl

theorem steps_xor (n : ℕ) (x y : BitVec w) :
    steps p n (x ^^^ y) = steps p n x ^^^ steps p n y := by
  induction n generalizing x y with
  | zero => rfl
  | succ n ih => rw [steps_succ, step_xor, ih, ← steps_succ, ← steps_succ]

/-- A shift undoes a shift to the left that has lost nothing. -/
theorem step_shiftLeft {x : BitVec w} (hx : x.getLsbD (w - 1) = false) : step p (x <<< 1) = x := by
  have hlow : (x <<< 1).getLsbD 0 = false := by
    rw [BitVec.getLsbD_shiftLeft, decide_eq_true Nat.one_pos, Bool.not_true, Bool.and_false,
      Bool.false_and]
  rw [step, hlow, if_neg Bool.false_ne_true, BitVec.xor_zero]
  refine BitVec.eq_of_getLsbD_eq fun i hi => ?_
  rw [BitVec.getLsbD_ushiftRight, BitVec.getLsbD_shiftLeft, Nat.add_sub_cancel_left,
    decide_eq_false (by omega : ¬1 + i < 1), Bool.not_false, Bool.and_true]
  rcases Nat.lt_or_ge (1 + i) w with h | h
  · rw [decide_eq_true h, Bool.true_and]
  · rw [show i = w - 1 by omega, hx, Bool.and_false]

/-- Bits 0 only fall out. -/
theorem steps_of_low {n : ℕ} {x : BitVec w} (hx : ∀ i < n, x.getLsbD i = false) :
    steps p n x = x >>> n := by
  induction n generalizing x with
  | zero => rw [steps_zero, BitVec.ushiftRight_zero]
  | succ n ih =>
    have hstep : step p x = x >>> 1 := by
      rw [step, hx 0 n.succ_pos, if_neg Bool.false_ne_true, BitVec.xor_zero]
    rw [steps_succ, hstep, ih, ← BitVec.shiftRight_add, Nat.add_comm]
    intro i hi
    rw [BitVec.getLsbD_ushiftRight]
    exact hx (1 + i) (by omega)

/-- The `n` low bits of a register. -/
def lowMask (w n : ℕ) : BitVec w :=
  (BitVec.allOnes n).setWidth w

theorem getLsbD_lowMask {w i : ℕ} (n : ℕ) (hi : i < w) :
    (lowMask w n).getLsbD i = decide (i < n) := by
  rw [lowMask, BitVec.getLsbD_setWidth, BitVec.getLsbD_allOnes, decide_eq_true hi, Bool.true_and]

theorem split_lowMask (n : ℕ) (x : BitVec w) :
    (x &&& lowMask w n) ^^^ (x &&& ~~~lowMask w n) = x := by
  refine BitVec.eq_of_getLsbD_eq fun i hi => ?_
  rw [BitVec.getLsbD_xor, BitVec.getLsbD_and, BitVec.getLsbD_and, BitVec.getLsbD_not,
    decide_eq_true hi]
  rcases x.getLsbD i with _ | _ <;> rcases (lowMask w n).getLsbD i with _ | _ <;> rfl

theorem steps_and_not_lowMask (n : ℕ) (x : BitVec w) :
    steps p n (x &&& ~~~lowMask w n) = x >>> n := by
  have hbit : ∀ i, (x &&& ~~~lowMask w n).getLsbD i = (x.getLsbD i && decide (n ≤ i)) := by
    intro i
    rw [BitVec.getLsbD_and, BitVec.getLsbD_not]
    rcases Nat.lt_or_ge i w with h | h
    · rw [getLsbD_lowMask n h, decide_eq_true h, Bool.true_and, ← decide_not]
      simp only [Nat.not_lt]
    · rw [BitVec.getLsbD_of_ge x _ h, Bool.false_and, Bool.false_and]
  rw [steps_of_low]
  · refine BitVec.eq_of_getLsbD_eq fun i _ => ?_
    rw [BitVec.getLsbD_ushiftRight, BitVec.getLsbD_ushiftRight, hbit,
      decide_eq_true (Nat.le_add_right n i), Bool.and_true]
  · intro i hi
    rw [hbit, decide_eq_false (Nat.not_le_of_lt hi), Bool.and_false]

/-- What `n` shifts make of the register depends on its low `n` bits, and the rest of it only
moves down. -/
theorem steps_eq (n : ℕ) (x : BitVec w) :
    steps p n x = steps p n (x &&& lowMask w n) ^^^ (x >>> n) := by
  have hsplit := congrArg (steps p n) (split_lowMask n x)
  rwa [steps_xor, steps_and_not_lowMask, eq_comm] at hsplit

variable {p}

/-- Only the register 0 is shifted to 0. -/
theorem eq_zero_of_step (hp : p.getLsbD (w - 1) = true) {x : BitVec w} (hx : step p x = 0#w) :
    x = 0#w := by
  have hw : w - 1 < w := by
    by_contra hge
    rw [BitVec.getLsbD_of_ge p _ (Nat.le_of_not_lt hge)] at hp
    exact Bool.noConfusion hp
  have hbit : ∀ i, (step p x).getLsbD i = false := fun i => by rw [hx, BitVec.getLsbD_zero]
  rcases hlow : x.getLsbD 0 with _ | _
  · rw [step, hlow, if_neg Bool.false_ne_true, BitVec.xor_zero] at hbit
    refine BitVec.eq_of_getLsbD_eq fun i _ => ?_
    rw [BitVec.getLsbD_zero]
    rcases i with _ | i
    · exact hlow
    · have := hbit i
      rwa [BitVec.getLsbD_ushiftRight, Nat.add_comm] at this
  · have := hbit (w - 1)
    rw [step, hlow, if_pos rfl, BitVec.getLsbD_xor, hp, BitVec.getLsbD_ushiftRight,
      BitVec.getLsbD_of_ge x _ (by omega)] at this
    exact Bool.noConfusion this

theorem step_injective (hp : p.getLsbD (w - 1) = true) : Function.Injective (step p) := by
  intro x y hxy
  have hzero : step p (x ^^^ y) = 0#w := by rw [step_xor, hxy, BitVec.xor_self]
  exact BitVec.xor_eq_zero_iff.mp (eq_zero_of_step hp hzero)

theorem steps_injective (hp : p.getLsbD (w - 1) = true) (n : ℕ) :
    Function.Injective (steps p n) :=
  (step_injective hp).iterate n

/-! ## Data -/

variable (p)

theorem feed_append (x : BitVec w) (bits bits' : List Bool) :
    feed p x (bits ++ bits') = feed p (feed p x bits) bits' :=
  List.foldl_append

/-- No bit is set behind the last one. -/
theorem getLsbD_ofBits (w : ℕ) (bits : List Bool) {i : ℕ} (hi : i < w) :
    (ofBits w bits).getLsbD i = bits.getD i false := by
  induction bits generalizing i with
  | nil => rw [ofBits, BitVec.getLsbD_zero, List.getD_nil]
  | cons b bits ih =>
    have hlow : (lowBit w b).getLsbD i = (decide (i = 0) && b) := by
      rcases b with _ | _
      · rw [Bool.and_false]
        exact BitVec.getLsbD_zero
      · rw [Bool.and_true]
        refine BitVec.getLsbD_one.trans ?_
        rw [decide_eq_true (by omega : 0 < w), Bool.true_and]
    rw [ofBits, BitVec.getLsbD_xor, BitVec.getLsbD_shiftLeft, hlow]
    rcases i with _ | i
    · simp
    · rw [Nat.add_sub_cancel, ih (by omega)]
      simp [hi]

/-- Up to `w` bits are added at once. -/
theorem feed_eq_steps (x : BitVec w) (bits : List Bool) (hbits : bits.length ≤ w) :
    feed p x bits = steps p bits.length (x ^^^ ofBits w bits) := by
  induction bits generalizing x with
  | nil => rw [ofBits, BitVec.xor_zero]; rfl
  | cons b bits ih =>
    rw [List.length_cons] at hbits
    have htop : (ofBits w bits).getLsbD (w - 1) = false := by
      rw [getLsbD_ofBits w bits (by omega), List.getD_eq_default bits false (by omega)]
    have hfeed : feed p x (b :: bits) = feed p (step p (x ^^^ lowBit w b)) bits := rfl
    rw [hfeed, ih _ (by omega), List.length_cons, steps_succ, ofBits, ← BitVec.xor_assoc,
      step_xor p (x ^^^ lowBit w b), step_shiftLeft p htop]

theorem ofBits_injOn {bits bits' : List Bool} (hlen : bits.length = bits'.length)
    (hbits : bits.length ≤ w) (h : ofBits w bits = ofBits w bits') : bits = bits' := by
  refine List.ext_getElem hlen fun i hi hi' => ?_
  have := congrArg (BitVec.getLsbD · i) h
  simp only [getLsbD_ofBits w _ (by omega : i < w)] at this
  rwa [List.getD_eq_getElem bits false hi, List.getD_eq_getElem bits' false hi'] at this

variable {p}

/-- The register before some bits can be told from the one after them. -/
theorem feed_injective (hp : p.getLsbD (w - 1) = true) (bits : List Bool) :
    Function.Injective fun x : BitVec w => feed p x bits := by
  induction bits with
  | nil => exact fun x y hxy => hxy
  | cons b bits ih =>
    intro x y hxy
    have hstep : step p (x ^^^ lowBit w b) = step p (y ^^^ lowBit w b) := ih hxy
    exact (BitVec.xor_left_inj _).mp (step_injective hp hstep)

/-- Data that differ only within `w` consecutive bits leave different registers. -/
theorem feed_ne_of_burst (hp : p.getLsbD (w - 1) = true) (x : BitVec w)
    {pre mid mid' post : List Bool} (hlen : mid.length = mid'.length) (hmid : mid.length ≤ w)
    (hne : mid ≠ mid') : feed p x (pre ++ mid ++ post) ≠ feed p x (pre ++ mid' ++ post) := by
  intro h
  rw [feed_append, feed_append, feed_append, feed_append] at h
  have hwindow : feed p (feed p x pre) mid = feed p (feed p x pre) mid' :=
    feed_injective hp post h
  rw [feed_eq_steps p _ mid hmid, feed_eq_steps p _ mid' (hlen ▸ hmid), ← hlen] at hwindow
  have hword := (BitVec.xor_right_inj _).mp (steps_injective hp _ hwindow)
  exact hne (ofBits_injOn hlen hmid hword)

end CrcRegister
