import Webxs.CopyBounds
import Webxs.PrintfIso

/-!
# Numbers as text

`xs_itoa` stores the digits of a number the last one first and then turns them round. It keeps a
byte for the NUL behind the first digit only if there is one : at least one digit is stored, also if
the sign leaves a single byte for it, and then the NUL is stored behind the buffer. Otherwise all
stores are inside, and a number that fits is written (`itoa_iff`).
-/

namespace Webxs

namespace Itoa

open InCopy (store)

/-! ## The code -/

/-- The byte of a digit. -/
def digit (digval : ℕ) : UInt8 :=
  if 9 < digval then UInt8.ofNat (digval - 10 + 97) else UInt8.ofNat (digval + 48)

/-- The loop for the digits; it returns `str`. -/
def digits (rad fin : ℕ) (mem : List UInt8) (str uval : ℕ) : Option (List UInt8 × ℕ) :=
  (store mem str (digit (uval % rad))).bind fun mem =>
    if 0 < uval / rad ∧ str + 1 < fin then digits rad fin mem (str + 1) (uval / rad)
    else some (mem, str + 1)
termination_by fin - str

/-- The loop that reverses the digits. -/
def reverse (mem : List UInt8) (beg fin : ℕ) : Option (List UInt8) :=
  mem[fin]?.bind fun temp => mem[beg]?.bind fun a =>
    (store mem fin a).bind fun mem => (store mem beg temp).bind fun mem =>
      if beg + 1 < fin - 1 then reverse mem (beg + 1) (fin - 1) else some mem
termination_by fin - beg

/-- What is done from `str` on, with `maxlength` bytes left. -/
def unsigned (mem : List UInt8) (str maxlength uval rad : ℕ) : Option (List UInt8 × ℕ) :=
  (digits rad (str + maxlength - 1) mem str uval).bind fun (mem, fin) =>
    (store mem fin 0).bind fun mem => (reverse mem str (fin - 1)).map fun mem => (mem, fin)

/-- `xs_itoa` with a buffer `str` of `maxlength` bytes : the buffer and the pointer it returns. A
store outside of the buffer has no result. -/
def itoa (val : ℤ) (str : List UInt8) (rad : ℕ) : Option (List UInt8 × Option ℕ) :=
  let maxlength := str.length
  if maxlength < 2 then
    if maxlength = 0 then some (str, none) else (store str 0 0).map fun mem => (mem, none)
  else
    if val < 0 then
      (store str 0 45).bind fun mem =>
        (unsigned mem 1 (maxlength - 1) (-val % 2 ^ 64).toNat rad).map fun r => (r.1, some r.2)
    else (unsigned str 0 maxlength (val % 2 ^ 64).toNat rad).map fun r => (r.1, some r.2)

/-! ## The digits -/

/-- The bytes of the digits of a number, the last one first. -/
def backwards (rad v : ℕ) : List UInt8 :=
  (lowDigits rad v).map digit

/-- The sign. -/
def minus (val : ℤ) : List UInt8 := if val < 0 then [45] else []

/-- The numeral of a value with its sign. -/
def signedNumeral (rad : ℕ) (val : ℤ) : List UInt8 :=
  minus val ++ if val = 0 then [48] else numeral rad false val.natAbs

section Digits

variable {rad v : ℕ} {val : ℤ}

theorem digit_eq (d : ℕ) : digit d = digitByte false d := by
  unfold digit digitByte
  by_cases h : 9 < d
  · rw [if_pos h, if_neg (by omega), if_neg (by decide), show d - 10 + 97 = d + 87 by omega]
  · rw [if_neg h, if_pos (by omega)]

theorem backwards_eq (hr : 2 ≤ rad) :
    backwards rad v = digit (v % rad) :: if 0 < v / rad then backwards rad (v / rad) else [] := by
  unfold backwards
  rw [lowDigits_eq hr, List.map_cons]
  split_ifs <;> rfl

theorem backwards_pos (hr : 2 ≤ rad) : 0 < (backwards rad v).length := by
  unfold backwards
  rw [List.length_map]
  exact lowDigits_pos hr

theorem signedNumeral_eq :
    signedNumeral rad val = minus val ++ (backwards rad val.natAbs).reverse := by
  unfold signedNumeral
  rw [backwards, List.map_congr_left fun d _ => digit_eq d, lowDigits_reverse]
  simp only [Int.natAbs_eq_zero]

end Digits

/-! ## The loops -/

section Loops

variable {rad fin str : ℕ} {mem : List UInt8}

theorem store_stored (a : UInt8) (h : str < mem.length) :
    ∃ mem', store mem str a = some mem' ∧ Stored mem str [a] mem' :=
  ⟨_, if_pos h, .set h a⟩

/-- One digit is stored in any case, and then those for which there is room. -/
theorem digits_spec (hr : 2 ≤ rad) (uval : ℕ) (hstr : str < mem.length) (hfin : fin ≤ mem.length) :
    ∃ mem', digits rad fin mem str uval =
        some (mem', str + ((backwards rad uval).take (max 1 (fin - str))).length) ∧
      Stored mem str ((backwards rad uval).take (max 1 (fin - str))) mem' := by
  induction hn : fin - str using Nat.strong_induction_on generalizing str uval mem with
  | _ n ih =>
    obtain ⟨mem₁, hstore, hs⟩ := store_stored (digit (uval % rad)) hstr
    rw [digits, hstore, Option.bind_some, backwards_eq hr]
    by_cases hgo : 0 < uval / rad ∧ str + 1 < fin
    · have hmax : max 1 n = max 1 (fin - (str + 1)) + 1 := by omega
      obtain ⟨mem', hrun, hs'⟩ := ih (fin - (str + 1)) (by omega) (uval / rad)
        (by rw [hs.length]; omega) (by rw [hs.length]; exact hfin) rfl
      rw [if_pos hgo, if_pos hgo.1, hrun, hmax, List.take_succ_cons, List.length_cons]
      exact ⟨mem', by rw [Nat.add_right_comm, Nat.add_assoc], hs.trans hs'⟩
    · -- the number is at its end, or the room
      have htake : (if 0 < uval / rad then backwards rad (uval / rad) else []).take
          (max 1 n - 1) = [] := by
        split_ifs with hq
        · rw [show max 1 n - 1 = 0 by have := mt (And.intro hq) hgo; omega, List.take_zero]
        · exact List.take_nil
      rw [if_neg hgo, show max 1 n = max 1 n - 1 + 1 by omega, List.take_succ_cons, htake]
      exact ⟨mem₁, rfl, hs⟩

/-- One turn swaps the first digit and the last one. -/
theorem reverse_swap (pre mid post : List UInt8) (a b : UInt8) :
    reverse (pre ++ a :: (mid ++ b :: post)) pre.length (pre.length + mid.length + 1) =
      if 1 < mid.length then
        reverse (pre ++ b :: (mid ++ a :: post)) (pre.length + 1) (pre.length + mid.length)
      else some (pre ++ b :: (mid ++ a :: post)) := by
  have hlen : (pre ++ a :: mid).length = pre.length + mid.length + 1 := by simp; omega
  have hb : (pre ++ a :: (mid ++ b :: post))[pre.length + mid.length + 1]? = some b := by
    rw [← List.cons_append, ← List.append_assoc, ← hlen]
    simp
  have hset : store (pre ++ a :: (mid ++ b :: post)) (pre.length + mid.length + 1) a =
      some (pre ++ a :: (mid ++ a :: post)) := by
    rw [← List.cons_append, ← List.append_assoc, ← hlen, store, if_pos (by simp)]
    simp
  rw [reverse, hb, Option.bind_some, show (pre ++ a :: (mid ++ b :: post))[pre.length]? = some a by
    simp, Option.bind_some, hset, Option.bind_some, store, if_pos (by simp), Option.bind_some]
  simp only [List.set_append_right _ _ (Nat.le_refl _), Nat.sub_self, List.set_cons_zero,
    Nat.add_sub_cancel, Nat.add_lt_add_iff_left]

theorem reverse_spec {d : List UInt8} (hd : d ≠ []) (pre post : List UInt8) :
    reverse (pre ++ (d ++ post)) pre.length (pre.length + d.length - 1) =
      some (pre ++ (d.reverse ++ post)) := by
  induction d using List.bidirectionalRec generalizing pre post with
  | nil => exact absurd rfl hd
  | singleton a =>
    have hstop : ¬pre.length + 1 < pre.length - 1 := by omega
    rw [reverse]
    simp [store, hstop]
  | cons_append a mid b ih =>
    have hfin : pre.length + (a :: (mid ++ [b])).length - 1 = pre.length + mid.length + 1 := by
      simp only [List.length_cons, List.length_append, List.length_nil]
      omega
    rw [hfin, List.cons_append, List.append_assoc, List.singleton_append, reverse_swap]
    split_ifs with hmid
    · have hrun := ih (List.ne_nil_of_length_pos (by omega)) (pre ++ [b]) (a :: post)
      rw [List.length_append, List.length_singleton, List.append_assoc, List.singleton_append,
        show pre.length + 1 + mid.length - 1 = pre.length + mid.length by omega] at hrun
      rw [hrun]
      simp
    · -- the two pointers have met
      have hrev : mid.reverse = mid := by
        match mid, hmid with
        | [], _ => rfl
        | [_], _ => rfl
        | _ :: _ :: _, hmid => exact absurd (by simp) hmid
      simp [hrev]

/-- The digits behind the sign are reversed where they are. -/
theorem stored_reverse {m t u : List UInt8} (h : Stored m str (t ++ u) mem)
    (hstr : str + (t ++ u).length ≤ m.length) (ht : t ≠ []) :
    ∃ mem', reverse mem str (str + t.length - 1) = some mem' ∧
      Stored m str (t.reverse ++ u) mem' := by
  have hpre : (m.take str).length = str := by
    rw [List.length_take, Nat.min_eq_left (by omega)]
  have hmem : mem = m.take str ++ (t ++ (u ++ mem.drop (str + (t ++ u).length))) := by
    rw [← List.append_assoc t, ← List.append_assoc, ← h.take, List.take_append_drop]
  have hrun := reverse_spec ht (m.take str) (u ++ mem.drop (str + (t ++ u).length))
  rw [← hmem, hpre] at hrun
  refine ⟨_, hrun, ?_, ?_⟩
  · have hlen := congrArg List.length hmem
    simp only [List.length_append, List.length_reverse] at hlen ⊢
    rw [← hlen, h.length]
  · rw [← List.append_assoc t.reverse, ← List.append_assoc]
    refine List.take_left' ?_
    rw [List.length_append, hpre]

variable {maxlength : ℕ} (uval : ℕ)

theorem unsigned_spec (hr : 2 ≤ rad) (hlen : str + maxlength = mem.length) (hmax : 1 < maxlength) :
    ∃ mem', unsigned mem str maxlength uval rad =
        some (mem', str + ((backwards rad uval).take (maxlength - 1)).length) ∧
      Stored mem str (((backwards rad uval).take (maxlength - 1)).reverse ++ [0]) mem' := by
  have hstr : str < mem.length := by omega
  have hfin : str + maxlength - 1 ≤ mem.length := by omega
  obtain ⟨mem₁, hdigits, hs⟩ := digits_spec hr uval hstr hfin
  rw [show max 1 (str + maxlength - 1 - str) = maxlength - 1 by omega] at hdigits hs
  have hpos : 0 < (backwards rad uval).length := backwards_pos hr
  generalize ht : (backwards rad uval).take (maxlength - 1) = t at *
  have htlen : t.length = min (maxlength - 1) (backwards rad uval).length := by
    rw [← ht, List.length_take]
  have hroom : str + t.length < mem₁.length := by
    rw [hs.length]
    omega
  obtain ⟨mem₂, hnul, hs₂⟩ := store_stored 0 hroom
  obtain ⟨mem₃, hrev, hs₃⟩ := stored_reverse (hs.trans hs₂)
    (by rw [List.length_append, List.length_singleton]; omega)
    (List.ne_nil_of_length_pos (by omega))
  refine ⟨mem₃, ?_, hs₃⟩
  rw [unsigned, hdigits, Option.bind_some]
  dsimp only
  rw [hnul, Option.bind_some, hrev, Option.map_some]

/-- With a single byte the NUL is stored behind the buffer. -/
theorem unsigned_one (hr : 2 ≤ rad) (hlen : str + 1 = mem.length) :
    unsigned mem str 1 uval rad = none := by
  have hstr : str < mem.length := by omega
  have hfin : str + 1 - 1 ≤ mem.length := by omega
  obtain ⟨mem₁, hdigits, hs⟩ := digits_spec hr uval hstr hfin
  have hpos : 0 < (backwards rad uval).length := backwards_pos hr
  have hone : ((backwards rad uval).take (max 1 (str + 1 - 1 - str))).length = 1 := by
    rw [List.length_take]
    omega
  rw [unsigned, hdigits, Option.bind_some]
  dsimp only
  rw [store, if_neg (by rw [hone, hs.length]; omega), Option.bind_none]

end Loops

/-! ## When it stays inside -/

section Main

variable {val : ℤ} {rad : ℕ} {str : List UInt8}

/-- `xs_itoa` stores inside of `str` only, and the number with a NUL if there is room for it. -/
def Writes (val : ℤ) (rad : ℕ) (str : List UInt8) : Prop :=
  ∃ mem fin, itoa val str rad = some (mem, some fin) ∧ mem.length = str.length ∧
    ((signedNumeral rad val).length < str.length →
      mem.take ((signedNumeral rad val).length + 1) = signedNumeral rad val ++ [0] ∧
        fin = (signedNumeral rad val).length)

/-- With room for a digit and the NUL behind the sign, the low digits are written for which there is
room. -/
theorem itoa_spec (hmin : -2 ^ 63 < val) (hmax : val < 2 ^ 63) (hr : 2 ≤ rad)
    (hroom : (minus val).length + 1 < str.length) :
    ∃ mem, itoa val str rad =
        some (mem, some ((minus val).length + ((backwards rad val.natAbs).take
          (str.length - (minus val).length - 1)).length)) ∧
      Stored str 0 (minus val ++ (((backwards rad val.natAbs).take
        (str.length - (minus val).length - 1)).reverse ++ [0])) mem := by
  unfold itoa
  dsimp only
  unfold minus at hroom ⊢
  by_cases hval : val < 0
  · rw [if_pos hval] at hroom ⊢
    rw [List.length_singleton] at hroom
    have hstr : 0 < str.length := by omega
    obtain ⟨mem₁, hstore, hs⟩ := store_stored 45 hstr
    have hlen : 1 + (str.length - 1) = mem₁.length := by
      rw [hs.length]
      omega
    obtain ⟨mem, hrun, hs'⟩ := unsigned_spec val.natAbs hr hlen (by omega)
    have huval : (-val % 2 ^ 64).toNat = val.natAbs := by omega
    rw [if_neg (by omega), if_pos hval, hstore, Option.bind_some, huval, hrun]
    exact ⟨mem, rfl, hs.trans hs'⟩
  · rw [if_neg hval] at hroom ⊢
    rw [List.length_nil] at hroom
    obtain ⟨mem, hrun, hs⟩ := unsigned_spec val.natAbs hr (Nat.zero_add str.length) (by omega)
    have huval : (val % 2 ^ 64).toNat = val.natAbs := by omega
    rw [if_neg (by omega), if_neg hval, huval, hrun]
    exact ⟨mem, rfl, hs⟩

theorem itoa_two (hval : val < 0) (hr : 2 ≤ rad) (hlen : str.length = 2) :
    itoa val str rad = none := by
  have hstr : 0 < str.length := by omega
  obtain ⟨mem, hstore, hs⟩ := store_stored 45 hstr
  unfold itoa
  dsimp only
  rw [hlen, if_neg (by omega), if_pos hval, hstore, Option.bind_some,
    unsigned_one _ hr (by rw [hs.length, hlen]), Option.map_none]

theorem itoa_iff (hmin : -2 ^ 63 < val) (hmax : val < 2 ^ 63) (hr : 2 ≤ rad)
    (hlen : 2 ≤ str.length) : Writes val rad str ↔ ¬(val < 0 ∧ str.length = 2) := by
  constructor
  · rintro ⟨mem, fin, hrun, -⟩ ⟨hval, htwo⟩
    rw [itoa_two hval hr htwo] at hrun
    cases hrun
  · intro hne
    have hroom : (minus val).length + 1 < str.length := by
      unfold minus
      split_ifs with hval
      · have htwo : str.length ≠ 2 := fun h => hne ⟨hval, h⟩
        rw [List.length_singleton]
        omega
      · exact hlen
    obtain ⟨mem, hrun, hs⟩ := itoa_spec hmin hmax hr hroom
    refine ⟨mem, _, hrun, hs.length, fun hfit => ?_⟩
    have hnum : (signedNumeral rad val).length =
        (minus val).length + (backwards rad val.natAbs).length := by
      rw [signedNumeral_eq, List.length_append, List.length_reverse]
    have hall : (backwards rad val.natAbs).take (str.length - (minus val).length - 1) =
        backwards rad val.natAbs := List.take_of_length_le (by omega)
    have htake := hs.take
    rw [hall, ← List.append_assoc, ← signedNumeral_eq, Nat.zero_add, List.length_append,
      List.take_zero] at htake
    exact ⟨htake, by rw [hall, hnum]⟩

theorem itoa_iff_fits : Writes (-255) 16 [1, 1, 1, 1] :=
  (itoa_iff (by decide) (by decide) (by decide) (by decide)).mpr (by decide)

/-- -5 in two bytes. -/
theorem not_writes_two : ¬Writes (-5) 10 [0, 0] := fun ⟨mem, fin, hrun, _⟩ => by
  rw [itoa_two (by decide) (by decide) rfl] at hrun
  cases hrun

end Main

end Itoa

end Webxs
