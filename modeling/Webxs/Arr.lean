import Mathlib.Data.List.Basic
import Mathlib.Order.Basic

/-!
# Growing arrays

`xs_arr` (`xs_arr.h`) is a block of `aSpace` elements of which the first `aCount` are in use.
Growth is a `xs_recalloc`, which zeroes what it adds, and removal moves the rest down inside
the block. The block is a list here, and `Arr.toList` the elements in use.

Allocation succeeds, and no count reaches 2³¹.
-/

namespace Webxs

/-- An `xs_arr`; the block is null as long as it is empty. -/
structure Arr (α : Type*) where
  aData : List α
  aCount : ℕ
  /-- What is in use is inside the block. -/
  count_le : aCount ≤ aData.length

namespace Arr

variable {α : Type*}

/-- `xs_arr_create_`. -/
def create : Arr α where
  aData := []
  aCount := 0
  count_le := Nat.le_refl 0

/-- The number of elements of the block. -/
def aSpace (ar : Arr α) : ℕ :=
  ar.aData.length

/-- The elements in use. -/
def toList (ar : Arr α) : List α :=
  ar.aData.take ar.aCount

/-- `xs_recalloc` of a block to `r` elements. -/
def recalloc [Inhabited α] (p : List α) (r : ℕ) : List α :=
  p ++ List.replicate (r - p.length) default

/-- `xs_arr_makespace_`. -/
def makespace [Inhabited α] (ar : Arr α) (space : ℕ) : Arr α where
  aData :=
    if ar.aSpace ≤ space then
      recalloc ar.aData (if space < ar.aSpace * 2 then ar.aSpace * 2 else space)
    else ar.aData
  aCount := ar.aCount
  count_le := by
    have := ar.count_le
    split_ifs
    · exact Nat.le_trans this (by simp [recalloc])
    · exact Nat.le_trans this (by simp [recalloc])
    · exact this

/-- `memcpy` of `src` to the elements of `dst` from `i` on. -/
def copyTo (dst : List α) (i : ℕ) (src : List α) : List α :=
  dst.take i ++ src ++ dst.drop (i + src.length)

/-- The block of `xs_arr_add_` before the copy : grown if the elements do not fit. -/
def addSpace [Inhabited α] (ar : Arr α) (n : ℕ) : Arr α :=
  if ar.aSpace < ar.aCount + n then ar.makespace (ar.aCount + n) else ar

theorem aCount_addSpace [Inhabited α] (ar : Arr α) (n : ℕ) :
    (ar.addSpace n).aCount = ar.aCount := by
  unfold addSpace
  split_ifs <;> rfl

theorem le_aSpace_addSpace [Inhabited α] (ar : Arr α) (n : ℕ) :
    ar.aCount + n ≤ (ar.addSpace n).aSpace := by
  unfold addSpace
  split_ifs with h
  · have hle : ar.aSpace ≤ ar.aCount + n := Nat.le_of_lt h
    have hlen : ar.aData.length = ar.aSpace := rfl
    rw [aSpace, makespace]
    simp only [if_pos hle, recalloc, List.length_append, List.length_replicate]
    split_ifs <;> omega
  · omega

/-- `xs_arr_add_` with data; `none` is the null pointer, which is what it returns when nothing
is added to an array with no block. -/
def add [Inhabited α] (ar : Arr α) (data : List α) : Option (Arr α) :=
  if (ar.addSpace data.length).aSpace = 0 then none
  else some
    { aData := copyTo (ar.addSpace data.length).aData ar.aCount data
      aCount := ar.aCount + data.length
      count_le := by
        have h := ar.le_aSpace_addSpace data.length
        have hlen : (ar.addSpace data.length).aData.length =
          (ar.addSpace data.length).aSpace := rfl
        simp only [copyTo, List.length_append, List.length_take, List.length_drop]
        omega }

/-- `xs_arr_add_` without data : room behind the elements in use. -/
def addRoom [Inhabited α] (ar : Arr α) (n : ℕ) : Arr α where
  aData := (ar.addSpace n).aData
  aCount := ar.aCount + n
  count_le := ar.le_aSpace_addSpace n

/-- `memcpy` of `src` into the block. -/
def store (ar : Arr α) (i : ℕ) (src : List α) : Arr α where
  aData := copyTo ar.aData i src
  aCount := ar.aCount
  count_le := by
    have h := ar.count_le
    simp only [copyTo, List.length_append, List.length_take, List.length_drop]
    omega

/-- `xs_ptr_remove` on the `count` elements of a block. -/
def ptrRemove (dst : List α) (count index delCount : ℕ) : List α :=
  if count ≤ index then dst
  else
    let del := if count < index + delCount then count - index else delCount
    copyTo dst index ((dst.drop (index + del)).take (count - (index + del)))

/-- `xs_arr_remove_` of `n` elements, of which there are as many. -/
def remove (ar : Arr α) (before n : ℕ) : Arr α where
  aData := if n < ar.aCount then ptrRemove ar.aData ar.aCount before n else ar.aData
  aCount := ar.aCount - n
  count_le := by
    have := ar.count_le
    split_ifs
    · simp only [ptrRemove, copyTo]
      split_ifs <;> simp <;> omega
    · omega

/-- `xs_arr_reset`. -/
def reset (ar : Arr α) : Arr α where
  aData := ar.aData
  aCount := 0
  count_le := Nat.zero_le _

/-! ## What they do to the elements in use -/

@[simp]
theorem toList_create : (create : Arr α).toList = [] := rfl

@[simp]
theorem toList_reset (ar : Arr α) : ar.reset.toList = [] := rfl

@[simp]
theorem length_toList (ar : Arr α) : ar.toList.length = ar.aCount := by
  have := ar.count_le
  simp only [toList, List.length_take]
  omega

theorem take_addSpace [Inhabited α] (ar : Arr α) (n : ℕ) :
    (ar.addSpace n).aData.take ar.aCount = ar.toList := by
  unfold addSpace
  split_ifs
  · simp only [makespace, recalloc]
    split_ifs
    all_goals first
      | exact List.take_append_of_le_length ar.count_le
      | rfl
  · rfl

theorem getElem?_addSpace [Inhabited α] (ar : Arr α) (n : ℕ) {k : ℕ} (hk : k < ar.aCount) :
    (ar.addSpace n).aData[k]? = ar.aData[k]? := by
  rw [← List.getElem?_take_of_lt hk, take_addSpace, toList, List.getElem?_take_of_lt hk]

theorem toList_add [Inhabited α] {ar ar' : Arr α} {data : List α} (h : ar.add data = some ar') :
    ar'.toList = ar.toList ++ data := by
  unfold add at h
  split_ifs at h
  obtain rfl := Option.some.inj h
  have hle := ar.le_aSpace_addSpace data.length
  have hlen : (ar.addSpace data.length).aData.length = (ar.addSpace data.length).aSpace := rfl
  have htake : ((ar.addSpace data.length).aData.take ar.aCount).length = ar.aCount := by
    rw [List.length_take]
    omega
  simp only [toList, copyTo]
  rw [List.take_append_of_le_length (by simp only [List.length_append, htake]; omega),
    List.take_of_length_le (by simp only [List.length_append, htake]; omega), take_addSpace]
  rfl

theorem add_eq_none [Inhabited α] {ar : Arr α} {data : List α} (h : ar.add data = none) :
    data = [] ∧ ar.toList = [] := by
  unfold add at h
  split_ifs at h with h0
  have := ar.le_aSpace_addSpace data.length
  constructor
  · exact List.length_eq_zero_iff.mp (by omega)
  · exact List.length_eq_zero_iff.mp (by rw [length_toList]; omega)

theorem toList_remove_front (ar : Arr α) (n : ℕ) :
    (ar.remove 0 n).toList = ar.toList.drop n := by
  have hc := ar.count_le
  by_cases hn : n < ar.aCount
  · have hdel : ¬ar.aCount < n := by omega
    have hpos : ¬ar.aCount ≤ 0 := by omega
    simp only [toList, remove, if_pos hn, ptrRemove, if_neg hpos, Nat.zero_add, copyTo,
      List.take_zero, List.nil_append]
    rw [if_neg hdel]
    rw [List.take_append_of_le_length (by simp only [List.length_take, List.length_drop]; omega),
      List.take_of_length_le (by simp only [List.length_take, List.length_drop]; omega),
      List.drop_take]
  · have h0 : ar.aCount - n = 0 := by omega
    rw [List.drop_of_length_le (by rw [length_toList]; omega)]
    simp only [toList, remove, if_neg hn, h0, List.take_zero]

end Arr

end Webxs
