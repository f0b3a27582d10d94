import Mathlib.Data.List.Basic
import Mathlib.Data.List.Perm.Basic

/-!
# Swapping elements of a list

`Swaps lo hi m m'` says that `m'` comes from `m` by swaps of elements with indices in `[lo, hi)`.
What is outside stays, the list is permuted, and what holds of all elements inside still holds of
them.
-/

/-- Swaps of elements with indices from `lo` up to `hi`. -/
inductive Swaps {α : Type*} (lo hi : ℕ) : List α → List α → Prop
  | refl (m : List α) : Swaps lo hi m m
  | tail {m m' : List α} {a b : ℕ} {x y : α} (h : Swaps lo hi m m') (ha : lo ≤ a ∧ a < hi)
      (hb : lo ≤ b ∧ b < hi) (hx : m'[a]? = some x) (hy : m'[b]? = some y) :
      Swaps lo hi m ((m'.set a y).set b x)

/-- `P` holds of the elements with indices from `lo` up to `hi`. -/
def AllBetween {α : Type*} (lo hi : ℕ) (m : List α) (P : α → Prop) : Prop :=
  ∀ k, lo ≤ k → k < hi → ∀ x ∈ m[k]?, P x

namespace Swaps

variable {α : Type*} {lo hi a b k : ℕ} {m m' m'' : List α} {x y : α}

/-- The elements after one swap. -/
theorem getElem?_swap (hx : m[a]? = some x) (hy : m[b]? = some y) (k : ℕ) :
    ((m.set a y).set b x)[k]? = if k = b then some x else if k = a then some y else m[k]? := by
  obtain ⟨ha, -⟩ := List.getElem?_eq_some_iff.mp hx
  obtain ⟨hb, -⟩ := List.getElem?_eq_some_iff.mp hy
  rw [List.getElem?_set, List.getElem?_set, List.length_set]
  grind

theorem perm_swap (hx : m[a]? = some x) (hy : m[b]? = some y) :
    ((m.set a y).set b x).Perm m := by
  obtain ⟨ha, rfl⟩ := List.getElem?_eq_some_iff.mp hx
  obtain ⟨hb, rfl⟩ := List.getElem?_eq_some_iff.mp hy
  exact List.set_set_perm ha hb

theorem trans (h : Swaps lo hi m m') (h' : Swaps lo hi m' m'') : Swaps lo hi m m'' := by
  induction h' with
  | refl => exact h
  | tail _ ha hb hx hy ih => exact ih.tail ha hb hx hy

/-- One swap. -/
theorem single (ha : lo ≤ a ∧ a < hi) (hb : lo ≤ b ∧ b < hi) (hx : m[a]? = some x)
    (hy : m[b]? = some y) : Swaps lo hi m ((m.set a y).set b x) :=
  (refl m).tail ha hb hx hy

/-- A larger range has more swaps. -/
theorem mono {lo' hi' : ℕ} (h : Swaps lo hi m m') (hlo : lo' ≤ lo) (hhi : hi ≤ hi') :
    Swaps lo' hi' m m' := by
  induction h with
  | refl => exact refl m
  | tail _ ha hb hx hy ih =>
    exact ih.tail (by omega) (by omega) hx hy

theorem perm (h : Swaps lo hi m m') : m'.Perm m := by
  induction h with
  | refl => exact .refl m
  | tail _ _ _ hx hy ih => exact (perm_swap hx hy).trans ih

theorem length (h : Swaps lo hi m m') : m'.length = m.length :=
  h.perm.length_eq

/-- What is outside stays. -/
theorem outside (h : Swaps lo hi m m') (hk : k < lo ∨ hi ≤ k) : m'[k]? = m[k]? := by
  induction h with
  | refl => rfl
  | tail _ ha hb hx hy ih =>
    rw [getElem?_swap hx hy, if_neg (by omega), if_neg (by omega), ih]

/-- What holds of all elements inside goes on to hold of them. -/
theorem allBetween {P : α → Prop} (h : Swaps lo hi m m') (hP : AllBetween lo hi m P) :
    AllBetween lo hi m' P := by
  induction h with
  | refl => exact hP
  | tail _ ha hb hx hy ih =>
    intro k hlo hhi z hz
    rw [getElem?_swap hx hy] at hz
    split_ifs at hz
    · exact ih _ ha.1 ha.2 z (hx.trans hz)
    · exact ih _ hb.1 hb.2 z (hy.trans hz)
    · exact ih k hlo hhi z hz

end Swaps
