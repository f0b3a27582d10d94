import Mathlib.Data.List.Basic

/-!
# Scanners of a growing input

A reader that gets its input in pieces scans what it has again and again, until the scan finds
what it looks for. `Incremental f` : once `f` finds something in a list, it finds the same in
every longer list. Then what is found does not depend on where the input was cut : a prefix gives
nothing or what the whole gives (`Incremental.eq_none_or_eq`), and nothing if what the whole gives
needs more than the prefix has (`Incremental.eq_none_of_length_lt`).
-/

variable {α β : Type*} {f : List α → Option β}

/-- What `f` finds in a list it finds in every extension. -/
def Incremental (f : List α → Option β) : Prop :=
  ∀ l x b, f l = some b → f (l ++ x) = some b

/-- What `f` finds in a list ends inside it; `size` is its length. -/
def Fits (size : β → ℕ) (f : List α → Option β) : Prop :=
  ∀ l b, f l = some b → size b ≤ l.length

namespace Incremental

theorem of_prefix (hf : Incremental f) {l m : List α} {b : β} (h : f l = some b) (hlm : l <+: m) :
    f m = some b := by
  obtain ⟨x, rfl⟩ := hlm
  exact hf l x b h

/-- A prefix gives nothing or what the whole gives. -/
theorem eq_none_or_eq (hf : Incremental f) {l m : List α} (hlm : l <+: m) :
    f l = none ∨ f l = f m := by
  cases h : f l with
  | none => exact .inl rfl
  | some b => exact .inr (hf.of_prefix h hlm).symm

/-- A prefix too short for what the whole gives gives nothing. -/
theorem eq_none_of_length_lt (hf : Incremental f) {size : β → ℕ} (hs : Fits size f)
    {l m : List α} {b : β} (h : f m = some b) (hlm : l <+: m) (hl : l.length < size b) :
    f l = none := by
  rcases hf.eq_none_or_eq hlm with hn | he
  · exact hn
  · have := hs l b (he.trans h)
    omega

end Incremental
