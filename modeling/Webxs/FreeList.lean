import Mathlib.Data.Int.Notation
import Mathlib.Data.List.Nodup
import Mathlib.Logic.Function.Basic

/-!
# A free list threaded through a map

The numbers of a pool that are not in use are linked through the map `next` in which the used
ones keep something else : from the head each free number leads to the following one, and the
last to -1. `Threaded next head free` reads the list off. Writing the map at a number that is
not on the list keeps it, a number is pushed by linking it to the head, and popped by following
its link.
-/

namespace FreeList

/-- From `head` the links of `next` lead through `free` and end in -1. -/
def Threaded (next : ℕ → ℤ) : ℤ → List ℕ → Prop
  | head, [] => head = -1
  | head, t :: free => head = t ∧ Threaded next (next t) free

variable {next : ℕ → ℤ} {head : ℤ} {free free' : List ℕ} {t : ℕ}

theorem Threaded.update (h : Threaded next head free) (ht : t ∉ free) (v : ℤ) :
    Threaded (Function.update next t v) head free := by
  induction free generalizing head with
  | nil => exact h
  | cons a free ih =>
    obtain ⟨hta, ht⟩ := not_or.mp (mt List.mem_cons.mpr ht)
    refine ⟨h.1, ?_⟩
    rw [Function.update_of_ne (Ne.symm hta)]
    exact ih h.2 ht

theorem Threaded.push (h : Threaded next head free) (ht : t ∉ free) :
    Threaded (Function.update next t head) t (t :: free) := by
  refine ⟨rfl, ?_⟩
  rw [Function.update_self]
  exact h.update ht head

theorem Threaded.eq_nil (h : Threaded next head free) (hneg : head < 0) : free = [] := by
  cases free with
  | nil => rfl
  | cons a free => exact absurd h.1 (by omega)

theorem Threaded.pop (h : Threaded next head free) (hpos : 0 ≤ head) :
    ∃ rest, free = head.toNat :: rest ∧ Threaded next (next head.toNat) rest := by
  cases free with
  | nil =>
    have : head = -1 := h
    omega
  | cons a free =>
    obtain ⟨rfl, h⟩ := h
    exact ⟨free, rfl, h⟩

theorem Threaded.unique (h : Threaded next head free) (h' : Threaded next head free') :
    free = free' := by
  induction free generalizing head free' with
  | nil =>
    cases free' with
    | nil => rfl
    | cons a free' =>
      have h : head = -1 := h
      exact absurd h'.1 (by omega)
  | cons a free ih =>
    obtain ⟨rfl, h⟩ := h
    cases free' with
    | nil =>
      have h' : (a : ℤ) = -1 := h'
      omega
    | cons b free' =>
      obtain rfl : a = b := by exact_mod_cast h'.1
      rw [ih h h'.2]

theorem Threaded.suffix (h : Threaded next head (free ++ t :: free')) :
    Threaded next t (t :: free') := by
  induction free generalizing head with
  | nil => exact ⟨rfl, h.2⟩
  | cons a free ih => exact ih h.2

/-- No number is on the list twice. -/
theorem Threaded.nodup (h : Threaded next head free) : free.Nodup := by
  induction free generalizing head with
  | nil => exact List.nodup_nil
  | cons t free ih =>
    refine List.nodup_cons.mpr ⟨fun hmem => ?_, ih h.2⟩
    obtain ⟨s, u, rfl⟩ := List.append_of_mem hmem
    have hlen := congrArg List.length (h.2.suffix.2.unique h.2)
    rw [List.length_append, List.length_cons] at hlen
    omega

end FreeList
