import Mathlib.Data.List.Basic

/-!
# Storing behind what is stored

A buffer is a list of fixed length that is written from left to right : the first `d` elements are
written, and an operation stores the elements `t` behind them. `Stored b d t b'` says that it turned
the buffer `b` into `b'`. Operations compose along `++` (`Stored.trans`), so that what is in the
buffer at the end of a loop is the concatenation of what its steps stored.
-/

/-- `b'` is the buffer `b` with `t` stored behind its first `d` elements; what follows is free. -/
structure Stored {α : Type*} (b : List α) (d : ℕ) (t b' : List α) : Prop where
  length : b'.length = b.length
  take : b'.take (d + t.length) = b.take d ++ t

namespace Stored

variable {α : Type*} {b b' b'' t t' : List α} {d : ℕ}

theorem nil (b : List α) (d : ℕ) : Stored b d [] b where
  length := rfl
  take := by simp

theorem trans (h : Stored b d t b') (h' : Stored b' (d + t.length) t' b'') :
    Stored b d (t ++ t') b'' where
  length := h'.length.trans h.length
  take := by
    rw [List.length_append, ← Nat.add_assoc, h'.take, h.take, List.append_assoc]

/-- One element. -/
theorem set (h : d < b.length) (a : α) : Stored b d [a] (b.set d a) where
  length := List.length_set
  take := by
    rw [List.length_singleton, List.take_add_one, List.take_set_of_le (Nat.le_refl d),
      List.getElem?_set_self h]
    rfl

/-- A block. -/
theorem block (t : List α) (h : d + t.length ≤ b.length) :
    Stored b d t (b.take d ++ t ++ b.drop (d + t.length)) where
  length := by
    simp only [List.length_append, List.length_take, List.length_drop]
    omega
  take := by
    have hlen : (b.take d ++ t).length = d + t.length := by
      rw [List.length_append, List.length_take, Nat.min_eq_left (by omega)]
    rw [← hlen, List.take_left]

/-- What was stored before stays. -/
theorem take_of_le (h : Stored b d t b') (hd : d ≤ b.length) {n : ℕ} (hn : n ≤ d) :
    b'.take n = b.take n := by
  have htake := congrArg (List.take n) h.take
  rwa [List.take_take, Nat.min_eq_left (by omega),
    List.take_append_of_le_length (by rw [List.length_take]; omega), List.take_take,
    Nat.min_eq_left hn] at htake

/-- What is stored first is stored. -/
theorem of_append (h : Stored b d (t ++ t') b') (hd : d ≤ b.length) : Stored b d t b' where
  length := h.length
  take := by
    have htake := congrArg (List.take (d + t.length)) h.take
    rwa [List.take_take, List.length_append, Nat.min_eq_left (by omega), ← List.append_assoc,
      List.take_left' (by rw [List.length_append, List.length_take, Nat.min_eq_left hd])] at htake

/-- A buffer starts with what was stored first. -/
theorem take_of_append (h : Stored b 0 (t ++ t') b') : b'.take t.length = t := by
  have htake := congrArg (List.take t.length) h.take
  rwa [List.take_take, Nat.zero_add, List.length_append, Nat.min_eq_left (Nat.le_add_right _ _),
    List.take_zero, List.nil_append, List.take_left] at htake

end Stored
