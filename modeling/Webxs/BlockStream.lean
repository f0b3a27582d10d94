import Mathlib.Data.List.Basic

/-!
# Streams of blocks

A function of a state and a block of `n` elements is applied to the whole blocks at the front of a
list, one after another; what is left at the end is shorter than a block. `absorb` returns the
state and what is left. Data that come in pieces may be absorbed piece by piece, each behind what
the last one left (`absorb_append`).
-/

namespace BlockStream

variable {σ α : Type*}

/-- The state after the whole blocks of a list, and the rest of the list. -/
def absorb (f : σ → List α → σ) (n : ℕ) (s : σ) (l : List α) : σ × List α :=
  if 0 < n ∧ n ≤ l.length then absorb f n (f s (l.take n)) (l.drop n) else (s, l)
termination_by l.length
decreasing_by
  rw [List.length_drop]
  omega

variable {f : σ → List α → σ} {n : ℕ} {s : σ} {l l' : List α}

theorem absorb_of_lt (h : l.length < n) : absorb f n s l = (s, l) := by
  rw [absorb, if_neg (by omega)]

theorem absorb_of_le (hn : 0 < n) (h : n ≤ l.length) :
    absorb f n s l = absorb f n (f s (l.take n)) (l.drop n) := by
  rw [absorb, if_pos ⟨hn, h⟩]

theorem length_absorb_lt (f : σ → List α → σ) (hn : 0 < n) (s : σ) (l : List α) :
    (absorb f n s l).2.length < n := by
  induction s, l using absorb.induct f n with
  | case1 s l h ih => rwa [absorb_of_le hn h.2]
  | case2 s l h =>
    have hlt : l.length < n := by omega
    rwa [absorb_of_lt hlt]

theorem length_absorb_mod (f : σ → List α → σ) (hn : 0 < n) (s : σ) (l : List α) :
    (absorb f n s l).2.length = l.length % n := by
  induction s, l using absorb.induct f n with
  | case1 s l h ih =>
    rw [absorb_of_le hn h.2, ih, List.length_drop, Nat.mod_eq_sub_mod h.2]
  | case2 s l h =>
    have hlt : l.length < n := by omega
    rw [absorb_of_lt hlt, Nat.mod_eq_of_lt hlt]

/-- What follows is absorbed behind what is left. -/
theorem absorb_append (f : σ → List α → σ) (n : ℕ) (s : σ) (l l' : List α) :
    absorb f n s (l ++ l') = absorb f n (absorb f n s l).1 ((absorb f n s l).2 ++ l') := by
  induction s, l using absorb.induct f n with
  | case1 s l h ih =>
    have hle : n ≤ (l ++ l').length := by
      rw [List.length_append]
      omega
    rw [absorb_of_le h.1 hle, absorb_of_le h.1 h.2, List.take_append_of_le_length h.2,
      List.drop_append_of_le_length h.2]
    exact ih
  | case2 s l h =>
    have hleft : absorb f n s l = (s, l) := by rw [absorb, if_neg h]
    rw [hleft]

/-- One whole block in front. -/
theorem absorb_block (hn : 0 < n) (h : l.length = n) :
    absorb f n s (l ++ l') = absorb f n (f s l) l' := by
  rw [absorb_of_le hn (by rw [List.length_append]; omega), ← h, List.take_left, List.drop_left]

end BlockStream
