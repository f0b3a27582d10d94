import Mathlib.Tactic.Ring
import Webxs.Qsort

/-!
# Sorting is safe

For any comparison `xs_ptr_qsort` returns 0 and a permutation, if the offsets and indices fit an
`int`, and an element fits `temp`. Nothing is asked of the comparison : the cursors are stopped by
the bounds of the run, both parts are smaller than the run, and the part that is taken up first has
at most half of it, so that the stack does not hold more than 28 runs.

The runs that are still to be sorted are a list here, the current one first. `Qsort.loop_rule` is
the rule of the loop : what a pass preserves holds at the end, when there are none.
-/

namespace Webxs

namespace Qsort

variable {α : Type} {q : Qsort α} {m m' : List α} {a b i j n start limit fuel : ℕ} {v : α}

/-- The offsets and indices of an array of `n` elements fit an `int`, and an element fits `temp`. -/
structure Fits (es n : ℕ) : Prop where
  temp : es ≤ 1024
  offset : (n - 1) * es ≤ INT_MAX
  index : n < INT_MAX

/-! ## Accesses -/

theorem elem_eq (h : Fits q.es m.length) (a : ℕ) : q.elem m a = m[a]? :=
  q.elem_of_offset h.offset a

theorem swap_eq (h : Fits q.es m.length) (ha : a < m.length) (hb : b < m.length) :
    ∃ x y, m[a]? = some x ∧ m[b]? = some y ∧ q.swap m a b = some ((m.set a y).set b x) := by
  refine ⟨m[a], m[b], List.getElem?_eq_getElem ha, List.getElem?_eq_getElem hb, ?_⟩
  unfold swap
  rw [if_pos h.temp, elem_eq h, elem_eq h, List.getElem?_eq_getElem ha,
    List.getElem?_eq_getElem hb]
  rfl

theorem comp_eq (h : Fits q.es m.length) {x y : α} (hx : m[a]? = some x) (hy : m[b]? = some y) :
    q.comp m a b = some (q.proc y x) := by
  unfold comp
  rw [elem_eq h, elem_eq h, hx, hy]
  rfl

/-- A pair is left as it is, or exchanged if it compares less. -/
theorem compSwap_eq (h : Fits q.es m.length) {x y : α} (hx : m[a]? = some x)
    (hy : m[b]? = some y) :
    q.compSwap a b m = some (if q.proc y x < 0 then (m.set a y).set b x else m) := by
  obtain ⟨ha, hxa⟩ := List.getElem?_eq_some_iff.mp hx
  obtain ⟨hb, hyb⟩ := List.getElem?_eq_some_iff.mp hy
  obtain ⟨x', y', hx', hy', hswap⟩ := swap_eq h ha hb
  obtain rfl := Option.some.inj (hx.symm.trans hx')
  obtain rfl := Option.some.inj (hy.symm.trans hy')
  unfold compSwap
  rw [comp_eq h hx hy, hswap]
  simp only [Option.bind_eq_bind, Option.bind_some]
  split_ifs <;> rfl

theorem compSwap_swaps (h : Fits q.es m.length) {lo hi : ℕ} (ha : lo ≤ a ∧ a < hi)
    (hb : lo ≤ b ∧ b < hi) (hhi : hi ≤ m.length) :
    ∃ m', q.compSwap a b m = some m' ∧ Swaps lo hi m m' := by
  have hx := List.getElem?_eq_getElem (show a < m.length by omega)
  have hy := List.getElem?_eq_getElem (show b < m.length by omega)
  refine ⟨_, compSwap_eq h hx hy, ?_⟩
  split_ifs
  · exact .single ha hb hx hy
  · exact .refl m

theorem swap_swaps (h : Fits q.es m.length) {lo hi : ℕ} (ha : lo ≤ a ∧ a < hi)
    (hb : lo ≤ b ∧ b < hi) (hhi : hi ≤ m.length) :
    ∃ m', q.swap m a b = some m' ∧ Swaps lo hi m m' := by
  obtain ⟨x, y, hx, hy, hswap⟩ := swap_eq h (a := a) (b := b) (by omega) (by omega)
  exact ⟨_, hswap, .single ha hb hx hy⟩

/-! ## The insertion sort -/

theorem bubbleDown_zero (start : ℕ) (m : List α) :
    q.bubbleDown start 0 m = q.compSwap start (start + 1) m := by
  unfold bubbleDown compSwap
  simp

theorem bubbleDown_swaps (h : Fits q.es m.length) (hn : start + n + 1 < m.length) :
    ∃ m', q.bubbleDown start n m = some m' ∧ Swaps start (start + n + 2) m m' := by
  induction n generalizing m with
  | zero =>
    rw [bubbleDown_zero]
    exact compSwap_swaps h ⟨le_rfl, by omega⟩ ⟨by omega, by omega⟩ (by omega)
  | succ n ih =>
    have hx := List.getElem?_eq_getElem (show start + (n + 1) < m.length by omega)
    have hy := List.getElem?_eq_getElem (show start + (n + 1) + 1 < m.length by omega)
    unfold bubbleDown
    rw [comp_eq h hx hy]
    simp only [Option.bind_eq_bind, Option.bind_some]
    split_ifs with hlt
    · have ha : start ≤ start + (n + 1) ∧ start + (n + 1) < start + (n + 1) + 2 := by omega
      obtain ⟨m₁, hm₁, hs₁⟩ := swap_swaps h ha ⟨by omega, Nat.lt_succ_self _⟩ (by omega)
      obtain ⟨m', hm', hs'⟩ := ih (hs₁.length.symm ▸ h) (by rw [hs₁.length]; omega)
      rw [hm₁, Option.bind_some]
      exact ⟨m', hm', hs₁.trans (hs'.mono le_rfl (by omega))⟩
    · exact ⟨m, rfl, .refl m⟩

/-- What each round preserves the insertion sort preserves. -/
theorem bubble_rule {P : ℕ → List α → Prop} (hs : start < INT_MAX) (h0 : P 0 m)
    (hstep : ∀ n m, start + n + 1 < limit → P n m →
      ∃ m', q.bubbleDown start n m = some m' ∧ P (n + 1) m') :
    ∃ m', q.bubble start limit m = some m' ∧ P (limit - (start + 1)) m' := by
  have hfold : ∀ k ≤ limit - (start + 1), ∃ m',
      (List.range k).foldlM (fun m n => q.bubbleDown start n m) m = some m' ∧ P k m' := by
    intro k hk
    induction k with
    | zero => exact ⟨m, rfl, h0⟩
    | succ k ih =>
      obtain ⟨m₁, hm₁, hP⟩ := ih (by omega)
      obtain ⟨m', hm', hP'⟩ := hstep k m₁ (by omega) hP
      refine ⟨m', ?_, hP'⟩
      rw [List.range_succ, List.foldlM_append, hm₁]
      simpa using hm'
  unfold bubble
  rw [if_neg (by omega)]
  exact hfold _ le_rfl

theorem bubble_swaps (h : Fits q.es m.length) (hs : start ≤ limit) (hl : limit ≤ m.length) :
    ∃ m', q.bubble start limit m = some m' ∧ Swaps start limit m m' := by
  have hi := h.index
  refine bubble_rule (P := fun _ m' => Swaps start limit m m') (by omega) (.refl m) ?_
  intro n m₁ hn hm₁
  have hlt : start + n + 1 < m₁.length := by
    rw [hm₁.length]
    omega
  obtain ⟨m', hm', hs'⟩ := bubbleDown_swaps (hm₁.length.symm ▸ h) hlt
  exact ⟨m', hm', hm₁.trans (hs'.mono le_rfl (by omega))⟩

/-! ## The cursors -/

theorem scanUp_spec (h : Fits q.es m.length) (hv : m[start]? = some v) (hl : limit ≤ m.length)
    (hn : n ≤ limit) :
    ∃ i, q.scanUp m start limit n = some i ∧ limit - n ≤ i ∧ i ≤ limit ∧
      AllBetween (limit - n) i m (fun x => 0 < q.proc v x) ∧
      (i < limit → ∀ x ∈ m[i]?, q.proc v x ≤ 0) := by
  induction n with
  | zero => exact ⟨limit, rfl, Nat.sub_le _ _, le_rfl, fun k _ _ => by omega, by omega⟩
  | succ n ih =>
    have hx := List.getElem?_eq_getElem (show limit - (n + 1) < m.length by omega)
    unfold scanUp
    rw [comp_eq h hx hv]
    simp only [Option.bind_eq_bind, Option.bind_some]
    split_ifs with hlt
    · obtain ⟨i, hi, hlo, hhi, hall, hstop⟩ := ih (by omega)
      refine ⟨i, hi, by omega, hhi, fun k hk hki x hxk => ?_, hstop⟩
      rcases eq_or_lt_of_le hk with rfl | hk
      · rw [hx] at hxk
        exact Option.some.inj hxk ▸ hlt
      · exact hall k (by omega) hki x hxk
    · refine ⟨_, rfl, le_rfl, Nat.sub_le _ _, fun k _ _ => by omega, fun _ x hxk => ?_⟩
      rw [hx] at hxk
      exact Option.some.inj hxk ▸ not_lt.mp hlt

theorem scanDown_spec (h : Fits q.es m.length) (hv : m[start]? = some v)
    (hn : start + n ≤ m.length) :
    ∃ j, q.scanDown m start n = some j ∧ start ≤ j ∧ j ≤ start + (n - 1) ∧
      AllBetween (j + 1) (start + n) m (fun x => q.proc v x < 0) ∧
      (start < j → ∀ x ∈ m[j]?, 0 ≤ q.proc v x) := by
  induction n with
  | zero => exact ⟨start, rfl, le_rfl, le_rfl, fun k _ _ => by omega, by omega⟩
  | succ n ih =>
    have hx := List.getElem?_eq_getElem (show start + n < m.length by omega)
    unfold scanDown
    rw [comp_eq h hx hv]
    simp only [Option.bind_eq_bind, Option.bind_some]
    split_ifs with hlt
    · obtain ⟨j, hj, hlo, hhi, hall, hstop⟩ := ih (by omega)
      refine ⟨j, hj, hlo, by omega, fun k hk hkn x hxk => ?_, hstop⟩
      by_cases hkn' : k < start + n
      · exact hall k hk hkn' x hxk
      · obtain rfl : k = start + n := by omega
        rw [hx] at hxk
        exact Option.some.inj hxk ▸ hlt
    · refine ⟨_, rfl, Nat.le_add_right _ _, by omega, fun k _ _ => by omega, fun _ x hxk => ?_⟩
      rw [hx] at hxk
      exact Option.some.inj hxk ▸ not_lt.mp hlt

/-- What the partition of a run around the pivot `v` leaves. -/
structure Parted (q : Qsort α) (v : α) (start limit i j : ℕ) (m m' : List α) : Prop where
  lt : j < i
  start_le : start ≤ j
  le_limit : i ≤ limit
  swaps : Swaps (start + 2) (limit - 1) m m'
  low : AllBetween (start + 2) i m' (fun x => 0 ≤ q.proc v x)
  high : AllBetween (j + 1) (limit - 1) m' (fun x => q.proc v x ≤ 0)

/-- The cursors pass each other, each leaving behind what is on the right side. -/
theorem partition_spec (h : Fits q.es m.length) (hv : m[start]? = some v)
    (hl : limit ≤ m.length) (hi : start < i ∧ i < limit) (hj : start < j ∧ j < limit)
    (hfuel : j < start + fuel) (hlow : AllBetween (start + 2) (i + 1) m (fun x => 0 ≤ q.proc v x))
    (hhigh : AllBetween j (limit - 1) m (fun x => q.proc v x ≤ 0)) :
    ∃ i' j' m', q.partition start limit fuel i j m = some (i', j', m') ∧ i < i' ∧ j' < j ∧
      Parted q v start limit i' j' m m' := by
  induction fuel generalizing i j m with
  | zero => omega
  | succ fuel ih =>
    obtain ⟨i', hup, hi'lo, hi'hi, hupAll, hupStop⟩ :=
      scanUp_spec h hv hl (show limit - (i + 1) ≤ limit by omega)
    obtain ⟨j', hdown, hj'lo, hj'hi, hdownAll, hdownStop⟩ :=
      scanDown_spec h hv (show start + (j - start) ≤ m.length by omega)
    rw [show limit - (limit - (i + 1)) = i + 1 by omega] at hi'lo hupAll
    rw [show start + (j - start) = j by omega] at hdownAll
    have hlow' : AllBetween (start + 2) i' m (fun x => 0 ≤ q.proc v x) := by
      intro k hk hki x hx
      by_cases hki' : k < i + 1
      · exact hlow k hk hki' x hx
      · exact (hupAll k (by omega) hki x hx).le
    have hhigh' : AllBetween (j' + 1) (limit - 1) m (fun x => q.proc v x ≤ 0) := by
      intro k hk hki x hx
      by_cases hkj : k < j
      · exact (hdownAll k hk hkj x hx).le
      · exact hhigh k (by omega) hki x hx
    unfold partition
    rw [hup, hdown]
    simp only [Option.bind_eq_bind, Option.bind_some]
    by_cases hdone : j' < i'
    · rw [if_pos hdone]
      exact ⟨i', j', m, rfl, by omega, by omega, hdone, hj'lo, hi'hi, .refl m, hlow', hhigh'⟩
    · -- neither cursor was stopped by a bound
      rw [if_neg hdone]
      obtain ⟨x, y, hx, hy, hswap⟩ := swap_eq h (a := i') (b := j') (by omega) (by omega)
      have hxv := hupStop (by omega) x hx
      have hyv := hdownStop (by omega) y hy
      have hswaps : Swaps (start + 2) (limit - 1) m ((m.set i' y).set j' x) :=
        .single (by omega) (by omega) hx hy
      have hlen := hswaps.length
      have hv' := (hswaps.outside (k := start) (.inl (by omega))).trans hv
      obtain ⟨i'', j'', m', hpart, hi'', hj'', hparted⟩ := ih (hlen.symm ▸ h)
        hv' (hlen.symm ▸ hl) (i := i') (j := j') (by omega) (by omega) (by omega)
        (by
          intro k hk hki z hz
          rw [Swaps.getElem?_swap hx hy] at hz
          split_ifs at hz with hkj' hki'
          · obtain rfl : i' = j' := by omega
            obtain rfl := Option.some.inj (hx.symm.trans hy)
            exact Option.some.inj hz ▸ hyv
          · exact Option.some.inj hz ▸ hyv
          · exact hlow' k hk (by omega) z hz)
        (by
          intro k hk hki z hz
          rw [Swaps.getElem?_swap hx hy] at hz
          split_ifs at hz with hkj' hki'
          · exact Option.some.inj hz ▸ hxv
          · omega
          · exact hhigh' k (by omega) hki z hz)
      rw [hswap, Option.bind_some]
      exact ⟨i'', j'', m', hpart, by omega, by omega,
        { hparted with swaps := hswaps.trans hparted.swaps }⟩

/-! ## Splitting -/

theorem median_swaps (h : Fits q.es m.length) (hs : start + 2 ≤ limit) (hl : limit ≤ m.length) :
    ∃ m', q.median start limit m = some m' ∧ Swaps start limit m m' := by
  have hmid : start ≤ (limit - start) / 2 + start ∧ (limit - start) / 2 + start < limit := by
    omega
  have hstart : start ≤ start ∧ start < limit := by omega
  have hi : start ≤ start + 1 ∧ start + 1 < limit := by omega
  have hj : start ≤ limit - 1 ∧ limit - 1 < limit := by omega
  obtain ⟨m₁, h₁, hs₁⟩ := swap_swaps h hmid hstart hl
  obtain ⟨m₂, h₂, hs₂⟩ := compSwap_swaps (hs₁.length.symm ▸ h) hi hj (hs₁.length.symm ▸ hl)
  have hs₂' := hs₁.trans hs₂
  obtain ⟨m₃, h₃, hs₃⟩ :=
    compSwap_swaps (hs₂'.length.symm ▸ h) hstart hj (hs₂'.length.symm ▸ hl)
  have hs₃' := hs₂'.trans hs₃
  obtain ⟨m₄, h₄, hs₄⟩ :=
    compSwap_swaps (hs₃'.length.symm ▸ h) hi hstart (hs₃'.length.symm ▸ hl)
  refine ⟨m₄, ?_, hs₃'.trans hs₄⟩
  unfold median
  rw [h₁]
  simp only [Option.bind_eq_bind, Option.bind_some]
  rw [h₂, Option.bind_some, h₃, Option.bind_some, h₄]

/-- A run is split : around the element at `start`, which then changes places with that at `j`. -/
theorem split_eq (h : Fits q.es m.length) (hs : start + 8 ≤ limit) (hl : limit ≤ m.length)
    (hfuel : limit ≤ start + fuel) :
    ∃ m₁ m₂ m' v i j, q.median start limit m = some m₁ ∧ m₁[start]? = some v ∧
      Parted q v start limit i j m₁ m₂ ∧ start + 1 < i ∧ j < limit - 1 ∧
      q.swap m₂ start j = some m' ∧ q.split start limit fuel m = some (i, j, m') ∧
      Swaps start limit m m₂ ∧ Swaps start limit m m' := by
  obtain ⟨m₁, hmed, hs₁⟩ := median_swaps h (show start + 2 ≤ limit by omega) hl
  have hlen := hs₁.length
  have hv := List.getElem?_eq_getElem (show start < m₁.length by omega)
  obtain ⟨i, j, m₂, hpart, hi, hj, hparted⟩ := partition_spec (hlen.symm ▸ h) hv
    (hlen.symm ▸ hl) (i := start + 1) (j := limit - 1) (by omega) (by omega)
    (show limit - 1 < start + fuel by omega) (fun k _ _ => by omega) (fun k _ _ => by omega)
  have hlt := hparted.lt
  have hle := hparted.start_le
  have hs₂ := hs₁.trans (hparted.swaps.mono (by omega) (Nat.sub_le _ _))
  have hstart : start ≤ start ∧ start < limit := by omega
  have hmid : start ≤ j ∧ j < limit := by omega
  obtain ⟨m', hswap, hs'⟩ :=
    swap_swaps (hs₂.length.symm ▸ h) hstart hmid (hs₂.length.symm ▸ hl)
  refine ⟨m₁, m₂, m', _, i, j, hmed, hv, hparted, hi, hj, hswap, ?_, hs₂, hs₂.trans hs'⟩
  unfold split
  rw [hmed]
  simp only [Option.bind_eq_bind, Option.bind_some]
  rw [hpart, Option.bind_some, hswap, Option.bind_some]

/-! ## The loop -/

/-- The runs on a stack. -/
def stackOf (runs : List (ℕ × ℕ)) : List ℕ :=
  runs.flatMap fun r => [r.2, r.1]

/-- Each run on top of `d` others has at most the `2 ^ d`-th part of the elements. -/
def Pending (count : ℕ) : List (ℕ × ℕ) → Prop
  | [] => True
  | r :: rs => r.1 ≤ r.2 ∧ r.2 ≤ count ∧ (r.2 - r.1 + 1) * 2 ^ rs.length ≤ count + 1 ∧
      Pending count rs

/-- More than the passes that the runs take. -/
def weight (runs : List (ℕ × ℕ)) : ℕ :=
  (runs.map fun r => 2 * (r.2 - r.1) + 1).sum

theorem length_stackOf (runs : List (ℕ × ℕ)) : (stackOf runs).length = 2 * runs.length := by
  simp [stackOf, Nat.mul_comm]

/-- There is room on the stack for another run, and the loop goes on. -/
theorem push_run {count : ℕ} {r : ℕ × ℕ} {rs : List (ℕ × ℕ)} (hc : count ≤ INT_MAX)
    (hp : Pending count (r :: rs)) (hr : r.1 + 8 ≤ r.2) (s l : ℕ) :
    push (stackOf rs) s = some (s :: stackOf rs) ∧
      push (s :: stackOf rs) l = some (stackOf ((s, l) :: rs)) ∧
      ¬64 ≤ (stackOf ((s, l) :: rs)).length := by
  obtain ⟨-, -, hd, -⟩ := hp
  have hlen : rs.length < 28 := by
    by_contra hge
    have h28 : 2 ^ 28 ≤ 2 ^ rs.length := Nat.pow_le_pow_right (by decide) (by omega)
    have hmul : 9 * 2 ^ 28 ≤ (r.2 - r.1 + 1) * 2 ^ rs.length :=
      Nat.mul_le_mul (by omega) h28
    unfold INT_MAX at hc
    omega
  have hstack := length_stackOf rs
  refine ⟨if_pos (by omega), if_pos (by rw [List.length_cons]; omega), ?_⟩
  rw [length_stackOf, List.length_cons]
  omega

/-- The parts of a run are pending if it was : the smaller one on top. -/
theorem Pending.split {count s l s' l' : ℕ} {r : ℕ × ℕ} {rs : List (ℕ × ℕ)}
    (hp : Pending count (r :: rs)) (hs : s ≤ l) (hl : l ≤ r.2) (hs' : s' ≤ l') (hl' : l' ≤ r.2)
    (hle : l - s ≤ l' - s') (hsum : (l - s) + (l' - s') < r.2 - r.1) :
    Pending count ((s, l) :: (s', l') :: rs) := by
  obtain ⟨-, hr, hd, hrs⟩ := hp
  refine ⟨hs, by omega, ?_, hs', by omega, ?_, hrs⟩
  · calc (l - s + 1) * 2 ^ ((s', l') :: rs).length
        = (2 * (l - s + 1)) * 2 ^ rs.length := by rw [List.length_cons]; ring
      _ ≤ (r.2 - r.1 + 1) * 2 ^ rs.length := Nat.mul_le_mul_right _ (by omega)
      _ ≤ count + 1 := hd
  · exact (Nat.mul_le_mul_right _ (by dsimp only; omega)).trans hd

/-- What the passes preserve holds when nothing is left to sort. -/
theorem loop_rule {P : List (ℕ × ℕ) → List α → Prop} {count : ℕ} (hc : count ≤ INT_MAX)
    (hbubble : ∀ r rs m, r.1 ≤ r.2 → r.2 ≤ count → P (r :: rs) m →
      ∃ m', q.bubble r.1 r.2 m = some m' ∧ P rs m')
    (hsplit : ∀ r rs m fuel, r.1 + 8 ≤ r.2 → r.2 ≤ count → r.2 ≤ r.1 + fuel → P (r :: rs) m →
      ∃ i j m', q.split r.1 r.2 fuel m = some (i, j, m') ∧ r.1 ≤ j ∧ j < i ∧ i ≤ r.2 ∧
        P ((r.1, j) :: (i, r.2) :: rs) m' ∧ P ((i, r.2) :: (r.1, j) :: rs) m')
    {r : ℕ × ℕ} {rs : List (ℕ × ℕ)} (hp : Pending count (r :: rs)) (hP : P (r :: rs) m)
    (hfuel : weight (r :: rs) ≤ fuel) :
    ∃ m', q.loop fuel ⟨m, stackOf rs, r.1, r.2⟩ = some (0, m') ∧ P [] m' := by
  induction fuel generalizing r rs m with
  | zero => simp [weight] at hfuel
  | succ fuel ih =>
    obtain ⟨hle, hcount, -, hrest⟩ := id hp
    unfold loop
    dsimp only
    by_cases hsmall : r.2 - r.1 < binSearchThresh
    · obtain ⟨m', hm', hP'⟩ := hbubble r rs m hle hcount hP
      rw [if_pos hsmall, hm']
      simp only [Option.bind_eq_bind, Option.bind_some]
      cases rs with
      | nil => exact ⟨m', rfl, hP'⟩
      | cons r' rs =>
        refine ih hrest hP' ?_
        simp only [weight, List.map_cons, List.sum_cons] at hfuel ⊢
        omega
    · have hsize : r.1 + 8 ≤ r.2 := by
        unfold binSearchThresh at hsmall
        omega
      obtain ⟨i, j, m', hm', hj, hji, hi, hleft, hright⟩ := hsplit r rs m fuel hsize hcount
        (by simp only [weight, List.map_cons, List.sum_cons] at hfuel; omega) hP
      rw [if_neg hsmall, hm']
      simp only [Option.bind_eq_bind, Option.bind_some]
      by_cases hlarger : r.2 - i < j - r.1
      · obtain ⟨hpush, hpush', hlen⟩ := push_run hc hp hsize r.1 j
        rw [if_pos hlarger, hpush, Option.bind_some, hpush', Option.bind_some,
          if_neg hlen]
        refine ih (r := (i, r.2)) (hp.split hi le_rfl hj (by omega) hlarger.le (by omega)) hright ?_
        simp only [weight, List.map_cons, List.sum_cons] at hfuel ⊢
        omega
      · obtain ⟨hpush, hpush', hlen⟩ := push_run hc hp hsize i r.2
        rw [if_neg hlarger, hpush, Option.bind_some, hpush', Option.bind_some,
          if_neg hlen]
        refine ih (r := (r.1, j)) (hp.split hj (by omega) hi le_rfl (not_lt.mp hlarger) (by omega))
          hleft ?_
        simp only [weight, List.map_cons, List.sum_cons] at hfuel ⊢
        omega

/-- The rule for a whole call. -/
theorem run_rule {P : List (ℕ × ℕ) → List α → Prop} (hc : m.length ≤ INT_MAX)
    (hbubble : ∀ r rs m', r.1 ≤ r.2 → r.2 ≤ m.length → P (r :: rs) m' →
      ∃ m'', q.bubble r.1 r.2 m' = some m'' ∧ P rs m'')
    (hsplit : ∀ r rs m' fuel, r.1 + 8 ≤ r.2 → r.2 ≤ m.length → r.2 ≤ r.1 + fuel →
      P (r :: rs) m' → ∃ i j m'', q.split r.1 r.2 fuel m' = some (i, j, m'') ∧ r.1 ≤ j ∧ j < i ∧
        i ≤ r.2 ∧ P ((r.1, j) :: (i, r.2) :: rs) m'' ∧ P ((i, r.2) :: (r.1, j) :: rs) m'')
    (hP : P [(0, m.length)] m) : ∃ fuel m', q.run m fuel = some (0, m') ∧ P [] m' := by
  have hp : Pending m.length [(0, m.length)] := by
    simp [Pending]
  obtain ⟨m', hm', hP'⟩ := loop_rule hc hbubble hsplit hp hP le_rfl
  exact ⟨_, m', hm', hP'⟩

/-- The call returns 0, and swaps elements of the array. -/
theorem run_swaps (h : Fits q.es m.length) :
    ∃ fuel m', q.run m fuel = some (0, m') ∧ Swaps 0 m.length m m' := by
  refine run_rule (P := fun _ m' => Swaps 0 m.length m m') h.index.le ?_ ?_ (.refl m)
  · intro r rs m₁ hr hl hs
    obtain ⟨m₂, h₂, hs₂⟩ := bubble_swaps (hs.length.symm ▸ h) hr (hs.length.symm ▸ hl)
    exact ⟨m₂, h₂, hs.trans (hs₂.mono (Nat.zero_le _) hl)⟩
  · intro r rs m₁ fuel hr hl hfuel hs
    obtain ⟨_, _, m₂, v, i, j, -, -, hparted, -, -, -, h₂, -, hs₂⟩ :=
      split_eq (hs.length.symm ▸ h) hr (hs.length.symm ▸ hl) hfuel
    have hs' := hs.trans (hs₂.mono (Nat.zero_le _) hl)
    exact ⟨i, j, m₂, h₂, hparted.start_le, hparted.lt, hparted.le_limit, hs', hs'⟩

/-! ## Arrays that are too large -/

/-- A round that fails on every array makes the insertion sort fail. -/
theorem bubble_eq_none (hn : start + n + 1 < limit) (h : ∀ m, q.bubbleDown start n m = none) :
    q.bubble start limit m = none := by
  have hfold : ∀ (l : List ℕ) (m : List α), n ∈ l →
      l.foldlM (fun m n => q.bubbleDown start n m) m = none := by
    intro l
    induction l with
    | nil => simp
    | cons k l ih =>
      intro m hmem
      rw [List.foldlM_cons, Option.bind_eq_bind, Option.bind_eq_none_iff]
      rcases List.mem_cons.mp hmem with rfl | hmem
      · rw [h]
        exact fun _ hm' => nomatch hm'
      · exact fun m' _ => ih m' hmem
  unfold bubble
  split_ifs
  · rfl
  · exact hfold _ m (List.mem_range.mpr (by omega))

/-- A call fails whose first pass does. -/
theorem run_eq_none (hsmall : m.length < 8 → q.bubble 0 m.length m = none)
    (hlarge : 8 ≤ m.length → ∀ fuel, q.split 0 m.length fuel m = none) (fuel : ℕ) :
    q.run m fuel = none := by
  unfold run
  cases fuel with
  | zero => rfl
  | succ fuel =>
    unfold loop binSearchThresh
    dsimp only
    rw [Nat.sub_zero]
    by_cases h8 : m.length < 8
    · rw [if_pos h8, hsmall h8]
      rfl
    · rw [if_neg h8, hlarge (not_lt.mp h8)]
      rfl

/-- The result of a comparison is one of `proc`. -/
theorem comp_forall {P : ℤ → Prop} (h : ∀ x y, P (q.proc x y)) (m : List α) (a b : ℕ) :
    ∀ c ∈ q.comp m a b, P c := by
  unfold comp
  cases q.elem m b with
  | none => exact fun _ hc => nomatch hc
  | some x =>
    cases q.elem m a with
    | none => exact fun _ hc => nomatch hc
    | some y => exact fun _ hc => Option.some.inj hc ▸ h x y

theorem comp_eq_none (hb : INT_MAX < b * q.es) (a : ℕ) (m : List α) : q.comp m a b = none := by
  unfold comp elem
  rw [if_neg (not_le.mpr hb)]
  rfl

/-- The last element is compared whatever the comparison is, so its offset has to fit. -/
theorem run_eq_none_of_offset (h2 : 2 ≤ m.length) (ho : INT_MAX < (m.length - 1) * q.es)
    (fuel : ℕ) : q.run m fuel = none := by
  refine run_eq_none (fun h8 => bubble_eq_none (n := m.length - 2) (by omega) fun m' => ?_)
    (fun h8 fuel => ?_) fuel
  · unfold bubbleDown
    rw [comp_eq_none (by rwa [show 0 + (m.length - 2) + 1 = m.length - 1 by omega])]
    rfl
  · unfold split median compSwap
    simp only [comp_eq_none ho, Option.bind_eq_bind, Option.bind_none, Option.bind_fun_none]

theorem swap_eq_none (ht : 1024 < q.es) (m : List α) (a b : ℕ) : q.swap m a b = none := by
  unfold swap
  rw [if_neg (by omega)]
  rfl

/-- An element that does not fit `temp` cannot be swapped. -/
theorem run_eq_none_of_temp (h2 : 2 ≤ m.length) (ht : 1024 < q.es)
    (hless : ∀ x y, q.proc x y < 0) (fuel : ℕ) : q.run m fuel = none := by
  refine run_eq_none (fun h8 => bubble_eq_none (n := 0) (by omega) fun m' => ?_)
    (fun h8 fuel => ?_) fuel
  · rw [bubbleDown_zero]
    unfold compSwap
    rw [swap_eq_none ht, Option.bind_eq_bind, Option.bind_eq_none_iff]
    intro c hc
    rw [if_pos (comp_forall (P := (· < 0)) hless m' 0 1 c hc)]
  · unfold split median
    simp only [swap_eq_none ht, Option.bind_eq_bind, Option.bind_none]

/-- If everything is greater, the first cursor runs up to the end. -/
theorem scanUp_of_greater (h : ∀ x y, q.proc x y = 1) (hi : q.scanUp m start limit n = some i) :
    i = limit := by
  induction n with
  | zero => exact (Option.some.inj hi).symm
  | succ n ih =>
    unfold scanUp at hi
    obtain ⟨c, hc, hi⟩ := Option.bind_eq_some_iff.mp hi
    obtain rfl := comp_forall (P := (· = 1)) h m _ _ c hc
    exact ih hi

/-- And the second one stops at once. -/
theorem scanDown_of_greater (h : ∀ x y, q.proc x y = 1)
    (hj : q.scanDown m start (n + 1) = some j) : j = start + n := by
  unfold scanDown at hj
  obtain ⟨c, hc, hj⟩ := Option.bind_eq_some_iff.mp hj
  obtain rfl := comp_forall (P := (· = 1)) h m _ _ c hc
  exact (Option.some.inj hj).symm

theorem split_of_greater (h : ∀ x y, q.proc x y = 1) (hs : start + 2 ≤ limit)
    (hm : q.split start limit fuel m = some (i, j, m')) : i = limit ∧ j = limit - 2 := by
  unfold split at hm
  obtain ⟨m₁, -, hm⟩ := Option.bind_eq_some_iff.mp hm
  obtain ⟨⟨i', j', m₂⟩, hp, hm⟩ := Option.bind_eq_some_iff.mp hm
  obtain ⟨m₃, -, hm⟩ := Option.bind_eq_some_iff.mp hm
  obtain ⟨rfl, rfl, -⟩ : i' = i ∧ j' = j ∧ m₃ = m' := by simpa using hm
  cases fuel with
  | zero => cases hp
  | succ fuel =>
    unfold partition at hp
    obtain ⟨i₁, hup, hp⟩ := Option.bind_eq_some_iff.mp hp
    obtain ⟨j₁, hdown, hp⟩ := Option.bind_eq_some_iff.mp hp
    rw [show limit - 1 - start = (limit - 2 - start) + 1 by omega] at hdown
    obtain rfl := scanUp_of_greater h hup
    obtain rfl := scanDown_of_greater h hdown
    rw [if_pos (by omega)] at hp
    obtain ⟨rfl, rfl, -⟩ : i₁ = i' ∧ start + (i₁ - 2 - start) = j' ∧ m₁ = m₂ := by
      simpa using hp
    exact ⟨rfl, by omega⟩

/-- If everything is greater, the run behind the first cursor begins at the end, and has no index
behind its first. -/
theorem run_eq_none_of_index (hm : m.length = INT_MAX) (h : ∀ x y, q.proc x y = 1) (fuel : ℕ) :
    q.run m fuel = none := by
  by_contra hne
  obtain ⟨r, hr⟩ := Option.ne_none_iff_exists'.mp hne
  have hsize : ¬m.length - 0 < binSearchThresh := by
    rw [hm]
    decide
  cases fuel with
  | zero => cases hr
  | succ fuel =>
    unfold run loop at hr
    dsimp only at hr
    rw [if_neg hsize] at hr
    obtain ⟨⟨i, j, m'⟩, hsplit, hr⟩ := Option.bind_eq_some_iff.mp hr
    obtain ⟨rfl, rfl⟩ := split_of_greater h (by rw [hm]; decide) hsplit
    dsimp only at hr
    rw [if_pos (by rw [hm]; decide)] at hr
    cases fuel with
    | zero => cases hr
    | succ fuel =>
      have hb : q.bubble m.length m.length m' = none := if_pos (by omega)
      unfold loop at hr
      simp [push, hb, binSearchThresh] at hr

/-! ## Safety -/

/-- `xs_ptr_qsort` terminates inside its arrays, with 0 and a permutation. -/
def SortsSafely (q : Qsort α) (m : List α) : Prop :=
  ∃ fuel m', q.run m fuel = some (0, m') ∧ m'.Perm m

theorem not_sortsSafely (h : ∀ fuel, q.run m fuel = none) : ¬q.SortsSafely m := by
  rintro ⟨fuel, m', hm', -⟩
  rw [h] at hm'
  cases hm'

/-- An array of less than two elements is left as it is. -/
theorem run_of_length_lt_two (q : Qsort α) (hm : m.length < 2) : q.run m 1 = some (0, m) := by
  have hbubble : q.bubble 0 m.length m = some m := by
    unfold bubble
    rw [if_neg (by decide), show m.length - (0 + 1) = 0 by omega]
    rfl
  unfold run loop
  dsimp only
  rw [if_pos (by unfold binSearchThresh; omega), hbubble]
  rfl

/-- The sort is safe for all comparisons of elements of a size, and all arrays of a length, exactly
if there is nothing to sort, or everything fits. -/
theorem sortsSafely_iff {es count : ℕ} (hc : count ≤ INT_MAX) :
    (∀ (α : Type) (proc : α → α → ℤ) (m : List α), m.length = count →
        SortsSafely ⟨es, proc⟩ m) ↔
      count < 2 ∨ Fits es count := by
  constructor
  · intro hall
    by_contra hcond
    rw [not_or, not_lt] at hcond
    obtain ⟨h2, hfits⟩ := hcond
    have hlen : (List.replicate count ()).length = count := List.length_replicate
    refine hfits ⟨?_, ?_, ?_⟩
    · by_contra ht
      exact not_sortsSafely (run_eq_none_of_temp (hlen.symm ▸ h2) (not_le.mp ht)
        fun _ _ => neg_one_lt_zero) (hall Unit (fun _ _ => -1) _ hlen)
    · by_contra ho
      exact not_sortsSafely (run_eq_none_of_offset (hlen.symm ▸ h2)
        (hlen.symm ▸ not_le.mp ho)) (hall Unit (fun _ _ => 0) _ hlen)
    · by_contra hi
      exact not_sortsSafely (run_eq_none_of_index (hlen.trans (by omega)) fun _ _ => rfl)
        (hall Unit (fun _ _ => 1) _ hlen)
  · rintro (h2 | hfits) α proc m rfl
    · exact ⟨1, m, run_of_length_lt_two _ h2, .refl m⟩
    · obtain ⟨fuel, m', hm', hs⟩ := run_swaps (q := ⟨es, proc⟩) hfits
      exact ⟨fuel, m', hm', hs.perm⟩

theorem sortsSafely_three : SortsSafely ⟨4, fun _ _ => -1⟩ [3, 1, 2] :=
  (sortsSafely_iff (show 3 ≤ INT_MAX by decide)).mpr (.inr ⟨by decide, by decide, by decide⟩) ℕ _ _
    rfl

/-- The offset of the last of `2 ^ 21 + 1` elements of 1024 bytes is too large for an `int`. -/
theorem not_sortsSafely_offset :
    ¬SortsSafely ⟨1024, fun _ _ => 0⟩ (List.replicate (2 ^ 21 + 1) ()) :=
  not_sortsSafely (run_eq_none_of_offset (by rw [List.length_replicate]; decide)
    (by rw [List.length_replicate]; decide))

end Qsort

end Webxs
