import Mathlib.Order.Defs.Unbundled
import Webxs.QsortSafety

/-!
# Sorting sorts

For a comparison whose negative results are a strict weak order, and that is positive wherever the
other way round it is negative, `xs_ptr_qsort` sorts. Ties may be positive in both directions, and
then they stop neither cursor : the elements between the cursors are ties of the pivot.

The order is lifted to the pending runs : two elements that are not in one run are in order.
-/

namespace Webxs

/-- What is asked of a comparison. -/
structure IsComparison {α : Type} (proc : α → α → ℤ) : Prop where
  order : IsStrictWeakOrder α (fun x y => proc x y < 0)
  pos : ∀ x y, proc y x < 0 → 0 < proc x y

namespace IsComparison

variable {α : Type} {proc : α → α → ℤ} {x y z : α}

theorem irrefl (h : IsComparison proc) (x : α) : ¬proc x x < 0 :=
  h.order.irrefl x

theorem asymm (h : IsComparison proc) (hxy : proc x y < 0) : ¬proc y x < 0 :=
  (h.pos y x hxy).not_gt

/-- What is not less is less or equal. -/
theorem neg_trans (h : IsComparison proc) (hxy : ¬proc x y < 0) (hyz : ¬proc y z < 0) :
    ¬proc x z < 0 := by
  intro hxz
  have hyx : ¬proc y x < 0 := fun hyx => hyz (h.order.trans y x z hyx hxz)
  have hzy : ¬proc z y < 0 := fun hzy => hxy (h.order.trans x z y hxz hzy)
  exact (h.order.incomp_trans x y z ⟨hxy, hyx⟩ ⟨hyz, hzy⟩).1 hxz

end IsComparison

namespace Qsort

variable {α : Type} {q : Qsort α} {m m' : List α} {a b c i j n start limit lo hi fuel : ℕ} {v : α}

/-- Of two elements the later one is not less, if `C` holds of their indices. -/
def OrderedIf (q : Qsort α) (m : List α) (C : ℕ → ℕ → Prop) : Prop :=
  ∀ k l, k < l → C k l → ∀ x ∈ m[k]?, ∀ y ∈ m[l]?, ¬q.proc y x < 0

/-! ## The insertion sort -/

/-- All is in order from `lo` up to `hi`, but for the element at `c` against those before it. -/
def Sinking (q : Qsort α) (m : List α) (lo hi c : ℕ) : Prop :=
  q.OrderedIf m fun k l => lo ≤ k ∧ l < hi ∧ l ≠ c

/-- An element that is not less than the one before it has come to its place. -/
theorem Sinking.stop (hq : IsComparison q.proc) (h : q.Sinking m lo hi (c + 1)) {x y : α}
    (hx : m[c]? = some x) (hy : m[c + 1]? = some y) (hxy : ¬q.proc y x < 0) :
    q.OrderedIf m fun k l => lo ≤ k ∧ l < hi := by
  intro k l hkl hC z hz w hw
  by_cases hl : l = c + 1
  · obtain rfl := hl
    obtain rfl := Option.some.inj (hy.symm.trans hw)
    by_cases hk : k = c
    · obtain rfl := hk
      exact Option.some.inj (hx.symm.trans hz) ▸ hxy
    · exact hq.neg_trans hxy (h k c (by omega) (by omega) z hz x hx)
  · exact h k l hkl ⟨hC.1, hC.2, hl⟩ z hz w hw

/-- Otherwise it goes on from one place before. -/
theorem Sinking.step (hq : IsComparison q.proc) (h : q.Sinking m lo hi (c + 1)) (hc : lo ≤ c)
    (hhi : c + 1 < hi) {x y : α} (hx : m[c]? = some x) (hy : m[c + 1]? = some y)
    (hxy : q.proc y x < 0) : q.Sinking ((m.set c y).set (c + 1) x) lo hi c := by
  intro k l hkl hC z hz w hw
  rw [Swaps.getElem?_swap hx hy] at hz hw
  obtain ⟨hk, hl, hlc⟩ := hC
  by_cases hl' : l = c + 1
  · obtain rfl := hl'
    rw [if_pos rfl] at hw
    obtain rfl := Option.some.inj hw
    by_cases hkc : k = c
    · obtain rfl := hkc
      rw [if_neg (by omega), if_pos rfl] at hz
      exact Option.some.inj hz ▸ hq.asymm hxy
    · rw [if_neg (by omega), if_neg hkc] at hz
      exact h k c (by omega) ⟨hk, by omega, by omega⟩ z hz x hx
  · rw [if_neg hl', if_neg hlc] at hw
    split_ifs at hz with hkc hkc
    · exact h c l (by omega) ⟨hc, hl, hl'⟩ z (hx.trans hz) w hw
    · exact h (c + 1) l (by omega) ⟨by omega, hl, hl'⟩ z (hy.trans hz) w hw
    · exact h k l hkl ⟨hk, hl, hl'⟩ z hz w hw

theorem bubbleDown_ordered (hq : IsComparison q.proc) (h : Fits q.es m.length)
    (hn : start + n + 1 < hi) (hhi : hi ≤ m.length) (hs : q.Sinking m start hi (start + n + 1)) :
    ∃ m', q.bubbleDown start n m = some m' ∧ Swaps start hi m m' ∧
      q.OrderedIf m' fun k l => start ≤ k ∧ l < hi := by
  induction n generalizing m with
  | zero =>
    have hx := List.getElem?_eq_getElem (show start < m.length by omega)
    have hy := List.getElem?_eq_getElem (show start + 1 < m.length by omega)
    rw [bubbleDown_zero]
    refine ⟨_, compSwap_eq h hx hy, ?_⟩
    split_ifs with hlt
    · refine ⟨.single (by omega) (by omega) hx hy, fun k l hkl hC => ?_⟩
      exact hs.step hq le_rfl hn hx hy hlt k l hkl ⟨hC.1, hC.2, by omega⟩
    · exact ⟨.refl m, hs.stop hq hx hy hlt⟩
  | succ n ih =>
    have hx := List.getElem?_eq_getElem (show start + (n + 1) < m.length by omega)
    have hy := List.getElem?_eq_getElem (show start + (n + 1) + 1 < m.length by omega)
    unfold bubbleDown
    rw [comp_eq h hx hy]
    simp only [Option.bind_eq_bind, Option.bind_some]
    split_ifs with hlt
    · obtain ⟨x, y, hx', hy', hswap⟩ := swap_eq h (a := start + (n + 1)) (b := start + (n + 1) + 1)
        (by omega) (by omega)
      obtain rfl := Option.some.inj (hx.symm.trans hx')
      obtain rfl := Option.some.inj (hy.symm.trans hy')
      have hs₁ := hs.step hq (Nat.le_add_right _ _) hn hx hy hlt
      have hsw : Swaps start hi m _ := .single (by omega) (by omega) hx hy
      obtain ⟨m', hm', hs', hord⟩ := ih (hsw.length.symm ▸ h) (by omega) (hsw.length.symm ▸ hhi) hs₁
      rw [hswap, Option.bind_some]
      exact ⟨m', hm', hsw.trans hs', hord⟩
    · exact ⟨m, rfl, .refl m, hs.stop hq hx hy hlt⟩

theorem bubble_ordered (hq : IsComparison q.proc) (h : Fits q.es m.length) (hs : start ≤ limit)
    (hl : limit ≤ m.length) :
    ∃ m', q.bubble start limit m = some m' ∧ Swaps start limit m m' ∧
      q.OrderedIf m' fun k l => start ≤ k ∧ l < limit := by
  have hi := h.index
  have hstep : ∀ n m₁, start + n + 1 < limit →
      (Swaps start limit m m₁ ∧ q.OrderedIf m₁ fun k l => start ≤ k ∧ l < start + n + 1) →
      ∃ m₂, q.bubbleDown start n m₁ = some m₂ ∧ Swaps start limit m m₂ ∧
        q.OrderedIf m₂ fun k l => start ≤ k ∧ l < start + (n + 1) + 1 := by
    rintro n m₁ hn ⟨hsw, hord⟩
    obtain ⟨m₂, hm₂, hsw₂, hord₂⟩ := bubbleDown_ordered hq (hsw.length.symm ▸ h)
      (Nat.lt_succ_self (start + n + 1)) (by rw [hsw.length]; omega)
      (fun k l hkl hC => hord k l hkl ⟨hC.1, by omega⟩)
    exact ⟨m₂, hm₂, hsw.trans (hsw₂.mono le_rfl (by omega)), hord₂⟩
  obtain ⟨m', hm', hsw, hord⟩ := bubble_rule (by omega)
    ⟨.refl m, fun k l hkl hC => by omega⟩ hstep
  exact ⟨m', hm', hsw, fun k l hkl hC => hord k l hkl ⟨hC.1, by omega⟩⟩

/-! ## Splitting -/

/-- Exchanging a pair that compares less leaves one that does not. -/
theorem compSwap_ordered (hq : IsComparison q.proc) (h : Fits q.es m.length) (hab : a ≠ b)
    {x y : α} (hx : m[a]? = some x) (hy : m[b]? = some y) :
    ∃ m' x' y', q.compSwap a b m = some m' ∧ m'.length = m.length ∧ m'[a]? = some x' ∧
      m'[b]? = some y' ∧ (∀ k, k ≠ a → k ≠ b → m'[k]? = m[k]?) ∧ ¬q.proc y' x' < 0 ∧
      (x' = x ∧ y' = y ∨ x' = y ∧ y' = x ∧ q.proc y x < 0) := by
  refine ⟨_, if q.proc y x < 0 then y else x, if q.proc y x < 0 then x else y,
    compSwap_eq h hx hy, ?_⟩
  split_ifs with hlt
  · have hget := Swaps.getElem?_swap hx hy
    refine ⟨(Swaps.perm_swap hx hy).length_eq, ?_, ?_, fun k hka hkb => ?_, hq.asymm hlt,
      .inr ⟨rfl, rfl, hlt⟩⟩
    · rw [hget, if_neg hab, if_pos rfl]
    · rw [hget, if_pos rfl]
    · rw [hget, if_neg hkb, if_neg hka]
  · exact ⟨rfl, hx, hy, fun _ _ _ => rfl, hlt, .inl ⟨rfl, rfl⟩⟩

/-- The median of three is at `start`, between the elements at both ends. -/
theorem median_ordered (hq : IsComparison q.proc) (h : Fits q.es m.length)
    (hs : start + 8 ≤ limit) (hl : limit ≤ m.length) (hm : q.median start limit m = some m')
    (hv : m'[start]? = some v) :
    (∀ x ∈ m'[start + 1]?, ¬q.proc v x < 0) ∧ ∀ x ∈ m'[limit - 1]?, ¬q.proc x v < 0 := by
  have hmid : start ≤ (limit - start) / 2 + start ∧ (limit - start) / 2 + start < limit := by
    omega
  have hstart : start ≤ start ∧ start < limit := by omega
  obtain ⟨m₀, h₀, hs₀⟩ := swap_swaps h hmid hstart hl
  have hl₀ := hs₀.length
  have ha := List.getElem?_eq_getElem (show start < m₀.length by omega)
  have hb := List.getElem?_eq_getElem (show start + 1 < m₀.length by omega)
  have hc := List.getElem?_eq_getElem (show limit - 1 < m₀.length by omega)
  obtain ⟨m₁, b₁, c₁, h₁, hl₁, hb₁, hc₁, hother₁, hcb, -⟩ :=
    compSwap_ordered hq (hl₀.symm ▸ h) (by omega) hb hc
  rw [hl₀] at hl₁
  have ha₁ := (hother₁ start (by omega) (by omega)).trans ha
  obtain ⟨m₂, a₂, c₂, h₂, hl₂, ha₂, hc₂, hother₂, hca, hcase₂⟩ :=
    compSwap_ordered hq (hl₁.symm ▸ h) (by omega) ha₁ hc₁
  rw [hl₁] at hl₂
  have hb₂ := (hother₂ (start + 1) (by omega) (by omega)).trans hb₁
  have hcb₂ : ¬q.proc c₂ b₁ < 0 := by
    rcases hcase₂ with ⟨-, rfl⟩ | ⟨-, rfl, hlt⟩
    · exact hcb
    · exact fun h => hcb (hq.order.trans _ _ _ hlt h)
  obtain ⟨m₃, b₃, a₃, h₃, -, hb₃, ha₃, hother₃, hab, hcase₃⟩ :=
    compSwap_ordered hq (hl₂.symm ▸ h) (by omega) hb₂ ha₂
  have hc₃ := (hother₃ (limit - 1) (by omega) (by omega)).trans hc₂
  obtain rfl : m₃ = m' := by
    unfold median at hm
    rw [h₀] at hm
    simp only [Option.bind_eq_bind, Option.bind_some] at hm
    rw [h₁, Option.bind_some, h₂, Option.bind_some, h₃] at hm
    exact Option.some.inj hm
  obtain rfl := Option.some.inj (ha₃.symm.trans hv)
  constructor
  · intro x hx
    exact Option.some.inj (hb₃.symm.trans hx) ▸ hab
  · intro x hx
    obtain rfl := Option.some.inj (hc₃.symm.trans hx)
    rcases hcase₃ with ⟨-, rfl⟩ | ⟨-, rfl, -⟩
    · exact hca
    · exact hcb₂

/-- The parts of a run are in order : nothing before `i` is greater than the pivot, and nothing
from `j` on is less. -/
theorem split_ordered (hq : IsComparison q.proc) (h : Fits q.es m.length)
    (hs : start + 8 ≤ limit) (hl : limit ≤ m.length) (hfuel : limit ≤ start + fuel) :
    ∃ i j m', q.split start limit fuel m = some (i, j, m') ∧ start ≤ j ∧ j < i ∧ i ≤ limit ∧
      Swaps start limit m m' ∧
      q.OrderedIf m' fun k l => start ≤ k ∧ k < i ∧ j ≤ l ∧ l < limit := by
  obtain ⟨m₁, m₂, m', v, i, j, hmed, hv, hpart, hi, hj, hswap, hsplit, hs₂, hsw⟩ :=
    split_eq h hs hl hfuel
  obtain ⟨hlow, hhigh⟩ := median_ordered hq h hs hl hmed hv
  obtain ⟨hji, hsj, hil, hsw₂, hlow₂, hhigh₂⟩ := hpart
  refine ⟨i, j, m', hsplit, hsj, hji, hil, hsw, ?_⟩
  have hv₂ := (hsw₂.outside (k := start) (.inl (by omega))).trans hv
  have hlen₂ := hs₂.length
  obtain ⟨v', w, hv', hw, hswap'⟩ := swap_eq (hlen₂.symm ▸ h) (a := start) (b := j) (by omega)
    (by omega)
  obtain rfl := Option.some.inj (hv₂.symm.trans hv')
  obtain rfl := Option.some.inj (hswap.symm.trans hswap')
  have hbelow : AllBetween start i m₂ fun x => ¬q.proc v x < 0 := by
    intro k hk hki x hx
    rcases Nat.lt_trichotomy k (start + 1) with hk' | rfl | hk'
    · obtain rfl : k = start := by omega
      exact Option.some.inj (hv₂.symm.trans hx) ▸ hq.irrefl v
    · exact hlow x ((hsw₂.outside (.inl (by omega))).symm.trans hx)
    · exact (hlow₂ k hk' hki x hx).not_gt
  have habove : AllBetween (j + 1) limit m₂ fun x => ¬q.proc x v < 0 := by
    intro k hk hkl x hx
    by_cases hk' : k < limit - 1
    · exact fun hlt => (hhigh₂ k hk hk' x hx).not_gt (hq.pos v x hlt)
    · obtain rfl : k = limit - 1 := by omega
      exact hhigh x ((hsw₂.outside (.inr le_rfl)).symm.trans hx)
  have hsw' : Swaps start i m₂ _ := .single (by omega) (by omega) hv' hw
  have hbelow' := hsw'.allBetween hbelow
  intro k l hkl hC x hx y hy
  refine hq.neg_trans ?_ (hbelow' k hC.1 hC.2.1 x hx)
  rw [Swaps.getElem?_swap hv' hw] at hy
  split_ifs at hy
  · exact Option.some.inj hy ▸ hq.irrefl v
  · omega
  · exact habove l (by omega) hC.2.2.2 y hy

/-! ## The runs -/

/-- Two elements that are not in one pending run are in order, and the runs have no index in
common. -/
structure Sorted (q : Qsort α) (runs : List (ℕ × ℕ)) (m : List α) : Prop where
  disjoint : runs.Pairwise fun r s => r.2 ≤ s.1 ∨ s.2 ≤ r.1
  ordered : q.OrderedIf m fun k l => ∀ r ∈ runs, ¬(r.1 ≤ k ∧ l < r.2)

/-- Swaps in one run, after which it is in order but for the runs that it is replaced with. -/
theorem Sorted.replace {r : ℕ × ℕ} {rs : List (ℕ × ℕ)} (new : List (ℕ × ℕ))
    (h : q.Sorted (r :: rs) m)
    (hsw : Swaps r.1 r.2 m m') (hdis : new.Pairwise fun r s => r.2 ≤ s.1 ∨ s.2 ≤ r.1)
    (hin : ∀ s ∈ new, r.1 ≤ s.1 ∧ s.2 ≤ r.2)
    (hord : q.OrderedIf m' fun k l => r.1 ≤ k ∧ l < r.2 ∧ ∀ s ∈ new, ¬(s.1 ≤ k ∧ l < s.2)) :
    q.Sorted (new ++ rs) m' := by
  obtain ⟨hdis', hord'⟩ := h
  rw [List.pairwise_cons] at hdis'
  refine ⟨List.pairwise_append.mpr ⟨hdis, hdis'.2, fun s hs t ht => ?_⟩, ?_⟩
  · have hs' := hin s hs
    have ht' := hdis'.1 t ht
    omega
  · intro k l hkl hC x hx y hy
    have hold : ∀ k l, k < l → (∀ s ∈ rs, ¬(s.1 ≤ k ∧ l < s.2)) → ¬(r.1 ≤ k ∧ l < r.2) →
        ∀ x ∈ m[k]?, ∀ y ∈ m[l]?, ¬q.proc y x < 0 :=
      fun k l hkl hrs hr => hord' k l hkl (List.forall_mem_cons.mpr ⟨hr, hrs⟩)
    have hrs : ∀ s ∈ rs, ¬(s.1 ≤ k ∧ l < s.2) := fun s hs => hC s (List.mem_append_right new hs)
    by_cases hk : r.1 ≤ k ∧ k < r.2
    · by_cases hl : l < r.2
      · exact hord k l hkl ⟨hk.1, hl, fun s hs => hC s (List.mem_append_left rs hs)⟩ x hx y hy
      · rw [hsw.outside (.inr (by omega))] at hy
        refine hsw.allBetween (P := fun x => ¬q.proc y x < 0) (fun k' hk' hk'r x' hx' => ?_) k hk.1
          hk.2 x hx
        refine hold k' l (by omega) (fun s hs => ?_) (by omega) x' hx' y hy
        have := hdis'.1 s hs
        omega
    · rw [hsw.outside (by omega)] at hx
      by_cases hl : r.1 ≤ l ∧ l < r.2
      · refine hsw.allBetween (P := fun y => ¬q.proc y x < 0) (fun l' hl' hl'r y' hy' => ?_) l hl.1
          hl.2 y hy
        refine hold k l' (by omega) (fun s hs => ?_) (by omega) x hx y' hy'
        have := hdis'.1 s hs
        omega
      · rw [hsw.outside (by omega)] at hy
        exact hold k l hkl hrs (by omega) x hx y hy

/-- The call sorts. -/
theorem run_ordered (hq : IsComparison q.proc) (h : Fits q.es m.length) :
    ∃ fuel m', q.run m fuel = some (0, m') ∧ m'.Perm m ∧
      m'.Pairwise fun x y => ¬q.proc y x < 0 := by
  have hinit : q.Sorted [(0, m.length)] m := by
    refine ⟨List.pairwise_singleton _ _, fun k l hkl hC x hx y hy => ?_⟩
    obtain ⟨hl, -⟩ := List.getElem?_eq_some_iff.mp hy
    exact absurd ⟨Nat.zero_le k, hl⟩ (hC (0, m.length) (by simp))
  have hbubble : ∀ r rs m₁, r.1 ≤ r.2 → r.2 ≤ m.length →
      (Swaps 0 m.length m m₁ ∧ q.Sorted (r :: rs) m₁) →
      ∃ m₂, q.bubble r.1 r.2 m₁ = some m₂ ∧ Swaps 0 m.length m m₂ ∧ q.Sorted rs m₂ := by
    rintro r rs m₁ hr hl ⟨hsw, hs⟩
    obtain ⟨m₂, h₂, hsw₂, hord⟩ :=
      bubble_ordered hq (hsw.length.symm ▸ h) hr (hsw.length.symm ▸ hl)
    refine ⟨m₂, h₂, hsw.trans (hsw₂.mono (Nat.zero_le _) hl), ?_⟩
    exact hs.replace [] hsw₂ .nil (fun _ hs => nomatch hs)
      fun k l hkl hC => hord k l hkl ⟨hC.1, hC.2.1⟩
  have hsplit : ∀ r rs m₁ fuel, r.1 + 8 ≤ r.2 → r.2 ≤ m.length → r.2 ≤ r.1 + fuel →
      (Swaps 0 m.length m m₁ ∧ q.Sorted (r :: rs) m₁) →
      ∃ i j m₂, q.split r.1 r.2 fuel m₁ = some (i, j, m₂) ∧ r.1 ≤ j ∧ j < i ∧ i ≤ r.2 ∧
        (Swaps 0 m.length m m₂ ∧ q.Sorted ((r.1, j) :: (i, r.2) :: rs) m₂) ∧
        (Swaps 0 m.length m m₂ ∧ q.Sorted ((i, r.2) :: (r.1, j) :: rs) m₂) := by
    rintro r rs m₁ fuel hr hl hfuel ⟨hsw, hs⟩
    obtain ⟨i, j, m₂, h₂, hj, hji, hi, hsw₂, hord⟩ :=
      split_ordered hq (hsw.length.symm ▸ h) hr (hsw.length.symm ▸ hl) hfuel
    have hsw' := hsw.trans (hsw₂.mono (Nat.zero_le _) hl)
    refine ⟨i, j, m₂, h₂, hj, hji, hi, ⟨hsw', ?_⟩, hsw', ?_⟩
    · refine hs.replace [(r.1, j), (i, r.2)] hsw₂ (by simp; omega) (by simp; omega) ?_
      intro k l hkl hC
      have hleft := hC.2.2 (r.1, j) (by simp)
      have hright := hC.2.2 (i, r.2) (by simp)
      exact hord k l hkl (by omega)
    · refine hs.replace [(i, r.2), (r.1, j)] hsw₂ (by simp; omega) (by simp; omega) ?_
      intro k l hkl hC
      have hleft := hC.2.2 (r.1, j) (by simp)
      have hright := hC.2.2 (i, r.2) (by simp)
      exact hord k l hkl (by omega)
  obtain ⟨fuel, m', hm', hsw, -, hord⟩ := run_rule
    (P := fun runs m' => Swaps 0 m.length m m' ∧ q.Sorted runs m') h.index.le hbubble hsplit
    ⟨.refl m, hinit⟩
  refine ⟨fuel, m', hm', hsw.perm, List.pairwise_iff_getElem.mpr fun k l hk hl hkl => ?_⟩
  exact hord k l hkl (fun _ hr => nomatch hr) _ (List.getElem?_eq_getElem hk) _
    (List.getElem?_eq_getElem hl)

end Qsort

end Webxs
