import Webxs.Qsort

/-!
# Binary search

`xs_ptr_binsearch` (`xs_arr.h`) compares the key with the first and the last element, and then
halves the interval, until less than eight elements are left for a scan. The midpoint is computed as
`((unsigned)i - (unsigned)n + 1) >> 1` behind `i`, with a minus where the sum belongs : it is
`2³¹ - n / 2` at first, an index far outside of the array.

So the search works without a midpoint, that is for less than eight elements or for a key that is
not strictly between the first and the last one (`finds_iff`). Of the arrays with a midpoint only
those of more than two thirds of 2³¹ elements have the first one inside, and there the search ends
only if it hits or if less than eight elements are left behind it.

The array is a list, and accesses are checked as they are for sorting.
-/

namespace Webxs

/-- A consistent total comparison. -/
structure IsTotalComparison {α : Type} (proc : α → α → ℤ) : Prop where
  neg : ∀ x y, proc x y < 0 ↔ 0 < proc y x
  trans : ∀ x y z, proc x y ≤ 0 → proc y z ≤ 0 → proc x z ≤ 0

namespace Qsort

variable {α : Type} (q : Qsort α) (m : List α) (key : α)

/-! ## The search -/

/-- `compareProc(key, base + j * es, customData)`. -/
def compKey (j : ℕ) : Option ℤ :=
  (q.elem m j).map (q.proc key)

/-- The iteration over the last few elements, `k` of them before `n`. -/
def scanFew (n : ℕ) : ℕ → Option ℤ
  | 0 => some (-(n + 1))
  | k + 1 => do
    let c ← q.compKey m key (n - (k + 1))
    if c = 0 then some (n - (k + 1) : ℕ)
    else if c < 0 then some (-((n - (k + 1) : ℕ) + 1))
    else scanFew n k

/-- The midpoint, an `int`. -/
def searchMid (i n : ℕ) : Option ℕ :=
  let j := (((i : ℤ) - n + 1) % 2 ^ 32).toNat / 2 + i
  if j ≤ INT_MAX then some j else none

/-- The loop. -/
def searchLoop : ℕ → ℕ → ℕ → Option ℤ
  | 0, _, _ => none
  | fuel + 1, i, n =>
    if n ≤ i then some (-(n + 1))
    else if n - i < binSearchThresh then q.scanFew m key n (n - i)
    else do
      let j ← searchMid i n
      let c ← q.compKey m key j
      if c = 0 then some j
      else if c < 0 then searchLoop fuel i j
      else searchLoop fuel (j + 1) n

/-- `xs_ptr_binsearch`. -/
def binsearch (fuel : ℕ) : Option ℤ :=
  if m.length = 0 then some (-1)
  else do
    let c ← q.compKey m key 0
    if c ≤ 0 then some (if c = 0 then 0 else -1)
    else
      let c ← q.compKey m key (m.length - 1)
      if 0 ≤ c then some (if c = 0 then (m.length - 1 : ℕ) else -(m.length + 1))
      else q.searchLoop m key fuel 0 m.length

/-! ## What it is for -/

/-- The index of an element equal to the key, or, if there is none, the insertion position `p` as
`-(p + 1)`. -/
def Position (r : ℤ) : Prop :=
  (∃ (j : ℕ) (x : α), r = j ∧ m[j]? = some x ∧ q.proc key x = 0) ∨
    (∀ x ∈ m, q.proc key x ≠ 0) ∧ r = -(m.countP (fun x => decide (q.proc x key < 0)) + 1 : ℕ)

/-- The first midpoint of `n` elements. -/
def firstMid (n : ℕ) : ℕ :=
  2 ^ 31 - n / 2

/-- The first midpoint is inside, and hits, or leaves less than eight elements, behind it, to a
greater key. -/
def MidHits : Prop :=
  ∃ x ∈ m[firstMid m.length]?, q.proc key x = 0 ∨
    0 < q.proc key x ∧ m.length ≤ firstMid m.length + binSearchThresh

/-- The array is empty or the key not greater than its first element; or offsets fit an `int`, and
there are less than eight elements, or the key is not less than the last one, or a midpoint does. -/
def Searchable : Prop :=
  m.length = 0 ∨ (∃ x ∈ m[0]?, q.proc key x ≤ 0) ∨
    (m.length - 1) * q.es ≤ INT_MAX ∧ (m.length < binSearchThresh ∨
      (∃ x ∈ m[m.length - 1]?, 0 ≤ q.proc key x) ∨ q.MidHits m key)

/-- The search compares only elements of the array, and returns the position of the key. -/
def Finds : Prop :=
  ∃ fuel r, q.binsearch m key fuel = some r ∧ q.Position m key r

variable {q m key} {i j k n fuel : ℕ} {x y : α}

/-! ## The order -/

theorem proc_pos_of_le (h : IsTotalComparison q.proc) (hxy : q.proc x y ≤ 0)
    (hy : 0 < q.proc key y) : 0 < q.proc key x := by
  by_contra hx
  have := h.trans key x y (not_lt.mp hx) hxy
  omega

theorem proc_neg_of_le (h : IsTotalComparison q.proc) (hxy : q.proc x y ≤ 0)
    (hx : q.proc key x < 0) : q.proc key y < 0 := by
  rw [h.neg] at hx ⊢
  by_contra hy
  have := h.trans x y key hxy (not_lt.mp hy)
  omega

/-- The key is greater than all before an element that it is greater than. -/
theorem pos_before (h : IsTotalComparison q.proc) (hs : m.Pairwise fun x y => q.proc x y ≤ 0)
    (hy : m[j]? = some y) (hpos : 0 < q.proc key y) :
    ∀ l ≤ j, ∀ x ∈ m[l]?, 0 < q.proc key x := by
  intro l hl x hx
  rcases Nat.lt_or_eq_of_le hl with hlt | rfl
  · obtain ⟨hj, rfl⟩ := List.getElem?_eq_some_iff.mp hy
    obtain ⟨hl', rfl⟩ := List.getElem?_eq_some_iff.mp hx
    exact proc_pos_of_le h (List.pairwise_iff_getElem.mp hs l j hl' hj hlt) hpos
  · exact Option.some.inj (hy.symm.trans hx) ▸ hpos

/-- The key is less than all from an element on that it is less than. -/
theorem neg_from (h : IsTotalComparison q.proc) (hs : m.Pairwise fun x y => q.proc x y ≤ 0)
    (hy : m[j]? = some y) (hneg : q.proc key y < 0) :
    ∀ l ≥ j, ∀ x ∈ m[l]?, q.proc key x < 0 := by
  intro l hl x hx
  rcases Nat.lt_or_eq_of_le hl with hlt | rfl
  · obtain ⟨hj, rfl⟩ := List.getElem?_eq_some_iff.mp hy
    obtain ⟨hl', rfl⟩ := List.getElem?_eq_some_iff.mp hx
    exact proc_neg_of_le h (List.pairwise_iff_getElem.mp hs j l hj hl' hlt) hneg
  · exact Option.some.inj (hy.symm.trans hx) ▸ hneg

/-- Between the elements the key is greater than and those it is less than is its position. -/
theorem position_between (h : IsTotalComparison q.proc) (hn : n ≤ m.length)
    (hbelow : ∀ l < n, ∀ x ∈ m[l]?, 0 < q.proc key x)
    (habove : ∀ l ≥ n, ∀ x ∈ m[l]?, q.proc key x < 0) :
    q.Position m key (-(n + 1)) := by
  have hlow : ∀ x ∈ m.take n, q.proc x key < 0 := by
    intro x hx
    obtain ⟨l, hl, rfl⟩ := List.mem_take_iff_getElem.mp hx
    rw [h.neg]
    exact hbelow l (by omega) _ (List.getElem?_eq_getElem (by omega))
  have hhigh : ∀ x ∈ m.drop n, q.proc key x < 0 := by
    intro x hx
    obtain ⟨l, hl, rfl⟩ := List.mem_drop_iff_getElem.mp hx
    exact habove (n + l) (by omega) _ (List.getElem?_eq_getElem (by omega))
  refine .inr ⟨fun x hx => ?_, ?_⟩
  · rw [← List.take_append_drop n m, List.mem_append] at hx
    obtain hx | hx := hx
    · have := (h.neg x key).mp (hlow x hx)
      omega
    · have := hhigh x hx
      omega
  · have hcount : m.countP (fun x => decide (q.proc x key < 0)) = n := by
      rw [← List.take_append_drop n m, List.countP_append, List.countP_eq_length.mpr,
        List.countP_eq_zero.mpr, List.length_take, Nat.add_zero, Nat.min_eq_left hn]
      · intro x hx
        have := (h.neg key x).mp (hhigh x hx)
        simp only [decide_eq_true_eq]
        omega
      · exact fun x hx => decide_eq_true (hlow x hx)
    rw [hcount]
    push_cast
    rfl

theorem position_of_eq (hx : m[j]? = some x) (h : q.proc key x = 0) : q.Position m key j :=
  .inl ⟨j, x, rfl, hx, h⟩

/-! ## The last few elements -/

theorem compKey_eq (hfit : (m.length - 1) * q.es ≤ INT_MAX) (hx : m[j]? = some x) :
    q.compKey m key j = some (q.proc key x) := by
  rw [compKey, q.elem_of_offset hfit, hx, Option.map_some]

theorem compKey_none (hj : m.length ≤ j) : q.compKey m key j = none := by
  unfold compKey elem
  rw [List.getElem?_eq_none hj, ite_self, Option.map_none]

/-- The iteration finds the position if the key is greater than all before it and less than all
behind it. -/
theorem scanFew_position (h : IsTotalComparison q.proc)
    (hs : m.Pairwise fun x y => q.proc x y ≤ 0) (hfit : (m.length - 1) * q.es ≤ INT_MAX)
    (hn : n ≤ m.length) (hk : k ≤ n) (hbelow : ∀ l < n - k, ∀ x ∈ m[l]?, 0 < q.proc key x)
    (habove : ∀ l ≥ n, ∀ x ∈ m[l]?, q.proc key x < 0) :
    ∃ r, q.scanFew m key n k = some r ∧ q.Position m key r := by
  induction k with
  | zero => exact ⟨_, rfl, position_between h hn hbelow habove⟩
  | succ k ih =>
    obtain ⟨x, hx⟩ : ∃ x, m[n - (k + 1)]? = some x :=
      ⟨_, List.getElem?_eq_getElem (by omega)⟩
    simp only [scanFew, compKey_eq hfit hx, Option.bind_eq_bind, Option.bind_some]
    split_ifs with h0 hneg
    · exact ⟨_, rfl, position_of_eq hx h0⟩
    · exact ⟨_, rfl, position_between h (by omega) hbelow (neg_from h hs hx hneg)⟩
    · refine ih (by omega) fun l hl => ?_
      exact pos_before h hs hx (by omega) l (by omega)

/-! ## Midpoints -/

theorem searchMid_zero (h8 : 8 ≤ n) (hn : n ≤ INT_MAX) : searchMid 0 n = some (firstMid n) := by
  have hmid : (((0 : ℕ) - n + 1 : ℤ) % 2 ^ 32).toNat / 2 + 0 = firstMid n := by
    unfold firstMid INT_MAX at *
    omega
  have hle : firstMid n ≤ INT_MAX := by
    unfold firstMid INT_MAX at *
    omega
  unfold searchMid
  dsimp only
  rw [hmid, if_pos hle]

/-- Behind the first midpoint the next one overflows. -/
theorem searchMid_none (hi : 2 ^ 30 ≤ i) (h8 : 8 ≤ n - i) (hn : n ≤ INT_MAX) :
    searchMid i n = none := by
  have hlarge : INT_MAX < ((i - n + 1 : ℤ) % 2 ^ 32).toNat / 2 + i := by
    unfold INT_MAX at *
    omega
  unfold searchMid
  dsimp only
  rw [if_neg (not_le.mpr hlarge)]

theorem searchLoop_mid (fuel : ℕ) {c : ℤ} (h8 : 8 ≤ n - i) (hmid : searchMid i n = some j)
    (hc : q.compKey m key j = some c) :
    q.searchLoop m key (fuel + 1) i n =
      if c = 0 then some (j : ℤ)
      else if c < 0 then q.searchLoop m key fuel i j
      else q.searchLoop m key fuel (j + 1) n := by
  rw [searchLoop, if_neg (by omega), if_neg (by unfold binSearchThresh; omega), hmid]
  simp only [Option.bind_eq_bind, Option.bind_some, hc]

/-- A midpoint that overflows, or that is outside. -/
theorem searchLoop_fault (h8 : 8 ≤ n - i)
    (hmid : (searchMid i n).bind (q.compKey m key) = none) :
    q.searchLoop m key fuel i n = none := by
  cases fuel with
  | zero => rfl
  | succ fuel =>
    rw [searchLoop, if_neg (by omega), if_neg (by unfold binSearchThresh; omega)]
    cases hj : searchMid i n with
    | none => rfl
    | some j =>
      rw [hj, Option.bind_some] at hmid
      simp only [Option.bind_eq_bind, Option.bind_some, hmid, Option.bind_none]

theorem searchLoop_few (hlt : i < n) (h8 : n - i < 8) :
    q.searchLoop m key (fuel + 1) i n = q.scanFew m key n (n - i) := by
  rw [searchLoop, if_neg (by omega), if_pos (by unfold binSearchThresh; omega)]

/-- A key that is less than the element at the first midpoint is sought for ever, or outside. -/
theorem searchLoop_never (h : IsTotalComparison q.proc)
    (hs : m.Pairwise fun x y => q.proc x y ≤ 0) (hfit : (m.length - 1) * q.es ≤ INT_MAX)
    (hlen : m.length ≤ INT_MAX) (hx : m[firstMid m.length]? = some x) (hneg : q.proc key x < 0)
    (hlo : firstMid m.length ≤ n) (hhi : n ≤ m.length) :
    q.searchLoop m key fuel 0 n = none := by
  induction fuel generalizing n with
  | zero => rfl
  | succ fuel ih =>
    have h8 : 8 ≤ n := by
      unfold firstMid INT_MAX at *
      omega
    have hmid : firstMid m.length ≤ firstMid n := Nat.sub_le_sub_left (Nat.div_le_div_right hhi) _
    have hmid' := searchMid_zero h8 (hhi.trans hlen)
    rcases Nat.lt_or_ge (firstMid n) m.length with hlt | hge
    · obtain ⟨y, hy⟩ : ∃ y, m[firstMid n]? = some y := ⟨_, List.getElem?_eq_getElem hlt⟩
      have hyneg := neg_from h hs hx hneg _ hmid y hy
      rw [searchLoop_mid _ h8 hmid' (compKey_eq hfit hy), if_neg (by omega), if_pos hyneg]
      exact ih hmid hlt.le
    · refine searchLoop_fault h8 ?_
      rw [hmid', Option.bind_some, compKey_none hge]

/-! ## The search -/

theorem binsearch_nil (h0 : m.length = 0) : q.binsearch m key fuel = some (-1) := by
  rw [binsearch, if_pos h0]

theorem compKey_first (hx : m[0]? = some x) : q.compKey m key 0 = some (q.proc key x) := by
  unfold compKey elem
  rw [Nat.zero_mul, if_pos (Nat.zero_le _), hx, Option.map_some]

/-- The comparison with the first element. -/
theorem binsearch_first (h0 : m.length ≠ 0) (hx : m[0]? = some x) (hle : q.proc key x ≤ 0) :
    q.binsearch m key fuel = some (if q.proc key x = 0 then 0 else -1) := by
  rw [binsearch, if_neg h0, compKey_first hx]
  simp only [Option.bind_eq_bind, Option.bind_some]
  rw [if_pos hle]

theorem binsearch_last (fuel : ℕ) (h0 : m.length ≠ 0) (hx : m[0]? = some x)
    (hpos : 0 < q.proc key x) {c : Option ℤ} (hc : q.compKey m key (m.length - 1) = c) :
    q.binsearch m key fuel = c.bind fun c : ℤ =>
      if 0 ≤ c then some (if c = 0 then ((m.length - 1 : ℕ) : ℤ) else -(m.length + 1))
      else q.searchLoop m key fuel 0 m.length := by
  rw [binsearch, if_neg h0, compKey_first hx]
  simp only [Option.bind_eq_bind, Option.bind_some]
  rw [if_neg (by omega), hc]

/-- Where no midpoint is needed, or one does, the search finds. -/
theorem finds_of_searchable (h : IsTotalComparison q.proc)
    (hs : m.Pairwise fun x y => q.proc x y ≤ 0) (hlen : m.length ≤ INT_MAX)
    (hok : q.Searchable m key) : q.Finds m key := by
  by_cases h0 : m.length = 0
  · have hnil := List.length_eq_zero_iff.mp h0
    exact ⟨0, -1, binsearch_nil h0, .inr ⟨by simp [hnil], by simp [hnil]⟩⟩
  obtain ⟨x, hx⟩ : ∃ x, m[0]? = some x := ⟨_, List.getElem?_eq_getElem (by omega)⟩
  by_cases hle : q.proc key x ≤ 0
  · refine ⟨0, _, binsearch_first h0 hx hle, ?_⟩
    split_ifs with heq
    · exact position_of_eq hx heq
    · exact position_between h (Nat.zero_le _) (fun l hl => absurd hl (Nat.not_lt_zero l))
        (neg_from h hs hx (by omega))
  have hpos : 0 < q.proc key x := by omega
  obtain h0' | ⟨x', hx', hle'⟩ | ⟨hfit, hok⟩ := hok
  · exact absurd h0' h0
  · exact absurd (Option.some.inj (hx.symm.trans hx') ▸ hle') hle
  obtain ⟨y, hy⟩ : ∃ y, m[m.length - 1]? = some y := ⟨_, List.getElem?_eq_getElem (by omega)⟩
  have hlast := fun fuel => binsearch_last fuel h0 hx hpos (compKey_eq hfit hy)
  simp only [Option.bind_some] at hlast
  by_cases hge : 0 ≤ q.proc key y
  · refine ⟨0, _, (hlast 0).trans (if_pos hge), ?_⟩
    split_ifs with heq
    · exact position_of_eq hy heq
    · refine position_between h le_rfl (fun l hl => ?_) fun l hl z hz => ?_
      · exact pos_before h hs hy (by omega) l (by omega)
      · rw [List.getElem?_eq_none hl] at hz
        cases hz
  have habove : ∀ l ≥ m.length, ∀ z ∈ m[l]?, q.proc key z < 0 := fun l hl z hz => by
    rw [List.getElem?_eq_none hl] at hz
    cases hz
  by_cases h8 : m.length < 8
  · obtain ⟨r, hr, hpos'⟩ := scanFew_position h hs hfit le_rfl le_rfl
      (fun l hl => absurd hl (by omega)) habove
    refine ⟨1, r, (hlast 1).trans ?_, hpos'⟩
    rw [if_neg hge, searchLoop_few (by omega) (by omega), Nat.sub_zero, hr]
  obtain h8' | ⟨y', hy', hge'⟩ | ⟨z, hz, hmid⟩ := hok
  · exact absurd h8' h8
  · exact absurd (Option.some.inj (hy.symm.trans hy') ▸ hge') hge
  have hkey : q.compKey m key (firstMid m.length) = some (q.proc key z) := compKey_eq hfit hz
  have hloop := fun fuel => searchLoop_mid (i := 0) (n := m.length) fuel (by omega)
    (searchMid_zero (by omega) hlen) hkey
  obtain hz0 | ⟨hzpos, hfew⟩ := hmid
  · refine ⟨1, firstMid m.length, (hlast 1).trans ?_, position_of_eq hz hz0⟩
    rw [if_neg hge, hloop, if_pos hz0]
  · have hmidlt := (List.getElem?_eq_some_iff.mp hz).1
    have hbelow := pos_before h hs hz hzpos
    have hnotlast : firstMid m.length ≠ m.length - 1 := by
      intro heq
      rw [heq] at hz
      obtain rfl := Option.some.inj (hy.symm.trans hz)
      omega
    unfold binSearchThresh at hfew
    obtain ⟨r, hr, hpos'⟩ := scanFew_position (k := m.length - (firstMid m.length + 1)) h hs hfit
      le_rfl (by omega) (fun l hl => hbelow l (by omega)) habove
    refine ⟨2, r, (hlast 2).trans ?_, hpos'⟩
    rw [if_neg hge, hloop, if_neg (by omega), if_neg (by omega),
      searchLoop_few (by omega) (by omega), hr]

/-- With a midpoint that is no use the search goes outside, overflows, or does not end. -/
theorem searchLoop_eq_none (h : IsTotalComparison q.proc)
    (hs : m.Pairwise fun x y => q.proc x y ≤ 0) (hfit : (m.length - 1) * q.es ≤ INT_MAX)
    (hlen : m.length ≤ INT_MAX) (h8 : 8 ≤ m.length) (hmid : ¬q.MidHits m key) :
    q.searchLoop m key fuel 0 m.length = none := by
  rcases Nat.lt_or_ge (firstMid m.length) m.length with hlt | hge
  · obtain ⟨x, hx⟩ : ∃ x, m[firstMid m.length]? = some x := ⟨_, List.getElem?_eq_getElem hlt⟩
    have hne : ¬q.proc key x = 0 := fun h0 => hmid ⟨x, hx, .inl h0⟩
    by_cases hneg : q.proc key x < 0
    · exact searchLoop_never h hs hfit hlen hx hneg hlt.le le_rfl
    · have hfew : firstMid m.length + 8 < m.length := by
        by_contra hfew
        exact hmid ⟨x, hx, .inr ⟨by omega, not_lt.mp hfew⟩⟩
      cases fuel with
      | zero => rfl
      | succ fuel =>
        have hlarge : 2 ^ 30 ≤ firstMid m.length + 1 := by
          unfold firstMid INT_MAX at *
          omega
        rw [searchLoop_mid _ h8 (searchMid_zero h8 hlen) (compKey_eq hfit hx), if_neg hne,
          if_neg hneg]
        refine searchLoop_fault (by omega) ?_
        rw [searchMid_none hlarge (by omega) hlen, Option.bind_none]
  · refine searchLoop_fault h8 ?_
    rw [searchMid_zero h8 hlen, Option.bind_some, compKey_none hge]

theorem searchable_of_finds (h : IsTotalComparison q.proc)
    (hs : m.Pairwise fun x y => q.proc x y ≤ 0) (hlen : m.length ≤ INT_MAX)
    (hfinds : q.Finds m key) : q.Searchable m key := by
  obtain ⟨fuel, r, hr, -⟩ := hfinds
  by_contra hno
  unfold Searchable at hno
  simp only [not_or, not_and] at hno
  obtain ⟨h0, hfirst, hno⟩ := hno
  obtain ⟨x, hx⟩ : ∃ x, m[0]? = some x := ⟨_, List.getElem?_eq_getElem (by omega)⟩
  have hpos : 0 < q.proc key x := by
    by_contra hle
    exact hfirst ⟨x, hx, not_lt.mp hle⟩
  by_cases hfit : (m.length - 1) * q.es ≤ INT_MAX
  · obtain ⟨h8, hlast, hmid⟩ := hno hfit
    obtain ⟨y, hy⟩ : ∃ y, m[m.length - 1]? = some y := ⟨_, List.getElem?_eq_getElem (by omega)⟩
    have hyneg : ¬0 ≤ q.proc key y := fun hge => hlast ⟨y, hy, hge⟩
    rw [binsearch_last _ h0 hx hpos (compKey_eq hfit hy), Option.bind_some, if_neg hyneg,
      searchLoop_eq_none h hs hfit hlen (not_lt.mp h8) hmid] at hr
    cases hr
  · have hnone : q.compKey m key (m.length - 1) = none := by
      unfold compKey elem
      rw [if_neg hfit, Option.map_none]
    rw [binsearch_last _ h0 hx hpos hnone] at hr
    cases hr

/-- The search finds exactly if no midpoint is needed, or one does. -/
theorem finds_iff (h : IsTotalComparison q.proc) (hs : m.Pairwise fun x y => q.proc x y ≤ 0)
    (hlen : m.length ≤ INT_MAX) : q.Finds m key ↔ q.Searchable m key :=
  ⟨searchable_of_finds h hs hlen, finds_of_searchable h hs hlen⟩

/-- Integers of four bytes. -/
def ints : Qsort ℤ where
  es := 4
  proc := fun x y => x - y

theorem isTotalComparison_ints : IsTotalComparison ints.proc where
  neg := fun x y => by
    unfold ints
    dsimp only
    omega
  trans := fun x y z => by
    unfold ints
    dsimp only
    omega

theorem finds_seven : ints.Finds [1, 2, 3, 4, 5, 6, 7] 4 := by
  refine (finds_iff isTotalComparison_ints ?_ (by decide)).mpr (.inr (.inr ⟨by decide, .inl ?_⟩))
  · simp only [ints]
    decide
  · decide

/-- Of eight elements the third one is not found. -/
theorem not_finds_eight : IsTotalComparison ints.proc ∧
    ([1, 2, 3, 4, 5, 6, 7, 8].Pairwise fun x y => ints.proc x y ≤ 0) ∧
    ¬ints.Finds [1, 2, 3, 4, 5, 6, 7, 8] 3 := by
  have hs : [1, 2, 3, 4, 5, 6, 7, 8].Pairwise fun x y => ints.proc x y ≤ 0 := by
    simp only [ints]
    decide
  refine ⟨isTotalComparison_ints, hs, fun hfinds => ?_⟩
  have hmid : ¬ints.MidHits [1, 2, 3, 4, 5, 6, 7, 8] 3 := by
    rintro ⟨x, hx, -⟩
    rw [List.getElem?_eq_none (by decide)] at hx
    cases hx
  obtain h0 | ⟨x, hx, hle⟩ | ⟨-, h8 | ⟨x, hx, hge⟩ | hmid'⟩ :=
    searchable_of_finds isTotalComparison_ints hs (by decide) hfinds
  · cases h0
  · cases hx
    exact absurd hle (by decide)
  · exact absurd h8 (by decide)
  · cases hx
    exact absurd hge (by decide)
  · exact hmid hmid'

end Qsort

end Webxs
