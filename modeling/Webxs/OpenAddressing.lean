import Mathlib.Algebra.BigOperators.Group.Finset.Basic
import Mathlib.Algebra.Order.BigOperators.Group.Finset
import Mathlib.Data.Set.Card
import Mathlib.Data.Nat.Prime.Basic
import Mathlib.Data.Fintype.EquivFin
import Mathlib.Tactic.Ring

/-!
# Open addressing

A table has a slot at each index : an empty one, one that a deletion has left, or one that
holds a key with its value. A key is looked for along its probes, `probe k 0`, `probe k 1`,
and so on, up to the key or an empty slot. `Represents probe t m` says that the slots `t` hold the
map `m`, each key once and at a place that its probes reach before an empty slot : a search that
comes to an empty slot has then missed nothing (`Represents.none_of_empty`).

A table is rehashed by moving its keys to a new one in any order. `Moving` is the state in between :
what is still in the old slots, what is in the new ones, and at most one key that is in neither.

Triangular probing visits every slot of a table whose size is a power of two
(`exists_triangle_mod`).
-/

/-- A slot of a table. -/
inductive Slot (K V : Type*)
  | empty
  | deleted
  | live (k : K) (v : V)

namespace Slot

variable {K V : Type*}

/-- Neither empty nor deleted. -/
def isLive : Slot K V → Bool
  | live _ _ => true
  | _ => false

/-- Neither live nor deleted. -/
def isEmpty : Slot K V → Bool
  | empty => true
  | _ => false

/-- A search for `k` goes on behind the slot. -/
def Passed (k : K) (s : Slot K V) : Prop :=
  s ≠ empty ∧ ∀ v, s ≠ live k v

theorem live_ne_empty (k : K) (v : V) : live k v ≠ empty := nofun

theorem deleted_ne_empty : (deleted : Slot K V) ≠ empty := nofun

theorem exists_of_isLive {s : Slot K V} (h : s.isLive = true) : ∃ k v, s = live k v :=
  match s, h with
  | live k v, _ => ⟨k, v, rfl⟩

theorem isEmpty_iff {s : Slot K V} : s.isEmpty = true ↔ s = empty := by
  cases s <;> simp [isEmpty]

@[simp]
theorem isEmpty_live (k : K) (v : V) : (live k v).isEmpty = false := rfl

@[simp]
theorem isEmpty_empty : (empty : Slot K V).isEmpty = true := rfl

@[simp]
theorem isEmpty_deleted : (deleted : Slot K V).isEmpty = false := rfl

@[simp]
theorem isLive_live (k : K) (v : V) : (live k v).isLive = true := rfl

@[simp]
theorem isLive_empty : (empty : Slot K V).isLive = false := rfl

@[simp]
theorem isLive_deleted : (deleted : Slot K V).isLive = false := rfl

end Slot

namespace OpenAddressing

variable {ι K V : Type*} {probe : K → ℕ → ι} {t : ι → Slot K V} {m : K → Option V} {k : K}
  {v : V} {i : ι}

/-- A search for `k` that no live slot ends comes to index `i`. -/
def Reached (probe : K → ℕ → ι) (t : ι → Slot K V) (k : K) (i : ι) : Prop :=
  ∃ j, probe k j = i ∧ ∀ l < j, t (probe k l) ≠ .empty

/-- A search for `k` comes to index `i`. -/
def Searched (probe : K → ℕ → ι) (t : ι → Slot K V) (k : K) (i : ι) : Prop :=
  ∃ j, probe k j = i ∧ ∀ l < j, (t (probe k l)).Passed k

theorem Searched.reached (h : Searched probe t k i) : Reached probe t k i :=
  let ⟨j, hj, hpass⟩ := h
  ⟨j, hj, fun l hl => (hpass l hl).1⟩

/-- The live slots of `t` are the entries of `m`, each key in one slot. -/
structure Holds (t : ι → Slot K V) (m : K → Option V) : Prop where
  mem : ∀ k v, m k = some v ↔ ∃ i, t i = .live k v
  unique : ∀ {i j k v w}, t i = .live k v → t j = .live k w → i = j

/-- `t` holds `m`, and every key where its probes find it. -/
structure Represents (probe : K → ℕ → ι) (t : ι → Slot K V) (m : K → Option V) : Prop
    extends Holds t m where
  reached : ∀ {i k v}, t i = .live k v → Reached probe t k i

theorem Holds.some_of_live (h : Holds t m) (hi : t i = .live k v) : m k = some v :=
  (h.mem k v).mpr ⟨i, hi⟩

theorem Holds.none_of_forall (h : Holds t m) (hno : ∀ i v, t i ≠ .live k v) : m k = none := by
  rcases hm : m k with _ | v
  · rfl
  · obtain ⟨i, hi⟩ := (h.mem k v).mp hm
    exact absurd hi (hno i v)

theorem Holds.congr {t' : ι → Slot K V} (h : Holds t m)
    (hlive : ∀ i k v, t' i = .live k v ↔ t i = .live k v) : Holds t' m where
  mem k v := by simp only [h.mem, hlive]
  unique hi hj := h.unique ((hlive _ _ _).mp hi) ((hlive _ _ _).mp hj)

/-- A search that ends at an empty slot has missed nothing. -/
theorem Represents.none_of_empty (h : Represents probe t m) (hs : Searched probe t k i)
    (hi : t i = .empty) : m k = none := by
  refine h.none_of_forall fun i' v hi' => ?_
  obtain ⟨j, rfl, hpass⟩ := hs
  obtain ⟨j', rfl, hne⟩ := h.reached hi'
  rcases Nat.lt_trichotomy j j' with hlt | rfl | hlt
  · exact hne j hlt hi
  · rw [hi] at hi'
    cases hi'
  · exact (hpass j' hlt).2 v hi'

theorem represents_empty (ht : ∀ i, t i = .empty) :
    Represents probe t (fun _ => none) where
  mem k v := by simp [ht]
  unique hi := by simp [ht] at hi
  reached hi := by simp [ht] at hi

section Update

variable [DecidableEq ι]

/-- Slots that are not empty stay so when one of them is filled. -/
theorem Reached.update {s : Slot K V} (h : Reached probe t k i) {j : ι} (hs : s ≠ .empty) :
    Reached probe (Function.update t j s) k i := by
  obtain ⟨l, hl, hne⟩ := h
  refine ⟨l, hl, fun l' hl' => ?_⟩
  rw [Function.update_apply]
  split_ifs
  · exact hs
  · exact hne l' hl'

variable [DecidableEq K]

/-- A key that is new goes to a slot that is not in use. -/
theorem Holds.insert (h : Holds t m) (hnew : m k = none) (hfree : (t i).isLive = false) (v : V) :
    Holds (Function.update t i (.live k v)) (Function.update m k (some v)) where
  mem k' v' := by
    rcases eq_or_ne k' k with rfl | hk
    · rw [Function.update_self, Option.some.injEq]
      refine ⟨fun heq => ⟨i, by rw [Function.update_self, heq]⟩, fun ⟨j, hj⟩ => ?_⟩
      rcases eq_or_ne j i with rfl | hji
      · rw [Function.update_self, Slot.live.injEq] at hj
        exact hj.2
      · rw [Function.update_of_ne hji] at hj
        rw [h.some_of_live hj] at hnew
        exact absurd hnew (Option.some_ne_none _)
    · rw [Function.update_of_ne hk, h.mem]
      refine exists_congr fun j => ?_
      rcases eq_or_ne j i with rfl | hji
      · rw [Function.update_self, Slot.live.injEq]
        refine ⟨fun hj => ?_, fun hj => absurd hj.1.symm hk⟩
        rw [hj, Slot.isLive_live] at hfree
        exact Bool.noConfusion hfree
      · rw [Function.update_of_ne hji]
  unique {j j' k' v' w'} hj hj' := by
    have hold : ∀ {l w}, l ≠ i → Function.update t i (.live k v) l = .live k' w →
        t l = .live k' w ∧ k' ≠ k := by
      intro l w hl hlive
      rw [Function.update_of_ne hl] at hlive
      refine ⟨hlive, ?_⟩
      rintro rfl
      rw [h.some_of_live hlive] at hnew
      exact absurd hnew (Option.some_ne_none _)
    have hkey : ∀ {w}, Function.update t i (.live k v) i = .live k' w → k' = k := by
      intro w hlive
      rw [Function.update_self, Slot.live.injEq] at hlive
      exact hlive.1.symm
    rcases eq_or_ne j i with rfl | hji <;> rcases eq_or_ne j' j with rfl | hji'
    · rfl
    · exact absurd (hkey hj) (hold hji' hj').2
    · rfl
    · rcases eq_or_ne j' i with rfl | hne
      · exact absurd (hkey hj') (hold hji hj).2
      · exact h.unique (hold hji hj).1 (hold hne hj').1

/-- The key of a slot is removed, whatever the slot is then. -/
theorem Holds.erase {s : Slot K V} (h : Holds t m) (hi : t i = .live k v)
    (hs : s.isLive = false) : Holds (Function.update t i s) (Function.update m k none) where
  mem k' v' := by
    have hself : ∀ w, Function.update t i s i ≠ .live k' w := by
      intro w hw
      rw [Function.update_self] at hw
      rw [hw] at hs
      exact Bool.noConfusion hs
    rcases eq_or_ne k' k with rfl | hk
    · rw [Function.update_self]
      refine ⟨fun hno => absurd hno.symm (Option.some_ne_none _), fun ⟨j, hj⟩ => ?_⟩
      rcases eq_or_ne j i with rfl | hji
      · exact absurd hj (hself v')
      · rw [Function.update_of_ne hji] at hj
        exact absurd (h.unique hj hi) hji
    · rw [Function.update_of_ne hk, h.mem]
      refine exists_congr fun j => ?_
      rcases eq_or_ne j i with rfl | hji
      · refine ⟨fun hj => ?_, fun hj => absurd hj (hself v')⟩
        rw [hi, Slot.live.injEq] at hj
        exact absurd hj.1.symm hk
      · rw [Function.update_of_ne hji]
  unique {j j' k' w w'} hj hj' := by
    have hold : ∀ {l u}, Function.update t i s l = .live k' u → t l = .live k' u := by
      intro l u hl
      rw [Function.update_apply] at hl
      split_ifs at hl
      · rw [hl] at hs
        exact Bool.noConfusion hs
      · exact hl
    exact h.unique (hold hj) (hold hj')

theorem Represents.insert (h : Represents probe t m) (hnew : m k = none)
    (hi : Reached probe t k i) (hfree : (t i).isLive = false) (v : V) :
    Represents probe (Function.update t i (.live k v)) (Function.update m k (some v)) where
  toHolds := h.toHolds.insert hnew hfree v
  reached {j k' v'} hj := by
    rw [Function.update_apply] at hj
    split_ifs at hj with hji
    · rw [Slot.live.injEq] at hj
      rw [hji, ← hj.1]
      exact hi.update (Slot.live_ne_empty k v)
    · exact (h.reached hj).update (Slot.live_ne_empty k v)

theorem Represents.erase (h : Represents probe t m) (hi : t i = .live k v) :
    Represents probe (Function.update t i .deleted) (Function.update m k none) where
  toHolds := h.toHolds.erase hi rfl
  reached {j k' v'} hj := by
    rw [Function.update_apply] at hj
    split_ifs at hj
    exact (h.reached hj).update Slot.deleted_ne_empty

/-- The value of a key is replaced where the key is. -/
theorem Represents.replace (h : Represents probe t m) (hi : t i = .live k v) (w : V) :
    Represents probe (Function.update t i (.live k w)) (Function.update m k (some w)) := by
  have herase := h.erase hi
  have hreach : Reached probe (Function.update t i .deleted) k i :=
    (h.reached hi).update Slot.deleted_ne_empty
  have := herase.insert (Function.update_self ..) hreach (by rw [Function.update_self]; rfl) w
  rwa [Function.update_idem, Function.update_idem] at this

end Update

/-! ## Moving the keys to new slots -/

/-- The entries of `m` are in the old slots and in the new ones, each in one of the two. -/
def Moving (probe : K → ℕ → ι) (old new : ι → Slot K V) (m : K → Option V) : Prop :=
  ∃ m₁ m₂, Holds old m₁ ∧ Represents probe new m₂ ∧ (∀ k, m₁ k = none ∨ m₂ k = none) ∧
    ∀ k, m k = (m₁ k).or (m₂ k)

/-- So are all entries but the one of `k`, which is in hand. -/
def Carrying [DecidableEq K] (probe : K → ℕ → ι) (old new : ι → Slot K V) (k : K) (v : V)
    (m : K → Option V) : Prop :=
  ∃ m', Moving probe old new m' ∧ m' k = none ∧ m = Function.update m' k (some v)

section Moving

variable {old new : ι → Slot K V}

theorem moving_start (h : Holds old m) (hnew : ∀ i, new i = .empty) :
    Moving probe old new m :=
  ⟨m, fun _ => none, h, represents_empty hnew, fun _ => .inr rfl, fun _ => by simp⟩

theorem Moving.done (h : Moving probe old new m) (hold : ∀ i, (old i).isLive = false) :
    Represents probe new m := by
  obtain ⟨m₁, m₂, h₁, h₂, -, hor⟩ := h
  have hnone : ∀ k, m₁ k = none := fun k => h₁.none_of_forall fun i v hi => by
    have := hold i
    rw [hi] at this
    exact Bool.noConfusion this
  have : m = m₂ := by
    ext1 k
    rw [hor, hnone, Option.none_or]
  rwa [this]

variable [DecidableEq ι] [DecidableEq K]

theorem Moving.take (h : Moving probe old new m) (hi : old i = .live k v) :
    Carrying probe (Function.update old i .deleted) new k v m := by
  obtain ⟨m₁, m₂, h₁, h₂, hapart, hor⟩ := h
  have hk : m₁ k = some v := h₁.some_of_live hi
  have hk₂ : m₂ k = none := (hapart k).resolve_left (by rw [hk]; exact Option.some_ne_none v)
  refine ⟨Function.update m k none, ⟨Function.update m₁ k none, m₂, h₁.erase hi rfl, h₂, ?_, ?_⟩,
    Function.update_self .., ?_⟩
  · intro k'
    rw [Function.update_apply]
    split_ifs
    · exact .inl rfl
    · exact hapart k'
  · intro k'
    rw [Function.update_apply, Function.update_apply]
    split_ifs with hk'
    · rw [hk', hk₂]
      rfl
    · exact hor k'
  · rw [Function.update_idem, eq_comm, Function.update_eq_self_iff, hor, hk, Option.some_or]

theorem Carrying.put (h : Carrying probe old new k v m) (hi : Reached probe new k i)
    (hfree : (new i).isLive = false) :
    Moving probe old (Function.update new i (.live k v)) m := by
  obtain ⟨m', ⟨m₁, m₂, h₁, h₂, hapart, hor⟩, hk, rfl⟩ := h
  rw [hor, Option.or_eq_none_iff] at hk
  refine ⟨m₁, Function.update m₂ k (some v), h₁, h₂.insert hk.2 hi hfree v, fun k' => ?_,
    fun k' => ?_⟩
  · rw [Function.update_apply]
    split_ifs with hk'
    · exact .inl (hk' ▸ hk.1)
    · exact hapart k'
  · rw [Function.update_apply, Function.update_apply]
    split_ifs with hk'
    · rw [hk', hk.1, Option.none_or]
    · exact hor k'

end Moving

/-! ## Counting slots -/

section Count

variable (w : Slot K V → ℕ) (s : Finset ι)

theorem sum_update [DecidableEq ι] (t : ι → Slot K V) {i : ι} (hi : i ∈ s) (x : Slot K V) :
    ∑ j ∈ s, w (Function.update t i x j) + w (t i) = ∑ j ∈ s, w (t j) + w x := by
  have herase : ∑ j ∈ s.erase i, w (Function.update t i x j) = ∑ j ∈ s.erase i, w (t j) :=
    Finset.sum_congr rfl fun j hj => by rw [Function.update_of_ne (Finset.ne_of_mem_erase hj)]
  rw [← Finset.add_sum_erase s (fun j => w (Function.update t i x j)) hi,
    ← Finset.add_sum_erase s (fun j => w (t j)) hi, herase, Function.update_self]
  ring

variable {w s}

/-- Fewer slots in use than there are : one is not. -/
theorem exists_of_sum_lt (h : ∑ j ∈ s, w (t j) < s.card) : ∃ i ∈ s, w (t i) = 0 := by
  by_contra hno
  push Not at hno
  have hle : ∑ _j ∈ s, 1 ≤ ∑ j ∈ s, w (t j) :=
    Finset.sum_le_sum fun j hj => Nat.one_le_iff_ne_zero.mpr (hno j hj)
  rw [← Finset.card_eq_sum_ones] at hle
  exact absurd h (Nat.not_lt.mpr hle)

end Count

/-- As many live slots as entries. -/
theorem Holds.ncard_eq [DecidableEq ι] (h : Holds t m) (s : Finset ι)
    (hs : ∀ i, (t i).isLive = true → i ∈ s) :
    {k | m k ≠ none}.ncard = ∑ i ∈ s, if (t i).isLive then 1 else 0 := by
  classical
  rw [← Finset.card_filter, ← Set.ncard_coe_finset]
  refine (Set.ncard_congr (fun i hi => ?_) ?_ ?_ ?_).symm
  · exact (Slot.exists_of_isLive (Finset.mem_filter.mp hi).2).choose
  · intro i hi
    obtain ⟨v, hv⟩ := (Slot.exists_of_isLive (Finset.mem_filter.mp hi).2).choose_spec
    rw [Set.mem_ofPred_eq, h.some_of_live hv]
    exact Option.some_ne_none v
  · intro i j hi hj heq
    obtain ⟨v, hv⟩ := (Slot.exists_of_isLive (Finset.mem_filter.mp hi).2).choose_spec
    obtain ⟨w, hw⟩ := (Slot.exists_of_isLive (Finset.mem_filter.mp hj).2).choose_spec
    rw [heq] at hv
    exact h.unique hv hw
  · intro k hk
    obtain ⟨v, hv⟩ := Option.ne_none_iff_exists'.mp hk
    obtain ⟨i, hi⟩ := (h.mem k v).mp hv
    have hlive : (t i).isLive = true := by rw [hi]; rfl
    have hmem : i ∈ s.filter fun j => (t j).isLive = true :=
      Finset.mem_filter.mpr ⟨hs i hlive, hlive⟩
    obtain ⟨v', hv'⟩ := (Slot.exists_of_isLive hlive).choose_spec
    exact ⟨i, hmem, (Slot.live.inj (hv'.symm.trans hi)).1⟩

/-! ## The probes of a table of `2 ^ n` slots -/

/-- Two triangular numbers that agree modulo `2 ^ n` have the same index, or one from `2 ^ n` on. -/
theorem triangle_injOn {n a b : ℕ} (hb : b < 2 ^ n) (hab : a ≤ b)
    (h : a * (a + 1) / 2 ≡ b * (b + 1) / 2 [MOD 2 ^ n]) : a = b := by
  have hdouble : ∀ c : ℕ, 2 * (c * (c + 1) / 2) = c * (c + 1) := fun c =>
    Nat.mul_div_cancel' (Nat.even_mul_succ_self c).two_dvd
  have hmod := h.mul_left' 2
  rw [hdouble, hdouble, ← Nat.pow_succ', Nat.modEq_iff_dvd' (Nat.mul_le_mul hab (by omega))]
    at hmod
  obtain ⟨d, rfl⟩ := Nat.exists_eq_add_of_le hab
  have hfactor : (a + d) * (a + d + 1) - a * (a + 1) = d * (2 * a + d + 1) := by
    rw [Nat.sub_eq_iff_eq_add (Nat.mul_le_mul hab (by omega))]
    ring
  rw [hfactor] at hmod
  -- the factors differ by an odd number, so one of them takes the whole power of two
  rcases Nat.even_or_odd d with hd | hd
  · have hodd : Odd (2 * a + d + 1) := by
      obtain ⟨e, rfl⟩ := hd
      exact ⟨a + e, by ring⟩
    have hdvd := (Nat.Coprime.pow_left _ hodd.coprime_two_left).dvd_of_dvd_mul_right hmod
    rcases Nat.eq_zero_or_pos d with rfl | hpos
    · rfl
    · have := Nat.le_of_dvd hpos hdvd
      rw [Nat.pow_succ] at this
      omega
  · have hdvd := (Nat.Coprime.pow_left _ hd.coprime_two_left).dvd_of_dvd_mul_left hmod
    have := Nat.le_of_dvd (by omega) hdvd
    rw [Nat.pow_succ] at this
    omega

/-- Triangular probing reaches every slot. -/
theorem exists_triangle_mod (n h : ℕ) {r : ℕ} (hr : r < 2 ^ n) :
    ∃ j < 2 ^ n, (h + j * (j + 1) / 2) % 2 ^ n = r := by
  have hpos : 0 < 2 ^ n := Nat.two_pow_pos n
  have hinj : Function.Injective fun j : Fin (2 ^ n) =>
      (⟨(h + j * (j + 1) / 2) % 2 ^ n, Nat.mod_lt _ hpos⟩ : Fin (2 ^ n)) := by
    intro a b hab
    have hmod : a * (a + 1) / 2 ≡ b * (b + 1) / 2 [MOD 2 ^ n] :=
      Nat.ModEq.add_left_cancel' h (Fin.mk.inj hab)
    rcases Nat.le_total a b with hle | hle
    · exact Fin.ext (triangle_injOn b.2 hle hmod)
    · exact Fin.ext (triangle_injOn a.2 hle hmod.symm).symm
  obtain ⟨j, hj⟩ := Finite.surjective_of_injective hinj ⟨r, hr⟩
  exact ⟨j, j.2, congrArg Fin.val hj⟩

/-- A search comes to a place where it stops, once some slot of its probes is empty. -/
theorem exists_stop {n : ℕ} (hn : ∃ j < n, t (probe k j) = .empty) :
    ∃ j < n, ¬(t (probe k j)).Passed k ∧ ∀ l < j, (t (probe k l)).Passed k := by
  classical
  obtain ⟨j, hjn, hj⟩ := hn
  have hex : ∃ j, ¬(t (probe k j)).Passed k := ⟨j, fun h => h.1 hj⟩
  refine ⟨Nat.find hex, ?_, Nat.find_spec hex, fun l hl => not_not.mp (Nat.find_min hex hl)⟩
  exact Nat.lt_of_le_of_lt (Nat.find_le fun h => h.1 hj) hjn

end OpenAddressing
