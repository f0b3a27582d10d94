import Webxs.KhashFlags

/-!
# Rehashing in place

`slotAt` reads the slots of a table off its flags and its blocks. While `kh_resize` runs there are
two such readings of the same blocks, by the flags of the old table and by the new ones, and an
index that is live in one is not in the other (`Between.apart`). The keys move from the one to the
other as `OpenAddressing.Moving` says : the loop over the old slots takes a key in hand, and each
turn of the kick-out process puts the key in hand down and, where it finds an old key, takes that
one. The process ends, since it leaves one old key less each time (`kickOut_spec`), and the table
that is left has all keys where its probes find them (`khResize_spec`).
-/

open OpenAddressing

namespace Webxs

namespace Khash

variable {K V : Type} {n n' : ℕ} {flags : List (BitVec 32)} {keys : List (Option K)}
  {vals : List (Option V)} {i : ℕ}

/-! ## The slots of a table -/

/-- Slot `i` of a table of `n` slots. -/
def slotAt (n : ℕ) (flags : List (BitVec 32)) (keys : List (Option K)) (vals : List (Option V))
    (i : ℕ) : Slot K (Option V) :=
  if n ≤ i ∨ emptyBit flags i = true then .empty
  else if delBit flags i = true then .deleted
  else match (keys[i]?).join with
    | some k => .live k (vals[i]?).join
    | none => .deleted

/-- The probes for `key` in a table of `n` slots. -/
def probe (hash : K → BitVec 32) (n : ℕ) (key : K) (j : ℕ) : ℕ :=
  ((hash key).toNat + j * (j + 1) / 2) % n

/-- The keys of the live slots have been written. -/
def Written (n : ℕ) (flags : List (BitVec 32)) (keys : List (Option K)) : Prop :=
  ∀ i < n, emptyBit flags i = false → delBit flags i = false → ∃ k, keys[i]? = some (some k)

theorem slotAt_of_le (hi : n ≤ i) : slotAt n flags keys vals i = .empty :=
  if_pos (.inl hi)

theorem slotAt_of_empty (h : emptyBit flags i = true) : slotAt n flags keys vals i = .empty :=
  if_pos (.inr h)

theorem slotAt_of_del (hi : i < n) (he : emptyBit flags i = false)
    (hd : delBit flags i = true) : slotAt n flags keys vals i = .deleted := by
  rw [slotAt, if_neg (by simp [he, hi]), if_pos hd]

theorem slotAt_of_live (hi : i < n) (he : emptyBit flags i = false) (hd : delBit flags i = false)
    {k : K} (hk : keys[i]? = some (some k)) :
    slotAt n flags keys vals i = .live k (vals[i]?).join := by
  rw [slotAt, if_neg (by simp [he, hi]), if_neg (by simp [hd]), hk, Option.join_some]

theorem slotAt_eq_empty_iff (hi : i < n) :
    slotAt n flags keys vals i = .empty ↔ emptyBit flags i = true := by
  refine ⟨fun h => ?_, slotAt_of_empty⟩
  by_contra he
  rw [slotAt, if_neg (by simp [he, hi])] at h
  split_ifs at h
  split at h <;> cases h

/-- What the flags of a live slot are, and that its key is in the block. -/
theorem of_slotAt_live {k : K} {v : Option V} (h : slotAt n flags keys vals i = .live k v) :
    i < n ∧ emptyBit flags i = false ∧ delBit flags i = false ∧ keys[i]? = some (some k) ∧
      v = (vals[i]?).join := by
  unfold slotAt at h
  split_ifs at h with he hd
  push Not at he
  split at h
  · rename_i k' hk
    rw [Slot.live.injEq] at h
    refine ⟨he.1, by simpa using he.2, by simpa using hd, ?_, h.2.symm⟩
    rw [← h.1]
    exact Option.join_eq_some_iff.mp hk
  · cases h

theorem isLive_slotAt (hw : Written n flags keys) (hi : i < n) :
    (slotAt n flags keys vals i).isLive = !(delBit flags i || emptyBit flags i) := by
  rcases he : emptyBit flags i with _ | _
  · rcases hd : delBit flags i with _ | _
    · obtain ⟨k, hk⟩ := hw i hi he hd
      rw [slotAt_of_live hi he hd hk]
      rfl
    · rw [slotAt_of_del hi he hd]
      rfl
  · rw [slotAt_of_empty he, Bool.or_true]
    rfl

theorem isLive_slotAt_of_le (hi : n ≤ i) : (slotAt n flags keys vals i).isLive = false := by
  rw [slotAt_of_le hi]
  rfl

/-- A slot is read from what stands at its index. -/
theorem slotAt_congr {flags' : List (BitVec 32)} {keys' : List (Option K)}
    {vals' : List (Option V)} (he : emptyBit flags' i = emptyBit flags i)
    (hd : delBit flags' i = delBit flags i) (hk : keys'[i]? = keys[i]?)
    (hv : vals'[i]? = vals[i]?) :
    slotAt n flags' keys' vals' i = slotAt n flags keys vals i := by
  rw [slotAt, slotAt, he, hd, hk, hv]

/-- A slot that is not live is read from its flags alone. -/
theorem slotAt_congr_flags {keys' : List (Option K)} {vals' : List (Option V)} (hi : i < n)
    (h : (delBit flags i || emptyBit flags i) = true) :
    slotAt n flags keys' vals' i = slotAt n flags keys vals i := by
  rcases he : emptyBit flags i with _ | _
  · rw [he, Bool.or_false] at h
    rw [slotAt_of_del hi he h, slotAt_of_del hi he h]
  · rw [slotAt_of_empty he, slotAt_of_empty he]

/-- The deletion mark of a slot that was live. -/
theorem slotAt_setDel {flags' : List (BitVec 32)} (hi : i < n)
    (he : ∀ j, emptyBit flags' j = emptyBit flags j)
    (hd : ∀ j, delBit flags' j = (delBit flags j || decide (j = i)))
    (hfull : emptyBit flags i = false) :
    slotAt n flags' keys vals = Function.update (slotAt n flags keys vals) i .deleted := by
  ext1 j
  rw [Function.update_apply]
  split_ifs with hj
  · rw [hj]
    exact slotAt_of_del hi ((he i).trans hfull) (by rw [hd, decide_eq_true rfl, Bool.or_true])
  · exact slotAt_congr (he j) (by rw [hd, decide_eq_false hj, Bool.or_false]) rfl rfl

/-- A key is written to slot `i`, which is live then. -/
theorem slotAt_setLive {flags' : List (BitVec 32)} (hi : i < n)
    (he : ∀ j, emptyBit flags' j = (emptyBit flags j && !decide (j = i)))
    (hd : ∀ j, j ≠ i → delBit flags' j = delBit flags j) (hdel : delBit flags' i = false)
    (hlen : i < keys.length) (hlenv : i < vals.length) (k : K) (v : Option V) :
    slotAt n flags' (keys.set i (some k)) (vals.set i v) =
      Function.update (slotAt n flags keys vals) i (.live k v) := by
  ext1 j
  rw [Function.update_apply]
  split_ifs with hj
  · rw [hj, slotAt_of_live hi (by rw [he, decide_eq_true rfl, Bool.not_true, Bool.and_false]) hdel
      (List.getElem?_set_self hlen), List.getElem?_set_self hlenv, Option.join_some]
  · have hij : i ≠ j := fun h => hj h.symm
    exact slotAt_congr (by rw [he, decide_eq_false hj, Bool.not_false, Bool.and_true]) (hd j hj)
      (List.getElem?_set_ne hij) (List.getElem?_set_ne hij)

/-! ## Probing -/

section Probe

variable {hash : K → BitVec 32} {e : ℕ} {key : K}

theorem and_mask (x e : ℕ) : x &&& (2 ^ e - 1) = x % 2 ^ e :=
  Nat.and_two_pow_sub_one_eq_mod x e

theorem probe_zero : (hash key).toNat &&& (2 ^ e - 1) = probe hash (2 ^ e) key 0 := by
  rw [and_mask]
  rfl

/-- The step of every loop : `i = (i + (++step)) & mask`. -/
theorem probe_succ (j : ℕ) :
    (probe hash (2 ^ e) key j + (j + 1)) &&& (2 ^ e - 1) = probe hash (2 ^ e) key (j + 1) := by
  have htri : (j + 1) * (j + 1 + 1) / 2 = j * (j + 1) / 2 + (j + 1) := by
    have : (j + 1) * (j + 1 + 1) = j * (j + 1) + (j + 1) * 2 := by ring
    rw [this, Nat.add_mul_div_right _ _ Nat.two_pos]
  rw [and_mask, probe, probe, Nat.mod_add_mod, htri, Nat.add_assoc]

theorem probe_lt (j : ℕ) : probe hash (2 ^ e) key j < 2 ^ e :=
  Nat.mod_lt _ (Nat.two_pow_pos e)

theorem exists_probe_eq (hash : K → BitVec 32) (key : K) (hi : i < 2 ^ e) :
    ∃ j < 2 ^ e, probe hash (2 ^ e) key j = i :=
  exists_triangle_mod e _ hi

/-- The search for a free slot ends at the first one. -/
theorem freeLoop_eq {newFlags : List (BitVec 32)} (hlen : 2 ^ e ≤ 16 * newFlags.length) {d : ℕ}
    (hd : emptyBit newFlags (probe hash (2 ^ e) key d) = true)
    (hbefore : ∀ l < d, emptyBit newFlags (probe hash (2 ^ e) key l) = false) :
    ∀ turns j, j ≤ d → d < j + turns →
      freeLoop newFlags (2 ^ e - 1) turns (probe hash (2 ^ e) key j) j =
        some (probe hash (2 ^ e) key d)
  | 0, j, hj, hlt => absurd hlt (by omega)
  | turns + 1, j, hj, hlt => by
    have hin : probe hash (2 ^ e) key j < 16 * newFlags.length :=
      Nat.lt_of_lt_of_le (probe_lt j) hlen
    rw [freeLoop, acIsempty_eq hin]
    rcases Nat.eq_or_lt_of_le hj with rfl | hlt'
    · simp [hd]
    · simp only [hbefore j hlt', Option.bind_eq_bind, Option.bind_some, Bool.false_eq_true,
        if_false, probe_succ]
      exact freeLoop_eq hlen hd hbefore turns (j + 1) hlt' (by omega)

theorem freeLoop_spec {newFlags : List (BitVec 32)} (hlen : 2 ^ e ≤ 16 * newFlags.length)
    (hfree : ∃ i < 2 ^ e, emptyBit newFlags i = true) (hash : K → BitVec 32) (key : K) :
    ∃ d, freeLoop newFlags (2 ^ e - 1) (2 ^ e) ((hash key).toNat &&& (2 ^ e - 1)) 0 =
        some (probe hash (2 ^ e) key d) ∧
      emptyBit newFlags (probe hash (2 ^ e) key d) = true ∧
      ∀ l < d, emptyBit newFlags (probe hash (2 ^ e) key l) = false := by
  obtain ⟨i, hi, hempty⟩ := hfree
  obtain ⟨j, hj, rfl⟩ := exists_probe_eq hash key hi
  have hex : ∃ d, emptyBit newFlags (probe hash (2 ^ e) key d) = true := ⟨j, hempty⟩
  have hle : Nat.find hex ≤ j := Nat.find_le hempty
  refine ⟨Nat.find hex, ?_, Nat.find_spec hex, fun l hl => by simpa using Nat.find_min hex hl⟩
  rw [probe_zero]
  exact freeLoop_eq hlen (Nat.find_spec hex) (fun l hl => by simpa using Nat.find_min hex hl) _ 0
    (Nat.zero_le _) (by omega)

end Probe

/-! ## The kick-out process -/

/-- The slots of the old table that have not been taken yet. -/
def Rehash.old (n : ℕ) (r : Rehash K V) : ℕ → Slot K (Option V) :=
  slotAt n r.flags r.keys r.vals

/-- The slots of the new table. -/
def Rehash.new (n' : ℕ) (r : Rehash K V) : ℕ → Slot K (Option V) :=
  slotAt n' r.newFlags r.keys r.vals

/-- The live slots among the first `n`. -/
def liveCount (n : ℕ) (t : ℕ → Slot K (Option V)) : ℕ :=
  ∑ i ∈ Finset.range n, if (t i).isLive then 1 else 0

/-- The blocks while a table of `n` slots becomes one of `n'`. -/
structure Between (n n' : ℕ) (r : Rehash K V) : Prop where
  flags : n ≤ 16 * r.flags.length
  newFlags : n' ≤ 16 * r.newFlags.length
  keys : r.keys.length = max n n'
  vals : r.vals.length = max n n'
  written : Written n r.flags r.keys
  newWritten : Written n' r.newFlags r.keys
  noDel : ∀ i < n', delBit r.newFlags i = false
  /-- What is still old has not been written over. -/
  apart : ∀ i < n', (r.old n i).isLive = true → emptyBit r.newFlags i = true

theorem liveCount_update {t : ℕ → Slot K (Option V)} (hi : i < n) (x : Slot K (Option V)) :
    liveCount n (Function.update t i x) + (if (t i).isLive then 1 else 0) =
      liveCount n t + if x.isLive then 1 else 0 :=
  sum_update (fun s : Slot K (Option V) => if s.isLive then 1 else 0) _ t
    (Finset.mem_range.mpr hi) x

theorem liveCount_pos {t : ℕ → Slot K (Option V)} (hi : i < n) (hlive : (t i).isLive = true) :
    0 < liveCount n t := by
  have := Finset.single_le_sum (f := fun j => if (t j).isLive then 1 else 0)
    (fun j _ => Nat.zero_le _) (Finset.mem_range.mpr hi)
  simp only [hlive, if_true] at this
  exact this

namespace Between

variable {r : Rehash K V}

/-- While keys are to be placed, the new table has an empty slot. -/
theorem exists_empty (hb : Between n n' r) (hroom : liveCount n' (r.new n') < n') :
    ∃ i < n', emptyBit r.newFlags i = true := by
  obtain ⟨i, hi, hzero⟩ := exists_of_sum_lt (s := Finset.range n') (t := r.new n')
    (w := fun s : Slot K (Option V) => if s.isLive then 1 else 0)
    (by rw [Finset.card_range]; exact hroom)
  rw [Finset.mem_range] at hi
  refine ⟨i, hi, ?_⟩
  have hlive : (r.new n' i).isLive = false := by simpa using hzero
  rw [Rehash.new, isLive_slotAt hb.newWritten hi, hb.noDel i hi] at hlive
  simpa using hlive

theorem stillOld_eq (hb : Between n n' r) (i : ℕ) :
    stillOld n r.flags i = some (r.old n i).isLive := by
  unfold stillOld
  split_ifs with hi
  · rw [acIseither_eq (Nat.lt_of_lt_of_le hi hb.flags), Option.map_some, Rehash.old,
      isLive_slotAt hb.written hi]
  · rw [Rehash.old, isLive_slotAt_of_le (Nat.le_of_not_lt hi)]

/-- A key is placed at `i`, where the old slot is not live any more. -/
theorem put {flags' newFlags' : List (BitVec 32)} (hb : Between n n' r) (hi : i < n')
    (hlen : flags'.length = r.flags.length) (hnlen : newFlags'.length = r.newFlags.length)
    (hflags : ∀ j, emptyBit flags' j = emptyBit r.flags j)
    (hdel : ∀ j, delBit flags' j = false → delBit r.flags j = false)
    (hdead : i < n → (delBit flags' i || emptyBit flags' i) = true)
    (hne : ∀ j, emptyBit newFlags' j = (emptyBit r.newFlags j && !decide (j = i)))
    (hnd : ∀ j, delBit newFlags' j = delBit r.newFlags j) (key : K) (val : Option V) :
    Between n n' ⟨flags', newFlags', r.keys.set i (some key), r.vals.set i val⟩ where
  flags := by rw [hlen]; exact hb.flags
  newFlags := by rw [hnlen]; exact hb.newFlags
  keys := by rw [List.length_set]; exact hb.keys
  vals := by rw [List.length_set]; exact hb.vals
  written j hj he hd := by
    have hji : i ≠ j := by
      rintro rfl
      have := hdead hj
      rw [hd, he] at this
      exact Bool.noConfusion this
    rw [List.getElem?_set_ne hji]
    exact hb.written j hj (by rw [← hflags, he]) (hdel j hd)
  newWritten j hj he hd := by
    rcases eq_or_ne i j with rfl | hji
    · exact ⟨key, List.getElem?_set_self (by rw [hb.keys]; omega)⟩
    · rw [List.getElem?_set_ne hji]
      refine hb.newWritten j hj ?_ (by rw [← hnd, hd])
      simpa [hji.symm] using (hne j).symm.trans he
  noDel j hj := by rw [hnd, hb.noDel j hj]
  apart j hj hlive := by
    obtain ⟨k, v, hk⟩ := Slot.exists_of_isLive hlive
    obtain ⟨hjn, he, hd, hkey, -⟩ := of_slotAt_live hk
    have hji : j ≠ i := by
      rintro rfl
      have := hdead hjn
      rw [hd, he] at this
      exact Bool.noConfusion this
    rw [hne, decide_eq_false hji, Bool.not_false, Bool.and_true]
    refine hb.apart j hj ?_
    rw [Rehash.old, isLive_slotAt hb.written hjn, hdel j hd, ← hflags, he]
    rfl

/-- The new table after that. -/
theorem new_put {flags' newFlags' : List (BitVec 32)} (hb : Between n n' r) (hi : i < n')
    (hne : ∀ j, emptyBit newFlags' j = (emptyBit r.newFlags j && !decide (j = i)))
    (hnd : ∀ j, delBit newFlags' j = delBit r.newFlags j) (key : K) (val : Option V) :
    Rehash.new n' ⟨flags', newFlags', r.keys.set i (some key), r.vals.set i val⟩ =
      Function.update (r.new n') i (.live key val) :=
  slotAt_setLive hi hne (fun j _ => hnd j) (by rw [hnd, hb.noDel i hi])
    (by rw [hb.keys]; omega) (by rw [hb.vals]; omega) key val

/-- The old table where the slot at `i` was not live. -/
theorem old_put_of_dead {newFlags' : List (BitVec 32)} (hb : Between n n' r)
    (hdead : (r.old n i).isLive = false) (key : K) (val : Option V) :
    Rehash.old n ⟨r.flags, newFlags', r.keys.set i (some key), r.vals.set i val⟩ = r.old n := by
  ext1 j
  rcases Nat.lt_or_ge j n with hj | hj
  · rcases eq_or_ne j i with rfl | hji
    · refine slotAt_congr_flags hj ?_
      rwa [Rehash.old, isLive_slotAt hb.written hj, Bool.not_eq_false'] at hdead
    · exact slotAt_congr rfl rfl (List.getElem?_set_ne hji.symm) (List.getElem?_set_ne hji.symm)
  · exact (slotAt_of_le hj).trans (slotAt_of_le hj).symm

/-- The old table where it was : the key there is thrown out. -/
theorem old_put_of_live (r : Rehash K V) {flags' : List (BitVec 32)}
    (newFlags' : List (BitVec 32)) (hi : i < n) (hfull : emptyBit r.flags i = false)
    (hflags : ∀ j, emptyBit flags' j = emptyBit r.flags j)
    (hdel : ∀ j, delBit flags' j = (delBit r.flags j || decide (j = i)))
    (key : K) (val : Option V) :
    Rehash.old n ⟨flags', newFlags', r.keys.set i (some key), r.vals.set i val⟩ =
      Function.update (r.old n) i .deleted := by
  rw [Rehash.old, Rehash.old, ← slotAt_setDel hi hflags hdel hfull]
  ext1 j
  rcases eq_or_ne j i with rfl | hji
  · exact slotAt_congr_flags hi (by rw [hdel, decide_eq_true rfl, Bool.or_true, Bool.true_or])
  · exact slotAt_congr rfl rfl (List.getElem?_set_ne hji.symm) (List.getElem?_set_ne hji.symm)

end Between

theorem liveCount_le (n : ℕ) (t : ℕ → Slot K (Option V)) : liveCount n t ≤ n := by
  have := Finset.sum_le_card_nsmul (Finset.range n) (fun i => if (t i).isLive then 1 else 0) 1
    fun i _ => by split_ifs <;> omega
  simpa [liveCount] using this

/-- An old key is taken in hand. -/
theorem Between.take {r : Rehash K V} {flags' : List (BitVec 32)} (hb : Between n n' r)
    (hlen : flags'.length = r.flags.length) (hflags : ∀ j, emptyBit flags' j = emptyBit r.flags j)
    (hdel : ∀ j, delBit flags' j = (delBit r.flags j || decide (j = i))) :
    Between n n' { r with flags := flags' } where
  flags := by rw [hlen]; exact hb.flags
  newFlags := hb.newFlags
  keys := hb.keys
  vals := hb.vals
  written j hj he hd := by
    rw [hdel, Bool.or_eq_false_iff] at hd
    exact hb.written j hj (by rw [← hflags, he]) hd.1
  newWritten := hb.newWritten
  noDel := hb.noDel
  apart j hj hlive := by
    obtain ⟨k, v, hk⟩ := Slot.exists_of_isLive hlive
    obtain ⟨hjn, he, hd, hkey, -⟩ := of_slotAt_live hk
    rw [hdel, Bool.or_eq_false_iff] at hd
    refine hb.apart j hj ?_
    rw [Rehash.old, isLive_slotAt hb.written hjn, hd.1, ← hflags, he]
    rfl

theorem store_eq {α : Type} {a : List α} (hi : i < a.length) (x : α) :
    store a i x = some (a.set i x) :=
  if_pos hi

section KickOut

variable {hash : K → BitVec 32} {e : ℕ} [DecidableEq K]

/-- The key in hand is placed, and so are all that it throws out. -/
theorem kickOut_spec (hash : K → BitVec 32) (n e : ℕ) {m : K → Option (Option V)} :
    ∀ (turns : ℕ) (r : Rehash K V) (key : K) (val : Option V), Between n (2 ^ e) r →
      Carrying (probe hash (2 ^ e)) (r.old n) (r.new (2 ^ e)) key val m →
      liveCount n (r.old n) + liveCount (2 ^ e) (r.new (2 ^ e)) < 2 ^ e →
      liveCount n (r.old n) < turns →
      ∃ r', kickOut hash n (2 ^ e) turns r key val = some r' ∧ Between n (2 ^ e) r' ∧
        Moving (probe hash (2 ^ e)) (r'.old n) (r'.new (2 ^ e)) m ∧
        liveCount n (r'.old n) + liveCount (2 ^ e) (r'.new (2 ^ e)) =
          liveCount n (r.old n) + liveCount (2 ^ e) (r.new (2 ^ e)) + 1 ∧
        ∀ j, (r'.old n j).isLive = true → (r.old n j).isLive = true
  | 0, _, _, _, _, _, _, hturns => absurd hturns (Nat.not_lt_zero _)
  | turns + 1, r, key, val, hb, hc, hroom, hturns => by
    obtain ⟨d, hloop, hempty, hbefore⟩ :=
      freeLoop_spec hb.newFlags (hb.exists_empty (by omega)) hash key
    generalize hi : probe hash (2 ^ e) key d = i at hloop hempty
    have hlt : i < 2 ^ e := hi ▸ probe_lt d
    obtain ⟨newFlags', hclear, hnlen, hne, hnd⟩ :=
      acSetIsemptyFalse_spec (Nat.lt_of_lt_of_le hlt hb.newFlags)
    have hkeys : i < r.keys.length := by rw [hb.keys]; omega
    have hvals : i < r.vals.length := by rw [hb.vals]; omega
    have hfree : (r.new (2 ^ e) i).isLive = false := by
      rw [Rehash.new, slotAt_of_empty hempty]
      rfl
    have hreach : Reached (probe hash (2 ^ e)) (r.new (2 ^ e)) key i :=
      ⟨d, hi, fun l hl h => by
        rw [Rehash.new, slotAt_eq_empty_iff (probe_lt l), hbefore l hl] at h
        exact Bool.noConfusion h⟩
    have hplaced := hc.put hreach hfree
    have hcount := liveCount_update (t := r.new (2 ^ e)) hlt (.live key val)
    rw [hfree] at hcount
    simp only [Bool.false_eq_true, if_false, Slot.isLive_live, if_true] at hcount
    rcases hthere : (r.old n i).isLive with _ | _
    · -- nothing is thrown out
      refine ⟨⟨r.flags, newFlags', r.keys.set i (some key), r.vals.set i val⟩, ?_, ?_, ?_, ?_, ?_⟩
      · rw [kickOut]
        simp only [hloop, hclear, hb.stillOld_eq, hthere, Option.bind_eq_bind, Option.bind_some,
          Bool.false_eq_true, if_false, store_eq hkeys, store_eq hvals]
      · refine hb.put hlt rfl hnlen (fun _ => rfl) (fun _ h => h) (fun hin => ?_) hne hnd key val
        rwa [Rehash.old, isLive_slotAt hb.written hin, Bool.not_eq_false'] at hthere
      · rw [hb.old_put_of_dead hthere, hb.new_put hlt hne hnd]
        exact hplaced
      · rw [hb.old_put_of_dead hthere, hb.new_put hlt hne hnd]
        omega
      · rw [hb.old_put_of_dead hthere]
        exact fun j hj => hj
    · obtain ⟨key', val', hslot⟩ := Slot.exists_of_isLive hthere
      obtain ⟨hin, he, hd, hkey, hval⟩ := of_slotAt_live hslot
      obtain ⟨flags', hset, hlen, hflags, hdel⟩ :=
        acSetIsdelTrue_spec (Nat.lt_of_lt_of_le hin hb.flags)
      have hval' : r.vals[i]? = some val' := by
        rw [hval, List.getElem?_eq_getElem hvals, Option.join_some]
      have hold := Between.old_put_of_live r newFlags' hin he hflags hdel
        key val
      have hb' : Between n (2 ^ e) ⟨flags', newFlags', r.keys.set i (some key), r.vals.set i val⟩ :=
        hb.put hlt hlen hnlen hflags
          (fun j h => by rw [hdel, Bool.or_eq_false_iff] at h; exact h.1)
          (fun _ => by rw [hdel, decide_eq_true rfl, Bool.or_true, Bool.true_or]) hne hnd key val
      have hless := liveCount_update (t := r.old n) hin .deleted
      rw [hthere] at hless
      simp only [Slot.isLive_deleted, Bool.false_eq_true, if_false, if_true] at hless
      obtain ⟨r', hrun, hb'', hm, hcount', hsub⟩ := kickOut_spec hash n e turns
        ⟨flags', newFlags', r.keys.set i (some key), r.vals.set i val⟩ key' val' hb'
        (by rw [hold, hb.new_put hlt hne hnd]; exact hplaced.take hslot)
        (by rw [hold, hb.new_put hlt hne hnd]; omega) (by rw [hold]; omega)
      rw [hold, hb.new_put hlt hne hnd] at hcount'
      refine ⟨r', ?_, hb'', hm, by omega, fun j hj => ?_⟩
      · rw [kickOut]
        simp only [hloop, hclear, hb.stillOld_eq, hthere, hkey, hval', hset, Option.join_some,
          Option.bind_eq_bind, Option.bind_some, if_true, store_eq hkeys, store_eq hvals]
        exact hrun
      · have := hsub j hj
        rw [hold, Function.update_apply] at this
        split_ifs at this
        · exact Bool.noConfusion this
        · exact this

/-! ## The loop over the old slots -/

theorem rehashSlot_spec (hash : K → BitVec 32) (n e : ℕ) {m : K → Option (Option V)}
    {r : Rehash K V} {j : ℕ} (hj : j < n) (hb : Between n (2 ^ e) r)
    (hm : Moving (probe hash (2 ^ e)) (r.old n) (r.new (2 ^ e)) m)
    (hroom : liveCount n (r.old n) + liveCount (2 ^ e) (r.new (2 ^ e)) < 2 ^ e) :
    ∃ r', rehashSlot hash n (2 ^ e) r j = some r' ∧ Between n (2 ^ e) r' ∧
      Moving (probe hash (2 ^ e)) (r'.old n) (r'.new (2 ^ e)) m ∧
      liveCount n (r'.old n) + liveCount (2 ^ e) (r'.new (2 ^ e)) =
        liveCount n (r.old n) + liveCount (2 ^ e) (r.new (2 ^ e)) ∧
      (r'.old n j).isLive = false ∧
      ∀ l, (r'.old n l).isLive = true → (r.old n l).isLive = true := by
  have hjf : j < 16 * r.flags.length := Nat.lt_of_lt_of_le hj hb.flags
  have hlive : (r.old n j).isLive = !(delBit r.flags j || emptyBit r.flags j) :=
    isLive_slotAt hb.written hj
  rcases hthere : (r.old n j).isLive with _ | _
  · rw [hthere, eq_comm, Bool.not_eq_false'] at hlive
    refine ⟨r, ?_, hb, hm, rfl, hthere, fun l hl => hl⟩
    rw [rehashSlot, acIseither_eq hjf, hlive]
    rfl
  · rw [hthere, eq_comm, Bool.not_eq_true'] at hlive
    obtain ⟨key, val, hslot⟩ := Slot.exists_of_isLive hthere
    obtain ⟨-, he, hd, hkey, hval⟩ := of_slotAt_live hslot
    have hval' : r.vals[j]? = some val := by
      have hlt : j < r.vals.length := by rw [hb.vals]; omega
      rw [hval, List.getElem?_eq_getElem hlt, Option.join_some]
    obtain ⟨flags', hset, hlen, hflags, hdel⟩ := acSetIsdelTrue_spec hjf
    have hold : Rehash.old n { r with flags := flags' } =
        Function.update (r.old n) j .deleted := slotAt_setDel hj hflags hdel he
    have hless := liveCount_update (t := r.old n) hj .deleted
    rw [hthere] at hless
    simp only [Slot.isLive_deleted, Bool.false_eq_true, if_false, if_true] at hless
    have hnew : Rehash.new (2 ^ e) { r with flags := flags' } = r.new (2 ^ e) := rfl
    obtain ⟨r', hrun, hb', hm', hcount, hsub⟩ := kickOut_spec hash n e (n + 1)
      { r with flags := flags' } key val (hb.take hlen hflags hdel)
      (by rw [hold, hnew]; exact hm.take hslot) (by rw [hold, hnew]; omega)
      (Nat.lt_succ_of_le (liveCount_le ..))
    rw [hold, hnew] at hcount
    refine ⟨r', ?_, hb', hm', by omega, ?_, fun l hl => ?_⟩
    · rw [rehashSlot, acIseither_eq hjf]
      simp only [hlive, hkey, hval', hset, Option.join_some, Option.bind_eq_bind,
        Option.bind_some, Bool.false_eq_true, if_false]
      exact hrun
    · by_contra hlv
      have := hsub j (by simpa using hlv)
      rw [hold, Function.update_self] at this
      exact Bool.noConfusion this
    · have := hsub l hl
      rw [hold, Function.update_apply] at this
      split_ifs at this
      · exact Bool.noConfusion this
      · exact this

/-- The loop leaves the old table empty-handed up to where it has come. -/
theorem rehash_spec (hash : K → BitVec 32) (n e : ℕ) {m : K → Option (Option V)}
    {r : Rehash K V} (hb : Between n (2 ^ e) r)
    (hm : Moving (probe hash (2 ^ e)) (r.old n) (r.new (2 ^ e)) m)
    (hroom : liveCount n (r.old n) + liveCount (2 ^ e) (r.new (2 ^ e)) < 2 ^ e) :
    ∀ j ≤ n, ∃ r', (List.range j).foldlM (rehashSlot hash n (2 ^ e)) r = some r' ∧
      Between n (2 ^ e) r' ∧ Moving (probe hash (2 ^ e)) (r'.old n) (r'.new (2 ^ e)) m ∧
      liveCount n (r'.old n) + liveCount (2 ^ e) (r'.new (2 ^ e)) =
        liveCount n (r.old n) + liveCount (2 ^ e) (r.new (2 ^ e)) ∧
      ∀ l < j, (r'.old n l).isLive = false := by
  intro j
  induction j with
  | zero => exact fun _ => ⟨r, rfl, hb, hm, rfl, fun l hl => absurd hl (Nat.not_lt_zero l)⟩
  | succ j ih =>
    intro hj
    obtain ⟨r₁, hrun₁, hb₁, hm₁, hcount₁, hdead₁⟩ := ih (by omega)
    obtain ⟨r₂, hrun₂, hb₂, hm₂, hcount₂, hdead₂, hsub₂⟩ :=
      rehashSlot_spec hash n e (by omega : j < n) hb₁ hm₁ (by omega)
    refine ⟨r₂, ?_, hb₂, hm₂, by omega, fun l hl => ?_⟩
    · rw [List.range_succ, List.foldlM_append, hrun₁]
      simpa using hrun₂
    · rcases Nat.lt_succ_iff_lt_or_eq.mp hl with hl | rfl
      · by_contra hlv
        exact absurd (hsub₂ l (by simpa using hlv)) (by rw [hdead₁ l hl]; exact Bool.noConfusion)
      · exact hdead₂

end KickOut

/-! ## The whole table -/

/-- The slots of the table. -/
def slots (h : Khash K V) : ℕ → Slot K (Option V) :=
  slotAt h.nBuckets h.flags h.keys h.vals

/-- The slots in use among the first `n`, deleted ones included. -/
def usedCount (n : ℕ) (t : ℕ → Slot K (Option V)) : ℕ :=
  ∑ i ∈ Finset.range n, if (t i).isEmpty then 0 else 1

/-- The table is well formed, and holds `m`. -/
structure Stores (hash : K → BitVec 32) (h : Khash K V) (m : K → Option (Option V)) : Prop where
  shape : h.nBuckets = 0 ∧ h.flags = [] ∨ ∃ e, 2 ≤ e ∧ e < 32 ∧ h.nBuckets = 2 ^ e
  flags : h.nBuckets ≤ 16 * h.flags.length
  keys : h.keys.length = h.nBuckets
  vals : h.vals.length = h.nBuckets
  written : Written h.nBuckets h.flags h.keys
  size : h.size = liveCount h.nBuckets h.slots
  occupied : h.nOccupied = usedCount h.nBuckets h.slots
  upper : h.upperBound = acUpper h.nBuckets
  room : h.nOccupied ≤ h.upperBound
  represents : Represents (probe hash h.nBuckets) h.slots m

theorem length_krealloc {α : Type} (a : List (Option α)) (n : ℕ) : (krealloc a n).length = n := by
  rw [krealloc, List.length_append, List.length_take, List.length_replicate]
  omega

theorem getElem?_krealloc {α : Type} {a : List (Option α)} {n i : ℕ} (hn : i < n)
    (ha : i < a.length) : (krealloc a n)[i]? = a[i]? := by
  rw [krealloc, List.getElem?_append_left (by rw [List.length_take]; omega),
    List.getElem?_take_of_lt hn]

/-- The blocks as they are when rehashing begins. -/
def startRehash (h : Khash K V) (newN : ℕ) : Rehash K V where
  flags := h.flags
  newFlags := emptyFlags newN
  keys := if decide (h.nBuckets < newN) then krealloc h.keys newN else h.keys
  vals := if decide (h.nBuckets < newN) then krealloc h.vals newN else h.vals

/-- The table as it is when rehashing ends. -/
def endRehash (h : Khash K V) (newN : ℕ) (r : Rehash K V) : Khash K V where
  nBuckets := newN
  size := h.size
  nOccupied := h.size
  upperBound := acUpper newN
  flags := r.newFlags
  keys := if decide (newN < h.nBuckets) then krealloc r.keys newN else r.keys
  vals := if decide (newN < h.nBuckets) then krealloc r.vals newN else r.vals

theorem khResize_eq (hash : K → BitVec 32) (h : Khash K V) (x : BitVec 32) :
    khResize hash h x = if acUpper (roundSlots x) ≤ h.size then some h
      else ((List.range h.nBuckets).foldlM (rehashSlot hash h.nBuckets (roundSlots x))
        (h.startRehash (roundSlots x))).bind fun r => some (h.endRehash (roundSlots x) r) :=
  rfl

section Resize

variable {hash : K → BitVec 32} {h : Khash K V} {m : K → Option (Option V)}

theorem getElem?_grown {α : Type} {a : List (Option α)} {n n' i : ℕ} (ha : a.length = n)
    (hi : i < n) : (if decide (n < n') then krealloc a n' else a)[i]? = a[i]? := by
  split_ifs with hlt
  · rw [decide_eq_true_iff] at hlt
    exact getElem?_krealloc (by omega) (by omega)
  · rfl

theorem getElem?_shrunk {α : Type} {a : List (Option α)} {n n' i : ℕ} (ha : a.length = max n n')
    (hi : i < n') : (if decide (n' < n) then krealloc a n' else a)[i]? = a[i]? := by
  split_ifs
  · exact getElem?_krealloc hi (by omega)
  · rfl

theorem length_grown {α : Type} {a : List (Option α)} {n n' : ℕ} (ha : a.length = n) :
    (if decide (n < n') then krealloc a n' else a).length = max n n' := by
  split_ifs with hlt
  · rw [decide_eq_true_iff] at hlt
    rw [length_krealloc]
    omega
  · rw [decide_eq_true_iff] at hlt
    omega

theorem length_shrunk {α : Type} {a : List (Option α)} {n n' : ℕ} (ha : a.length = max n n') :
    (if decide (n' < n) then krealloc a n' else a).length = n' := by
  split_ifs with hlt
  · rw [length_krealloc]
  · rw [decide_eq_true_iff] at hlt
    omega

theorem flagBit_emptyFlags_two_pow {e b i : ℕ} (hb : b < 2) (hi : i < 2 ^ e) :
    flagBit b (emptyFlags (2 ^ e)) i = decide (b = 1) := by
  refine flagBit_emptyFlags hb (Nat.lt_of_lt_of_le hi ?_)
  rw [emptyFlags, List.length_replicate]
  exact le_acFsize rfl

theorem Stores.between (hs : Stores hash h m) (e : ℕ) :
    Between h.nBuckets (2 ^ e) (h.startRehash (2 ^ e)) where
  flags := hs.flags
  newFlags := by
    rw [startRehash, emptyFlags, List.length_replicate]
    exact le_acFsize rfl
  keys := length_grown hs.keys
  vals := length_grown hs.vals
  written i hi he hd := by
    rw [startRehash, getElem?_grown hs.keys hi]
    exact hs.written i hi he hd
  newWritten i hi he := by
    have hempty : emptyBit (emptyFlags (2 ^ e)) i = true :=
      flagBit_emptyFlags_two_pow Nat.one_lt_two hi
    rw [startRehash, hempty] at he
    exact Bool.noConfusion he
  noDel i hi := flagBit_emptyFlags_two_pow Nat.two_pos hi
  apart i hi _ := flagBit_emptyFlags_two_pow Nat.one_lt_two hi

theorem Stores.old_startRehash (hs : Stores hash h m) (n' : ℕ) :
    (h.startRehash n').old h.nBuckets = h.slots := by
  ext1 i
  rcases Nat.lt_or_ge i h.nBuckets with hi | hi
  · exact slotAt_congr rfl rfl (getElem?_grown hs.keys hi) (getElem?_grown hs.vals hi)
  · exact (slotAt_of_le hi).trans (slotAt_of_le hi).symm

theorem new_startRehash (h : Khash K V) (e i : ℕ) :
    (h.startRehash (2 ^ e)).new (2 ^ e) i = .empty := by
  rcases Nat.lt_or_ge i (2 ^ e) with hi | hi
  · exact slotAt_of_empty (flagBit_emptyFlags_two_pow Nat.one_lt_two hi)
  · exact slotAt_of_le hi

theorem liveCount_eq_zero {n : ℕ} {t : ℕ → Slot K (Option V)}
    (h : ∀ i < n, (t i).isLive = false) : liveCount n t = 0 :=
  Finset.sum_eq_zero fun i hi => by rw [h i (Finset.mem_range.mp hi)]; rfl

theorem slots_endRehash (h : Khash K V) {e : ℕ} {r : Rehash K V}
    (hb : Between h.nBuckets (2 ^ e) r) : (h.endRehash (2 ^ e) r).slots = r.new (2 ^ e) := by
  ext1 i
  rcases Nat.lt_or_ge i (2 ^ e) with hi | hi
  · exact slotAt_congr rfl rfl (getElem?_shrunk hb.keys hi) (getElem?_shrunk hb.vals hi)
  · exact (slotAt_of_le hi).trans (slotAt_of_le hi).symm

/-- No slot of a new table is deleted. -/
theorem Between.usedCount_new {n e : ℕ} {r : Rehash K V} (hb : Between n (2 ^ e) r) :
    usedCount (2 ^ e) (r.new (2 ^ e)) = liveCount (2 ^ e) (r.new (2 ^ e)) := by
  refine Finset.sum_congr rfl fun i hi => ?_
  rw [Finset.mem_range] at hi
  have hlive : (r.new (2 ^ e) i).isLive = !emptyBit r.newFlags i := by
    rw [Rehash.new, isLive_slotAt hb.newWritten hi, hb.noDel i hi, Bool.false_or]
  have hempty : (r.new (2 ^ e) i).isEmpty = emptyBit r.newFlags i := by
    rw [Bool.eq_iff_iff, Slot.isEmpty_iff]
    exact slotAt_eq_empty_iff hi
  rw [hlive, hempty]
  rcases emptyBit r.newFlags i with _ | _ <;> rfl

/-- Rehashing keeps the map. A table that is too small for its keys is not made at all. -/
theorem khResize_spec [DecidableEq K] (hs : Stores hash h m) (x : BitVec 32) :
    ∃ h', khResize hash h x = some h' ∧ Stores hash h' m ∧ h'.size = h.size ∧
      (acUpper (roundSlots x) ≤ h.size ∧ h' = h ∨
        h.size < acUpper (roundSlots x) ∧ h'.nBuckets = roundSlots x ∧ h'.nOccupied = h.size) := by
  rw [khResize_eq]
  split_ifs with hsmall
  · exact ⟨h, rfl, hs, rfl, .inl ⟨hsmall, rfl⟩⟩
  · obtain ⟨e, he, helt, hround⟩ := roundSlots_eq_two_pow x
    have hpow : 2 ^ 2 ≤ 2 ^ e := Nat.pow_le_pow_right Nat.two_pos he
    rw [hround] at hsmall ⊢
    have hupper := acUpper_lt (n := 2 ^ e) (by omega)
    have hnew : liveCount (2 ^ e) ((h.startRehash (2 ^ e)).new (2 ^ e)) = 0 :=
      liveCount_eq_zero fun i _ => by rw [new_startRehash]; rfl
    have hstart : Moving (probe hash (2 ^ e)) ((h.startRehash (2 ^ e)).old h.nBuckets)
        ((h.startRehash (2 ^ e)).new (2 ^ e)) m := by
      rw [hs.old_startRehash]
      exact moving_start hs.represents.toHolds (new_startRehash h e)
    have hsize := hs.size
    obtain ⟨r, hrun, hb, hm, hcount, hdead⟩ := rehash_spec hash h.nBuckets e (hs.between e) hstart
      (by rw [hs.old_startRehash, hnew]; omega) h.nBuckets (Nat.le_refl _)
    rw [hs.old_startRehash, hnew, liveCount_eq_zero hdead, ← hsize, Nat.zero_add, Nat.add_zero]
      at hcount
    have hslots := slots_endRehash h hb
    refine ⟨h.endRehash (2 ^ e) r, by rw [hrun]; rfl, ?_, rfl,
      .inr ⟨by omega, rfl, rfl⟩⟩
    exact {
      shape := .inr ⟨e, he, helt, rfl⟩
      flags := hb.newFlags
      keys := length_shrunk hb.keys
      vals := length_shrunk hb.vals
      written := fun i hi he hd => by
        obtain ⟨k, hk⟩ := hb.newWritten i hi he hd
        exact ⟨k, (getElem?_shrunk hb.keys hi).trans hk⟩
      size := by rw [hslots]; exact hcount.symm
      occupied := by rw [hslots]; exact (hb.usedCount_new.trans hcount).symm
      upper := rfl
      room := by
        show h.size ≤ acUpper (2 ^ e)
        omega
      represents := by
        rw [hslots]
        refine hm.done fun i => ?_
        rcases Nat.lt_or_ge i h.nBuckets with hi | hi
        · exact hdead i hi
        · exact isLive_slotAt_of_le hi }

end Resize

end Khash

end Webxs
