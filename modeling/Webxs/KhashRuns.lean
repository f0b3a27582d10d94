import Webxs.KhashResize

/-!
# Runs of a hash table

Each call of `khash.h` is described by what it does to the map that the table holds (`Stores`) : a
search stops at its key or at an empty slot, and there is always one, as `kh_put` makes room first
(`putRoom_spec`). So over any sequence of insertions, lookups, deletions, resizings and clearings
the table answers as the map does (`khRun_eq`), as long as there are fewer than 2³⁰ keys : beyond
that the number of slots does not fit `khint_t` any more.
-/

set_option linter.unusedSectionVars false

open OpenAddressing

namespace Webxs

namespace Khash

variable {K V : Type} [DecidableEq K] {hash : K → BitVec 32} {h : Khash K V}
  {m : K → Option (Option V)} {key : K} {i : ℕ}

/-! ## Searching -/

theorem probe_injOn {e a b : ℕ} (ha : a < 2 ^ e) (hb : b < 2 ^ e)
    (hab : probe hash (2 ^ e) key a = probe hash (2 ^ e) key b) : a = b := by
  have hmod : a * (a + 1) / 2 ≡ b * (b + 1) / 2 [MOD 2 ^ e] :=
    Nat.ModEq.add_left_cancel' (hash key).toNat hab
  rcases Nat.le_total a b with hle | hle
  · exact triangle_injOn hb hle hmod
  · exact (triangle_injOn ha hle hmod.symm).symm

theorem Stores.lt_flags (hs : Stores hash h m) (hi : i < h.nBuckets) : i < 16 * h.flags.length :=
  Nat.lt_of_lt_of_le hi hs.flags

theorem Stores.passes_of_passed (hs : Stores hash h m) (hi : i < h.nBuckets)
    (hp : (h.slots i).Passed key) : h.passes key i = some true := by
  have he : emptyBit h.flags i = false := by
    by_contra he
    exact hp.1 (slotAt_of_empty (by simpa using he))
  rw [passes, acIsempty_eq (hs.lt_flags hi), acIsdel_eq (hs.lt_flags hi), he]
  rcases hd : delBit h.flags i with _ | _
  · obtain ⟨k, hk⟩ := hs.written i hi he hd
    have hne : k ≠ key := by
      rintro rfl
      exact hp.2 _ (slotAt_of_live hi he hd hk)
    simp [hk, hne]
  · rfl

theorem Stores.passes_of_empty (hs : Stores hash h m) (hi : i < h.nBuckets)
    (hp : h.slots i = .empty) : h.passes key i = some false := by
  rw [passes, acIsempty_eq (hs.lt_flags hi), (slotAt_eq_empty_iff hi).mp hp]
  rfl

theorem Stores.passes_of_live {v : Option V} (hs : Stores hash h m) (hi : i < h.nBuckets)
    (hp : h.slots i = .live key v) : h.passes key i = some false := by
  obtain ⟨-, he, hd, hk, -⟩ := of_slotAt_live hp
  rw [passes, acIsempty_eq (hs.lt_flags hi), acIsdel_eq (hs.lt_flags hi), he, hd]
  simp [hk]

/-- A slot that a search does not pass is empty or holds the key. -/
theorem stops_iff {s : Slot K (Option V)} :
    ¬s.Passed key ↔ s = .empty ∨ ∃ v, s = .live key v := by
  rw [Slot.Passed]
  push Not
  exact ⟨fun h => or_iff_not_imp_left.mpr h, fun h he => h.resolve_left he⟩

theorem Stores.passes_of_stops (hs : Stores hash h m) (hi : i < h.nBuckets)
    (hp : ¬(h.slots i).Passed key) : h.passes key i = some false := by
  rcases stops_iff.mp hp with hp | ⟨v, hp⟩
  · exact hs.passes_of_empty hi hp
  · exact hs.passes_of_live hi hp

/-- The state of a search that goes on : no slot before turn `d` stops it. -/
theorem Stores.getLoop_eq (hs : Stores hash h m) {e : ℕ} (hn : h.nBuckets = 2 ^ e) {d : ℕ}
    (hlt : d < 2 ^ e) (hd : ¬(h.slots (probe hash (2 ^ e) key d)).Passed key)
    (hbefore : ∀ l < d, (h.slots (probe hash (2 ^ e) key l)).Passed key) :
    ∀ turns j, j ≤ d → d < j + turns →
      h.getLoop key (2 ^ e - 1) (probe hash (2 ^ e) key 0) turns (probe hash (2 ^ e) key j) j =
        some (if (h.slots (probe hash (2 ^ e) key d)).isLive then probe hash (2 ^ e) key d
          else h.nBuckets)
  | 0, j, hj, hturns => absurd hturns (by omega)
  | turns + 1, j, hj, hturns => by
    have hin : probe hash (2 ^ e) key j < h.nBuckets := by rw [hn]; exact probe_lt j
    rw [getLoop]
    rcases Nat.eq_or_lt_of_le hj with rfl | hj'
    · rw [hs.passes_of_stops hin hd, acIseither_eq (hs.lt_flags hin), slots,
        isLive_slotAt hs.written hin]
      rcases delBit h.flags _ || emptyBit h.flags _ with _ | _ <;> rfl
    · have hne : probe hash (2 ^ e) key (j + 1) ≠ probe hash (2 ^ e) key 0 := fun heq =>
        Nat.succ_ne_zero j (probe_injOn (by omega) (Nat.two_pow_pos e) heq)
      rw [hs.passes_of_passed hin (hbefore j hj')]
      simp only [Option.bind_eq_bind, Option.bind_some, if_true, probe_succ, if_neg hne]
      exact hs.getLoop_eq hn hlt hd hbefore turns (j + 1) hj' (by omega)

theorem Stores.exists_empty (hs : Stores hash h m) (hn : h.nBuckets ≠ 0) :
    ∃ i < h.nBuckets, h.slots i = .empty := by
  have hroom := hs.room
  have hfour : 3 ≤ h.nBuckets := by
    rcases hs.shape with ⟨hzero, -⟩ | ⟨e, he, -, heq⟩
    · exact absurd hzero hn
    · have := Nat.pow_le_pow_right Nat.two_pos he
      omega
  rw [hs.upper, hs.occupied] at hroom
  have hlt := acUpper_lt hfour
  obtain ⟨i, hi, hzero⟩ := exists_of_sum_lt (s := Finset.range h.nBuckets) (t := h.slots)
    (w := fun s : Slot K (Option V) => if s.isEmpty then 0 else 1)
    (by rw [Finset.card_range]; exact Nat.lt_of_le_of_lt hroom hlt)
  exact ⟨i, Finset.mem_range.mp hi, Slot.isEmpty_iff.mp (by simpa using hzero)⟩

/-- The search for `key` ends. -/
theorem Stores.exists_search (hs : Stores hash h m) {e : ℕ} (hn : h.nBuckets = 2 ^ e) (key : K) :
    ∃ d < 2 ^ e, ¬(h.slots (probe hash (2 ^ e) key d)).Passed key ∧
      ∀ l < d, (h.slots (probe hash (2 ^ e) key l)).Passed key := by
  obtain ⟨i, hi, hempty⟩ := hs.exists_empty (by rw [hn]; exact (Nat.two_pow_pos e).ne')
  obtain ⟨j, hj, rfl⟩ := exists_probe_eq hash key (hn ▸ hi)
  exact exists_stop ⟨j, hj, hempty⟩

theorem khGet_eq {e : ℕ} (hn : h.nBuckets = 2 ^ e) (key : K) :
    khGet hash h key = h.getLoop key (2 ^ e - 1) (probe hash (2 ^ e) key 0) (2 ^ e)
      (probe hash (2 ^ e) key 0) 0 := by
  rw [khGet, if_pos (by rw [hn]; exact (Nat.two_pow_pos e).ne')]
  simp only [hn, probe_zero]

/-- `kh_get` finds the key if there is an entry. -/
theorem khGet_spec (hs : Stores hash h m) (key : K) :
    m key = none ∧ khGet hash h key = some h.nBuckets ∨
      ∃ v, m key = some v ∧ ∃ x < h.nBuckets, khGet hash h key = some x ∧
        h.slots x = .live key v := by
  rcases hs.shape with ⟨hzero, -⟩ | ⟨e, -, -, hn⟩
  · refine .inl ⟨hs.represents.none_of_forall fun i v hi => ?_, ?_⟩
    · have := (of_slotAt_live hi).1
      omega
    · rw [khGet, if_neg (by simpa using hzero), hzero]
  · obtain ⟨d, hlt, hd, hbefore⟩ := hs.exists_search hn key
    have hrun := hs.getLoop_eq hn hlt hd hbefore (2 ^ e) 0 (Nat.zero_le d) (by omega)
    rw [← khGet_eq hn] at hrun
    rcases stops_iff.mp hd with hempty | ⟨v, hlive⟩
    · refine .inl ⟨hs.represents.none_of_empty (i := probe hash (2 ^ e) key d) ?_ hempty, ?_⟩
      · exact ⟨d, by rw [hn], fun l hl => by rw [hn]; exact hbefore l hl⟩
      · rw [hrun, hempty]
        rfl
    · refine .inr ⟨v, hs.represents.some_of_live hlive, _, ?_, ?_, hlive⟩
      · rw [hn]
        exact probe_lt d
      · rw [hrun, hlive]
        rfl

/-! ## Inserting -/

/-- The place for a key that is not there : the last deleted slot on the way, if there is one. -/
theorem Stores.putLoop_eq (hs : Stores hash h m) {e : ℕ} (hn : h.nBuckets = 2 ^ e) {d : ℕ}
    (hlt : d < 2 ^ e) (hd : ¬(h.slots (probe hash (2 ^ e) key d)).Passed key)
    (hbefore : ∀ l < d, (h.slots (probe hash (2 ^ e) key l)).Passed key) :
    ∀ turns j site, j ≤ d → d < j + turns →
      (site = h.nBuckets ∨
        h.slots site = .deleted ∧ Reached (probe hash (2 ^ e)) h.slots key site) →
      ∃ site', h.putLoop key (2 ^ e - 1) (probe hash (2 ^ e) key 0) turns
          (probe hash (2 ^ e) key j) j site = some (h.nBuckets, probe hash (2 ^ e) key d, site') ∧
        (site' = h.nBuckets ∨
          h.slots site' = .deleted ∧ Reached (probe hash (2 ^ e)) h.slots key site')
  | 0, j, _, hj, hturns, _ => absurd hturns (by omega)
  | turns + 1, j, site, hj, hturns, hsite => by
    have hin : probe hash (2 ^ e) key j < h.nBuckets := by rw [hn]; exact probe_lt j
    rcases Nat.eq_or_lt_of_le hj with rfl | hj'
    · refine ⟨site, ?_, hsite⟩
      rw [putLoop, hs.passes_of_stops hin hd]
      rfl
    · have hne : probe hash (2 ^ e) key (j + 1) ≠ probe hash (2 ^ e) key 0 := fun heq =>
        Nat.succ_ne_zero j (probe_injOn (by omega) (Nat.two_pow_pos e) heq)
      have hpassed := hbefore j hj'
      have hempty : emptyBit h.flags (probe hash (2 ^ e) key j) = false := by
        by_contra he
        exact hpassed.1 (slotAt_of_empty (by simpa using he))
      rcases hdel : delBit h.flags (probe hash (2 ^ e) key j) with _ | _
      · obtain ⟨site', hrun, hsite'⟩ := hs.putLoop_eq hn hlt hd hbefore turns (j + 1) site hj'
          (by omega) hsite
        refine ⟨site', ?_, hsite'⟩
        rw [putLoop, hs.passes_of_passed hin hpassed, acIsdel_eq (hs.lt_flags hin), hdel]
        simp only [Option.bind_eq_bind, Option.bind_some, if_true, Bool.false_eq_true, if_false,
          probe_succ, if_neg hne]
        exact hrun
      · obtain ⟨site', hrun, hsite'⟩ := hs.putLoop_eq hn hlt hd hbefore turns (j + 1)
          (probe hash (2 ^ e) key j) hj' (by omega) (.inr ⟨slotAt_of_del hin hempty hdel,
            j, rfl, fun l hl => (hbefore l (by omega)).1⟩)
        refine ⟨site', ?_, hsite'⟩
        rw [putLoop, hs.passes_of_passed hin hpassed, acIsdel_eq (hs.lt_flags hin), hdel]
        simp only [Option.bind_eq_bind, Option.bind_some, if_true, probe_succ, if_neg hne]
        exact hrun

theorem putSlot_eq {e x site : ℕ} (hs : Stores hash h m) (hn : h.nBuckets = 2 ^ e)
    (hfirst : emptyBit h.flags (probe hash (2 ^ e) key 0) = false) (hx : x < h.nBuckets)
    (hrun : h.putLoop key (2 ^ e - 1) (probe hash (2 ^ e) key 0) h.nBuckets
      (probe hash (2 ^ e) key 0) 0 h.nBuckets = some (h.nBuckets, x, site)) :
    putSlot hash h key =
      some (if emptyBit h.flags x = true ∧ site ≠ h.nBuckets then site else x) := by
  have hstart : (hash key).toNat &&& (h.nBuckets - 1) = probe hash (2 ^ e) key 0 := by
    rw [hn, probe_zero]
  have hmask : h.nBuckets - 1 = 2 ^ e - 1 := by rw [hn]
  have hin : probe hash (2 ^ e) key 0 < h.nBuckets := by rw [hn]; exact probe_lt 0
  rw [putSlot, hstart, hmask, acIsempty_eq (hs.lt_flags hin), hfirst, hrun]
  simp only [Option.bind_eq_bind, Option.bind_some, Bool.false_eq_true, if_false, if_true,
    acIsempty_eq (hs.lt_flags hx)]

/-- The slot of `kh_put` : the one of the key, or one that its probes reach and that is free. -/
theorem putSlot_spec (hs : Stores hash h m) (hn : h.nBuckets ≠ 0) (key : K) :
    ∃ x < h.nBuckets, putSlot hash h key = some x ∧
      ((∃ v, m key = some v ∧ h.slots x = .live key v) ∨
        m key = none ∧ (h.slots x).isLive = false ∧
          Reached (probe hash h.nBuckets) h.slots key x) := by
  obtain ⟨e, -, -, hn⟩ := hs.shape.resolve_left fun h => hn h.1
  obtain ⟨d, hlt, hd, hbefore⟩ := hs.exists_search hn key
  have hsearched : Searched (probe hash h.nBuckets) h.slots key (probe hash (2 ^ e) key d) :=
    ⟨d, by rw [hn], fun l hl => by rw [hn]; exact hbefore l hl⟩
  have hin : ∀ j, probe hash (2 ^ e) key j < h.nBuckets := fun j => by rw [hn]; exact probe_lt j
  have hstart : (hash key).toNat &&& (h.nBuckets - 1) = probe hash (2 ^ e) key 0 := by
    rw [hn, probe_zero]
  rcases hfirst : emptyBit h.flags (probe hash (2 ^ e) key 0) with _ | _
  · obtain ⟨site, hrun, hsite⟩ := hs.putLoop_eq hn hlt hd hbefore h.nBuckets 0 h.nBuckets
      (Nat.zero_le d) (by omega) (.inl rfl)
    have hslot := putSlot_eq hs hn hfirst (hin d) hrun
    rcases stops_iff.mp hd with hempty | ⟨v, hlive⟩
    · have hbit : emptyBit h.flags (probe hash (2 ^ e) key d) = true :=
        (slotAt_eq_empty_iff (hin d)).mp hempty
      have hnone := hs.represents.none_of_empty hsearched hempty
      rcases hsite with rfl | ⟨hdel, hreach⟩
      · refine ⟨_, hin d, by rw [hslot, if_neg (fun h => h.2 rfl)], .inr ⟨hnone, ?_,
          hsearched.reached⟩⟩
        rw [hempty]
        rfl
      · have hlt' : site < h.nBuckets := by
          by_contra hge
          rw [slots, slotAt_of_le (Nat.le_of_not_lt hge)] at hdel
          cases hdel
        refine ⟨site, hlt', by rw [hslot, if_pos ⟨hbit, hlt'.ne⟩], .inr ⟨hnone, ?_, ?_⟩⟩
        · rw [hdel]
          rfl
        · rw [hn]
          exact hreach
    · have hbit := (of_slotAt_live hlive).2.1
      refine ⟨_, hin d, by rw [hslot, hbit, if_neg (fun h => Bool.noConfusion h.1)],
        .inl ⟨v, hs.represents.some_of_live hlive, hlive⟩⟩
  · have hempty : h.slots (probe hash (2 ^ e) key 0) = .empty := slotAt_of_empty hfirst
    have hzero : Searched (probe hash h.nBuckets) h.slots key (probe hash (2 ^ e) key 0) :=
      ⟨0, by rw [hn], fun l hl => absurd hl (Nat.not_lt_zero l)⟩
    refine ⟨_, hin 0, ?_, .inr ⟨hs.represents.none_of_empty hzero hempty, ?_, hzero.reached⟩⟩
    · rw [putSlot, hstart, acIsempty_eq (hs.lt_flags (hin 0)), hfirst]
      rfl
    · rw [hempty]
      rfl

theorem Stores.size_le (hs : Stores hash h m) : h.size ≤ h.nBuckets := by
  rw [hs.size]
  exact liveCount_le ..

theorem Stores.resize_room (hs : Stores hash h m) {x : BitVec 32} {n : ℕ}
    (hn : roundSlots x = n) (hsize : h.size < acUpper n) :
    ∃ h', khResize hash h x = some h' ∧ Stores hash h' m ∧ h'.size = h.size ∧
      h'.nOccupied < h'.upperBound := by
  obtain ⟨h', hrun, hs', hsize', hcase⟩ := khResize_spec hs x
  rw [hn] at hcase
  obtain ⟨-, hbuckets, hocc⟩ := hcase.resolve_left fun h => absurd h.1 (Nat.not_le.mpr hsize)
  exact ⟨h', hrun, hs', hsize', by rw [hs'.upper, hbuckets, hocc]; exact hsize⟩

/-- After the resizing there is room for one more key. -/
theorem putRoom_spec (hs : Stores hash h m) (hsize : h.size < 2 ^ 30) :
    ∃ h', putRoom hash h = some h' ∧ Stores hash h' m ∧ h'.size = h.size ∧
      h'.nOccupied < h'.upperBound := by
  have hle := hs.size_le
  unfold putRoom
  split_ifs with hfull hhalf
  · -- at most half of the slots are live : the deleted ones are cleared
    rw [Nat.shiftLeft_eq, Nat.pow_one] at hhalf
    obtain ⟨e, he, helt, hn⟩ := hs.shape.resolve_left fun h => by omega
    refine hs.resize_room (n := 2 ^ e) (by rw [hn]; exact roundSlots_pred he helt) ?_
    unfold acUpper
    omega
  · rw [Nat.shiftLeft_eq, Nat.pow_one, Nat.not_lt] at hhalf
    rcases hs.shape with ⟨hzero, -⟩ | ⟨e, he, helt, hn⟩
    · refine hs.resize_room (n := 4) (by rw [hzero]; exact roundSlots_one) ?_
      unfold acUpper
      omega
    · have hsmall : e < 31 := by
        by_contra hge
        have := Nat.pow_le_pow_right Nat.two_pos (Nat.le_of_not_lt hge)
        omega
      refine hs.resize_room (n := 2 ^ (e + 1)) (by rw [hn]; exact roundSlots_succ he hsmall) ?_
      have hpow := Nat.pow_le_pow_right Nat.two_pos he
      rw [Nat.pow_succ]
      unfold acUpper
      omega
  · exact ⟨h, rfl, hs, rfl, Nat.lt_of_not_le hfull⟩

theorem usedCount_update {n : ℕ} {t : ℕ → Slot K (Option V)} (hi : i < n)
    (x : Slot K (Option V)) :
    usedCount n (Function.update t i x) + (if (t i).isEmpty then 0 else 1) =
      usedCount n t + if x.isEmpty then 0 else 1 :=
  sum_update (fun s : Slot K (Option V) => if s.isEmpty then 0 else 1) _ t
    (Finset.mem_range.mpr hi) x

/-- A key is written to a free slot that its probes reach. -/
theorem Stores.write (hs : Stores hash h m) {flags' : List (BitVec 32)} (hi : i < h.nBuckets)
    (hnew : m key = none) (hfree : (h.slots i).isLive = false)
    (hreach : Reached (probe hash h.nBuckets) h.slots key i)
    (hroom : h.nOccupied < h.upperBound) (hlen : flags'.length = h.flags.length)
    (he : ∀ j, emptyBit flags' j = (emptyBit h.flags j && !decide (j = i)))
    (hd : ∀ j, delBit flags' j = (delBit h.flags j && !decide (j = i))) {o : ℕ}
    (ho : o = h.nOccupied + if (h.slots i).isEmpty then 1 else 0) :
    Stores hash
      { h with
        keys := h.keys.set i (some key)
        flags := flags'
        size := h.size + 1
        nOccupied := o }
      (Function.update m key (some (h.vals[i]?).join)) := by
  have hkeys : i < h.keys.length := by rw [hs.keys]; exact hi
  have hvals : i < h.vals.length := by rw [hs.vals]; exact hi
  have hself : ∀ b : Bool, (b && !decide (i = i)) = false := fun b => by
    rw [decide_eq_true rfl, Bool.not_true, Bool.and_false]
  -- the value that stands there is an old one
  have hslots : slotAt h.nBuckets flags' (h.keys.set i (some key)) h.vals =
      Function.update h.slots i (.live key (h.vals[i]?).join) := by
    have hsame : h.vals = h.vals.set i (h.vals[i]?).join := by
      rw [List.getElem?_eq_getElem hvals, Option.join_some, List.set_getElem_self]
    conv_lhs => rw [hsame]
    refine slotAt_setLive hi he (fun j hj => ?_) (by rw [hd, hself]) hkeys hvals _ _
    rw [hd, decide_eq_false hj, Bool.not_false, Bool.and_true]
  have hlive := liveCount_update (t := h.slots) hi (.live key (h.vals[i]?).join)
  have hused := usedCount_update (t := h.slots) hi (.live key (h.vals[i]?).join)
  rw [hfree] at hlive
  simp only [Bool.false_eq_true, if_false, Slot.isLive_live, if_true] at hlive
  simp only [Slot.isEmpty_live, Bool.false_eq_true, if_false] at hused
  have hle : o ≤ h.upperBound := by
    rw [ho]
    split_ifs <;> omega
  exact {
    shape := by
      rcases hs.shape with ⟨hzero, -⟩ | hpow
      · omega
      · exact .inr hpow
    flags := by rw [hlen]; exact hs.flags
    keys := by rw [List.length_set]; exact hs.keys
    vals := hs.vals
    written := fun j hj hej hdj => by
      rcases eq_or_ne i j with rfl | hij
      · exact ⟨key, List.getElem?_set_self hkeys⟩
      · rw [he, decide_eq_false hij.symm, Bool.not_false, Bool.and_true] at hej
        rw [hd, decide_eq_false hij.symm, Bool.not_false, Bool.and_true] at hdj
        rw [List.getElem?_set_ne hij]
        exact hs.written j hj hej hdj
    size := by
      rw [slots, hslots]
      show h.size + 1 = liveCount h.nBuckets _
      rw [hs.size]
      omega
    occupied := by
      rw [slots, hslots]
      show o = usedCount h.nBuckets _
      rw [ho, hs.occupied]
      split_ifs at hused ⊢ <;> omega
    upper := hs.upper
    room := hle
    represents := by
      rw [slots, hslots]
      exact hs.represents.insert hnew hreach hfree _ }

/-- `kh_put` leaves the key in its slot; a value is still to be written there. -/
theorem khPut_spec (hs : Stores hash h m) (hsize : h.size < 2 ^ 30) (key : K) :
    ∃ h' x ret v, khPut hash h key = some (h', x, ret) ∧ h'.slots x = .live key v ∧
      Stores hash h' (Function.update m key (some v)) ∧ (ret = 0 ↔ m key ≠ none) := by
  obtain ⟨h₁, hroom, hs₁, -, hlt⟩ := putRoom_spec hs hsize
  have hn : h₁.nBuckets ≠ 0 := by
    intro hzero
    have := hs₁.upper
    rw [hzero] at this
    unfold acUpper at this
    omega
  obtain ⟨x, hx, hslot, hcase⟩ := putSlot_spec hs₁ hn key
  have hxf := hs₁.lt_flags hx
  have hkeys : x < h₁.keys.length := by rw [hs₁.keys]; exact hx
  have hvals : x < h₁.vals.length := by rw [hs₁.vals]; exact hx
  rcases hcase with ⟨v, hm, hlive⟩ | ⟨hm, hfree, hreach⟩
  · obtain ⟨-, he, hd, -, -⟩ := of_slotAt_live hlive
    refine ⟨h₁, x, 0, v, ?_, hlive, ?_, by simp [hm]⟩
    · rw [khPut, hroom]
      simp only [hslot, acIsempty_eq hxf, acIsdel_eq hxf, he, hd, Option.bind_eq_bind,
        Option.bind_some, Bool.false_eq_true, if_false]
    · rwa [Function.update_eq_self_iff.mpr hm.symm]
  · obtain ⟨flags', hset, hlen, he, hd⟩ := acSetIsbothFalse_spec hxf
    have hstores := fun o => hs₁.write (o := o) hx hm hfree hreach hlt hlen he hd
    have hslots : ∀ o, slots { h₁ with
          keys := h₁.keys.set x (some key)
          flags := flags'
          size := h₁.size + 1
          nOccupied := o } x = .live key (h₁.vals[x]?).join := fun o =>
      slotAt_of_live hx (by rw [he, decide_eq_true rfl, Bool.not_true, Bool.and_false])
        (by rw [hd, decide_eq_true rfl, Bool.not_true, Bool.and_false])
        (List.getElem?_set_self hkeys)
    rcases hempty : emptyBit h₁.flags x with _ | _
    · have hdel : delBit h₁.flags x = true := by
        rw [slots, isLive_slotAt hs₁.written hx, hempty, Bool.or_false] at hfree
        simpa using hfree
      have hdeleted : h₁.slots x = .deleted := slotAt_of_del hx hempty hdel
      refine ⟨_, x, 2, _, ?_, hslots _, hstores h₁.nOccupied (by rw [hdeleted]; rfl), by simp [hm]⟩
      rw [khPut, hroom]
      simp only [hslot, acIsempty_eq hxf, acIsdel_eq hxf, hempty, hdel, hset, store_eq hkeys,
        Option.bind_eq_bind, Option.bind_some, Bool.false_eq_true, if_false, if_true]
    · have hfree' : h₁.slots x = .empty := slotAt_of_empty hempty
      refine ⟨_, x, 1, _, ?_, hslots _, hstores (h₁.nOccupied + 1) (by rw [hfree']; rfl),
        by simp [hm]⟩
      rw [khPut, hroom]
      simp only [hslot, acIsempty_eq hxf, hempty, hset, store_eq hkeys,
        Option.bind_eq_bind, Option.bind_some, if_true]

/-! ## Values, deletion, clearing -/

/-- The value of a key is written. -/
theorem setVal_spec (hs : Stores hash h m) {v : Option V} (hx : h.slots i = .live key v) (w : V) :
    ∃ h', h.setVal i w = some h' ∧ Stores hash h' (Function.update m key (some (some w))) := by
  obtain ⟨hi, he, hd, hk, -⟩ := of_slotAt_live hx
  have hvals : i < h.vals.length := by rw [hs.vals]; exact hi
  have hkeys : i < h.keys.length := by rw [hs.keys]; exact hi
  have hslots : slotAt h.nBuckets h.flags h.keys (h.vals.set i (some w)) =
      Function.update h.slots i (.live key (some w)) := by
    ext1 j
    rw [Function.update_apply]
    split_ifs with hj
    · rw [hj, slotAt_of_live hi he hd hk, List.getElem?_set_self hvals, Option.join_some]
    · exact slotAt_congr rfl rfl rfl (List.getElem?_set_ne fun h => hj h.symm)
  have hlive := liveCount_update (t := h.slots) hi (.live key (some w))
  have hused := usedCount_update (t := h.slots) hi (.live key (some w))
  rw [hx] at hlive hused
  refine ⟨{ h with vals := h.vals.set i (some w) }, by rw [setVal, store_eq hvals]; rfl, ?_⟩
  exact {
    shape := hs.shape
    flags := hs.flags
    keys := hs.keys
    vals := by rw [List.length_set]; exact hs.vals
    written := hs.written
    size := by
      rw [slots, hslots]
      exact hs.size.trans (Nat.add_right_cancel hlive).symm
    occupied := by
      rw [slots, hslots]
      exact hs.occupied.trans (Nat.add_right_cancel hused).symm
    upper := hs.upper
    room := hs.room
    represents := by
      rw [slots, hslots]
      exact hs.represents.replace hx (some w) }

/-- A slot is marked as deleted. -/
theorem khDel_spec (hs : Stores hash h m) {v : Option V} (hx : h.slots i = .live key v) :
    ∃ h', h.khDel i = some h' ∧ Stores hash h' (Function.update m key none) := by
  obtain ⟨hi, he, hd, hk, -⟩ := of_slotAt_live hx
  obtain ⟨flags', hset, hlen, hflags, hdel⟩ := acSetIsdelTrue_spec (hs.lt_flags hi)
  have hslots : slotAt h.nBuckets flags' h.keys h.vals = Function.update h.slots i .deleted :=
    slotAt_setDel hi hflags hdel he
  have hlive := liveCount_update (t := h.slots) hi .deleted
  have hused := usedCount_update (t := h.slots) hi .deleted
  rw [hx] at hlive hused
  simp only [Slot.isLive_live, Slot.isLive_deleted, if_true, Bool.false_eq_true, if_false,
    Nat.add_zero] at hlive
  refine ⟨{ h with flags := flags', size := h.size - 1 }, ?_, ?_⟩
  · rw [khDel, if_pos hi.ne, acIseither_eq (hs.lt_flags hi), he, hd, hset]
    rfl
  exact {
    shape := by
      rcases hs.shape with ⟨hzero, -⟩ | hpow
      · omega
      · exact .inr hpow
    flags := by rw [hlen]; exact hs.flags
    keys := hs.keys
    vals := hs.vals
    written := fun j hj hej hdj => by
      rw [hdel, Bool.or_eq_false_iff] at hdj
      exact hs.written j hj (by rw [← hflags, hej]) hdj.1
    size := by
      rw [slots, hslots]
      show h.size - 1 = liveCount h.nBuckets _
      rw [hs.size]
      omega
    occupied := by
      rw [slots, hslots]
      exact hs.occupied.trans (Nat.add_right_cancel hused).symm
    upper := hs.upper
    room := hs.room
    represents := by
      rw [slots, hslots]
      exact hs.represents.erase hx }

/-- `kh_clear` forgets every key and leaves the slots. -/
theorem khClear_spec (hs : Stores hash h m) : Stores hash h.khClear (fun _ => none) := by
  unfold khClear
  split_ifs with hnull
  · have hzero : h.nBuckets = 0 := by
      have := hs.flags
      rw [hnull] at this
      simpa using this
    have hnone : m = fun _ => none := by
      ext1 k
      refine hs.represents.none_of_forall fun j v hj => ?_
      have := (of_slotAt_live hj).1
      omega
    rwa [hnone] at hs
  · obtain ⟨e, he, helt, hn⟩ := hs.shape.resolve_left fun h => hnull h.2
    have hempty : ∀ i < h.nBuckets, emptyBit (emptyFlags h.nBuckets) i = true := fun i hi => by
      rw [hn] at hi ⊢
      exact flagBit_emptyFlags_two_pow Nat.one_lt_two hi
    have hslots : ∀ i, slotAt h.nBuckets (emptyFlags h.nBuckets) h.keys h.vals i = .empty := by
      intro i
      rcases Nat.lt_or_ge i h.nBuckets with hi | hi
      · exact slotAt_of_empty (hempty i hi)
      · exact slotAt_of_le hi
    exact {
      shape := .inr ⟨e, he, helt, hn⟩
      flags := by
        show h.nBuckets ≤ 16 * (emptyFlags h.nBuckets).length
        rw [emptyFlags, List.length_replicate]
        exact le_acFsize hn
      keys := hs.keys
      vals := hs.vals
      written := fun i hi he _ => by
        rw [hempty i hi] at he
        exact Bool.noConfusion he
      size := (liveCount_eq_zero fun i _ => by rw [slots, hslots]; rfl).symm
      occupied := by
        refine (Finset.sum_eq_zero fun i _ => ?_).symm
        rw [slots, hslots]
        rfl
      upper := hs.upper
      room := Nat.zero_le _
      represents := represents_empty hslots }

theorem khInit_stores (hash : K → BitVec 32) : Stores hash (khInit : Khash K V) fun _ => none where
  shape := .inl ⟨rfl, rfl⟩
  flags := Nat.le_refl 0
  keys := rfl
  vals := rfl
  written _ hi := absurd hi (Nat.not_lt_zero _)
  size := rfl
  occupied := rfl
  upper := show 0 = acUpper 0 by decide
  room := Nat.le_refl 0
  represents := represents_empty fun i => slotAt_of_le (Nat.zero_le i)

/-! ## Runs -/

/-- What a user of a table does with it. -/
inductive KhOp (K V : Type)
  /-- `kh_put`, and the value is written to the slot. -/
  | put (key : K) (val : V)
  /-- `kh_get`, and the value is read if there is a slot. -/
  | get (key : K)
  /-- `kh_get`, and `kh_del` of the slot. -/
  | del (key : K)
  | resize (newNBuckets : BitVec 32)
  | clear

/-- What the user sees of it. -/
inductive KhSeen (V : Type)
  /-- `*ret == 0` : the key was there. -/
  | put (present : Bool)
  /-- The value, if the slot is not `kh_end`. -/
  | got (val : Option V)
  | done

/-- One use of the table. -/
def khStep (hash : K → BitVec 32) (h : Khash K V) : KhOp K V → Option (Khash K V × KhSeen V)
  | .put key val => do
    let (h, x, ret) ← khPut hash h key
    let h ← h.setVal x val
    some (h, .put (decide (ret = 0)))
  | .get key => do
    let x ← khGet hash h key
    if x = h.nBuckets then some (h, .got none)
    else
      let val ← h.khVal x
      some (h, .got (some val))
  | .del key => do
    let x ← khGet hash h key
    let h ← h.khDel x
    some (h, .done)
  | .resize newNBuckets => do
    let h ← khResize hash h newNBuckets
    some (h, .done)
  | .clear => some (h.khClear, .done)

/-- The same on a map. -/
def mapStep (m : K → Option V) : KhOp K V → (K → Option V) × KhSeen V
  | .put key val => (Function.update m key (some val), .put (m key).isSome)
  | .get key => (m, .got (m key))
  | .del key => (Function.update m key none, .done)
  | .resize _ => (m, .done)
  | .clear => (fun _ => none, .done)

/-- A run : the table at its end, and what the user has seen. -/
def khRun (hash : K → BitVec 32) :
    Khash K V → List (KhOp K V) → Option (Khash K V × List (KhSeen V))
  | h, [] => some (h, [])
  | h, op :: ops => do
    let (h, seen) ← khStep hash h op
    let (h, rest) ← khRun hash h ops
    some (h, seen :: rest)

/-- The same on a map. -/
def mapRun : (K → Option V) → List (KhOp K V) → (K → Option V) × List (KhSeen V)
  | m, [] => (m, [])
  | m, op :: ops =>
    ((mapRun (mapStep m op).1 ops).1, (mapStep m op).2 :: (mapRun (mapStep m op).1 ops).2)

/-- Before each step of a run there are fewer than 2³⁰ keys. -/
def FewKeys : (K → Option V) → List (KhOp K V) → Prop
  | _, [] => True
  | m, op :: ops => {k | m k ≠ none}.ncard < 2 ^ 30 ∧ FewKeys (mapStep m op).1 ops

/-- All values are written. -/
def Maps (hash : K → BitVec 32) (h : Khash K V) (m : K → Option V) : Prop :=
  Stores hash h fun key => (m key).map some

theorem Maps.ncard_eq {m : K → Option V} (hs : Maps hash h m) :
    h.size = {k | m k ≠ none}.ncard := by
  have hset : {k | m k ≠ none} = {k | (m k).map some ≠ none} := by
    ext k
    simp
  rw [hset, hs.represents.toHolds.ncard_eq (Finset.range h.nBuckets) fun i hi => ?_]
  · exact hs.size
  · obtain ⟨k, v, hk⟩ := Slot.exists_of_isLive hi
    exact Finset.mem_range.mpr (of_slotAt_live hk).1

theorem map_update (m : K → Option V) (key : K) (v : Option V) :
    (fun k => (Function.update m key v k).map some) =
      Function.update (fun k => (m k).map some) key (v.map some) := by
  ext1 k
  rw [Function.update_apply, Function.update_apply]
  split_ifs <;> rfl

/-- One step of the table is one step of the map. -/
theorem khStep_spec {m : K → Option V} (hs : Maps hash h m)
    (hsize : {k | m k ≠ none}.ncard < 2 ^ 30) (op : KhOp K V) :
    ∃ h', khStep hash h op = some (h', (mapStep m op).2) ∧ Maps hash h' (mapStep m op).1 := by
  have hsize' : h.size < 2 ^ 30 := by rwa [hs.ncard_eq]
  rcases op with ⟨key, val⟩ | key | key | n | _
  · obtain ⟨h₁, x, ret, v, hput, hx, hs₁, hret⟩ := khPut_spec hs hsize' key
    obtain ⟨h₂, hset, hs₂⟩ := setVal_spec hs₁ hx val
    rw [Function.update_idem] at hs₂
    refine ⟨h₂, ?_, ?_⟩
    · have hseen : decide (ret = 0) = (m key).isSome := by
        rw [Bool.eq_iff_iff, decide_eq_true_iff, hret]
        simp [Option.ne_none_iff_isSome]
      rw [khStep, hput]
      simp only [hset, hseen, mapStep, Option.bind_eq_bind, Option.bind_some]
    · rw [Maps, mapStep, map_update]
      exact hs₂
  · rcases khGet_spec hs key with ⟨hm, hget⟩ | ⟨v, hm, x, hx, hget, hlive⟩
    · refine ⟨h, ?_, hs⟩
      rw [khStep, hget]
      rw [Option.map_eq_none_iff] at hm
      simp [mapStep, hm]
    · obtain ⟨w, hw, rfl⟩ := Option.map_eq_some_iff.mp hm
      have hval := (of_slotAt_live hlive).2.2.2.2
      refine ⟨h, ?_, hs⟩
      rw [khStep, hget]
      simp only [Option.bind_eq_bind, Option.bind_some, if_neg hx.ne, khVal, ← hval, mapStep, hw]
  · rcases khGet_spec hs key with ⟨hm, hget⟩ | ⟨v, hm, x, hx, hget, hlive⟩
    · rw [Option.map_eq_none_iff] at hm
      refine ⟨h, ?_, ?_⟩
      · rw [khStep, hget]
        simp [khDel, mapStep]
      · rw [Maps, mapStep, Function.update_eq_self_iff.mpr hm.symm]
        exact hs
    · obtain ⟨h', hdel, hs'⟩ := khDel_spec hs hlive
      refine ⟨h', ?_, ?_⟩
      · rw [khStep, hget]
        simp only [hdel, mapStep, Option.bind_eq_bind, Option.bind_some]
      · rw [Maps, mapStep, map_update]
        exact hs'
  · obtain ⟨h', hrun, hs', -⟩ := khResize_spec hs n
    exact ⟨h', by rw [khStep, hrun]; rfl, hs'⟩
  · exact ⟨h.khClear, rfl, khClear_spec hs⟩

theorem khRun_spec (hash : K → BitVec 32) :
    ∀ (ops : List (KhOp K V)) (h : Khash K V) (m : K → Option V), Maps hash h m → FewKeys m ops →
      ∃ h', khRun hash h ops = some (h', (mapRun m ops).2) ∧ Maps hash h' (mapRun m ops).1
  | [], h, _, hs, _ => ⟨h, rfl, hs⟩
  | op :: ops, h, m, hs, hfew => by
    obtain ⟨h₁, hstep, hs₁⟩ := khStep_spec hs hfew.1 op
    obtain ⟨h₂, hrun, hs₂⟩ := khRun_spec hash ops h₁ _ hs₁ hfew.2
    refine ⟨h₂, ?_, hs₂⟩
    rw [khRun, hstep]
    simp only [hrun, mapRun, Option.bind_eq_bind, Option.bind_some]

/-- Over any run the table answers as a map does, and counts the keys. -/
theorem khRun_eq (hash : K → BitVec 32) (ops : List (KhOp K V))
    (hfew : FewKeys (fun _ => none) ops) :
    ∃ h, khRun hash khInit ops = some (h, (mapRun (fun _ => none) ops).2) ∧
      h.size = {k | (mapRun (fun _ => none) ops).1 k ≠ none}.ncard :=
  let ⟨h, hrun, hs⟩ := khRun_spec hash ops khInit (fun _ => none) (khInit_stores hash) hfew
  ⟨h, hrun, hs.ncard_eq⟩

/-- One step adds at most one key. -/
theorem ncard_mapStep_le {m : K → Option V} (hfin : {k | m k ≠ none}.Finite) (op : KhOp K V) :
    {k | (mapStep m op).1 k ≠ none}.Finite ∧
      {k | (mapStep m op).1 k ≠ none}.ncard ≤ {k | m k ≠ none}.ncard + 1 := by
  have hless : ∀ s ⊆ {k | m k ≠ none}, s.Finite ∧ s.ncard ≤ {k | m k ≠ none}.ncard + 1 :=
    fun s hs => ⟨hfin.subset hs, (Set.ncard_le_ncard hs hfin).trans (Nat.le_succ _)⟩
  have hupdate : ∀ key v, ∀ k, k ≠ key → Function.update m key v k ≠ none → m k ≠ none :=
    fun key v k hk h => by rwa [Function.update_of_ne hk] at h
  rcases op with ⟨key, val⟩ | key | key | n | _
  · have hsub : {k | Function.update m key (some val) k ≠ none} ⊆ insert key {k | m k ≠ none} :=
      fun k hk => or_iff_not_imp_left.mpr fun hne => hupdate key _ k hne hk
    exact ⟨(hfin.insert key).subset hsub,
      (Set.ncard_le_ncard hsub (hfin.insert key)).trans (Set.ncard_insert_le key _)⟩
  · exact hless _ subset_rfl
  · refine hless _ fun k hk => hupdate key none k ?_ hk
    rintro rfl
    exact hk (Function.update_self ..)
  · exact hless _ subset_rfl
  · exact hless _ fun k hk => absurd rfl hk

/-- A run of at most 2³⁰ steps never has too many keys. -/
theorem fewKeys_of_length :
    ∀ (ops : List (KhOp K V)) (m : K → Option V), {k | m k ≠ none}.Finite →
      {k | m k ≠ none}.ncard + ops.length ≤ 2 ^ 30 → FewKeys m ops
  | [], _, _, _ => trivial
  | op :: ops, m, hfin, hlen => by
    rw [List.length_cons] at hlen
    obtain ⟨hfin', hle⟩ := ncard_mapStep_le hfin op
    exact ⟨by omega, fewKeys_of_length ops _ hfin' (by omega)⟩

/-- Two keys of one slot, the first of them deleted and written again. -/
def collidingOps : List (KhOp ℕ ℕ) :=
  [.put 1 10, .put 5 50, .get 5, .del 1, .get 1, .put 9 90, .put 1 11, .resize 32, .get 5, .get 1]

theorem khRun_eq_colliding :
    ∃ h, khRun (BitVec.ofNat 32) khInit collidingOps =
        some (h, (mapRun (fun _ => none) collidingOps).2) ∧
      h.size = {k | (mapRun (fun _ => none) collidingOps).1 k ≠ none}.ncard :=
  khRun_eq _ collidingOps (fewKeys_of_length collidingOps _ (by simp)
    (by simp [collidingOps]))

end Khash

end Webxs
