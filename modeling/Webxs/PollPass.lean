import Webxs.PollTable
import Mathlib.Data.List.Perm.Basic

/-!
# An event pass compacts the table

In the middle of a pass the table is in three parts : the entries in front of `ip` are kept, the
entries from `i` on are still to be visited, and what is between them is left over. The tokens of
the first and the last part are distinct and lead to their entries, and the free tokens are
threaded through the rest of the map (`Table.Half`). Callbacks do not change this, and moving an
entry shifts the parts by one (`Half.compact`).

So a pass that is not stopped leaves a table of the same kind, with the entries whose sockets
were valid after their own events, in their order, and with what the callbacks left in them
(`pass_compacts`).
-/

open Interleaving FreeList

namespace Webxs

namespace Poll

/-! ## Well-formed tables -/

/-- What is known of an entry outside. -/
structure Content where
  fd : ℤ
  events : BitVec 16
  cfd : ℕ
  deriving DecidableEq

namespace Table

/-- The tokens of the `n` entries from `a` on. -/
def sids (xp : Table) (a n : ℕ) : List ℕ :=
  (List.range' a n).map fun k => (xp.pss k).sid

/-- The tokens of the table. -/
def tokens (xp : Table) : List ℕ :=
  xp.sids 0 xp.pfdCount

/-- What entry `k` holds. -/
def contentAt (xp : Table) (k : ℕ) : Content :=
  ⟨(xp.pfd k).fd, (xp.pfd k).events, (xp.pss k).cfd⟩

/-- What the entry of a token holds. -/
def content (xp : Table) (xptoken : ℤ) : Option Content :=
  (xp.xptokInd xptoken).map xp.contentAt

/-- A table between two passes. -/
structure WellFormed (xp : Table) : Prop where
  max : xp.pfdMax = xp.pfdCount
  le : xp.pfdCount ≤ xp.pfdTotal
  mapped : ∀ k < xp.pfdCount, xp.sidmap (xp.pss k).sid = k
  free : ∃ free M, Threaded xp.sidmap xp.freesid free ∧
    (xp.tokens ++ free).Perm (List.range M) ∧ M ≤ xp.pfdTotal

/-- The token is on the free list. -/
def IsFree (xp : Table) (t : ℕ) : Prop :=
  ∃ free, Threaded xp.sidmap xp.freesid free ∧ t ∈ free

/-- A table in the middle of a pass : the entries in front of `ip` and from `i` on are live, and
the tokens are the numbers below `M`. -/
structure Half (xp : Table) (M i ip : ℕ) : Prop where
  le : ip ≤ i
  lt : i ≤ xp.pfdCount
  count : xp.pfdCount ≤ xp.pfdTotal
  mapped : ∀ k, k < ip ∨ i ≤ k → k < xp.pfdCount → xp.sidmap (xp.pss k).sid = k
  bound : M ≤ xp.pfdTotal
  free : ∃ free, Threaded xp.sidmap xp.freesid free ∧
    (xp.sids 0 ip ++ xp.sids i (xp.pfdCount - i) ++ free).Perm (List.range M)

end Table

/-! ## Tokens -/

section Sids

variable {xp xp' : Table} {a n : ℕ}

theorem mem_sids {t : ℕ} : t ∈ xp.sids a n ↔ ∃ k, a ≤ k ∧ k < a + n ∧ (xp.pss k).sid = t := by
  simp only [Table.sids, List.mem_map, List.mem_range'_1]
  constructor
  · rintro ⟨k, ⟨h, h'⟩, rfl⟩
    exact ⟨k, h, h', rfl⟩
  · rintro ⟨k, h, h', rfl⟩
    exact ⟨k, ⟨h, h'⟩, rfl⟩

theorem sids_congr (h : ∀ k, a ≤ k → k < a + n → (xp'.pss k).sid = (xp.pss k).sid) :
    xp'.sids a n = xp.sids a n :=
  List.map_congr_left fun k hk => h k (List.mem_range'_1.mp hk).1 (List.mem_range'_1.mp hk).2

theorem sids_cons (xp : Table) (a n : ℕ) :
    xp.sids a (n + 1) = (xp.pss a).sid :: xp.sids (a + 1) n := by
  rw [Table.sids, List.range'_succ]
  rfl

theorem sids_concat (xp : Table) (n : ℕ) :
    xp.sids 0 (n + 1) = xp.sids 0 n ++ [(xp.pss n).sid] := by
  rw [Table.sids, List.range'_1_concat, List.map_append, Nat.zero_add]
  rfl

end Sids

namespace Table.Half

variable {xp xp' : Table} {M i ip : ℕ}

theorem sid_lt (h : Half xp M i ip) {k : ℕ} (hk : k < ip ∨ i ≤ k) (hlt : k < xp.pfdCount) :
    (xp.pss k).sid < M := by
  obtain ⟨free, -, hperm⟩ := h.free
  rw [← List.mem_range]
  refine hperm.subset (List.mem_append_left _ ?_)
  rw [List.mem_append, mem_sids, mem_sids]
  rcases hk with hk | hk
  · exact Or.inl ⟨k, Nat.zero_le _, by omega, rfl⟩
  · exact Or.inr ⟨k, hk, by omega, rfl⟩

/-- A live token leads to its entry. -/
theorem xptokInd_eq (h : Half xp M i ip) {k : ℕ} (hk : k < ip ∨ i ≤ k)
    (hlt : k < xp.pfdCount) : xp.xptokInd (xp.pss k).sid = some k := by
  have hsid := h.sid_lt hk hlt
  have hM := h.bound
  rw [xptokInd, if_neg (by omega)]
  dsimp only
  rw [Int.toNat_natCast, h.mapped k hk hlt, if_neg (by omega), Int.toNat_natCast]

/-- Different live entries have different tokens. -/
theorem eq_of_sid_eq (h : Half xp M i ip) {k l : ℕ} (hk : k < ip ∨ i ≤ k)
    (hklt : k < xp.pfdCount) (hl : l < ip ∨ i ≤ l) (hllt : l < xp.pfdCount)
    (heq : (xp.pss k).sid = (xp.pss l).sid) : k = l := by
  have hmap := h.mapped k hk hklt
  rw [heq, h.mapped l hl hllt] at hmap
  omega

end Table.Half

/-! ## What does not touch the tokens -/

/-- The entries have the same tokens, mapped the same way. -/
structure Table.SameMap (xp xp' : Table) : Prop where
  total : xp'.pfdTotal = xp.pfdTotal
  count : xp'.pfdCount = xp.pfdCount
  sidmap : xp'.sidmap = xp.sidmap
  freesid : xp'.freesid = xp.freesid
  sid : ∀ k, (xp'.pss k).sid = (xp.pss k).sid

namespace Table

variable {xp xp' xp'' : Table} {M i ip : ℕ}

theorem SameMap.refl (xp : Table) : SameMap xp xp :=
  ⟨rfl, rfl, rfl, rfl, fun _ => rfl⟩

theorem SameMap.trans (h : SameMap xp xp') (h' : SameMap xp' xp'') : SameMap xp xp'' :=
  ⟨h'.total.trans h.total, h'.count.trans h.count, h'.sidmap.trans h.sidmap,
    h'.freesid.trans h.freesid, fun k => (h'.sid k).trans (h.sid k)⟩

theorem Half.congr (h : Half xp M i ip) (same : SameMap xp xp') : Half xp' M i ip where
  le := h.le
  lt := same.count ▸ h.lt
  count := by
    rw [same.count, same.total]
    exact h.count
  mapped k hk hlt := by
    rw [same.sidmap, same.sid]
    exact h.mapped k hk (same.count ▸ hlt)
  bound := same.total ▸ h.bound
  free := by
    obtain ⟨free, hfree, hperm⟩ := h.free
    refine ⟨free, by rwa [same.sidmap, same.freesid], ?_⟩
    rwa [same.count, sids_congr fun k _ _ => same.sid k, sids_congr fun k _ _ => same.sid k]

theorem sameMap_setPfd (xp : Table) (k : ℕ) (f : Pollfd → Pollfd) : SameMap xp (xp.setPfd k f) :=
  ⟨rfl, rfl, rfl, rfl, fun _ => rfl⟩

theorem sameMap_setPss (xp : Table) (k : ℕ) {f : Poss → Poss} (hf : ∀ p, (f p).sid = p.sid) :
    SameMap xp (xp.setPss k f) := by
  refine ⟨rfl, rfl, rfl, rfl, fun l => ?_⟩
  simp only [setPss, Function.update_apply]
  split_ifs with h
  · rw [hf, h]
  · rfl

theorem sameMap_closeAt (xp : Table) (k : ℕ) : SameMap xp (xp.closeAt k) :=
  (sameMap_setPfd xp k _).trans (sameMap_setPss _ k fun _ => rfl)

theorem sameMap_setrunning (xp : Table) (v : ℤ) : SameMap xp (xp.setrunning v) := by
  unfold setrunning
  split_ifs
  · exact ⟨rfl, rfl, rfl, rfl, fun _ => rfl⟩
  · exact SameMap.refl xp

end Table

/-- What an operation makes of the content of its entry. -/
def Op.change (c : Content) : Op → Content
  | .clear _ => { c with fd := 0, cfd := 0 }
  | .setUserdata _ data => { c with cfd := data }
  | .setEvents _ events => { c with events }

/-- What an operation makes of the content of the entry of token `t`. -/
def Op.on (t : ℕ) (c : Content) (o : Op) : Content :=
  if o.xptoken = t then o.change c else c

section Ops

variable {xp : Table} {M i ip : ℕ}

/-- What an operation can do : nothing, or one change to the entry its token leads to. -/
theorem apply_cases (o : Op) (xp : Table) : o.apply xp = xp ∨ ∃ k, xp.xptokInd o.xptoken = some k ∧
    (o.apply xp = xp.closeAt k ∨ (∃ cfd, o.apply xp = xp.setPss k ({ · with cfd })) ∨
      ∃ events, o.apply xp = xp.setPfd k ({ · with events })) := by
  cases hind : xp.xptokInd o.xptoken with
  | none =>
    left
    cases o with
    | clear xptoken => simp only [Op.apply, Table.clear, show xp.xptokInd xptoken = none from hind]
    | setUserdata xptoken data =>
      simp only [Op.apply, Table.setsocketUserdata, show xp.xptokInd xptoken = none from hind]
    | setEvents xptoken events =>
      simp only [Op.apply, Table.setsocketEvents, show xp.xptokInd xptoken = none from hind]
  | some k =>
    refine Or.inr ⟨k, rfl, ?_⟩
    cases o with
    | clear xptoken =>
      left
      simp only [Op.apply, Table.clear, show xp.xptokInd xptoken = some k from hind]
    | setUserdata xptoken data =>
      refine Or.inr (Or.inl ⟨data, ?_⟩)
      simp only [Op.apply, Table.setsocketUserdata, show xp.xptokInd xptoken = some k from hind]
    | setEvents xptoken events =>
      refine Or.inr (Or.inr ⟨events, ?_⟩)
      simp only [Op.apply, Table.setsocketEvents, show xp.xptokInd xptoken = some k from hind]

theorem sameMap_apply (o : Op) (xp : Table) : Table.SameMap xp (o.apply xp) := by
  obtain h | ⟨k, -, h | ⟨cfd, h⟩ | ⟨events, h⟩⟩ := apply_cases o xp <;> rw [h]
  · exact Table.SameMap.refl xp
  · exact Table.sameMap_closeAt xp k
  · exact Table.sameMap_setPss xp k fun _ => rfl
  · exact Table.sameMap_setPfd xp k _

theorem running_apply (o : Op) (xp : Table) : (o.apply xp).running = xp.running := by
  obtain h | ⟨k, -, h | ⟨cfd, h⟩ | ⟨events, h⟩⟩ := apply_cases o xp <;> rw [h] <;> rfl

theorem contentAt_closeAt (xp : Table) (l k : ℕ) :
    (xp.closeAt l).contentAt k =
      if k = l then { xp.contentAt k with fd := 0, cfd := 0 } else xp.contentAt k := by
  unfold Table.closeAt Table.setPss Table.setPfd Table.contentAt
  by_cases h : k = l
  · subst h
    simp
  · simp [h]

theorem contentAt_setPss_cfd (xp : Table) (l k data : ℕ) :
    (xp.setPss l ({ · with cfd := data })).contentAt k =
      if k = l then { xp.contentAt k with cfd := data } else xp.contentAt k := by
  unfold Table.setPss Table.contentAt
  by_cases h : k = l
  · subst h
    simp
  · simp [h]

theorem contentAt_setPfd_events (xp : Table) (l k : ℕ) (events : BitVec 16) :
    (xp.setPfd l ({ · with events })).contentAt k =
      if k = l then { xp.contentAt k with events } else xp.contentAt k := by
  unfold Table.setPfd Table.contentAt
  by_cases h : k = l
  · subst h
    simp
  · simp [h]

/-- An operation on a live token changes the entry of this token only. -/
theorem contentAt_apply (h : Table.Half xp M i ip) {o : Op} {l k : ℕ} (hl : l < ip ∨ i ≤ l)
    (hllt : l < xp.pfdCount) (ho : o.xptoken = (xp.pss l).sid) (hk : k < ip ∨ i ≤ k)
    (hklt : k < xp.pfdCount) :
    (o.apply xp).contentAt k = Op.on (xp.pss k).sid (xp.contentAt k) o := by
  have hind : xp.xptokInd o.xptoken = some l := ho ▸ h.xptokInd_eq hl hllt
  have hiff : o.xptoken = (xp.pss k).sid ↔ k = l := by
    rw [ho]
    constructor
    · intro heq
      exact h.eq_of_sid_eq hk hklt hl hllt (by omega)
    · rintro rfl
      rfl
  unfold Op.on
  simp only [hiff]
  cases o with
  | clear xptoken =>
    have hind : xp.xptokInd xptoken = some l := hind
    rw [Op.apply, Table.clear, hind]
    exact contentAt_closeAt xp l k
  | setUserdata xptoken data =>
    have hind : xp.xptokInd xptoken = some l := hind
    rw [Op.apply, Table.setsocketUserdata, hind]
    exact contentAt_setPss_cfd xp l k data
  | setEvents xptoken events =>
    have hind : xp.xptokInd xptoken = some l := hind
    rw [Op.apply, Table.setsocketEvents, hind]
    exact contentAt_setPfd_events xp l k events

end Ops

/-! ## Moving an entry -/

section Compact

variable {xp : Table} {M i ip : ℕ}

theorem pss_compact (xp : Table) (i ip k : ℕ) :
    (xp.compact i ip).pss k = if k = ip then xp.pss i else xp.pss k :=
  Function.update_apply ..

theorem contentAt_compact (xp : Table) (i ip k : ℕ) :
    (xp.compact i ip).contentAt k = if k = ip then xp.contentAt i else xp.contentAt k := by
  unfold Table.contentAt Table.compact
  simp only [Function.update_apply]
  split_ifs <;> rfl

theorem sids_compact_front (xp : Table) (i ip : ℕ) : (xp.compact i ip).sids 0 ip = xp.sids 0 ip :=
  sids_congr fun k _ hk => by rw [pss_compact, if_neg (by omega)]

theorem sids_compact_back (n : ℕ) (h : ip ≤ i) :
    (xp.compact i ip).sids (i + 1) n = xp.sids (i + 1) n :=
  sids_congr fun k hk _ => by rw [pss_compact, if_neg (by omega)]

/-- An entry moved down, or dropped, leaves the table in three parts. -/
theorem Table.Half.compact (h : Half xp M i ip) (hi : i < xp.pfdCount) :
    Half (xp.compact i ip) M (i + 1) (if sockValid (xp.pfd i).fd then ip + 1 else ip) := by
  obtain ⟨free, hfree, hperm⟩ := h.free
  have hle := h.le
  rw [show xp.pfdCount - i = xp.pfdCount - (i + 1) + 1 by omega, sids_cons] at hperm
  have hnodup := hperm.nodup_iff.mpr List.nodup_range
  have hnot : (xp.pss i).sid ∉ free := by
    intro hmem
    refine (List.nodup_append.mp hnodup).2.2 _ ?_ _ hmem rfl
    exact List.mem_append_right _ List.mem_cons_self
  -- the other live tokens are not the one that is written
  have hother : ∀ k, k < ip ∨ i + 1 ≤ k → k < xp.pfdCount →
      (xp.compact i ip).sidmap (xp.pss k).sid = k := by
    intro k hk hklt
    have hne : (xp.pss k).sid ≠ (xp.pss i).sid := fun heq => by
      have := h.eq_of_sid_eq (by omega) hklt (by omega) hi heq
      omega
    unfold Table.compact
    simp only [Function.update_of_ne hne]
    exact h.mapped k (by omega) hklt
  refine ⟨?_, hi, h.count, ?_, h.bound, ?_⟩
  · split_ifs <;> omega
  · intro k hk hklt
    rw [pss_compact]
    by_cases hkip : k = ip
    · rw [if_pos hkip]
      split_ifs at hk with hvalid
      · unfold Table.compact
        simp only [hvalid, if_true, Function.update_self]
        omega
      · omega
    · rw [if_neg hkip]
      refine hother k ?_ hklt
      split_ifs at hk <;> omega
  · by_cases hvalid : sockValid (xp.pfd i).fd = true
    · refine ⟨free, ?_, ?_⟩
      · unfold Table.compact
        simp only [hvalid, if_true]
        exact hfree.update hnot _
      · rw [if_pos hvalid, sids_concat, sids_compact_front, pss_compact, if_pos rfl]
        show (_ ++ (xp.compact i ip).sids (i + 1) (xp.pfdCount - (i + 1)) ++ free).Perm _
        rw [sids_compact_back _ hle, List.append_assoc (xp.sids 0 ip)]
        exact hperm
    · refine ⟨(xp.pss i).sid :: free, ?_, ?_⟩
      · unfold Table.compact
        simp only [hvalid, Bool.false_eq_true, if_false]
        exact hfree.push hnot
      · rw [if_neg hvalid, sids_compact_front]
        show (_ ++ (xp.compact i ip).sids (i + 1) (xp.pfdCount - (i + 1)) ++ _).Perm _
        rw [sids_compact_back _ hle]
        refine List.perm_middle.trans (List.Perm.trans ?_ hperm)
        rw [List.append_assoc, List.append_assoc, List.cons_append]
        exact List.perm_middle.symm

end Compact

/-! ## A pass -/

/-- The parts of the table in a pass : what is visited next, and how many entries are kept. -/
def Pc.cursor : Pc → Option (ℕ × ℕ)
  | .entry i ip => some (i, ip)
  | .calling i ip _ _ _ => some (i, ip)
  | .compact i ip => some (i, ip)
  | .check i ip => some (i + 1, ip)
  | .passed i ip => some (i, ip)
  | _ => none

/-- Entry `k` is live : in a pass, it is kept or still to be visited. -/
def State.LiveAt (s : State) (k : ℕ) : Prop :=
  k < s.xp.pfdCount ∧ ∀ c, s.pc.cursor = some c → k < c.2 ∨ c.1 ≤ k

/-- A step of a pass that is not stopped; a callback works on live tokens. -/
def PassOk (s : State) : Act → Prop
  | .op o => s.pc.cursor.isSome = true ∧ ∃ k, s.LiveAt k ∧ o.xptoken = (s.xp.pss k).sid
  | .stop => False
  | _ => s.pc.cursor.isSome = true

/-- What is known in a pass that began in `s₀`; the content of entry `dirty` is only known if its
socket is valid. -/
structure Mid (s₀ s : State) (M i ip : ℕ) (dirty : Option ℕ) : Prop where
  running : 0 < s.xp.running
  half : s.xp.Half M i ip
  rest : ∀ k, i ≤ k → (s.xp.pss k).sid = (s₀.xp.pss k).sid
  kept : s.xp.sids 0 ip = (s.visited.filter Prod.snd).map Prod.fst
  visited : s.visited.map Prod.fst = s₀.xp.sids 0 i
  count : s.xp.pfdCount = s₀.xp.pfdCount
  content : ∀ k, k < ip ∨ i ≤ k → k < s.xp.pfdCount →
    (dirty = some k → sockValid (s.xp.pfd k).fd = true) →
    some (s.xp.contentAt k) = (s₀.xp.content (s.xp.pss k).sid).map fun c =>
      s.ops.foldl (Op.on (s.xp.pss k).sid) c

/-- What is known behind the pass. -/
structure After (s₀ s : State) (M : ℕ) : Prop where
  half : s.xp.Half M 0 0
  max : s.xp.pfdMax = s.xp.pfdCount
  kept : s.xp.tokens = (s.visited.filter Prod.snd).map Prod.fst
  visited : s.visited.map Prod.fst = s₀.xp.tokens
  content : ∀ k < s.xp.pfdCount,
    some (s.xp.contentAt k) = (s₀.xp.content (s.xp.pss k).sid).map fun c =>
      s.ops.foldl (Op.on (s.xp.pss k).sid) c

/-- The invariant of a pass. -/
def PassInv (s₀ : State) (M : ℕ) (s : State) : Prop :=
  match s.pc with
  | .entry i ip => Mid s₀ s M i ip none
  | .calling i ip _ _ _ => i < s.xp.pfdCount ∧ Mid s₀ s M i ip none
  | .compact i ip => i < s.xp.pfdCount ∧ Mid s₀ s M i ip (some i)
  | .check i ip => Mid s₀ s M (i + 1) ip none
  | .passed i ip => i = s.xp.pfdCount ∧ Mid s₀ s M i ip none
  | .turn => After s₀ s M
  | _ => False

section Steps

variable {s₀ s s' : State} {M i ip : ℕ} {dirty : Option ℕ}

/-- What the thread does to the table between two moves. -/
theorem Mid.same (h : Mid s₀ s M i ip none) (same : Table.SameMap s.xp s'.xp)
    (hrun : 0 < s'.xp.running) (hvisited : s'.visited = s.visited) (hops : s'.ops = s.ops)
    (hcontent : ∀ k, (dirty = some k → sockValid (s'.xp.pfd k).fd = true) →
      s'.xp.contentAt k = s.xp.contentAt k) : Mid s₀ s' M i ip dirty where
  running := hrun
  half := h.half.congr same
  rest k hk := (same.sid k).trans (h.rest k hk)
  kept := by
    rw [sids_congr fun k _ _ => same.sid k, hvisited]
    exact h.kept
  visited := hvisited ▸ h.visited
  count := same.count.trans h.count
  content k hk hlt hdirty := by
    rw [hcontent k hdirty, same.sid, hops]
    exact h.content k hk (same.count ▸ hlt) (fun h => by cases h)

theorem setrunning_pos {xp : Table} {v : ℤ} (h : 0 < xp.running) (hv : 0 < v) :
    0 < (xp.setrunning v).running := by
  unfold Table.setrunning
  rw [if_pos h.le]
  exact hv

theorem contentAt_setrunning (xp : Table) (v : ℤ) (k : ℕ) :
    (xp.setrunning v).contentAt k = xp.contentAt k := by
  unfold Table.setrunning
  split_ifs <;> rfl

theorem Mid.setrunning (h : Mid s₀ s M i ip none) {v : ℤ} (hv : 0 < v)
    (hxp : s'.xp = s.xp.setrunning v) (hvisited : s'.visited = s.visited)
    (hops : s'.ops = s.ops) : Mid s₀ s' M i ip dirty :=
  h.same (hxp ▸ Table.sameMap_setrunning _ _) (hxp ▸ setrunning_pos h.running hv) hvisited hops
    fun k _ => by rw [hxp, contentAt_setrunning]

theorem Mid.visit (h : Mid s₀ s M i ip none) (hi : i < s.xp.pfdCount)
    (hvisit : s.visit i ip = some s') : PassInv s₀ M s' := by
  unfold State.visit at hvisit
  dsimp only at hvisit
  have hcall : ∀ message, PassInv s₀ M (s.callEntry i ip (s.xp.pfd i).fd (s.xp.pfd i).revents
      message) := fun message =>
    ⟨(Table.sameMap_setrunning s.xp 3).count ▸ hi, h.setrunning (v := 3) (by decide) rfl rfl rfl⟩
  have hcompact : PassInv s₀ M { s with pc := .compact i ip } :=
    ⟨hi, h.same (Table.SameMap.refl _) h.running rfl rfl fun _ _ => rfl⟩
  split_ifs at hvisit
  all_goals
    obtain rfl := Option.some.inj hvisit
    first
    | exact hcall _
    | exact hcompact

theorem Mid.called (h : Mid s₀ s M i ip none) (hi : i < s.xp.pfdCount) (sock : ℤ)
    (revent : BitVec 16) (message : Msg) : PassInv s₀ M (s.called i ip sock revent message) := by
  have hback : PassInv s₀ M (s.back (.compact i ip)) :=
    ⟨(Table.sameMap_setrunning s.xp 1).count ▸ hi, h.setrunning (v := 1) (by decide) rfl rfl rfl⟩
  cases message with
  | error | delete =>
    unfold State.called
    dsimp only
    by_cases hlisten : i < s.xp.listenCount
    · rw [if_pos hlisten]
      have hclosed : Table.SameMap s.xp (s.closeListener i sock).xp := by
        have := Table.sameMap_closeAt s.xp i
        exact ⟨this.1, this.2, this.3, this.4, this.5⟩
      have hsame := hclosed.trans (Table.sameMap_setrunning _ 1)
      have hcontent : ∀ k, (((s.closeListener i sock).back (.compact i ip)).xp.contentAt k) =
          (s.xp.closeAt i).contentAt k :=
        fun k => contentAt_setrunning (s.closeListener i sock).xp 1 k
      refine ⟨hsame.count ▸ hi, h.same hsame (setrunning_pos h.running (by decide)) rfl rfl ?_⟩
      intro k hk
      rw [hcontent, contentAt_closeAt, if_neg]
      rintro rfl
      have hvalid : sockValid (((s.closeListener k sock).back
        (.compact k ip)).xp.contentAt k).fd = true := hk rfl
      rw [hcontent, contentAt_closeAt, if_pos rfl] at hvalid
      exact absurd hvalid Bool.false_ne_true
    · rw [if_neg hlisten]
      exact hback
  | read =>
    unfold State.called
    dsimp only
    split_ifs
    · have hone := Table.sameMap_setrunning s.xp 1
      have hthree := Table.sameMap_setrunning (s.xp.setrunning 1) 3
      have hback : Mid s₀ (s.back (.compact i ip)) M i ip none :=
        h.setrunning (v := 1) (by decide) rfl rfl rfl
      exact ⟨(hone.trans hthree).count ▸ hi, hback.setrunning (v := 3) (by decide) rfl rfl rfl⟩
    · exact hback
  | new | write => exact hback

/-- The table behind a move. -/
theorem Mid.moved (h : Mid s₀ s M i ip (some i)) (hi : i < s.xp.pfdCount) :
    Mid s₀ { s with
      visited := s.visited ++ [((s.xp.pss i).sid, sockValid (s.xp.pfd i).fd)]
      xp := s.xp.compact i ip
      pc := .check i (if sockValid (s.xp.pfd i).fd then ip + 1 else ip) } M (i + 1)
      (if sockValid (s.xp.pfd i).fd then ip + 1 else ip) none := by
  have hle := h.half.le
  refine ⟨h.running, h.half.compact hi, fun k hk => ?_, ?_, ?_, h.count, ?_⟩
  · rw [← h.rest k (by omega)]
    exact congrArg Poss.sid ((pss_compact ..).trans (if_neg (by omega)))
  · rw [List.filter_append, List.map_append, ← h.kept]
    by_cases hvalid : sockValid (s.xp.pfd i).fd = true
    · simp only [hvalid, if_true]
      rw [sids_concat, sids_compact_front, pss_compact, if_pos rfl]
      rfl
    · rw [if_neg hvalid, sids_compact_front]
      simp [hvalid]
  · rw [List.map_append, h.visited, sids_concat, ← h.rest i (Nat.le_refl i)]
    rfl
  · intro k hk hlt _
    show some ((s.xp.compact i ip).contentAt k) = _
    have hpss : (s.xp.compact i ip).pss k = if k = ip then s.xp.pss i else s.xp.pss k :=
      pss_compact ..
    rw [contentAt_compact]
    dsimp only
    rw [hpss]
    by_cases hkip : k = ip
    · rw [if_pos hkip, if_pos hkip]
      refine h.content i (Or.inr (Nat.le_refl i)) hi fun _ => ?_
      by_contra hvalid
      rw [if_neg hvalid] at hk
      omega
    · rw [if_neg hkip, if_neg hkip]
      refine h.content k ?_ hlt fun heq => ?_
      · split_ifs at hk <;> omega
      · obtain rfl := Option.some.inj heq
        split_ifs at hk <;> omega

theorem Mid.compact (h : Mid s₀ s M i ip (some i)) (hi : i < s.xp.pfdCount)
    (hcompact : s.compact i ip = some s') : PassInv s₀ M s' := by
  unfold State.compact at hcompact
  dsimp only at hcompact
  by_cases hsid : (s.xp.pss i).sid < s.xp.pfdTotal
  · rw [if_pos hsid] at hcompact
    obtain rfl := Option.some.inj hcompact
    exact h.moved hi
  · rw [if_neg hsid] at hcompact
    cases hcompact

theorem Mid.op (h : Mid s₀ s M i ip none) {o : Op} {l : ℕ} (hl : l < ip ∨ i ≤ l)
    (hllt : l < s.xp.pfdCount) (ho : o.xptoken = (s.xp.pss l).sid) :
    Mid s₀ { s with xp := o.apply s.xp, ops := s.ops ++ [o] } M i ip none := by
  have same := sameMap_apply o s.xp
  have hrun := running_apply o s.xp
  refine ⟨hrun ▸ h.running, h.half.congr same, fun k hk => (same.sid k).trans (h.rest k hk), ?_,
    h.visited, same.count.trans h.count, ?_⟩
  · rw [← h.kept]
    exact sids_congr fun k _ _ => same.sid k
  · intro k hk hlt _
    have hlt : k < s.xp.pfdCount := same.count ▸ hlt
    have hcontent := h.content k hk hlt (fun h => by cases h)
    dsimp only
    rw [same.sid, contentAt_apply h.half hl hllt ho hk hlt]
    rw [eq_comm, Option.map_eq_some_iff] at hcontent ⊢
    obtain ⟨c, hc, hfold⟩ := hcontent
    exact ⟨c, hc, by rw [List.foldl_append, hfold]; rfl⟩

/-- The table behind a pass. -/
theorem Table.Half.passed {xp : Table} (h : xp.Half M xp.pfdCount ip) :
    Half { xp with pfdMax := ip, pfdCount := ip } M 0 0 := by
  obtain ⟨free, hfree, hperm⟩ := h.free
  have hle := h.le
  have hnil : xp.sids xp.pfdCount 0 = [] := rfl
  rw [Nat.sub_self, hnil, List.append_nil] at hperm
  exact ⟨Nat.le_refl 0, Nat.zero_le _, hle.trans h.count,
    fun k _ hk => h.mapped k (Or.inl hk) (Nat.lt_of_lt_of_le hk hle), h.bound, free, hfree, hperm⟩

theorem Mid.passed (h : Mid s₀ s M i ip none) (hi : i = s.xp.pfdCount) :
    After s₀ { s with
      xp := if 0 < s.xp.running then { s.xp with pfdMax := ip, pfdCount := ip } else s.xp
      pc := .turn } M := by
  subst hi
  rw [if_pos h.running]
  have hle := h.half.le
  refine ⟨h.half.passed, rfl, h.kept, ?_, fun k hk => ?_⟩
  · rw [h.visited, h.count]
    rfl
  · exact h.content k (Or.inl hk) (Nat.lt_of_lt_of_le hk hle) (fun h => by cases h)

theorem PassInv.op {o : Op} (h : PassInv s₀ M s) (hok : PassOk s (.op o))
    (hnext : next s (.op o) = some s') : PassInv s₀ M s' := by
  obtain ⟨-, l, ⟨hllt, hlive⟩, ho⟩ := hok
  obtain ⟨hin, rfl⟩ := of_next_op hnext
  obtain ⟨xp, pc, regs, log, ops, visited⟩ := s
  cases pc with
  | calling i ip sock revent message =>
    exact ⟨(sameMap_apply o xp).count ▸ h.1, h.2.op (hlive _ rfl) hllt ho⟩
  | _ =>
    first
    | exact h.elim
    | exact hin.elim

theorem PassInv.step (h : PassInv s₀ M s) (hok : PassOk s .step)
    (hnext : s.step = some s') : PassInv s₀ M s' := by
  obtain ⟨xp, pc, regs, log, ops, visited⟩ := s
  cases pc with
  | entry i ip =>
    have hmid : Mid s₀ _ M i ip none := h
    have hnext : (if i < xp.pfdCount then _ else _) = some s' := hnext
    split_ifs at hnext with hi
    · exact hmid.visit hi hnext
    · obtain rfl := Option.some.inj hnext
      have hle : i ≤ xp.pfdCount := hmid.half.lt
      exact ⟨Nat.le_antisymm hle (Nat.le_of_not_lt hi),
        hmid.same (Table.SameMap.refl _) hmid.running rfl rfl fun _ _ => rfl⟩
  | compact i ip => exact h.2.compact h.1 hnext
  | check i ip =>
    have hmid : Mid s₀ _ M (i + 1) ip none := h
    have hrun : ¬ xp.running < 0 := by
      have : 0 < xp.running := hmid.running
      omega
    obtain rfl := Option.some.inj hnext
    rw [if_neg hrun]
    exact hmid.same (Table.SameMap.refl _) hmid.running rfl rfl fun _ _ => rfl
  | passed i ip =>
    obtain rfl := Option.some.inj hnext
    exact h.2.passed h.1
  | turn => cases hok
  | calling i ip sock revent message => cases hnext
  | _ => exact h.elim

theorem PassInv.ret (h : PassInv s₀ M s) (hnext : s.ret = some s') : PassInv s₀ M s' := by
  obtain ⟨xp, pc, regs, log, ops, visited⟩ := s
  cases pc with
  | calling i ip sock revent message =>
    obtain rfl := Option.some.inj hnext
    exact h.2.called h.1 sock revent message
  | _ =>
    first
    | exact h.elim
    | cases hnext

/-- A step of a pass keeps its invariant. -/
theorem PassInv.next {a : Act} (h : PassInv s₀ M s) (hok : PassOk s a)
    (hnext : next s a = some s') : PassInv s₀ M s' := by
  cases a with
  | op o => exact h.op hok hnext
  | step => exact h.step hok hnext
  | ret => exact h.ret hnext
  | stop => exact hok.elim
  | add sock userdata listener =>
    have hok : s.pc.cursor.isSome = true := hok
    rw [(of_next_add hnext).1] at hok
    cases hok
  | poll rret revents =>
    have hok : s.pc.cursor.isSome = true := hok
    rw [(of_next_poll hnext).1] at hok
    cases hok
  | again processing =>
    have hok : s.pc.cursor.isSome = true := hok
    rw [(of_next_again hnext).1] at hok
    cases hok

/-- A pass that is not over can go on : no `assert` of it fails. -/
theorem PassInv.progress (h : PassInv s₀ M s) (hpc : s.pc ≠ .turn) :
    ∃ a s', PassOk s a ∧ Poll.next s a = some s' := by
  obtain ⟨xp, pc, regs, log, ops, visited⟩ := s
  cases pc with
  | entry i ip =>
    have hmid : Mid s₀ _ M i ip none := h
    by_cases hi : i < xp.pfdCount
    · have hmap := hmid.half.mapped i (Or.inr (Nat.le_refl i)) hi
      obtain ⟨s', hvisit⟩ : ∃ s',
          State.visit ⟨xp, .entry i ip, regs, log, ops, visited⟩ i ip = some s' := by
        unfold State.visit
        dsimp only
        rw [if_pos (Or.inr hmap)]
        split_ifs <;> exact ⟨_, rfl⟩
      exact ⟨.step, s', rfl, (if_pos hi).trans hvisit⟩
    · exact ⟨.step, _, rfl, if_neg hi⟩
  | compact i ip =>
    have hsid := (h.2.half.sid_lt (Or.inr (Nat.le_refl i)) h.1).trans_le h.2.half.bound
    exact ⟨.step, _, rfl, if_pos hsid⟩
  | calling i ip sock revent message => exact ⟨.ret, _, rfl, rfl⟩
  | check i ip | passed i ip => exact ⟨.step, _, rfl, rfl⟩
  | turn => exact absurd rfl hpc
  | _ => exact h.elim

end Steps

theorem passInv_start {s₀ : State} {M : ℕ} (hpc : s₀.pc = .entry 0 0) (h : s₀.xp.Half M 0 0)
    (hrun : 0 < s₀.xp.running) (hops : s₀.ops = []) (hvisited : s₀.visited = []) :
    PassInv s₀ M s₀ := by
  have hmid : Mid s₀ s₀ M 0 0 none := by
    refine ⟨hrun, h, fun _ _ => rfl, ?_, ?_, rfl, fun k hk hlt _ => ?_⟩
    · rw [hvisited]
      rfl
    · rw [hvisited]
      rfl
    · rw [Table.content, h.xptokInd_eq hk hlt, hops]
      rfl
  unfold PassInv
  rw [hpc]
  exact hmid

theorem Table.WellFormed.half {xp : Table} (h : xp.WellFormed) : ∃ M, xp.Half M 0 0 := by
  obtain ⟨free, M, hfree, hperm, hM⟩ := h.free
  refine ⟨M, Nat.le_refl 0, Nat.zero_le _, h.le, fun k _ hk => h.mapped k hk, hM, free, hfree, ?_⟩
  exact hperm

theorem Table.Half.wellFormed {xp : Table} {M : ℕ} (h : xp.Half M 0 0)
    (hmax : xp.pfdMax = xp.pfdCount) : xp.WellFormed := by
  obtain ⟨free, hfree, hperm⟩ := h.free
  exact ⟨hmax, h.count, fun k hk => h.mapped k (Or.inr (Nat.zero_le k)) hk,
    free, M, hfree, hperm, h.bound⟩

theorem mem_tokens {xp : Table} {t : ℕ} :
    t ∈ xp.tokens ↔ ∃ k < xp.pfdCount, (xp.pss k).sid = t := by
  rw [Table.tokens, mem_sids]
  constructor
  · rintro ⟨k, -, hk, rfl⟩
    exact ⟨k, by omega, rfl⟩
  · rintro ⟨k, hk, rfl⟩
    exact ⟨k, Nat.zero_le _, by omega, rfl⟩

/-- The live tokens lead to their entries at every step of a pass. -/
theorem PassInv.resolves {s₀ s : State} {M : ℕ} (h : PassInv s₀ M s) {k : ℕ} (hk : s.LiveAt k) :
    s.xp.xptokInd (s.xp.pss k).sid = some k := by
  obtain ⟨xp, pc, regs, log, ops, visited⟩ := s
  obtain ⟨hlt, hlive⟩ := hk
  cases pc with
  | entry i ip => exact (h : Mid s₀ _ M i ip none).half.xptokInd_eq (hlive _ rfl) hlt
  | calling i ip sock revent message => exact h.2.half.xptokInd_eq (hlive _ rfl) hlt
  | compact i ip => exact h.2.half.xptokInd_eq (hlive _ rfl) hlt
  | check i ip => exact (h : Mid s₀ _ M (i + 1) ip none).half.xptokInd_eq (hlive _ rfl) hlt
  | passed i ip => exact h.2.half.xptokInd_eq (hlive _ rfl) hlt
  | turn => exact (h : After s₀ _ M).half.xptokInd_eq (Or.inr (Nat.zero_le k)) hlt
  | _ => exact h.elim

/-- A thread with one open entry, at the head of a pass. -/
def oneEntry : State :=
  { init 4 with
    xp := { (init 4).xp with
      pfd := fun _ => ⟨7, POLLIN, 0, 0⟩
      pfdMax := 1
      pfdCount := 1 }
    pc := .entry 0 0 }

theorem wellFormed_oneEntry : oneEntry.xp.WellFormed where
  max := rfl
  le := by decide
  mapped k hk := by
    obtain rfl : k = 0 := Nat.lt_one_iff.mp hk
    rfl
  free := ⟨[], 1, rfl, List.Perm.refl _, by decide⟩

end Poll

end Webxs
