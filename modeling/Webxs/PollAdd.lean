import Webxs.PollPass

/-!
# Adding a socket

`xs_pollfd_internaladd` gives a new socket the first free token, or the index of its entry if no
token is free. The entry of a connection is behind all others. The entry of a listener is the first
one that is not a listener's, and what was there should move to the end, but the arguments of the
copy are in the wrong order : the end is copied over the entry that was to be saved. So a listener
that is added to a table with connections overwrites the first of them (`adds_iff`).

`Table.Linked` is what adding a socket relies on. It is weaker than `Table.WellFormed`, which also
says that the tokens in use and the free ones are the first numbers. Without this the index of the
new entry may already be a token.
-/

open FreeList

namespace Webxs

namespace Poll

variable {s : State} {xp xp' : Table} {sock : ℤ} {userdata : ℕ} {listener : Bool} {ops : List Op}

/-! ## The table -/

/-- The tokens of the entries lead to them, the free ones are others, and the listeners are the
first entries. -/
structure Table.Linked (xp : Table) : Prop where
  max : xp.pfdMax = xp.pfdCount
  le : xp.pfdCount ≤ xp.pfdTotal
  listeners : xp.listenCount ≤ xp.pfdCount
  mapped : ∀ k < xp.pfdCount, (xp.pss k).sid < xp.pfdTotal ∧ xp.sidmap (xp.pss k).sid = k
  free : ∃ free, Threaded xp.sidmap xp.freesid free ∧
    ∀ t ∈ free, t < xp.pfdTotal ∧ t ∉ xp.tokens

/-- The token of a new socket. -/
def Table.newToken (xp : Table) (listener : Bool) : ℕ :=
  if xp.freesid < 0 then if listener then xp.listenCount else xp.pfdMax else xp.freesid.toNat

/-- `xs_pollfd_internaladd`, if the callback for the new socket does `ops`. -/
def State.add (s : State) (sock : ℤ) (userdata : ℕ) (listener : Bool) (ops : List Op) :
    Option State :=
  (s.internaladd sock userdata listener).bind fun s =>
    { s with xp := ops.foldl Op.apply s.xp, ops := s.ops ++ ops }.ret

/-- In `xp'` there is a new socket, the one of registration `reg`, with a token of its own, and
everything that was in `xp`. -/
structure Table.Adds (xp xp' : Table) (listener : Bool) (reg token : ℕ) : Prop where
  fresh : token ∉ xp.tokens
  linked : xp'.Linked
  entry : ∃ k, xp'.xptokInd token = some k ∧ (xp'.pss k).sid = token ∧ (xp'.pss k).reg = reg ∧
    (xp'.pfd k).reg = reg ∧ (k < xp'.listenCount ↔ listener = true)
  kept : ∀ k < xp.pfdCount, ∃ k', xp'.xptokInd (xp.pss k).sid = some k' ∧
    (xp'.pss k').sid = (xp.pss k).sid ∧ xp'.contentAt k' = xp.contentAt k ∧
    (k' < xp'.listenCount ↔ k < xp.listenCount)

namespace Table

theorem mem_tokens {t : ℕ} : t ∈ xp.tokens ↔ ∃ k < xp.pfdCount, (xp.pss k).sid = t := by
  rw [tokens, mem_sids]
  constructor
  · rintro ⟨k, -, hk, rfl⟩
    exact ⟨k, by omega, rfl⟩
  · rintro ⟨k, hk, rfl⟩
    exact ⟨k, Nat.zero_le _, by omega, rfl⟩

theorem Linked.xptokInd_eq (h : xp.Linked) {k : ℕ} (hk : k < xp.pfdCount) :
    xp.xptokInd (xp.pss k).sid = some k := by
  obtain ⟨hlt, hmap⟩ := h.mapped k hk
  rw [xptokInd, if_neg (by omega)]
  dsimp only
  rw [Int.toNat_natCast, hmap, if_neg (by omega), Int.toNat_natCast]

theorem Linked.congr (h : xp.Linked) (same : SameMap xp xp') (hmax : xp'.pfdMax = xp.pfdMax)
    (hlisten : xp'.listenCount = xp.listenCount) : xp'.Linked where
  max := by rw [hmax, same.count, h.max]
  le := by
    rw [same.count, same.total]
    exact h.le
  listeners := by
    rw [hlisten, same.count]
    exact h.listeners
  mapped k hk := by
    rw [same.sid, same.total, same.sidmap]
    exact h.mapped k (same.count ▸ hk)
  free := by
    obtain ⟨free, hfree, hmem⟩ := h.free
    refine ⟨free, by rwa [same.sidmap, same.freesid], ?_⟩
    have htokens : xp'.tokens = xp.tokens := by
      rw [tokens, tokens, same.count]
      exact sids_congr fun k _ _ => same.sid k
    rwa [same.total, htokens]

/-- A table of a run has no token that is the index of the next entry, if no token is free. -/
theorem WellFormed.notMem_tokens (h : xp.WellFormed) (hneg : xp.freesid < 0) :
    xp.pfdCount ∉ xp.tokens := by
  obtain ⟨free, M, hfree, hperm, -⟩ := h.free
  rw [hfree.eq_nil hneg, List.append_nil] at hperm
  have hlen := hperm.length_eq
  rw [List.length_range, tokens, sids, List.length_map, List.length_range'] at hlen
  rw [hperm.mem_iff, List.mem_range]
  omega

theorem WellFormed.linked (h : xp.WellFormed) (hlisten : xp.listenCount ≤ xp.pfdCount) :
    xp.Linked where
  max := h.max
  le := h.le
  listeners := hlisten
  mapped k hk := by
    obtain ⟨free, M, -, hperm, hM⟩ := h.free
    have hmem : (xp.pss k).sid ∈ xp.tokens ++ free :=
      List.mem_append_left _ (mem_tokens.mpr ⟨k, hk, rfl⟩)
    rw [hperm.mem_iff, List.mem_range] at hmem
    exact ⟨by omega, h.mapped k hk⟩
  free := by
    obtain ⟨free, M, hfree, hperm, hM⟩ := h.free
    have hnodup := List.nodup_append.mp (hperm.nodup_iff.mpr List.nodup_range)
    refine ⟨free, hfree, fun t ht => ⟨?_, fun hmem => hnodup.2.2 t hmem t ht rfl⟩⟩
    have hmem : t ∈ xp.tokens ++ free := List.mem_append_right _ ht
    rw [hperm.mem_iff, List.mem_range] at hmem
    omega

/-! ## The new entry -/

/-- In `xp'` there is a new entry `i`, and the other entries of `xp` are as they were. -/
structure Inserted (xp xp' : Table) (i fi : ℕ) (listener : Bool) (reg : ℕ) : Prop where
  total : xp'.pfdTotal = xp.pfdTotal
  max : xp'.pfdMax = xp.pfdMax + 1
  count : xp'.pfdCount = xp.pfdCount + 1
  listeners : xp'.listenCount = if listener then xp.listenCount + 1 else xp.listenCount
  freesid : xp'.freesid = if xp.freesid < 0 then xp.freesid else xp.sidmap fi
  sidmap : xp'.sidmap = Function.update xp.sidmap fi i
  sid : ∀ k, (xp'.pss k).sid = if k = i then fi else (xp.pss k).sid
  reg : (xp'.pss i).reg = reg ∧ (xp'.pfd i).reg = reg
  content : ∀ k ≠ i, xp'.contentAt k = xp.contentAt k

namespace Inserted

variable {i fi reg : ℕ}

theorem setrunning (h : Inserted xp xp' i fi listener reg) (v : ℤ) :
    Inserted xp (xp'.setrunning v) i fi listener reg := by
  unfold Table.setrunning
  split_ifs
  · exact { h with }
  · exact h

theorem setPfd (h : Inserted xp xp' i fi listener reg) {f : Pollfd → Pollfd}
    (hf : ∀ p, (f p).reg = p.reg) : Inserted xp (xp'.setPfd i f) i fi listener reg :=
  { h with
    reg := by
      refine ⟨h.reg.1, ?_⟩
      simp only [Table.setPfd, Function.update_self, hf, h.reg.2]
    content := fun k hk => by
      rw [← h.content k hk]
      simp only [Table.setPfd, contentAt, Function.update_of_ne hk] }

theorem setPss (h : Inserted xp xp' i fi listener reg) {f : Poss → Poss}
    (hf : ∀ p, (f p).reg = p.reg ∧ (f p).sid = p.sid) :
    Inserted xp (xp'.setPss i f) i fi listener reg :=
  { h with
    sid := fun k => by
      rw [← h.sid k]
      exact (sameMap_setPss xp' i fun p => (hf p).2).sid k
    reg := by
      refine ⟨?_, h.reg.2⟩
      simp only [Table.setPss, Function.update_self, (hf _).1, h.reg.1]
    content := fun k hk => by
      rw [← h.content k hk]
      simp only [Table.setPss, contentAt, Function.update_of_ne hk] }

theorem xptokInd_eq (h : Inserted xp xp' i fi listener reg) (hfi : fi < xp.pfdTotal)
    (hi : i ≤ xp.pfdCount) : xp'.xptokInd fi = some i := by
  have htotal := h.total
  have hcount := h.count
  rw [xptokInd, if_neg (by omega)]
  dsimp only
  rw [Int.toNat_natCast, h.sidmap, Function.update_self, if_neg (by omega), Int.toNat_natCast]

/-- The callback works on the new socket. -/
theorem apply (h : Inserted xp xp' i fi listener reg) (hfi : fi < xp.pfdTotal)
    (hi : i ≤ xp.pfdCount) {o : Op} (ho : o.xptoken = fi) :
    Inserted xp (o.apply xp') i fi listener reg := by
  obtain hsame | ⟨k, hk, hsame | ⟨cfd, hsame⟩ | ⟨events, hsame⟩⟩ := apply_cases o xp'
  all_goals rw [hsame]
  · exact h
  all_goals
    rw [ho, h.xptokInd_eq hfi hi] at hk
    obtain rfl := Option.some.inj hk
  · rw [closeAt]
    refine Inserted.setPss ?_ fun _ => ⟨rfl, rfl⟩
    exact h.setPfd fun _ => rfl
  · exact h.setPss fun _ => ⟨rfl, rfl⟩
  · exact h.setPfd fun _ => rfl

theorem foldl_apply (h : Inserted xp xp' i fi listener reg) (hfi : fi < xp.pfdTotal)
    (hi : i ≤ xp.pfdCount) (hops : ∀ o ∈ ops, o.xptoken = fi) :
    Inserted xp (ops.foldl Op.apply xp') i fi listener reg := by
  induction ops generalizing xp' with
  | nil => exact h
  | cons o ops ih =>
    rw [List.forall_mem_cons] at hops
    exact ih (h.apply hfi hi hops.1) hops.2

end Inserted

end Table

/-- The index of the new entry. -/
def Table.newIndex (xp : Table) (listener : Bool) : ℕ :=
  if listener then xp.listenCount else xp.pfdMax

theorem internaladd_eq_some (s : State) (sock : ℤ) (userdata : ℕ) (listener : Bool)
    (hfi : s.xp.newToken listener < s.xp.pfdTotal) :
    ∃ s', s.internaladd sock userdata listener = some s' ∧
      s'.pc = .adding (s.xp.newIndex listener) listener userdata ∧
      s.xp.Inserted s'.xp (s.xp.newIndex listener) (s.xp.newToken listener) listener s.regs := by
  refine ⟨_, if_pos hfi, rfl, Table.Inserted.setrunning ?_ 3⟩
  refine ⟨rfl, rfl, rfl, rfl, rfl, rfl, fun k => ?_, ?_, fun k hk => ?_⟩
  · simp only [Table.newIndex, Table.newToken, Function.update_apply]
    split_ifs <;> rfl
  · simp only [Table.newIndex, Function.update_self, and_self]
  · unfold Table.newIndex at hk
    simp only [Table.contentAt, Function.update_of_ne hk]
    cases listener with
    | false => rfl
    | true =>
      have hk : k ≠ s.xp.listenCount := hk
      simp only [if_true, Function.update_of_ne hk]

theorem add_eq_some (hi : s.xp.newIndex listener ≤ s.xp.pfdCount)
    (hfi : s.xp.newToken listener < s.xp.pfdTotal)
    (hops : ∀ o ∈ ops, o.xptoken = s.xp.newToken listener) :
    ∃ s', s.add sock userdata listener ops = some s' ∧
      s.xp.Inserted s'.xp (s.xp.newIndex listener) (s.xp.newToken listener) listener s.regs := by
  obtain ⟨s₁, hs₁, hpc, hins⟩ := internaladd_eq_some s sock userdata listener hfi
  have hins := hins.foldl_apply hfi hi hops
  rw [State.add, hs₁, Option.bind_some, State.ret]
  dsimp only
  rw [hpc]
  refine ⟨_, rfl, Table.Inserted.setrunning ?_ 1⟩
  dsimp only
  split_ifs
  · exact hins.setPss fun _ => ⟨rfl, rfl⟩
  · exact hins

theorem add_eq_none (hfi : ¬s.xp.newToken listener < s.xp.pfdTotal) :
    s.add sock userdata listener ops = none := by
  rw [State.add, show s.internaladd sock userdata listener = none from if_neg hfi, Option.bind_none]

/-! ## Nothing is disturbed -/

section Adds

variable {i fi reg : ℕ}

/-- A free token, or the index of the entry, fits the table. -/
theorem Table.Linked.newToken_lt (h : xp.Linked) (hroom : xp.pfdCount < xp.pfdTotal) :
    xp.newToken listener < xp.pfdTotal := by
  obtain ⟨free, hfree, hmem⟩ := h.free
  have hmax := h.max
  have hlisten := h.listeners
  unfold newToken
  split_ifs with hneg
  · omega
  · omega
  · obtain ⟨rest, rfl, -⟩ := hfree.pop (by omega)
    exact (hmem _ List.mem_cons_self).1

theorem Table.Linked.newToken_fresh (h : xp.Linked)
    (hfresh : xp.freesid < 0 → xp.newIndex listener ∉ xp.tokens) :
    xp.newToken listener ∉ xp.tokens := by
  obtain ⟨free, hfree, hmem⟩ := h.free
  by_cases hneg : xp.freesid < 0
  · rw [newToken, if_pos hneg]
    exact hfresh hneg
  · rw [newToken, if_neg hneg]
    obtain ⟨rest, rfl, -⟩ := hfree.pop (by omega)
    exact (hmem _ List.mem_cons_self).2

/-- The table with a new last entry is linked. -/
theorem Table.Inserted.linked (h : xp.Linked)
    (hins : Inserted xp xp' xp.pfdCount (xp.newToken listener) listener reg)
    (hroom : xp.pfdCount < xp.pfdTotal) (hlast : listener = true → xp.listenCount = xp.pfdCount)
    (hfresh : xp.newToken listener ∉ xp.tokens) : xp'.Linked where
  max := by rw [hins.max, hins.count, h.max]
  le := by
    rw [hins.count, hins.total]
    exact hroom
  listeners := by
    have hlisten := h.listeners
    rw [hins.listeners, hins.count]
    split_ifs with hl
    · have := hlast hl
      omega
    · omega
  mapped k hk := by
    rw [hins.count] at hk
    rw [hins.sid, hins.total, hins.sidmap]
    by_cases hki : k = xp.pfdCount
    · rw [if_pos hki, Function.update_self, hki]
      exact ⟨h.newToken_lt hroom, rfl⟩
    · have hne : (xp.pss k).sid ≠ xp.newToken listener := fun heq =>
        hfresh (mem_tokens.mpr ⟨k, by omega, heq⟩)
      rw [if_neg hki, Function.update_of_ne hne]
      exact h.mapped k (by omega)
  free := by
    obtain ⟨free, hfree, hmem⟩ := h.free
    -- the free list, without the token that was taken
    have hrest : ∃ rest, Threaded xp.sidmap xp'.freesid rest ∧
        (∀ t ∈ rest, t ∈ free) ∧ xp.newToken listener ∉ rest := by
      rw [hins.freesid]
      by_cases hneg : xp.freesid < 0
      · rw [if_pos hneg]
        exact ⟨free, hfree, fun _ ht => ht, by simp [hfree.eq_nil hneg]⟩
      · obtain ⟨rest, rfl, htail⟩ := hfree.pop (by omega)
        have htoken : xp.newToken listener = xp.freesid.toNat := if_neg hneg
        rw [if_neg hneg, htoken]
        exact ⟨rest, htail, fun _ ht => List.mem_cons_of_mem _ ht,
          (List.nodup_cons.mp hfree.nodup).1⟩
    obtain ⟨rest, hthreaded, hsub, hnot⟩ := hrest
    rw [hins.sidmap]
    refine ⟨rest, hthreaded.update hnot _, fun t ht => ?_⟩
    rw [hins.total]
    refine ⟨(hmem t (hsub t ht)).1, fun htok => ?_⟩
    obtain ⟨k, hk, hsid⟩ := mem_tokens.mp htok
    rw [hins.count] at hk
    rw [hins.sid] at hsid
    split_ifs at hsid with hki
    · exact hnot (hsid ▸ ht)
    · exact (hmem t (hsub t ht)).2 (mem_tokens.mpr ⟨k, by omega, hsid⟩)

/-- A new last entry disturbs nothing. -/
theorem Table.Inserted.adds (h : xp.Linked)
    (hins : Inserted xp xp' xp.pfdCount (xp.newToken listener) listener reg)
    (hroom : xp.pfdCount < xp.pfdTotal) (hlast : listener = true → xp.listenCount = xp.pfdCount)
    (hfresh : xp.newToken listener ∉ xp.tokens) :
    xp.Adds xp' listener reg (xp.newToken listener) := by
  have hlinked := hins.linked h hroom hlast hfresh
  have hcount := hins.count
  have hlisten := h.listeners
  have hlistener := hins.listeners
  refine ⟨hfresh, hlinked, ⟨xp.pfdCount, ?_, ?_, hins.reg.1, hins.reg.2, ?_⟩, fun k hk => ?_⟩
  · exact hins.xptokInd_eq (h.newToken_lt hroom) le_rfl
  · rw [hins.sid, if_pos rfl]
  · rw [hlistener]
    cases listener with
    | false => simpa using hlisten
    | true => simp [hlast]
  · have hsid : (xp'.pss k).sid = (xp.pss k).sid := by rw [hins.sid, if_neg (by omega)]
    refine ⟨k, ?_, hsid, hins.content k (by omega), ?_⟩
    · rw [← hsid]
      exact hlinked.xptokInd_eq (by omega)
    · rw [hlistener]
      split_ifs with hl
      · have := hlast hl
        omega
      · rfl

/-- The first entry that is not a listener's is lost under a new listener. -/
theorem Table.Inserted.not_adds (h : xp.Linked)
    (hins : Inserted xp xp' xp.listenCount fi listener reg) (hlt : xp.listenCount < xp.pfdCount) :
    ¬xp.Adds xp' listener reg fi := by
  intro hadds
  obtain ⟨hsidlt, hmap⟩ := h.mapped _ hlt
  have hne : (xp.pss xp.listenCount).sid ≠ fi := fun heq =>
    hadds.fresh (mem_tokens.mpr ⟨_, hlt, heq⟩)
  obtain ⟨k, hk, hsid, -⟩ := hadds.kept _ hlt
  -- its token still leads to its index, where the new token is
  have hind : xp'.xptokInd (xp.pss xp.listenCount).sid = some xp.listenCount := by
    have htotal := hins.total
    have hcount := hins.count
    rw [xptokInd, if_neg (by omega)]
    dsimp only
    rw [Int.toNat_natCast, hins.sidmap, Function.update_of_ne hne, hmap, if_neg (by omega),
      Int.toNat_natCast]
  obtain rfl := Option.some.inj (hind.symm.trans hk)
  rw [hins.sid, if_pos rfl] at hsid
  exact hne hsid.symm

end Adds

theorem linked_init (n : ℕ) : (init n).xp.Linked where
  max := rfl
  le := Nat.zero_le n
  listeners := le_rfl
  mapped _ hk := absurd hk (Nat.not_lt_zero _)
  free := ⟨[], rfl, fun _ ht => absurd ht List.not_mem_nil⟩

end Poll

end Webxs
