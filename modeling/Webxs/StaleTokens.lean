import Webxs.PollAdd
import Webxs.PollEnds

/-!
# Tokens that no entry holds

`xptok_ind` takes an element of `sidmap` for an index if it is one of an entry. But the map is not
only written for entries : the elements that were never written are 0, and a free token's element
is the link to the next free one. So a token that no entry holds leads to an entry all the same, if
it was never given out and the table is not empty, or if the token freed before it is the index of
an entry (`inert_iff`).

What was given out and what was freed is recorded from the steps of the run (`nextFreed`).
-/

open Interleaving FreeList

namespace Webxs

namespace Poll

/-! ## What the functions return -/

/-- The result of `xs_pollfd_clear`, `xs_pollfd_setsocket_userdata` and
`xs_pollfd_setsocket_events`. -/
def Op.code (xp : Table) (o : Op) : ℤ :=
  match xp.xptokInd o.xptoken with
  | none => -50
  | some _ => 0

/-- `xs_pollfd_getsocket_userdata`. -/
def Table.getsocketUserdata (xp : Table) (xptoken : ℤ) : ℕ :=
  match xp.xptokInd xptoken with
  | none => 0
  | some i => (xp.pss i).cfd

/-- `xs_pollfd_getsocket_addr`, with the entry whose address it points to. -/
def Table.getsocketAddr (xp : Table) (xptoken : ℤ) : Option ℕ :=
  xp.xptokInd xptoken

/-- The token leads nowhere, the operations fail on it and leave the table unchanged, and there is
nothing to get with it. -/
structure Table.Inert (xp : Table) (xptoken : ℤ) : Prop where
  ind : xp.xptokInd xptoken = none
  op : ∀ o : Op, o.xptoken = xptoken → o.code xp = -50 ∧ o.apply xp = xp
  userdata : xp.getsocketUserdata xptoken = 0
  addr : xp.getsocketAddr xptoken = none

theorem Table.inert_iff_ind (xp : Table) (xptoken : ℤ) :
    xp.Inert xptoken ↔ xp.xptokInd xptoken = none := by
  refine ⟨Inert.ind, fun h => ⟨h, ?_, ?_, h⟩⟩
  · rintro o rfl
    refine ⟨by rw [Op.code, h], ?_⟩
    obtain ho | ⟨k, hk, -⟩ := apply_cases o xp
    · exact ho
    · rw [h] at hk
      cases hk
  · rw [getsocketUserdata, h]

/-! ## The record -/

/-- The token that a message gives out. -/
def Event.token : Event → Option ℤ
  | .call _ .new _ xptoken _ => some xptoken
  | _ => none

/-- The tokens that were given out. -/
def State.issued (s : State) : List ℤ :=
  s.log.filterMap Event.token

/-- The tokens that are freed and were not given out again, the last one first, after a step. -/
def freedAfter (s : State) (freed : List ℕ) (a : Act) : List ℕ :=
  match a, s.pc with
  | .add _ _ listener, _ => freed.erase (s.xp.newToken listener)
  | .step, .compact i _ =>
    if sockValid (s.xp.pfd i).fd then freed else (s.xp.pss i).sid :: freed
  | _, _ => freed

/-- One step of the thread, with the record. -/
def nextFreed (c : State × List ℕ) (a : Act) : Option (State × List ℕ) :=
  (next c.1 a).map fun s => (s, freedAfter c.1 c.2 a)

/-- The passes are complete, and a listener is added in front of all connections. -/
def Complete (c : State × List ℕ) : Act → Prop
  | .add _ _ listener => listener = true → c.1.xp.listenCount = c.1.xp.pfdCount
  | .stop => False
  | _ => True

/-- An entry of the table holds the token. -/
def Table.Holds (xp : Table) (xptoken : ℤ) : Prop :=
  ∃ t ∈ xp.tokens, xptoken = t

/-! ## The map in a run -/

/-- What is known of the map : the tokens below `M` were given out and are live or free, the others
have their first element. -/
structure Kept (s : State) (freed : List ℕ) (M i ip : ℕ) : Prop where
  running : 0 < s.xp.running
  half : s.xp.Half M i ip
  threaded : Threaded s.xp.sidmap s.xp.freesid freed
  zero : ∀ t, M ≤ t → s.xp.sidmap t = 0
  issued : ∀ t : ℤ, t ∈ s.issued ↔ 0 ≤ t ∧ t < M

/-- The invariant of a run. -/
def MapInv (s : State) (freed : List ℕ) : Prop :=
  match s.pc with
  | .entry i ip => ∃ M, Kept s freed M i ip
  | .calling i ip _ _ _ | .compact i ip => i < s.xp.pfdCount ∧ ∃ M, Kept s freed M i ip
  | .check i ip => ∃ M, Kept s freed M (i + 1) ip
  | .passed i ip => i = s.xp.pfdCount ∧ ∃ M, Kept s freed M i ip
  | .cleaning _ | .deleting .. | .done => True
  | _ => s.xp.pfdMax = s.xp.pfdCount ∧ ∃ M, Kept s freed M 0 0

section Steps

variable {s s' : State} {freed : List ℕ} {M i ip : ℕ}

/-- What does not touch the map. -/
theorem Kept.same (h : Kept s freed M i ip) (same : Table.SameMap s.xp s'.xp)
    (hrun : 0 < s'.xp.running) (hissued : s'.issued = s.issued) : Kept s' freed M i ip where
  running := hrun
  half := h.half.congr same
  threaded := by
    rw [same.sidmap, same.freesid]
    exact h.threaded
  zero := by
    rw [same.sidmap]
    exact h.zero
  issued := by
    rw [hissued]
    exact h.issued

/-- The callback is called, or has returned. -/
theorem Kept.setrunning (h : Kept s freed M i ip) {v : ℤ} (hv : 0 < v)
    (hxp : s'.xp = s.xp.setrunning v) (hissued : s'.issued = s.issued) :
    Kept s' freed M i ip :=
  h.same (hxp ▸ Table.sameMap_setrunning _ _) (hxp ▸ setrunning_pos h.running hv) hissued

theorem issued_append {e : Event} (he : e.token = none) (hlog : s'.log = s.log ++ [e]) :
    s'.issued = s.issued := by
  rw [State.issued, hlog, List.filterMap_append, List.filterMap_cons_none he]
  exact List.append_nil _

theorem issued_callEntry {sock : ℤ} {revent : BitVec 16} {message : Msg} (hm : message ≠ .new) :
    (s.callEntry i ip sock revent message).issued = s.issued := by
  refine issued_append ?_ rfl
  cases message <;> first | rfl | exact absurd rfl hm

/-- The callback for an entry is called. -/
theorem Kept.callEntry (h : Kept s freed M i ip) (hi : i < s.xp.pfdCount) {sock : ℤ}
    {revent : BitVec 16} {message : Msg} (hm : message ≠ .new) :
    MapInv (s.callEntry i ip sock revent message) freed :=
  ⟨(Table.sameMap_setrunning s.xp 3).count ▸ hi, M,
    h.setrunning (v := 3) (by decide) rfl (issued_callEntry hm)⟩

theorem Kept.visit (h : Kept s freed M i ip) (hi : i < s.xp.pfdCount)
    (hvisit : s.visit i ip = some s') : MapInv s' freed := by
  unfold State.visit at hvisit
  dsimp only at hvisit
  have hcompact : MapInv { s with pc := .compact i ip } freed :=
    ⟨hi, M, h.same (Table.SameMap.refl _) h.running rfl⟩
  split_ifs at hvisit
  all_goals
    obtain rfl := Option.some.inj hvisit
    first
    | exact h.callEntry hi (by decide)
    | exact hcompact

theorem issued_close (s : State) (i : ℕ) (sock : ℤ) : (s.close i sock).issued = s.issued := by
  by_cases hvalid : sockValid sock = true
  · exact issued_append (e := .close (s.xp.pfd i).reg) rfl (if_pos hvalid)
  · exact congrArg (List.filterMap Event.token) (if_neg hvalid)

theorem Kept.called (h : Kept s freed M i ip) (hi : i < s.xp.pfdCount) (sock : ℤ)
    (revent : BitVec 16) (message : Msg) : MapInv (s.called i ip sock revent message) freed := by
  have hone := Table.sameMap_setrunning s.xp 1
  have hback : MapInv (s.back (.compact i ip)) freed :=
    ⟨hone.count ▸ hi, M, h.setrunning (v := 1) (by decide) rfl rfl⟩
  cases message with
  | error | delete =>
    unfold State.called
    dsimp only
    split_ifs
    · have hclosed : Table.SameMap s.xp (s.closeListener i sock).xp := by
        have := Table.sameMap_closeAt s.xp i
        exact ⟨this.1, this.2, this.3, this.4, this.5⟩
      have hsame := hclosed.trans (Table.sameMap_setrunning _ 1)
      exact ⟨hsame.count ▸ hi, M, h.same hsame (setrunning_pos h.running (by decide))
        (issued_close s i sock)⟩
    · exact hback
  | read =>
    unfold State.called
    dsimp only
    split_ifs
    · have hkept : Kept (s.back (.compact i ip)) freed M i ip :=
        h.setrunning (v := 1) (by decide) rfl rfl
      exact hkept.callEntry (hone.count ▸ hi) (by decide)
    · exact hback
  | new | write => exact hback

/-- An entry is moved, or its token is freed. -/
theorem Kept.compact (h : Kept s freed M i ip) (hi : i < s.xp.pfdCount)
    (hcompact : s.compact i ip = some s') :
    MapInv s' (if sockValid (s.xp.pfd i).fd then freed else (s.xp.pss i).sid :: freed) := by
  have hlt := h.half.sid_lt (Or.inr (Nat.le_refl i)) hi
  have hnot : (s.xp.pss i).sid ∉ freed := by
    obtain ⟨free, hfree, hperm⟩ := h.half.free
    obtain rfl := h.threaded.unique hfree
    intro hmem
    refine (List.nodup_append.mp (hperm.nodup_iff.mpr List.nodup_range)).2.2 _ ?_ _ hmem rfl
    exact List.mem_append_right _ (mem_sids.mpr ⟨i, le_rfl, by omega, rfl⟩)
  obtain rfl := Option.some.inj ((if_pos (hlt.trans_le h.half.bound)).symm.trans hcompact)
  refine ⟨M, h.running, h.half.compact hi, ?_, fun t ht => ?_, h.issued⟩
  · by_cases hvalid : sockValid (s.xp.pfd i).fd = true
    · simp only [Table.compact, hvalid, if_true]
      exact h.threaded.update hnot _
    · simp only [Table.compact, hvalid, Bool.false_eq_true, if_false]
      exact h.threaded.push hnot
  · have hne : t ≠ (s.xp.pss i).sid := by omega
    simp only [Table.compact, Function.update_of_ne hne]
    exact h.zero t ht

/-- The table behind a pass. -/
theorem Kept.passed (h : Kept s freed M i ip) (hi : i = s.xp.pfdCount) :
    MapInv { s with
      xp := if 0 < s.xp.running then { s.xp with pfdMax := ip, pfdCount := ip } else s.xp
      pc := .turn } freed := by
  subst hi
  rw [if_pos h.running]
  exact ⟨rfl, M, h.running, h.half.passed, h.threaded, h.zero, h.issued⟩

theorem MapInv.of_between (h : MapInv s freed) (hpc : s.pc.Between) :
    s.xp.pfdMax = s.xp.pfdCount ∧ ∃ M, Kept s freed M 0 0 := by
  obtain ⟨xp, pc, regs, log, ops, visited⟩ := s
  cases pc with
  | queue | adding | idling | poll | polled | turn => exact h
  | _ => exact hpc.elim

theorem MapInv.between (hmax : s.xp.pfdMax = s.xp.pfdCount) (h : Kept s freed M 0 0)
    (hpc : s.pc.Between) : MapInv s freed := by
  obtain ⟨xp, pc, regs, log, ops, visited⟩ := s
  cases pc with
  | queue | adding | idling | poll | polled | turn => exact ⟨hmax, M, h⟩
  | _ => exact hpc.elim

theorem pfdMax_setrunning (xp : Table) (v : ℤ) : (xp.setrunning v).pfdMax = xp.pfdMax := by
  unfold Table.setrunning
  split_ifs <;> rfl

theorem pfdMax_apply (o : Op) (xp : Table) : (o.apply xp).pfdMax = xp.pfdMax := by
  obtain h | ⟨k, -, h | ⟨cfd, h⟩ | ⟨events, h⟩⟩ := apply_cases o xp <;> rw [h] <;> rfl

/-- A callback works on the table, with any token. -/
theorem MapInv.op {o : Op} (h : MapInv s freed) (hnext : next s (.op o) = some s') :
    MapInv s' freed := by
  obtain ⟨hin, rfl⟩ := of_next_op hnext
  have same := sameMap_apply o s.xp
  have hrun := running_apply o s.xp
  have hmax := pfdMax_apply o s.xp
  have hkept : ∀ {M i ip}, Kept s freed M i ip →
      Kept { s with xp := o.apply s.xp, ops := s.ops ++ [o] } freed M i ip :=
    fun h => h.same same (hrun ▸ h.running) rfl
  obtain ⟨xp, pc, regs, log, ops, visited⟩ := s
  cases pc with
  | adding | idling =>
    obtain ⟨hmax', M, h⟩ := h
    exact ⟨(hmax.trans hmax').trans same.count.symm, M, hkept h⟩
  | calling i ip sock revent message =>
    obtain ⟨hi, M, h⟩ := h
    exact ⟨same.count ▸ hi, M, hkept h⟩
  | deleting => trivial
  | _ => exact hin.elim

theorem MapInv.step (h : MapInv s freed) (hnext : s.step = some s') :
    MapInv s' (freedAfter s freed .step) := by
  obtain ⟨xp, pc, regs, log, ops, visited⟩ := s
  cases pc with
  | queue =>
    obtain ⟨hmax, M, h⟩ := h
    obtain rfl := Option.some.inj hnext
    have same := Table.sameMap_setrunning xp 3
    exact MapInv.between (by rw [State.call, pfdMax_setrunning, same.count, hmax])
      (h.setrunning (v := 3) (by decide) rfl (issued_append rfl rfl)) trivial
  | polled rret =>
    obtain ⟨hmax, M, h⟩ := h
    obtain rfl := Option.some.inj hnext
    have hkept : ∀ pc, Kept ⟨xp, pc, regs, log, ops, visited⟩ freed M 0 0 :=
      fun pc => h.same (Table.SameMap.refl _) h.running rfl
    split_ifs
    · exact ⟨M, hkept _⟩
    · exact ⟨hmax, M, hkept _⟩
  | entry i ip =>
    obtain ⟨M, h⟩ := h
    have hnext : (if i < xp.pfdCount then _ else _) = some s' := hnext
    split_ifs at hnext with hi
    · exact h.visit hi hnext
    · obtain rfl := Option.some.inj hnext
      have hle : i ≤ xp.pfdCount := h.half.lt
      exact ⟨Nat.le_antisymm hle (Nat.le_of_not_lt hi), M,
        h.same (Table.SameMap.refl _) h.running rfl⟩
  | compact i ip =>
    obtain ⟨hi, M, h⟩ := h
    exact h.compact hi hnext
  | check i ip =>
    obtain ⟨M, h⟩ := h
    have hrun : ¬ xp.running < 0 := by
      have : 0 < xp.running := h.running
      omega
    obtain rfl := Option.some.inj hnext
    rw [if_neg hrun]
    exact ⟨M, h.same (Table.SameMap.refl _) h.running rfl⟩
  | passed i ip =>
    obtain ⟨hi, M, h⟩ := h
    obtain rfl := Option.some.inj hnext
    exact h.passed hi
  | cleaning i =>
    have hnext : (if i < xp.pfdCount then _ else _) = some s' := hnext
    split_ifs at hnext <;> obtain rfl := Option.some.inj hnext <;> trivial
  | _ => cases hnext

theorem MapInv.ret (h : MapInv s freed) (hnext : s.ret = some s') : MapInv s' freed := by
  obtain ⟨xp, pc, regs, log, ops, visited⟩ := s
  cases pc with
  | adding i listener userdata =>
    obtain ⟨hmax, M, h⟩ := h
    obtain rfl := Option.some.inj hnext
    have same : Table.SameMap xp
        ((if listener then xp.setPss i ({ · with cfd := userdata }) else xp).setrunning 1) := by
      refine Table.SameMap.trans ?_ (Table.sameMap_setrunning _ 1)
      split_ifs
      · exact Table.sameMap_setPss xp i fun _ => rfl
      · exact Table.SameMap.refl xp
    refine MapInv.between ?_ (h.same same (setrunning_pos ?_ (by decide)) rfl) trivial
    · refine Eq.trans ?_ (hmax.trans same.count.symm)
      refine (pfdMax_setrunning _ _).trans ?_
      dsimp only
      split_ifs <;> rfl
    · have : 0 < xp.running := h.running
      dsimp only
      split_ifs <;> exact this
  | idling =>
    obtain ⟨hmax, M, h⟩ := h
    obtain rfl := Option.some.inj hnext
    have same := Table.sameMap_setrunning xp 1
    exact MapInv.between (by rw [State.back, pfdMax_setrunning, same.count, hmax])
      (h.setrunning (v := 1) (by decide) rfl rfl) trivial
  | calling i ip sock revent message =>
    obtain ⟨hi, M, h⟩ := h
    obtain rfl := Option.some.inj hnext
    exact h.called hi sock revent message
  | deleting =>
    obtain rfl := Option.some.inj hnext
    trivial
  | _ => cases hnext

/-- The tokens behind a new entry : one of the free ones is in use, or there is one more. -/
theorem Kept.token (h : Kept s freed M 0 0) (hroom : s.xp.pfdCount < s.xp.pfdTotal)
    {listener : Bool} (hindex : s.xp.newIndex listener = s.xp.pfdCount) :
    ∃ M', M ≤ M' ∧ M' ≤ s.xp.pfdTotal ∧ (∀ t, t < M' ↔ t < M ∨ t = s.xp.newToken listener) ∧
      Threaded s.xp.sidmap
        (if s.xp.freesid < 0 then s.xp.freesid else s.xp.sidmap (s.xp.newToken listener))
        (freed.erase (s.xp.newToken listener)) ∧
      (s.xp.tokens ++ [s.xp.newToken listener] ++ freed.erase (s.xp.newToken listener)).Perm
        (List.range M') := by
  obtain ⟨free, hfree, hperm⟩ := h.half.free
  obtain rfl := h.threaded.unique hfree
  have hperm : (s.xp.tokens ++ freed).Perm (List.range M) := hperm
  by_cases hneg : s.xp.freesid < 0
  · -- no token is free, and the index is the next number
    obtain rfl := h.threaded.eq_nil hneg
    have hlen := hperm.length_eq
    rw [List.append_nil, List.length_range, Table.tokens, Table.sids, List.length_map,
      List.length_range'] at hlen
    have htoken : s.xp.newToken listener = M := by
      rw [Table.newToken, if_pos hneg, ← hlen]
      exact hindex
    rw [htoken, if_pos hneg]
    refine ⟨M + 1, Nat.le_succ M, by omega, fun t => by omega, h.threaded, ?_⟩
    rw [List.erase_nil, List.append_nil, List.range_succ]
    rw [List.append_nil] at hperm
    exact hperm.append_right [M]
  · obtain ⟨rest, rfl, hrest⟩ := h.threaded.pop (by omega)
    have htoken : s.xp.newToken listener = s.xp.freesid.toNat := if_neg hneg
    have hlt : s.xp.freesid.toNat < M :=
      List.mem_range.mp (hperm.subset (List.mem_append_right _ List.mem_cons_self))
    rw [htoken, if_neg hneg, List.erase_cons_head]
    refine ⟨M, le_rfl, h.half.bound, fun t => by omega, hrest, ?_⟩
    rwa [List.append_assoc]

/-- A new last entry. -/
theorem Kept.inserted (h : Kept s freed M 0 0) (hroom : s.xp.pfdCount < s.xp.pfdTotal)
    {listener : Bool} {reg : ℕ} (hindex : s.xp.newIndex listener = s.xp.pfdCount)
    (hins : s.xp.Inserted s'.xp s.xp.pfdCount (s.xp.newToken listener) listener reg)
    (hrun : 0 < s'.xp.running) (hissued : s'.issued = s.issued ++ [(s.xp.newToken listener : ℤ)]) :
    ∃ M', Kept s' (freed.erase (s.xp.newToken listener)) M' 0 0 := by
  obtain ⟨M', hle, hbound, hlt, hthreaded, hperm⟩ := h.token hroom hindex
  have hnodup := hperm.nodup_iff.mpr List.nodup_range
  rw [List.append_assoc, List.nodup_append] at hnodup
  obtain ⟨-, hnodup, hdisjoint⟩ := hnodup
  have hnot : s.xp.newToken listener ∉ freed.erase (s.xp.newToken listener) :=
    (List.nodup_cons.mp hnodup).1
  have hold : ∀ k < s.xp.pfdCount, (s.xp.pss k).sid ≠ s.xp.newToken listener := fun k hk =>
    hdisjoint _ (mem_tokens.mpr ⟨k, hk, rfl⟩) _ List.mem_cons_self
  have hthreaded' : Threaded s'.xp.sidmap s'.xp.freesid
      (freed.erase (s.xp.newToken listener)) := by
    rw [hins.sidmap, hins.freesid]
    exact hthreaded.update hnot _
  refine ⟨M', hrun, ⟨le_rfl, Nat.zero_le _, ?_, ?_, ?_, _, hthreaded', ?_⟩, hthreaded', ?_, ?_⟩
  · rw [hins.count, hins.total]
    exact hroom
  · intro k _ hk
    rw [hins.count] at hk
    rw [hins.sid, hins.sidmap]
    by_cases hki : k = s.xp.pfdCount
    · rw [if_pos hki, Function.update_self, hki]
    · rw [if_neg hki, Function.update_of_ne (hold k (by omega))]
      exact h.half.mapped k (Or.inr (Nat.zero_le k)) (by omega)
  · rw [hins.total]
    exact hbound
  · have hsids : s'.xp.sids 0 s.xp.pfdCount = s.xp.tokens :=
      sids_congr fun k _ hk => by rw [hins.sid, if_neg (by omega)]
    show (s'.xp.sids 0 0 ++ s'.xp.sids 0 s'.xp.pfdCount ++ _).Perm _
    rw [hins.count, sids_concat, hsids, hins.sid, if_pos rfl]
    exact hperm
  · intro t ht
    have hne : t ≠ s.xp.newToken listener := by
      have := hlt t
      omega
    rw [hins.sidmap, Function.update_of_ne hne]
    exact h.zero t (by omega)
  · intro t
    rw [hissued, List.mem_append, List.mem_singleton, h.issued]
    have := hlt t.toNat
    omega

theorem MapInv.add {sock : ℤ} {userdata : ℕ} {listener : Bool} (h : MapInv s freed)
    (hok : listener = true → s.xp.listenCount = s.xp.pfdCount)
    (hnext : next s (.add sock userdata listener) = some s') :
    MapInv s' (freedAfter s freed (.add sock userdata listener)) := by
  obtain ⟨hpc, hroom, hadd⟩ := of_next_add hnext
  obtain ⟨hmax, M, h⟩ := h.of_between (by rw [hpc]; trivial)
  have hindex : s.xp.newIndex listener = s.xp.pfdCount := by
    unfold Table.newIndex
    split_ifs with hl
    · exact hok hl
    · exact hmax
  have hfi : s.xp.newToken listener < s.xp.pfdTotal := by
    by_contra hfi
    rw [show s.internaladd sock userdata listener = none from if_neg hfi] at hadd
    cases hadd
  obtain ⟨s₁, hs₁, hpc', hins⟩ := internaladd_eq_some s sock userdata listener hfi
  obtain rfl := Option.some.inj (hs₁.symm.trans hadd)
  obtain rfl := Option.some.inj ((if_pos hfi).symm.trans hs₁)
  rw [hindex] at hins
  obtain ⟨M', h'⟩ := h.inserted hroom hindex hins (setrunning_pos h.running (by decide))
    (by rw [State.issued, State.call, List.filterMap_append]; rfl)
  exact MapInv.between (by rw [hins.max, hins.count, hmax]) h' trivial

/-- A step keeps the invariant. -/
theorem MapInv.next {a : Act} (h : MapInv s freed) (hok : Complete (s, freed) a)
    (hnext : next s a = some s') : MapInv s' (freedAfter s freed a) := by
  cases a with
  | add sock userdata listener => exact h.add hok hnext
  | poll rret revents =>
    obtain ⟨hpc, rfl⟩ := of_next_poll hnext
    obtain ⟨hmax, M, h⟩ := h.of_between (by rw [hpc]; trivial)
    have same := Table.sameMap_setrunning s.xp 1
    refine MapInv.between ?_ (h.same ⟨same.1, same.2, same.3, same.4, same.5⟩ ?_ rfl) trivial
    · show (s.xp.setrunning 1).pfdMax = (s.xp.setrunning 1).pfdCount
      rw [pfdMax_setrunning, same.count, hmax]
    · exact setrunning_pos h.running (by decide)
  | op o => exact h.op hnext
  | ret => exact h.ret hnext
  | step => exact h.step hnext
  | again processing =>
    obtain ⟨hpc, rfl⟩ := of_next_again hnext
    obtain ⟨hmax, M, h⟩ := h.of_between (by rw [hpc]; trivial)
    split_ifs
    · exact ⟨hmax, M, h.same (Table.SameMap.refl _) h.running rfl⟩
    · trivial
  | stop => exact hok.elim

end Steps

theorem mapInv_init (n : ℕ) : MapInv (init n) [] where
  left := rfl
  right := by
    refine ⟨0, Int.one_pos, ⟨le_rfl, le_rfl, Nat.zero_le n,
      fun k _ hk => absurd hk (Nat.not_lt_zero k), Nat.zero_le n, [], rfl, List.Perm.refl _⟩, rfl,
      fun _ _ => rfl, fun t => ?_⟩
    simp only [State.issued, init, List.filterMap_nil, List.not_mem_nil, false_iff]
    omega

theorem mapInv_of_runs {n : ℕ} {c : State × List ℕ}
    (h : Runs nextFreed Complete (init n, []) c) : MapInv c.1 c.2 := by
  refine h.invariant (I := fun c => MapInv c.1 c.2) (mapInv_init n) fun c a c' hinv hok hnext => ?_
  obtain ⟨s', hs', rfl⟩ := Option.map_eq_some_iff.mp hnext
  exact hinv.next hok hs'

/-! ## The tokens that are not held -/

/-- The token is out of range, or it was never given out and there is no entry, or it was freed and
the token freed before it, if there is one, is not the index of an entry. -/
def LeadsNowhere (s : State) (freed : List ℕ) (xptoken : ℤ) : Prop :=
  xptoken < 0 ∨ s.xp.pfdTotal ≤ xptoken ∨ (xptoken ∉ s.issued ∧ s.xp.pfdCount = 0) ∨
    ∃ last first, freed = last ++ xptoken.toNat :: first ∧ ∀ u ∈ first.head?, s.xp.pfdCount ≤ u

theorem Table.xptokInd_eq_none_iff (xp : Table) {t : ℕ} (ht : t < xp.pfdTotal) :
    xp.xptokInd t = none ↔ xp.sidmap t < 0 ∨ (xp.pfdCount : ℤ) ≤ xp.sidmap t := by
  rw [xptokInd, if_neg (by omega)]
  dsimp only
  rw [Int.toNat_natCast]
  split_ifs with h
  · simpa using h
  · simpa using h

/-- A free token leads to the entry whose index is the token freed before it. -/
theorem Kept.free_iff {s : State} {freed last first : List ℕ} {M t : ℕ}
    (h : Kept s freed M 0 0) (hfreed : freed = last ++ t :: first) (ht : t < s.xp.pfdTotal) :
    s.xp.xptokInd t = none ↔ ∀ u ∈ first.head?, s.xp.pfdCount ≤ u := by
  subst hfreed
  rw [Table.xptokInd_eq_none_iff _ ht]
  have hlink : Threaded s.xp.sidmap (s.xp.sidmap t) first := h.threaded.suffix.2
  cases first with
  | nil =>
    have hlink : s.xp.sidmap t = -1 := hlink
    simp [hlink]
  | cons u first =>
    have hlink : s.xp.sidmap t = u := hlink.1
    simp only [hlink, List.head?_cons, Option.mem_some_iff, forall_eq']
    omega

theorem Kept.xptokInd_eq_none_iff {s : State} {freed : List ℕ} {M : ℕ} (h : Kept s freed M 0 0)
    {t : ℕ} (ht : t < s.xp.pfdTotal) (hdead : t ∉ s.xp.tokens) :
    s.xp.xptokInd t = none ↔ LeadsNowhere s freed t := by
  obtain ⟨free, hfree, hperm⟩ := h.half.free
  obtain rfl := h.threaded.unique hfree
  have hperm : (s.xp.tokens ++ freed).Perm (List.range M) := hperm
  have hissued := h.issued t
  have hrange : ¬(t : ℤ) < 0 ∧ ¬(s.xp.pfdTotal : ℤ) ≤ t := by omega
  unfold LeadsNowhere
  simp only [hrange, false_or, Int.toNat_natCast]
  rcases Nat.lt_or_ge t M with hlt | hge
  · -- a token that was freed
    have hmem : t ∈ freed :=
      (List.mem_append.mp (hperm.mem_iff.mpr (List.mem_range.mpr hlt))).resolve_left hdead
    have hnever : ¬((t : ℤ) ∉ s.issued ∧ s.xp.pfdCount = 0) := fun hn =>
      hn.1 (hissued.mpr (by omega))
    simp only [hnever, false_or]
    constructor
    · intro hnone
      obtain ⟨last, first, hfreed⟩ := List.append_of_mem hmem
      exact ⟨last, first, hfreed, (h.free_iff hfreed ht).mp hnone⟩
    · rintro ⟨last, first, hfreed, hfirst⟩
      exact (h.free_iff hfreed ht).mpr hfirst
  · -- a token that was never given out
    have hnot : ¬∃ last first, freed = last ++ t :: first ∧
        ∀ u ∈ first.head?, s.xp.pfdCount ≤ u := by
      rintro ⟨last, first, rfl, -⟩
      have := List.mem_range.mp (hperm.subset (List.mem_append_right _
        (List.mem_append_right last List.mem_cons_self)))
      omega
    have hnew : (t : ℤ) ∉ s.issued := fun hmem => by
      have := hissued.mp hmem
      omega
    rw [Table.xptokInd_eq_none_iff _ ht, h.zero t hge]
    simp only [hnew, hnot, or_false, not_false_eq_true, true_and]
    omega

/-- In every run whose passes are complete, between two passes : a token that no entry holds leads
nowhere exactly if it is out of range, or was never given out and there is no entry, or was freed
and the token freed before it is not the index of an entry. -/
theorem inert_iff (n : ℕ) (s : State) (freed : List ℕ)
    (h : Runs nextFreed Complete (init n, []) (s, freed)) (hpc : s.pc.Between) (t : ℤ)
    (hdead : ¬s.xp.Holds t) : s.xp.Inert t ↔ LeadsNowhere s freed t := by
  have hinv : MapInv s freed := mapInv_of_runs h
  obtain ⟨-, M, hkept⟩ := hinv.of_between hpc
  rw [Table.inert_iff_ind]
  by_cases hrange : t < 0 ∨ (s.xp.pfdTotal : ℤ) ≤ t
  · have hnone : s.xp.xptokInd t = none := if_pos hrange
    have hnowhere : LeadsNowhere s freed t := by
      unfold LeadsNowhere
      exact hrange.imp_right Or.inl
    exact iff_of_true hnone hnowhere
  · obtain ⟨k, rfl⟩ := Int.eq_ofNat_of_zero_le (show 0 ≤ t by omega)
    exact hkept.xptokInd_eq_none_iff (by omega) fun hmem => hdead ⟨k, hmem, rfl⟩

instance (c : State × List ℕ) : DecidablePred (Complete c)
  | .add .. => inferInstanceAs (Decidable (_ → _))
  | .stop => .isFalse id
  | .poll .. | .op _ | .ret | .step | .again _ => .isTrue trivial

/-- A table whose only entry was cleared and freed : nothing is below its token. -/
theorem inert_iff_freed : ∃ s : State, s.xp.pfdCount = 0 ∧ s.issued = [0] ∧ s.xp.Inert 0 := by
  obtain ⟨⟨s, freed⟩, hs, hcount, hpc, hissued, hfreed⟩ : ∃ c,
      Runs nextFreed Complete (init 2, []) c ∧ c.1.xp.pfdCount = 0 ∧ c.1.pc = .turn ∧
        c.1.issued = [0] ∧ c.2 = [0] :=
    exists_runs_of_runSchedule [.add 5 7 false, .op (.clear 0), .ret, .step, .ret,
      .poll 1 fun _ => 0, .step, .step, .ret, .step, .step, .step, .step] (by decide +kernel)
  have hdead : ¬s.xp.Holds 0 := by
    rintro ⟨t, ht, -⟩
    obtain ⟨k, hk, -⟩ := mem_tokens.mp ht
    simp only at hcount
    omega
  refine ⟨s, hcount, hissued, (inert_iff 2 s freed hs ?_ 0 hdead).mpr ?_⟩
  · simp only at hpc
    rw [hpc]
    trivial
  · exact Or.inr (Or.inr (Or.inr ⟨[], [], hfreed, by simp⟩))

/-- One connection is added to a table for two; the other token was never given out, but clearing
it closes the connection. -/
theorem not_inert : ∃ c, Runs nextFreed Complete (init 2, []) c ∧ c.1.pc.Between ∧
    ¬c.1.xp.Holds 1 ∧ 1 ∉ c.1.issued ∧ ¬c.1.xp.Inert 1 := by
  obtain ⟨c, hc, hcount, hpc, hsid, hind, hissued⟩ : ∃ c, Runs nextFreed Complete (init 2, []) c ∧
      c.1.xp.pfdCount = 1 ∧ c.1.pc = .queue ∧ (c.1.xp.pss 0).sid = 0 ∧
      c.1.xp.xptokInd 1 = some 0 ∧ c.1.issued = [0] :=
    exists_runs_of_runSchedule [.add 5 7 false, .ret] (by decide +kernel)
  refine ⟨c, hc, by rw [hpc]; trivial, ?_, by simp [hissued], ?_⟩
  · rintro ⟨t, ht, hone⟩
    obtain ⟨k, hk, rfl⟩ := mem_tokens.mp ht
    obtain rfl : k = 0 := by omega
    rw [hsid] at hone
    cases hone
  · intro hinert
    rw [hinert.ind] at hind
    cases hind

end Poll

end Webxs
