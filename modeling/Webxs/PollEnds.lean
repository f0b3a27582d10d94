import Webxs.PollPass

/-!
# Each connection ends once

An entry ends with a terminal notification, `exs_pollfd_Error` or `exs_pollfd_Delete`; the thread
closes the sockets of listeners in trouble, and in the clean-up those of all entries. The copies of
an entry that a pass leaves behind belong to the same registration. When a stop breaks out of a
pass, `pfdCount` is not corrected, and the clean-up goes over what is left behind as well : an
entry that was moved down is notified and closed twice, and one that has ended once more. And a
listener that is added behind connections makes the clean-up, or the next pass, visit a place that
was not in use.

The invariant of a run says of which places the entries are known to be different, and which of
these have not ended (`Known`). An event pass knows the kept entries and those to be visited, and
behind the loop also the last place when it is the only one that was dropped (`Stays`).
-/

open Interleaving

namespace Webxs

namespace Poll

/-! ## Endings -/

namespace Event

/-- The event is about a registration. -/
def About (r : ℕ) : Event → Prop
  | .idle => False
  | .call r' .. => r' = r
  | .close r' => r' = r

/-- A terminal notification, or the close of the socket. -/
def Ends (r : ℕ) : Event → Prop
  | .idle => False
  | .call r' message .. => r' = r ∧ message.Terminal
  | .close r' => r' = r

/-- What an event allows to come after it : no call for an entry that has ended, and no second
close. -/
def Allows : Event → Event → Prop
  | .call r message .., .call r' .. => message.Terminal → r' ≠ r
  | .close r, .close r' => r' ≠ r
  | _, _ => True

instance : DecidableRel Allows := fun e e' => by
  unfold Allows
  split <;> infer_instance

instance (r : ℕ) : DecidablePred (Ends r) := fun e => by
  unfold Ends
  split <;> infer_instance

theorem Ends.about {r : ℕ} {e : Event} (h : e.Ends r) : e.About r := by
  cases e with
  | idle => exact h
  | call => exact h.1
  | close => exact h

end Event

/-- Every entry has at most one terminal notification, with no call after it, and its socket is
closed at most once. -/
def EndsOnce (log : List Event) : Prop :=
  log.Pairwise Event.Allows

instance (log : List Event) : Decidable (EndsOnce log) :=
  inferInstanceAs (Decidable (log.Pairwise Event.Allows))

/-- The registration has not ended. -/
def Open (log : List Event) (r : ℕ) : Prop :=
  ∀ e ∈ log, ¬e.Ends r

instance (log : List Event) (r : ℕ) : Decidable (Open log r) :=
  inferInstanceAs (Decidable (∀ e ∈ log, ¬e.Ends r))

variable {log : List Event} {r : ℕ}

theorem EndsOnce.append {e : Event} (h : EndsOnce log) (he : ∀ x ∈ log, x.Allows e) :
    EndsOnce (log ++ [e]) := by
  refine List.pairwise_append.mpr ⟨h, List.pairwise_singleton _ _, fun x hx y hy => ?_⟩
  rw [List.mem_singleton.mp hy]
  exact he x hx

theorem Open.allows_call (h : Open log r) {message : Msg} {sockfd xptoken : ℤ} {userdata : ℕ} :
    ∀ x ∈ log, x.Allows (.call r message sockfd xptoken userdata) := by
  intro x hx
  cases x with
  | idle => trivial
  | close => trivial
  | call r' message' =>
    intro hterm heq
    exact h _ hx ⟨heq.symm, hterm⟩

theorem allows_close (h : .close r ∉ log) : ∀ x ∈ log, x.Allows (.close r) := by
  intro x hx
  cases x with
  | idle => trivial
  | call => trivial
  | close r' =>
    rintro rfl
    exact h hx

theorem Open.notMem_close (h : Open log r) : .close r ∉ log := fun hmem => h _ hmem rfl

/-! ## What keeps the registrations -/

/-- The entries are of the same registrations. -/
structure Table.SameRegs (xp xp' : Table) : Prop where
  max : xp'.pfdMax = xp.pfdMax
  count : xp'.pfdCount = xp.pfdCount
  pfd : ∀ k, (xp'.pfd k).reg = (xp.pfd k).reg
  pss : ∀ k, (xp'.pss k).reg = (xp.pss k).reg

namespace Table

variable {xp xp' xp'' : Table}

theorem SameRegs.refl (xp : Table) : SameRegs xp xp :=
  ⟨rfl, rfl, fun _ => rfl, fun _ => rfl⟩

theorem SameRegs.trans (h : SameRegs xp xp') (h' : SameRegs xp' xp'') : SameRegs xp xp'' :=
  ⟨h'.max.trans h.max, h'.count.trans h.count, fun k => (h'.pfd k).trans (h.pfd k),
    fun k => (h'.pss k).trans (h.pss k)⟩

theorem sameRegs_setPfd (xp : Table) (i : ℕ) {f : Pollfd → Pollfd}
    (hf : ∀ p, (f p).reg = p.reg) : SameRegs xp (xp.setPfd i f) := by
  refine ⟨rfl, rfl, fun k => ?_, fun _ => rfl⟩
  simp only [setPfd, Function.update_apply]
  split_ifs with h
  · rw [hf, h]
  · rfl

theorem sameRegs_setPss (xp : Table) (i : ℕ) {f : Poss → Poss} (hf : ∀ p, (f p).reg = p.reg) :
    SameRegs xp (xp.setPss i f) := by
  refine ⟨rfl, rfl, fun _ => rfl, fun k => ?_⟩
  simp only [setPss, Function.update_apply]
  split_ifs with h
  · rw [hf, h]
  · rfl

theorem sameRegs_closeAt (xp : Table) (i : ℕ) : SameRegs xp (xp.closeAt i) := by
  unfold closeAt
  refine (sameRegs_setPfd xp i ?_).trans (sameRegs_setPss _ i ?_)
  · exact fun _ => rfl
  · exact fun _ => rfl

theorem sameRegs_setrunning (xp : Table) (v : ℤ) : SameRegs xp (xp.setrunning v) := by
  unfold setrunning
  split_ifs
  · exact ⟨rfl, rfl, fun _ => rfl, fun _ => rfl⟩
  · exact SameRegs.refl xp

theorem pfd_setrunning (xp : Table) (v : ℤ) : (xp.setrunning v).pfd = xp.pfd := by
  unfold setrunning
  split_ifs <;> rfl

theorem sameRegs_apply (o : Op) (xp : Table) : SameRegs xp (o.apply xp) := by
  obtain h | ⟨k, -, h | ⟨cfd, h⟩ | ⟨events, h⟩⟩ := apply_cases o xp <;> rw [h]
  · exact SameRegs.refl xp
  · exact sameRegs_closeAt xp k
  · exact sameRegs_setPss xp k fun _ => rfl
  · exact sameRegs_setPfd xp k fun _ => rfl

end Table

/-! ## What is known of the entries -/

/-- The entries at the places `S` are of different registrations, and those at `O` have not
ended. -/
structure Known (s : State) (S O : ℕ → Prop) : Prop where
  once : EndsOnce s.log
  about : ∀ e ∈ s.log, ∀ r, e.About r → r < s.regs
  lt : ∀ k, S k → (s.xp.pss k).reg < s.regs
  same : ∀ k, S k → (s.xp.pfd k).reg = (s.xp.pss k).reg
  inj : ∀ k l, S k → S l → (s.xp.pss k).reg = (s.xp.pss l).reg → k = l
  isOpen : ∀ k, S k → O k → Open s.log (s.xp.pss k).reg

namespace Known

variable {s s' : State} {S S' O O' : ℕ → Prop} {i : ℕ}

theorem mono (h : Known s S O) (hS : ∀ k, S' k → S k) (hO : ∀ k, S' k → O' k → O k) :
    Known s S' O' where
  once := h.once
  about := h.about
  lt k hk := h.lt k (hS k hk)
  same k hk := h.same k (hS k hk)
  inj k l hk hl := h.inj k l (hS k hk) (hS l hl)
  isOpen k hk ho := h.isOpen k (hS k hk) (hO k hk ho)

theorem congr (h : Known s S O) (hxp : s.xp.SameRegs s'.xp) (hlog : s'.log = s.log)
    (hregs : s'.regs = s.regs) : Known s' S O where
  once := hlog ▸ h.once
  about := by
    rw [hlog, hregs]
    exact h.about
  lt k hk := by
    rw [hxp.pss, hregs]
    exact h.lt k hk
  same k hk := by
    rw [hxp.pfd, hxp.pss]
    exact h.same k hk
  inj k l hk hl := by
    rw [hxp.pss, hxp.pss]
    exact h.inj k l hk hl
  isOpen k hk ho := by
    rw [hxp.pss, hlog]
    exact h.isOpen k hk ho

/-- An event that is allowed ends the entries it is about. -/
theorem append (h : Known s S O) {e : Event} (he : ∀ x ∈ s.log, x.Allows e)
    (habout : ∀ r, e.About r → r < s.regs)
    (hO : ∀ k, S k → O' k → O k ∧ ¬e.Ends (s.xp.pss k).reg) :
    Known { s with log := s.log ++ [e] } S O' where
  once := h.once.append he
  about x hx := by
    obtain hx | hx := List.mem_append.mp hx
    · exact h.about x hx
    · rw [List.mem_singleton.mp hx]
      exact habout
  lt := h.lt
  same := h.same
  inj := h.inj
  isOpen k hk ho x hx := by
    obtain hx | hx := List.mem_append.mp hx
    · exact h.isOpen k hk (hO k hk ho).1 x hx
    · rw [List.mem_singleton.mp hx]
      exact (hO k hk ho).2

/-- A call for an entry that has not ended. -/
theorem append_call (h : Known s S O) (hi : S i) (hopen : O i) (message : Msg)
    (sockfd xptoken : ℤ) (userdata : ℕ) :
    Known { s with log := s.log ++ [.call (s.xp.pss i).reg message sockfd xptoken userdata] } S
      fun k => O k ∧ (k = i → ¬message.Terminal) := by
  refine h.append (h.isOpen i hi hopen).allows_call ?_ fun k hk ho => ⟨ho.1, ?_⟩
  · rintro r rfl
    exact h.lt i hi
  · rintro ⟨heq, hterm⟩
    exact ho.2 (h.inj k i hk hi heq.symm) hterm

/-- The close of the socket of an entry. -/
theorem append_close (h : Known s S O) (hi : S i) (hclose : .close (s.xp.pss i).reg ∉ s.log) :
    Known { s with log := s.log ++ [.close (s.xp.pss i).reg] } S fun k => O k ∧ k ≠ i := by
  refine h.append (allows_close hclose) ?_ fun k hk ho => ⟨ho.1, fun heq => ?_⟩
  · rintro r rfl
    exact h.lt i hi
  · exact ho.2 (h.inj k i hk hi heq.symm)

/-- Entries are at other places, and some are left out. -/
theorem moved (h : Known s S O) {f : ℕ → ℕ} (hf : ∀ k, S' k → S (f k))
    (hinj : ∀ k l, S' k → S' l → f k = f l → k = l)
    (hpss : ∀ k, S' k → (s'.xp.pss k).reg = (s.xp.pss (f k)).reg)
    (hpfd : ∀ k, S' k → (s'.xp.pfd k).reg = (s.xp.pfd (f k)).reg)
    (hO : ∀ k, S' k → O' k → O (f k)) (hlog : s'.log = s.log) (hregs : s'.regs = s.regs) :
    Known s' S' O' where
  once := hlog ▸ h.once
  about := by
    rw [hlog, hregs]
    exact h.about
  lt k hk := by
    rw [hpss k hk, hregs]
    exact h.lt _ (hf k hk)
  same k hk := by
    rw [hpss k hk, hpfd k hk]
    exact h.same _ (hf k hk)
  inj k l hk hl heq := by
    rw [hpss k hk, hpss l hl] at heq
    exact hinj k l hk hl (h.inj _ _ (hf k hk) (hf l hl) heq)
  isOpen k hk ho := by
    rw [hpss k hk, hlog]
    exact h.isOpen _ (hf k hk) (hO k hk ho)

end Known

/-! ## The invariant -/

/-- The entries of a pass : those in front of `ip` are kept, those from `i` on are to be visited. -/
def State.Left (s : State) (i ip k : ℕ) : Prop :=
  k < ip ∨ i ≤ k ∧ k < s.xp.pfdCount

/-- The entries behind a visit : the last one also, if it is the only one that was dropped. -/
def State.Stays (s : State) (i ip k : ℕ) : Prop :=
  s.Left i ip k ∨ k = ip ∧ i = ip + 1 ∧ sockValid (s.xp.pfd ip).fd = false

/-- The cursor of a pass is in the table. -/
structure State.Within (s : State) (i ip : ℕ) : Prop where
  max : s.xp.pfdMax = s.xp.pfdCount
  kept : ip ≤ i
  count : i ≤ s.xp.pfdCount

/-- The invariant of a thread. -/
def EndInv (s : State) : Prop :=
  match s.pc with
  | .entry i ip | .passed i ip => s.Within i ip ∧ Known s (s.Stays i ip) (s.Left i ip)
  | .check i ip => s.Within (i + 1) ip ∧ Known s (s.Stays (i + 1) ip) (s.Left (i + 1) ip)
  | .calling i ip _ _ message => s.Within i ip ∧ i < s.xp.pfdCount ∧
      .close (s.xp.pss i).reg ∉ s.log ∧
      Known s (s.Left i ip) fun k => k = i → ¬message.Terminal
  | .compact i ip => s.Within i ip ∧ i < s.xp.pfdCount ∧
      Known s (s.Left i ip) fun k => k = i → sockValid (s.xp.pfd i).fd = true
  | .cleaning i => Known s (fun k => i ≤ k ∧ k < s.xp.pfdCount) fun _ => True
  | .deleting i _ => i < s.xp.pfdCount ∧ .close (s.xp.pss i).reg ∉ s.log ∧
      Known s (fun k => i ≤ k ∧ k < s.xp.pfdCount) fun k => k ≠ i
  | .done => EndsOnce s.log
  | _ => s.xp.pfdMax = s.xp.pfdCount ∧ Known s (· < s.xp.pfdCount) fun _ => True

theorem EndInv.once {s : State} (h : EndInv s) : EndsOnce s.log := by
  unfold EndInv at h
  split at h
  · exact h.2.once
  · exact h.2.once
  · exact h.2.once
  · exact h.2.2.2.once
  · exact h.2.2.once
  · exact h.once
  · exact h.2.2.once
  · exact h
  · exact h.2.once

/-- A callback that is told of the end of an entry clears its token; for a listener the thread does
it. -/
def Clears (s : State) : Act → Prop
  | .ret =>
    match s.pc with
    | .calling i _ _ _ message =>
      message.Terminal → s.xp.listenCount ≤ i → sockValid (s.xp.pfd i).fd = false
    | _ => True
  | _ => True

/-- Listeners are added to listeners, and a pass that is stopped has dropped no entry, or just the
last one it visited, which has not ended. -/
def StopsWhole (s : State) : Act → Prop
  | .add _ _ listener => listener = true → s.xp.listenCount = s.xp.pfdMax
  | .step =>
    match s.pc with
    | .passed i ip => s.xp.running ≤ 0 → i = ip ∨
        i = ip + 1 ∧ sockValid (s.xp.pfd ip).fd = false ∧ Open s.log (s.xp.pss ip).reg
    | _ => True
  | _ => True

/-- `Clears` where a callback returns, for every place of the thread. -/
def decidableRet (s : State) : (pc : Pc) → Decidable (Clears { s with pc := pc } .ret)
  | .calling .. => inferInstanceAs (Decidable (_ → _ → _))
  | .queue | .adding .. | .idling | .poll | .polled _ | .entry .. | .compact .. | .check ..
  | .passed .. | .turn | .cleaning _ | .deleting .. | .done => .isTrue trivial

instance (s : State) : DecidablePred (Clears s)
  | .ret => decidableRet s s.pc
  | .add .. | .poll .. | .op _ | .step | .again _ | .stop => .isTrue trivial

/-- `StopsWhole` at a step, for every place of the thread. -/
def decidableStep (s : State) : (pc : Pc) → Decidable (StopsWhole { s with pc := pc } .step)
  | .passed .. => inferInstanceAs (Decidable (_ → _ ∨ _ ∧ _ ∧ _))
  | .queue | .adding .. | .idling | .poll | .polled _ | .entry .. | .calling .. | .compact ..
  | .check .. | .turn | .cleaning _ | .deleting .. | .done => .isTrue trivial

instance (s : State) : DecidablePred (StopsWhole s)
  | .add .. => inferInstanceAs (Decidable (_ → _))
  | .step => decidableStep s s.pc
  | .poll .. | .op _ | .ret | .again _ | .stop => .isTrue trivial

section Steps

variable {s s' : State} {i ip : ℕ}

theorem State.Within.congr (h : s.Within i ip) (hxp : s.xp.SameRegs s'.xp) : s'.Within i ip where
  max := by rw [hxp.max, hxp.count, h.max]
  kept := h.kept
  count := hxp.count ▸ h.count

theorem left_congr {t t' : State} (hxp : t.xp.SameRegs t'.xp) (i ip : ℕ) :
    t'.Left i ip = t.Left i ip := by
  unfold State.Left
  rw [hxp.count]

/-- A callback is called. -/
theorem Known.call {S O : ℕ → Prop} (h : Known s S O) (hi : S i) (hopen : O i) (message : Msg)
    (sockfd xptoken : ℤ) (userdata : ℕ) (pc : Pc) :
    Known (s.call (.call (s.xp.pss i).reg message sockfd xptoken userdata) pc) S
      fun k => O k ∧ (k = i → ¬message.Terminal) :=
  (h.append_call hi hopen message sockfd xptoken userdata).congr
    (Table.sameRegs_setrunning s.xp 3) rfl rfl

/-! ### Adding -/

/-- What a new entry, the last one, is to the invariant. -/
structure Added (s s' : State) : Prop where
  log : ∃ sock sid userdata, s'.log = s.log ++ [.call s.regs .new sock sid userdata]
  regs : s'.regs = s.regs + 1
  max : s'.xp.pfdMax = s.xp.pfdMax + 1
  count : s'.xp.pfdCount = s.xp.pfdCount + 1
  pss : ∀ k, (s'.xp.pss k).reg = if k = s.xp.pfdCount then s.regs else (s.xp.pss k).reg
  pfd : ∀ k, (s'.xp.pfd k).reg = if k = s.xp.pfdCount then s.regs else (s.xp.pfd k).reg

theorem internaladd_added {sock : ℤ} {userdata : ℕ} {listener : Bool}
    (hmax : s.xp.pfdMax = s.xp.pfdCount)
    (hlast : listener = true → s.xp.listenCount = s.xp.pfdMax)
    (h : s.internaladd sock userdata listener = some s') :
    (∃ i, s'.pc = .adding i listener userdata) ∧ Added s s' := by
  have hindex : (if listener = true then s.xp.listenCount else s.xp.pfdMax) = s.xp.pfdCount := by
    split_ifs with hl
    · exact (hlast hl).trans hmax
    · exact hmax
  unfold State.internaladd at h
  rw [Option.ite_none_right_eq_some] at h
  obtain ⟨-, h⟩ := h
  obtain rfl := Option.some.inj h
  refine ⟨⟨_, rfl⟩, ⟨_, _, _, rfl⟩, rfl, ?_, ?_, fun k => ?_, fun k => ?_⟩
  · exact (Table.sameRegs_setrunning _ 3).max
  · exact (Table.sameRegs_setrunning _ 3).count
  · refine ((Table.sameRegs_setrunning _ 3).pss k).trans ?_
    dsimp only
    rw [hindex, Function.update_apply]
    split_ifs <;> rfl
  · refine ((Table.sameRegs_setrunning _ 3).pfd k).trans ?_
    dsimp only
    rw [hindex, Function.update_apply]
    by_cases hk : k = s.xp.pfdCount
    · rw [if_pos hk, if_pos hk]
    · rw [if_neg hk, if_neg hk]
      split_ifs
      · rw [Function.update_of_ne hk]
      · rfl

/-- Behind the addition the new entry is open, as all are. -/
theorem Known.added (h : Known s (· < s.xp.pfdCount) fun _ => True) (hadd : Added s s') :
    Known s' (· < s'.xp.pfdCount) fun _ => True := by
  obtain ⟨sock, sid, userdata, hlog⟩ := hadd.log
  have hnew : Open s.log s.regs := fun e he hends =>
    Nat.lt_irrefl _ (h.about e he _ hends.about)
  have hold : ∀ k, k < s'.xp.pfdCount → k ≠ s.xp.pfdCount → k < s.xp.pfdCount := by
    intro k hk hne
    rw [hadd.count] at hk
    omega
  refine ⟨?_, ?_, fun k hk => ?_, fun k hk => ?_, fun k l hk hl heq => ?_, fun k hk _ => ?_⟩
  · rw [hlog]
    exact h.once.append hnew.allows_call
  · rw [hlog, hadd.regs]
    intro e he r hr
    obtain he | he := List.mem_append.mp he
    · exact Nat.lt_succ_of_lt (h.about e he r hr)
    · rw [List.mem_singleton.mp he] at hr
      obtain rfl : s.regs = r := hr
      exact Nat.lt_succ_self _
  · rw [hadd.pss, hadd.regs]
    split_ifs with heq
    · exact Nat.lt_succ_self _
    · exact Nat.lt_succ_of_lt (h.lt k (hold k hk heq))
  · rw [hadd.pss, hadd.pfd]
    split_ifs with heq
    · rfl
    · exact h.same k (hold k hk heq)
  · rw [hadd.pss, hadd.pss] at heq
    split_ifs at heq with hk' hl' hl'
    · rw [hk', hl']
    · exact absurd heq (h.lt l (hold l hl hl')).ne'
    · exact absurd heq (h.lt k (hold k hk hk')).ne
    · exact h.inj k l (hold k hk hk') (hold l hl hl') heq
  · rw [hadd.pss, hlog]
    have hopen : Open s.log (if k = s.xp.pfdCount then s.regs else (s.xp.pss k).reg) := by
      split_ifs with heq
      · exact hnew
      · exact h.isOpen k (hold k hk heq) trivial
    intro e he hends
    obtain he | he := List.mem_append.mp he
    · exact hopen e he hends
    · rw [List.mem_singleton.mp he] at hends
      exact hends.2

/-! ### A pass -/

theorem EndInv.callEntry (h : s.Within i ip) (hi : i < s.xp.pfdCount)
    (hknown : Known s (s.Left i ip) fun _ => True) (sock : ℤ) (revent : BitVec 16)
    (message : Msg) : EndInv (s.callEntry i ip sock revent message) := by
  have hleft : s.Left i ip i := Or.inr ⟨Nat.le_refl i, hi⟩
  have hxp := Table.sameRegs_setrunning s.xp 3
  have hcall := hknown.call hleft trivial message sock (s.xp.pss i).sid (s.xp.pss i).cfd
    (.calling i ip sock revent message)
  refine ⟨h.congr hxp, hxp.count ▸ hi, ?_, ?_⟩
  · have hopen := hknown.isOpen i hleft trivial
    intro hmem
    have hmem : Event.close ((s.xp.setrunning 3).pss i).reg ∈ s.log ++ [_] := hmem
    rw [hxp.pss] at hmem
    obtain hmem | hmem := List.mem_append.mp hmem
    · exact hopen.notMem_close hmem
    · cases List.mem_singleton.mp hmem
  · have hleft' : (s.callEntry i ip sock revent message).Left i ip = s.Left i ip :=
      left_congr hxp i ip
    rw [hleft']
    exact hcall.mono (fun _ hk => hk) fun k _ hk => ⟨trivial, hk⟩

theorem EndInv.back (h : s.Within i ip) (hi : i < s.xp.pfdCount)
    (hknown : Known s (s.Left i ip) fun k => k = i → sockValid (s.xp.pfd i).fd = true) :
    EndInv (s.back (.compact i ip)) := by
  have hxp := Table.sameRegs_setrunning s.xp 1
  refine ⟨h.congr hxp, hxp.count ▸ hi, ?_⟩
  have hknown' : Known (s.back (.compact i ip)) _ _ := hknown.congr hxp rfl rfl
  have hleft : (s.back (.compact i ip)).Left i ip = s.Left i ip := left_congr hxp i ip
  rw [hleft]
  refine hknown'.mono (fun _ hk => hk) fun k _ hk heq => ?_
  rw [← hk heq]
  exact congrArg (fun f => sockValid (f i).fd) (Table.pfd_setrunning s.xp 1).symm

theorem EndInv.visit (h : s.Within i ip) (hi : i < s.xp.pfdCount)
    (hknown : Known s (s.Left i ip) fun _ => True) (hvisit : s.visit i ip = some s') :
    EndInv s' := by
  have hcompact : EndInv { s with pc := .compact i ip } :=
    ⟨h.congr (Table.SameRegs.refl _), hi,
      (hknown.mono (fun _ hk => hk) fun _ _ _ => trivial).congr (Table.SameRegs.refl _) rfl rfl⟩
  unfold State.visit at hvisit
  dsimp only at hvisit
  split_ifs at hvisit
  all_goals obtain rfl := Option.some.inj hvisit
  · exact EndInv.callEntry h hi hknown _ _ _
  · exact EndInv.callEntry h hi hknown _ _ _
  · exact hcompact
  · exact EndInv.callEntry h hi hknown _ _ _
  · exact EndInv.callEntry h hi hknown _ _ _
  · exact hcompact

/-- The socket of an entry is closed, if there is one. -/
theorem Known.close {S O : ℕ → Prop} (h : Known s S O) (hi : S i)
    (hclose : .close (s.xp.pss i).reg ∉ s.log) (sock : ℤ) :
    Known (s.close i sock) S fun k => O k ∧ k ≠ i := by
  have hxp := Table.sameRegs_closeAt s.xp i
  by_cases hsock : sockValid sock = true
  · have happend := h.append_close hi hclose
    rw [← h.same i hi] at happend
    exact happend.congr hxp (if_pos hsock) rfl
  · exact (h.mono (fun _ hk => hk) fun _ _ hk => hk.1).congr hxp (if_neg hsock) rfl

theorem EndInv.called {sock : ℤ} {revent : BitVec 16} {message : Msg} (h : s.Within i ip)
    (hi : i < s.xp.pfdCount) (hclose : .close (s.xp.pss i).reg ∉ s.log)
    (hknown : Known s (s.Left i ip) fun k => k = i → ¬message.Terminal)
    (hclears : message.Terminal → s.xp.listenCount ≤ i → sockValid (s.xp.pfd i).fd = false) :
    EndInv (s.called i ip sock revent message) := by
  have hleft : s.Left i ip i := Or.inr ⟨Nat.le_refl i, hi⟩
  -- an entry that has not ended may be kept, another one has no socket
  have hback : (message.Terminal → sockValid (s.xp.pfd i).fd = false) →
      EndInv (s.back (.compact i ip)) := fun hdrop =>
    EndInv.back h hi (hknown.mono (fun _ hk => hk) fun k _ hk heq hterm => by
      rw [hdrop hterm] at hk
      cases hk heq)
  have hended : message.Terminal → EndInv
      (if i < s.xp.listenCount then (s.closeListener i sock).back (.compact i ip)
        else s.back (.compact i ip)) := by
    intro hterm
    split_ifs with hlisten
    · have hxp : s.xp.SameRegs (s.closeListener i sock).xp := by
        have hxp := Table.sameRegs_closeAt s.xp i
        exact ⟨hxp.max, hxp.count, hxp.pfd, hxp.pss⟩
      have hclosed : Known (s.closeListener i sock) (s.Left i ip) _ :=
        (hknown.close hleft hclose sock).congr
          ⟨rfl, rfl, fun _ => rfl, fun _ => rfl⟩ rfl rfl
      refine EndInv.back (h.congr hxp) (hxp.count ▸ hi) ?_
      rw [left_congr hxp]
      refine hclosed.mono (fun _ hk => hk) fun k _ hk => ?_
      have hne : k ≠ i := by
        intro heq
        have hvalid := hk heq
        simp only [State.closeListener, Table.closeAt, Table.setPss, Table.setPfd,
          Function.update_self] at hvalid
        cases hvalid
      exact ⟨fun heq => absurd heq hne, hne⟩
    · exact hback fun _ => hclears hterm (Nat.le_of_not_lt hlisten)
  cases message with
  | error => exact hended trivial
  | delete => exact hended trivial
  | new => exact hback fun hterm => hterm.elim
  | write => exact hback fun hterm => hterm.elim
  | read =>
    unfold State.called
    dsimp only
    split_ifs
    · have hxp := Table.sameRegs_setrunning s.xp 1
      have hleft' : (s.back (.compact i ip)).Left i ip = s.Left i ip := left_congr hxp i ip
      have hknown' : Known (s.back (.compact i ip)) (s.Left i ip) fun _ => True :=
        (hknown.mono (fun _ hk => hk) fun _ _ _ _ hterm => hterm.elim).congr hxp rfl rfl
      rw [← hleft'] at hknown'
      exact EndInv.callEntry (h.congr hxp) (hxp.count ▸ hi) hknown' _ _ _
    · exact hback fun hterm => hterm.elim

theorem pfd_compact (xp : Table) (i ip k : ℕ) :
    (xp.compact i ip).pfd k = if k = ip then xp.pfd i else xp.pfd k :=
  Function.update_apply ..

/-- An entry is moved down, or dropped. -/
theorem EndInv.compact (h : s.Within i ip) (hi : i < s.xp.pfdCount)
    (hknown : Known s (s.Left i ip) fun k => k = i → sockValid (s.xp.pfd i).fd = true)
    (hcompact : s.compact i ip = some s') : EndInv s' := by
  have hkept := h.kept
  unfold State.compact at hcompact
  dsimp only at hcompact
  rw [Option.ite_none_right_eq_some] at hcompact
  obtain rfl := Option.some.inj hcompact.2
  obtain ⟨ip', hip'⟩ : ∃ n, (if sockValid (s.xp.pfd i).fd = true then ip + 1 else ip) = n :=
    ⟨_, rfl⟩
  rw [hip']
  obtain ⟨t, ht⟩ : ∃ t : State, { s with
    visited := s.visited ++ [((s.xp.pss i).sid, sockValid (s.xp.pfd i).fd)]
    xp := s.xp.compact i ip
    pc := .check i ip' } = t := ⟨_, rfl⟩
  have hcount : t.xp.pfdCount = s.xp.pfdCount := by rw [← ht]; rfl
  have hpss : ∀ k, t.xp.pss k = if k = ip then s.xp.pss i else s.xp.pss k := by
    intro k
    rw [← ht]
    exact pss_compact ..
  have hpfd : ∀ k, t.xp.pfd k = if k = ip then s.xp.pfd i else s.xp.pfd k := by
    intro k
    rw [← ht]
    exact pfd_compact ..
  -- where the entries are that stay
  have hplace : ∀ k, t.Stays (i + 1) ip' k → k ≠ ip → k < ip ∨ i + 1 ≤ k ∧ k < s.xp.pfdCount := by
    rintro k ((hk | hk) | ⟨rfl, heq, hinvalid⟩) hne
    · left
      split_ifs at hip' <;> omega
    · rw [hcount] at hk
      exact Or.inr hk
    · rw [hpfd, if_neg hne] at hinvalid
      obtain rfl : i = k := by omega
      split_ifs at hip' with hvalid
      · rw [hinvalid] at hvalid
        cases hvalid
      · exact absurd hip'.symm hne
  have hwithin : t.Within (i + 1) ip' := by
    refine ⟨?_, ?_, ?_⟩
    · rw [← ht]
      exact h.max
    · split_ifs at hip' <;> omega
    · rw [hcount]
      exact hi
  have hmoved : Known t (t.Stays (i + 1) ip') (t.Left (i + 1) ip') := by
    refine hknown.moved (f := fun k => if k = ip then i else k) (fun k hk => ?_)
      (fun k l hk hl heq => ?_) (fun k _ => ?_) (fun k _ => ?_) (fun k hk hleft => ?_) ?_ ?_
    · split_ifs with hkip
      · exact Or.inr ⟨Nat.le_refl i, hi⟩
      · obtain hk | hk := hplace k hk hkip
        · exact Or.inl hk
        · exact Or.inr ⟨by omega, hk.2⟩
    · split_ifs at heq with hkip hlip hlip
      · rw [hkip, hlip]
      · obtain hl | hl := hplace l hl hlip <;> omega
      · obtain hk | hk := hplace k hk hkip <;> omega
      · exact heq
    · rw [hpss]
      split_ifs <;> rfl
    · rw [hpfd]
      split_ifs <;> rfl
    · split_ifs with hkip
      · intro _
        by_contra hinvalid
        rw [if_neg hinvalid] at hip'
        obtain hleft | hleft := hleft <;> omega
      · intro heq
        obtain hk | hk := hplace k hk hkip <;> omega
    · rw [← ht]
    · rw [← ht]
  have hpc : t.pc = .check i ip' := by rw [← ht]
  rw [ht]
  unfold EndInv
  rw [hpc]
  exact ⟨hwithin, hmoved⟩

/-! ### The thread -/

/-- Nothing happens to the entries. -/
theorem EndInv.congr (h : EndInv s) (hxp : s.xp.SameRegs s'.xp) (hpfd : s'.xp.pfd = s.xp.pfd)
    (hlog : s'.log = s.log) (hregs : s'.regs = s.regs) (hpc : s'.pc = s.pc) : EndInv s' := by
  have hleft : ∀ i ip, s'.Left i ip = s.Left i ip := left_congr hxp
  have hstays : ∀ i ip, s'.Stays i ip = s.Stays i ip := fun i ip => by
    unfold State.Stays
    rw [hleft, hpfd]
  unfold EndInv at h ⊢
  rw [hpc]
  simp only [hleft, hstays, hpfd, hlog, hxp.pss, hxp.count, hxp.max]
  split at h
  · exact ⟨h.1.congr hxp, h.2.congr hxp hlog hregs⟩
  · exact ⟨h.1.congr hxp, h.2.congr hxp hlog hregs⟩
  · exact ⟨h.1.congr hxp, h.2.congr hxp hlog hregs⟩
  · exact ⟨h.1.congr hxp, h.2.1, h.2.2.1, h.2.2.2.congr hxp hlog hregs⟩
  · exact ⟨h.1.congr hxp, h.2.1, h.2.2.congr hxp hlog hregs⟩
  · exact Known.congr h hxp hlog hregs
  · exact ⟨h.1, h.2.1, h.2.2.congr hxp hlog hregs⟩
  · exact h
  · exact ⟨h.1, h.2.congr hxp hlog hregs⟩

/-- Outside of passes and of the clean-up. -/
def Pc.Between : Pc → Prop
  | .queue | .adding .. | .idling | .poll | .polled _ | .turn => True
  | _ => False

theorem EndInv.of_between (h : EndInv s) (hpc : s.pc.Between) :
    s.xp.pfdMax = s.xp.pfdCount ∧ Known s (· < s.xp.pfdCount) fun _ => True := by
  obtain ⟨xp, pc, regs, log, ops, visited⟩ := s
  cases pc with
  | queue | adding | idling | poll | polled | turn => exact h
  | _ => exact hpc.elim

theorem EndInv.between (hmax : s.xp.pfdMax = s.xp.pfdCount)
    (hknown : Known s (· < s.xp.pfdCount) fun _ => True) (hxp : s.xp.SameRegs s'.xp)
    (hlog : s'.log = s.log) (hregs : s'.regs = s.regs) (hpc : s'.pc.Between) : EndInv s' := by
  have hmax' : s'.xp.pfdMax = s'.xp.pfdCount := by rw [hxp.max, hxp.count, hmax]
  have hknown' : Known s' (· < s'.xp.pfdCount) fun _ => True := by
    rw [hxp.count]
    exact hknown.congr hxp hlog hregs
  obtain ⟨xp, pc, regs, log, ops, visited⟩ := s'
  cases pc with
  | queue | adding | idling | poll | polled | turn => exact ⟨hmax', hknown'⟩
  | _ => exact hpc.elim

/-- A callback works on the table. -/
theorem EndInv.op {o : Op} (h : EndInv s) (hnext : next s (.op o) = some s') : EndInv s' := by
  obtain ⟨hin, rfl⟩ := of_next_op hnext
  have hxp := Table.sameRegs_apply o s.xp
  have hleft : State.Left { s with xp := o.apply s.xp, ops := s.ops ++ [o] } = s.Left :=
    funext fun i => funext (left_congr hxp i)
  obtain ⟨xp, pc, regs, log, ops, visited⟩ := s
  unfold EndInv at h ⊢
  cases pc with
  | adding | idling =>
    dsimp only at h ⊢
    rw [hxp.max, hxp.count]
    exact ⟨h.1, h.2.congr hxp rfl rfl⟩
  | calling i ip sock revent message =>
    dsimp only at h ⊢
    rw [hxp.count, hxp.pss, hleft]
    exact ⟨h.1.congr hxp, h.2.1, h.2.2.1, h.2.2.2.congr hxp rfl rfl⟩
  | deleting =>
    dsimp only at h ⊢
    rw [hxp.count, hxp.pss]
    exact ⟨h.1, h.2.1, h.2.2.congr hxp rfl rfl⟩
  | _ => exact hin.elim

/-- Behind the loop of a pass. -/
theorem EndInv.passed (h : s.Within i ip) (hknown : Known s (s.Stays i ip) (s.Left i ip))
    (hwhole : s.xp.running ≤ 0 → i = ip ∨
      i = ip + 1 ∧ sockValid (s.xp.pfd ip).fd = false ∧ Open s.log (s.xp.pss ip).reg) :
    EndInv { s with
      xp := if 0 < s.xp.running then { s.xp with pfdMax := ip, pfdCount := ip } else s.xp
      pc := .turn } := by
  by_cases hrun : 0 < s.xp.running
  · rw [if_pos hrun]
    refine ⟨rfl, ⟨hknown.once, hknown.about, fun k hk => ?_, fun k hk => ?_, fun k l hk hl => ?_,
      fun k hk _ => ?_⟩⟩
    · exact hknown.lt k (Or.inl (Or.inl hk))
    · exact hknown.same k (Or.inl (Or.inl hk))
    · exact hknown.inj k l (Or.inl (Or.inl hk)) (Or.inl (Or.inl hl))
    · exact hknown.isOpen k (Or.inl (Or.inl hk)) (Or.inl hk)
  · rw [if_neg hrun]
    have hplace : ∀ k < s.xp.pfdCount, s.Left i ip k ∨ k = ip ∧ i = ip + 1 ∧
        sockValid (s.xp.pfd ip).fd = false ∧ Open s.log (s.xp.pss ip).reg := by
      intro k hk
      obtain rfl | ⟨hi, hinvalid, hopen⟩ := hwhole (Int.not_lt.mp hrun)
      · exact Or.inl ((Nat.lt_or_ge k i).imp_right fun hle => ⟨hle, hk⟩)
      · obtain hlt | rfl | hle : k < ip ∨ k = ip ∨ i ≤ k := by omega
        · exact Or.inl (Or.inl hlt)
        · exact Or.inr ⟨rfl, hi, hinvalid, hopen⟩
        · exact Or.inl (Or.inr ⟨hle, hk⟩)
    have hstays : ∀ k < s.xp.pfdCount, s.Stays i ip k := fun k hk =>
      (hplace k hk).imp_right fun ⟨hkip, hi, hinvalid, _⟩ => ⟨hkip, hi, hinvalid⟩
    refine ⟨h.max, ⟨hknown.once, hknown.about, fun k hk => ?_, fun k hk => ?_, fun k l hk hl => ?_,
      fun k hk _ => ?_⟩⟩
    · exact hknown.lt k (hstays k hk)
    · exact hknown.same k (hstays k hk)
    · exact hknown.inj k l (hstays k hk) (hstays l hl)
    · obtain hleft | ⟨rfl, -, -, hopen⟩ := hplace k hk
      · exact hknown.isOpen k (hstays k hk) hleft
      · exact hopen

theorem EndInv.step (h : EndInv s) (hwhole : StopsWhole s .step) (hnext : s.step = some s') :
    EndInv s' := by
  have hrefl := Table.SameRegs.refl s.xp
  obtain ⟨xp, pc, regs, log, ops, visited⟩ := s
  cases pc with
  | queue =>
    obtain rfl := Option.some.inj hnext
    obtain ⟨hmax, hknown⟩ := h
    have hidle : ∀ x ∈ log, x.Allows .idle := fun x _ => by cases x <;> trivial
    have happend : Known _ (· < xp.pfdCount) fun _ => True :=
      hknown.append hidle (fun _ h => h.elim) fun _ _ _ => ⟨trivial, fun h => h⟩
    exact EndInv.between (s := ⟨xp, .queue, regs, log ++ [.idle], ops, visited⟩) hmax happend
      (Table.sameRegs_setrunning xp 3) rfl rfl trivial
  | polled rret =>
    obtain rfl := Option.some.inj hnext
    obtain ⟨hmax, hknown⟩ := h
    split_ifs
    · refine ⟨⟨hmax, le_rfl, Nat.zero_le _⟩, Known.congr ?_ hrefl rfl rfl⟩
      refine hknown.mono (fun k hk => ?_) fun _ _ _ => trivial
      obtain (hk | hk) | ⟨-, hk, -⟩ := hk
      · exact absurd hk (Nat.not_lt_zero k)
      · exact hk.2
      · cases hk
    · exact EndInv.between hmax hknown hrefl rfl rfl trivial
  | entry i ip =>
    have hnext : (if i < xp.pfdCount then _ else _) = some s' := hnext
    split_ifs at hnext with hi
    · exact EndInv.visit h.1 hi (h.2.mono (fun _ hk => Or.inl hk) fun _ hk _ => hk) hnext
    · obtain rfl := Option.some.inj hnext
      exact ⟨h.1.congr hrefl, h.2.congr hrefl rfl rfl⟩
  | compact i ip => exact EndInv.compact h.1 h.2.1 h.2.2 hnext
  | check i ip =>
    obtain rfl := Option.some.inj hnext
    obtain ⟨hwithin, hknown⟩ := h
    dsimp only
    split_ifs
    · exact ⟨hwithin.congr hrefl, hknown.congr hrefl rfl rfl⟩
    · exact ⟨hwithin.congr hrefl, hknown.congr hrefl rfl rfl⟩
  | passed i ip =>
    obtain rfl := Option.some.inj hnext
    exact EndInv.passed h.1 h.2 hwhole
  | cleaning i =>
    have hnext : (if i < xp.pfdCount then _ else _) = some s' := hnext
    split_ifs at hnext with hi
    · obtain rfl := Option.some.inj hnext
      have hknown : Known _ (fun k => i ≤ k ∧ k < xp.pfdCount) fun _ => True := h
      have hmem : i ≤ i ∧ i < xp.pfdCount := ⟨le_rfl, hi⟩
      have hcall := hknown.append_call hmem trivial .delete (xp.pfd i).fd (xp.pss i).sid
        (xp.pss i).cfd
      refine ⟨hi, fun hclose => ?_, ?_⟩
      · obtain hclose | hclose := List.mem_append.mp hclose
        · exact (hknown.isOpen i hmem trivial).notMem_close hclose
        · cases List.mem_singleton.mp hclose
      · refine Known.congr (hcall.mono (fun _ hk => hk) fun k _ hk => ?_) hrefl rfl rfl
        exact ⟨trivial, fun heq => absurd heq hk⟩
    · obtain rfl := Option.some.inj hnext
      exact h.once
  | _ => cases hnext

theorem EndInv.ret (h : EndInv s) (hclears : Clears s .ret) (hnext : s.ret = some s') :
    EndInv s' := by
  obtain ⟨xp, pc, regs, log, ops, visited⟩ := s
  cases pc with
  | adding i listener userdata =>
    obtain rfl := Option.some.inj hnext
    have hxp : xp.SameRegs
        (if listener = true then xp.setPss i ({ · with cfd := userdata }) else xp) := by
      split_ifs
      · exact Table.sameRegs_setPss xp i fun _ => rfl
      · exact Table.SameRegs.refl xp
    exact EndInv.between h.1 h.2 (hxp.trans (Table.sameRegs_setrunning _ 1)) rfl rfl trivial
  | idling =>
    obtain rfl := Option.some.inj hnext
    exact EndInv.between h.1 h.2 (Table.sameRegs_setrunning xp 1) rfl rfl trivial
  | calling i ip sock revent message =>
    obtain rfl := Option.some.inj hnext
    exact EndInv.called h.1 h.2.1 h.2.2.1 h.2.2.2 hclears
  | deleting i sock =>
    obtain rfl := Option.some.inj hnext
    obtain ⟨hi, hclose, hknown⟩ := h
    have hclosed := hknown.close ⟨le_rfl, hi⟩ hclose sock
    refine Known.congr (hclosed.mono (fun k hk => ⟨?_, hk.2⟩) fun k hk _ => ?_)
      (Table.SameRegs.refl _) rfl rfl
    · exact Nat.le_of_succ_le hk.1
    · have hne : k ≠ i := Nat.ne_of_gt hk.1
      exact ⟨hne, hne⟩
  | _ => cases hnext

/-- A step keeps the invariant. -/
theorem EndInv.next {a : Act} (h : EndInv s) (hclears : Clears s a) (hwhole : StopsWhole s a)
    (hnext : next s a = some s') : EndInv s' := by
  cases a with
  | add sock userdata listener =>
    obtain ⟨hpc, -, hadd⟩ := of_next_add hnext
    obtain ⟨hmax, hknown⟩ := h.of_between (by rw [hpc]; trivial)
    obtain ⟨⟨i, hpc'⟩, hadded⟩ := internaladd_added hmax hwhole hadd
    have hmax' : s'.xp.pfdMax = s'.xp.pfdCount := by rw [hadded.max, hadded.count, hmax]
    exact EndInv.between hmax' (hknown.added hadded) (Table.SameRegs.refl _) rfl rfl
      (by rw [hpc']; trivial)
  | poll rret revents =>
    obtain ⟨hpc, rfl⟩ := of_next_poll hnext
    obtain ⟨hmax, hknown⟩ := h.of_between (by rw [hpc]; trivial)
    have hone := Table.sameRegs_setrunning s.xp 1
    refine EndInv.between hmax hknown ⟨hone.max, hone.count, fun k => ?_, hone.pss⟩ rfl rfl trivial
    dsimp only
    split_ifs <;> rfl
  | op o => exact h.op hnext
  | ret => exact h.ret hclears hnext
  | step => exact h.step hwhole hnext
  | again processing =>
    obtain ⟨hpc, rfl⟩ := of_next_again hnext
    obtain ⟨hmax, hknown⟩ := h.of_between (by rw [hpc]; trivial)
    split_ifs
    · exact EndInv.between hmax hknown (Table.SameRegs.refl _) rfl rfl trivial
    · have hxp := Table.sameRegs_setrunning s.xp (-1)
      have hknown' : Known { s with xp := s.xp.setrunning (-1), pc := .cleaning 0 } _ _ :=
        hknown.congr hxp rfl rfl
      refine hknown'.mono (fun k hk => ?_) fun _ _ _ => trivial
      rw [← hxp.count]
      exact hk.2
  | stop =>
    obtain rfl := Option.some.inj hnext
    exact h.congr ⟨rfl, rfl, fun _ => rfl, fun _ => rfl⟩ rfl rfl rfl rfl

end Steps

theorem endInv_init (n : ℕ) : EndInv (init n) := by
  refine ⟨rfl, List.Pairwise.nil, fun e he => ?_, fun k hk => ?_, fun k hk => ?_, fun k l hk => ?_,
    fun k hk => ?_⟩
  · cases he
  all_goals exact absurd hk (Nat.not_lt_zero k)

/-- In every run of a thread, whatever is added, whatever `poll` says and whenever it is stopped,
every entry ends once, as long as the steps meet the condition. -/
theorem endsOnce_of_stopsWhole (n : ℕ) {s : State}
    (h : Runs next (fun s a => Clears s a ∧ StopsWhole s a) (init n) s) : EndsOnce s.log :=
  (h.invariant (endInv_init n) fun _ _ _ hinv hok hnext => hinv.next hok.1 hok.2 hnext).once

/-- A callback works on its own token only. -/
def OwnToken (s : State) : Act → Prop
  | .op o =>
    match s.pc with
    | .adding i .. | .calling i .. | .deleting i _ => o.xptoken = (s.xp.pss i).sid
    | _ => False
  | _ => True

/-- `OwnToken` in an operation, for every place of the thread. -/
def decidableOp (s : State) (o : Op) : (pc : Pc) → Decidable (OwnToken { s with pc := pc } (.op o))
  | .adding .. | .calling .. | .deleting .. => inferInstanceAs (Decidable (_ = _))
  | .queue | .idling | .poll | .polled _ | .entry .. | .compact .. | .check .. | .passed ..
  | .turn | .cleaning _ | .done => .isFalse id

instance (s : State) : DecidablePred (OwnToken s)
  | .op o => decidableOp s o s.pc
  | .add .. | .poll .. | .ret | .step | .again _ | .stop => .isTrue trivial

/-- Two connections are added, and the first can be read. -/
def twoAdded : List Act :=
  [.add 5 7 false, .ret, .add 6 8 false, .ret, .step, .ret,
    .poll 1 fun i => if i = 0 then POLLIN else 0, .step, .step]

/-- The callback clears the first token; the thread is stopped while it visits the other entry. -/
def stoppedBehind : List Act :=
  twoAdded ++ [.op (.clear 0), .ret, .step, .step, .step, .stop, .step, .step, .step,
    .again true, .step, .ret, .step]

/-- The thread is stopped while it visits the entry that was cleared. -/
def stoppedThere : List Act :=
  twoAdded ++ [.op (.clear 0), .ret, .stop, .step, .step, .step, .again true, .step, .ret, .step,
    .ret, .step]

/-- A run of the condition, in which the thread is stopped in a pass. -/
theorem endsOnce_of_stopsWhole_stopped : ∃ s : State, s.pc = .done ∧ EndsOnce s.log := by
  obtain ⟨s, hs, hdone⟩ : ∃ s, Runs next (fun s a => Clears s a ∧ StopsWhole s a) (init 2) s ∧
      s.pc = .done :=
    exists_runs_of_runSchedule stoppedThere (by decide +kernel)
  exact ⟨s, hdone, endsOnce_of_stopsWhole 2 hs⟩

/-- A connection is notified twice, and so it is closed twice. -/
theorem not_endsOnce : ¬∀ n s,
    Runs next (fun s a => Clears s a ∧ OwnToken s a) (init n) s → EndsOnce s.log := by
  intro hall
  obtain ⟨s, hs, hnot⟩ : ∃ s, Runs next (fun s a => Clears s a ∧ OwnToken s a) (init 2) s ∧
      ¬EndsOnce s.log :=
    exists_runs_of_runSchedule stoppedBehind (by decide +kernel)
  exact hnot (hall 2 s hs)

end Poll

end Webxs
