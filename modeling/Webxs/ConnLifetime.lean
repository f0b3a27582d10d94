import Webxs.ConnLedger

/-!
# No connection is used after it was freed

Whatever the threads do, and in whatever order, a connection is closed and freed once, when
nothing leads to it any more (`safe_of_reachable`). This does not hold of the one address that
is not counted : a socket in the accept queue comes with the connection it was accepted at.
That one is still there if no poll thread gives up a listening connection before the sockets
it accepted are taken up (`listener_open`), and may have been freed otherwise
(`not_listener_open`).
-/

open Interleaving RefCount

namespace Webxs

namespace ConnLife

variable {ι : Type*} {n : ℕ} [Fintype ι] {c : State ι n} {x : Pc n}

/-! ## What this says of the connections -/

/-- The connection that the thread is at. -/
def Pc.conn : Pc n → Option ℕ
  | .new _ (.own p) | .inc _ p | .setup _ p | .handle _ _ p | .call _ p | .push _ p => some p
  | .answered _ _ _ p | .check _ p | .dec _ p | .close _ p | .test _ p | .free _ p => some p
  | _ => none

/-- Something leads to the connection : a slot that is not about to be cleared, one of the
queues, or a thread. -/
def Referred (c : State ι n) (p : ℕ) : Prop :=
  (∃ it, counted c.shared.cfd c.pc it = some p) ∨ p ∈ c.shared.q ∨
    .own p ∈ c.shared.acceptqueue ∨ ∃ i, (c.pc i).conn = some p

/-- What holds of the connections, whatever the threads do. -/
structure Safe (c : State ι n) : Prop where
  /-- The count is the number of slots, entries of the queue and threads that hold it. -/
  count : ∀ p, (c.shared.objs p).refcount =
    (tally (refers p) (counted c.shared.cfd c.pc) + c.shared.q.count p +
      tally (Pc.held p) c.pc + tally (Pc.raised p) c.pc : ℕ)
  /-- A connection is closed and freed once at most. -/
  once : ∀ p, (c.shared.objs p).closed ≤ 1 ∧ (c.shared.objs p).freed ≤ 1
  /-- A connection is freed when nothing leads to it any more, and not before. -/
  freed : ∀ p, (c.shared.objs p).freed = 1 ↔ p < c.shared.made ∧ ¬ Referred c p
  /-- Only the thread that is to free a connection is at one that was closed. -/
  closed : ∀ i p, (c.pc i).conn = some p → (c.pc i).shut p = 0 → (c.shared.objs p).closed = 0
  /-- The assertion of `xs_async_handler`. -/
  token : ∀ i t m p, c.pc i = .handle t m p → (c.shared.objs p).token = t
  /-- `xs_conn_dec` does not complain. -/
  check : ∀ i k p, c.pc i = .check k p → (c.shared.objs p).refcount ≠ 0

theorem Role.worker_or_slot (r : Role n) :
    r = .worker ∨ ∀ p, ∃ t, (Pc.call r p).slot = some (t, some p) ∧
      (Pc.push r p).slot = some (t, some p) := by
  cases r with
  | worker => exact .inl rfl
  | handler t m | error t | close t => exact .inr fun p => ⟨t, rfl, rfl⟩

/-- A thread that is at a connection is at the slot it is in, or has it in one of the ways of
the ledger. -/
theorem Pc.conn_cases {p : ℕ} (h : x.conn = some p) :
    (∃ t, x.slot = some (t, some p) ∧ x.released = none) ∨ 0 < x.held p ∨
      0 < x.fresh p ∨ 0 < x.raised p ∨ 0 < x.dying p ∨ 0 < x.shut p := by
  cases x with
  | new t qs => cases qs <;> simp_all [conn, fresh]
  | inc t q => simp_all [conn, fresh]
  | setup t q => simp_all [conn, raised]
  | handle t m q | answered t m closes q => simp_all [conn, slot, released]
  | call r q | push r q =>
    obtain rfl := Option.some.inj h
    obtain rfl | hr := r.worker_or_slot
    · simp [held]
    · obtain ⟨t, hcall, hpush⟩ := hr q
      exact .inl ⟨t, ‹_›, rfl⟩
  | check k q | dec k q => cases k <;> simp_all [conn, slot, released, held]
  | close k q => simp_all [conn, dying]
  | test k q | free k q => simp_all [conn, shut]
  | idle | clear t => simp [conn] at h

theorem Pc.of_conn_ne {p : ℕ} (h : x.conn ≠ some p) :
    x.held p = 0 ∧ x.fresh p = 0 ∧ x.raised p = 0 ∧ x.dying p = 0 ∧ x.shut p = 0 := by
  cases x with
  | new t qs => cases qs <;> simp_all [conn, held, fresh, raised, dying, shut]
  | call r q | push r q => cases r <;> simp_all [conn, held, fresh, raised, dying, shut]
  | check k q | dec k q => cases k <;> simp_all [conn, held, fresh, raised, dying, shut]
  | _ => simp_all [conn, held, fresh, raised, dying, shut]

/-- A thread that is at a connection stands in its ledger. -/
theorem Inv.of_conn (hi : Inv c) {i : ι} {p : ℕ} (h : (c.pc i).conn = some p) :
    0 < (ledger c p).refs ∨ 0 < (ledger c p).fresh + (ledger c p).raised ∨
      0 < (ledger c p).dying ∨ 0 < (c.pc i).shut p ∧ 0 < (ledger c p).shut := by
  have hfresh := le_tally (Pc.fresh p) c.pc i
  have hraised := le_tally (Pc.raised p) c.pc i
  have hdying := le_tally (Pc.dying p) c.pc i
  have hshut := le_tally (Pc.shut p) c.pc i
  rcases Pc.conn_cases h with ⟨t, hslot, hr⟩ | hheld | hpos | hpos | hpos | hpos
  · exact .inl (refs_pos_of_counted (counted_of_slot (hi.slots i) hslot hr))
  · exact .inl (refs_pos_of_held hheld)
  all_goals
    simp only [ledger]
    omega

/-- What leads to a connection stands in its ledger, and there is nothing else in it. -/
theorem Inv.referred_iff (hi : Inv c) (p : ℕ) : Referred c p ↔
    0 < (ledger c p).refs + (ledger c p).fresh + (ledger c p).raised + (ledger c p).dying +
      (ledger c p).shut := by
  constructor
  · rintro (⟨it, hit⟩ | hq | hacc | ⟨i, hconn⟩)
    · have := refs_pos_of_counted hit
      omega
    · have := List.count_pos_iff.mpr hq
      simp only [ledger]
      omega
    · have := List.count_pos_iff.mpr hacc
      simp only [ledger]
      omega
    · have := hi.of_conn hconn
      omega
  · intro h
    by_contra hn
    simp only [Referred, not_or, not_exists] at hn
    obtain ⟨hslots, hq, hacc, hpc⟩ := hn
    have hzero := fun i => Pc.of_conn_ne (hpc i)
    have hslots' : tally (refers p) (counted c.shared.cfd c.pc) = 0 :=
      tally_eq_zero fun it => if_neg (hslots it)
    have hheld := tally_eq_zero (w := Pc.held p) fun i => (hzero i).1
    have hfresh := tally_eq_zero (w := Pc.fresh p) fun i => (hzero i).2.1
    have hraised := tally_eq_zero (w := Pc.raised p) fun i => (hzero i).2.2.1
    have hdying := tally_eq_zero (w := Pc.dying p) fun i => (hzero i).2.2.2.1
    have hshut := tally_eq_zero (w := Pc.shut p) fun i => (hzero i).2.2.2.2
    have hq' := List.count_eq_zero_of_not_mem hq
    have hacc' := List.count_eq_zero_of_not_mem hacc
    simp only [ledger] at h
    omega

variable [DecidableEq ι]

/-- Whatever the threads do, the connections are safe. -/
theorem safe_of_reachable (h : Reachable next start c) : Safe c := by
  have hi := inv_of_reachable h
  refine ⟨fun p => by simpa [ledger] using (hi.sound p).count,
    fun p => ⟨(hi.sound p).closed_le, (hi.sound p).freed_le⟩, fun p => ?_,
    fun i p hconn hshut => ?_, fun i t m p hx => ?_, fun i k p hx => ?_⟩
  · -- the stage of `p` is one of those of `referred_iff`, or it was freed
    have hstage := (hi.sound p).stage
    have hmade : (ledger c p).made = 1 ↔ p < c.shared.made := by
      simp only [ledger, isMade]
      split_ifs <;> simp_all
    have hle := (hi.sound p).made
    rw [hi.referred_iff, ← hmade]
    show (ledger c p).freed = 1 ↔ _
    omega
  · rcases hi.of_conn hconn with hl | hl | hl | ⟨hl, -⟩
    · exact ((hi.sound p).alive hl).2.1
    · exact ((hi.sound p).of_first hl).2.1
    · exact ((hi.sound p).of_dying hl).2.1
    · omega
  · exact hi.token i t p (counted_of_slot (hi.slots i) (by rw [hx]; rfl) (by rw [hx]; rfl))
  · have hpos : 0 < (ledger c p).refs := by
      cases k with
      | none => exact refs_pos_of_held (i := i) (by simp [hx, Pc.held])
      | some t =>
        exact refs_pos_of_counted
          (counted_of_slot (hi.slots i) (t := t) (by rw [hx]; rfl) (by rw [hx]; rfl))
    exact ((hi.sound p).alive hpos).1.ne'

/-- A connection is registered, a socket is accepted at it, and the callback of the accepted
connection puts it into the queue and ends it. -/
def served (i : ι) (t t' : Fin n) : List (ι × Act n) :=
  [(i, .offer), (i, .take t), (i, .go), (i, .go), (i, .go), (i, .go), (i, .ret false), (i, .go),
    (i, .accept t), (i, .take t'), (i, .go), (i, .go), (i, .go), (i, .go), (i, .work), (i, .go),
    (i, .ret true), (i, .go), (i, .ret false), (i, .ret false), (i, .go), (i, .go), (i, .go)]

/-- A worker runs its callback on the connection and gives it up. -/
def worked (i : ι) : List (ι × Act n) :=
  [(i, .pop), (i, .ret false), (i, .go), (i, .go), (i, .go), (i, .go), (i, .go)]

theorem safe_of_reachable_worked : ∃ c : State (Fin 2) 2, Reachable next start c ∧
    ((c.shared.objs 0).refcount = 1 ∧ (c.shared.objs 1).freed = 1) ∧ Safe c := by
  have h : ∃ c : State (Fin 2) 2, Reachable next start c ∧
      ((c.shared.objs 0).refcount = 1 ∧ (c.shared.objs 1).freed = 1) :=
    exists_runs_of_runSchedule (served 0 0 1 ++ worked 1) (by decide)
  obtain ⟨c, hrun, hfreed⟩ := h
  exact ⟨c, hrun, hfreed, safe_of_reachable hrun⟩

/-! ## The listening connections -/

/-- A socket that was accepted at the connection `l` has still to be taken up. -/
def Waits (c : State ι n) (l : ℕ) : Prop :=
  .accepted l ∈ c.shared.acceptqueue ∨ ∃ i t, c.pc i = .new t (.accepted l)

instance (c : State ι n) (l : ℕ) : Decidable (Waits c l) := by
  unfold Waits
  infer_instance

/-- A poll thread gives up no connection for which an accepted socket waits. -/
def Keeps (c : State ι n) (ia : ι × Act n) : Prop :=
  match c.pc ia.1 with
  | .dec (some _) l => ¬ Waits c l
  | _ => True

instance (c : State ι n) (ia : ι × Act n) : Decidable (Keeps c ia) := by
  unfold Keeps
  split <;> infer_instance

/-- While a socket waits for a connection, a slot counts for it. -/
theorem counted_of_waits (h : Runs next Keeps start c) {l : ℕ} (hw : Waits c l) :
    ∃ it, counted c.shared.cfd c.pc it = some l := by
  induction h with
  | start => simp [Waits, start] at hw
  | @step c c' ia hc hkeeps hn ih =>
    have hi := inv_of_reachable (hc.mono fun _ _ _ => trivial)
    obtain ⟨i, a⟩ := ia
    obtain ⟨s', y, hstep, rfl⟩ := threadNext_eq_some hn
    have heff := effect_of_step hstep
    -- the slot was counted before, and this step does not take the count back
    have hold : (∃ it, counted c.shared.cfd c.pc it = some l) ∧ ∀ t, c.pc i ≠ .dec (some t) l := by
      by_cases hwc : Waits c l
      · refine ⟨ih hwc, fun t ht => ?_⟩
        simp only [Keeps, ht] at hkeeps
        exact hkeeps hwc
      · have hmove : (.accepted l ∈ s'.acceptqueue ∨ ∃ t, y = .new t (.accepted l)) ∨
            Waits c l := by
          rcases hw with hw | ⟨j, t, hj⟩
          · exact .inl (.inl hw)
          · rcases eq_or_ne j i with rfl | hne
            · exact .inl (.inr ⟨t, by simpa only [Function.update_self] using hj⟩)
            · exact .inr (.inr ⟨j, t, by simpa only [Function.update_of_ne hne] using hj⟩)
        rcases heff.waits (hmove.resolve_right hwc) with (hq | ⟨t, ht⟩) | ⟨hidle, t, ht⟩
        · exact absurd (.inl hq) hwc
        · exact absurd (.inr ⟨i, t, ht⟩) hwc
        · refine ⟨⟨(i, t), ?_⟩, fun u hu => by simp [hidle] at hu⟩
          simpa only [counted, hidle, Pc.released, reduceCtorEq, if_false] using ht
    obtain ⟨⟨it, hit⟩, hdec⟩ := hold
    rcases heff.counted_keeps rfl (hi.slots i) hit with hkept | ⟨t, ht⟩
    · exact ⟨it, hkept⟩
    · exact absurd ht (hdec t)

/-- What a thread that takes up an accepted socket reads of the listening connection is there. -/
theorem listener_open (h : Runs next Keeps start c) {l : ℕ} (hw : Waits c l) :
    0 < (c.shared.objs l).refcount ∧ (c.shared.objs l).closed = 0 ∧
      (c.shared.objs l).freed = 0 := by
  obtain ⟨it, hit⟩ := counted_of_waits h hw
  have hi := inv_of_reachable (h.mono fun _ _ _ => trivial)
  exact (hi.sound l).alive (refs_pos_of_counted hit)

theorem listener_open_served : ∃ c : State (Fin 2) 2, Runs next Keeps start c ∧ Waits c 0 ∧
    0 < (c.shared.objs 0).refcount ∧ (c.shared.objs 0).closed = 0 ∧
      (c.shared.objs 0).freed = 0 := by
  have h : ∃ c : State (Fin 2) 2, Runs next Keeps start c ∧ Waits c 0 :=
    exists_runs_of_runSchedule ((served 0 0 1).take 9) (by decide)
  obtain ⟨c, hrun, hwaits⟩ := h
  exact ⟨c, hrun, hwaits, listener_open hrun hwaits⟩

/-- An error at the listening socket ends its connection, and the socket that was accepted
before is taken up with the address of a connection that was freed. -/
theorem not_listener_open : ∃ c : State (Fin 2) 2, Reachable next start c ∧
    c.pc 0 = .new 0 (.accepted 0) ∧ (c.shared.objs 0).freed = 1 :=
  exists_runs_of_runSchedule
    ((served 0 0 1).take 9 ++ [(0, .message 0 .error), (0, .go), (0, .ret false), (0, .go),
      (0, .go), (0, .go), (0, .go), (0, .go), (0, .go), (0, .go), (0, .take 0)]) (by decide)

end ConnLife

end Webxs
