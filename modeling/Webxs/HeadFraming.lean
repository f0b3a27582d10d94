import Webxs.Scanning
import Mathlib.Order.Bounds.Basic

/-!
# The end of a head

A head ends at the first LF LF or LF CR LF. `xs_http_validrequest` looks one or two bytes ahead for
it, and at every byte but the last whether it may stand in a head. What it stops at is the first
place that decides (`httpValidLoop_stops`), so its answer is the least length at which a head ends
(`httpValidrequest_frames`), and stays when more bytes arrive.
-/

namespace Webxs

/-- The first `k` bytes end in LF LF or LF CR LF, which begins at `s`. -/
def HeadEnd (b : List UInt8) (s k : ℕ) : Prop :=
  b[s]? = some 10 ∧ (b[s + 1]? = some 10 ∧ k = s + 2 ∨
    b[s + 1]? = some 13 ∧ b[s + 2]? = some 10 ∧ k = s + 3)

/-- The first `k` bytes are framed as a head : they end as one, and all bytes before that are
allowed. -/
def FramedAt (b : List UInt8) (k : ℕ) : Prop :=
  ∃ s, HeadEnd b s k ∧ ∀ i a, i < s → b[i]? = some a → httpOkchar a = true

/-- A byte that is not allowed comes before the end of a head, and is not the last one. -/
def BadByte (b : List UInt8) : Prop :=
  ∃ i a, b[i]? = some a ∧ httpOkchar a = false ∧ i + 1 < b.length ∧ ∀ s k, HeadEnd b s k → i < s

/-- The bytes before `t` decide nothing. -/
def Undecided (b : List UInt8) (t : ℕ) : Prop :=
  ∀ i < t, (∀ a, b[i]? = some a → httpOkchar a = true) ∧ ∀ k, ¬HeadEnd b i k

variable {b : List UInt8} {s t k l : ℕ} {r : ℤ}

theorem HeadEnd.lt (h : HeadEnd b s k) : s < k := by
  obtain ⟨-, ⟨-, rfl⟩ | ⟨-, -, rfl⟩⟩ := h <;> omega

theorem HeadEnd.unique (h : HeadEnd b s k) (h' : HeadEnd b s l) : k = l := by
  obtain ⟨-, ⟨hb, rfl⟩ | ⟨hb, -, rfl⟩⟩ := h <;> obtain ⟨-, ⟨hb', rfl⟩ | ⟨hb', -, rfl⟩⟩ := h'
  · rfl
  · rw [hb] at hb'
    cases hb'
  · rw [hb] at hb'
    cases hb'
  · rfl

/-- Of two heads the one that begins to end first is the shorter one. -/
theorem HeadEnd.mono (h : HeadEnd b s k) (h' : HeadEnd b t l) (hst : s ≤ t) : k ≤ l := by
  obtain rfl | hlt := Nat.eq_or_lt_of_le hst
  · exact (h.unique h').le
  · obtain ⟨-, ⟨-, rfl⟩ | ⟨hb, -, rfl⟩⟩ := h
    · have := h'.lt
      omega
    · -- the byte behind `s` is no LF
      have hne : t ≠ s + 1 := by
        rintro rfl
        rw [h'.1] at hb
        cases hb
      have := h'.lt
      omega

theorem Undecided.succ (h : Undecided b t) {a : UInt8} (ha : b[t]? = some a)
    (hok : httpOkchar a = true) (hend : ∀ k, ¬HeadEnd b t k) : Undecided b (t + 1) := by
  intro i hi
  obtain rfl | hlt := Nat.eq_or_lt_of_le (Nat.le_of_lt_succ hi)
  · refine ⟨fun a' ha' => ?_, hend⟩
    rw [ha] at ha'
    rwa [← Option.some.inj ha']
  · exact h i hlt

/-- What the scan stops at : a byte that is not allowed, the end of a head, or the last byte. -/
inductive ScanStop (b : List UInt8) (t : ℕ) : ℤ → Prop
  | bad {a : UInt8} : b[t]? = some a → httpOkchar a = false → t + 1 < b.length → ScanStop b t (-1)
  | frame {k : ℕ} : HeadEnd b t k → ScanStop b t k
  | rest : b.length ≤ t + 1 → ScanStop b t 0

theorem httpValidLoop_stops (b : List UInt8) (n : ℕ) :
    ∀ s, b.length ≤ s + n + 1 → n = 0 ∨ s + n < b.length → Undecided b s →
      ∃ t r, httpValidLoop b n s = some r ∧ Undecided b t ∧ ScanStop b t r := by
  induction n with
  | zero => exact fun s hle _ hs => ⟨s, 0, rfl, hs, .rest hle⟩
  | succ n ih =>
    intro s hle hlt hs
    obtain ⟨a, ha⟩ := exists_getElem? (l := b) (i := s) (by omega)
    obtain ⟨b', hb'⟩ := exists_getElem? (l := b) (i := s + 1) (by omega)
    have hnext := fun (hok : httpOkchar a = true) hend =>
      ih (s + 1) (by omega) (by omega) (hs.succ ha hok hend)
    simp only [httpValidLoop, ha, hb', Option.bind_eq_bind, Option.bind_some]
    split_ifs with hok hlf hlf' hcr
    · exact ⟨s, _, rfl, hs, .bad ha hok (by omega)⟩
    · exact ⟨s, _, rfl, hs, .frame ⟨by rw [ha, hlf], .inl ⟨by rw [hb', hlf'], rfl⟩⟩⟩
    · obtain ⟨c, hc⟩ := exists_getElem? (l := b) (i := s + 2) (by omega)
      rw [hc, Option.bind_some]
      split_ifs with hlf''
      · exact ⟨s, _, rfl, hs, .frame ⟨by rw [ha, hlf], .inr ⟨by rw [hb', hcr.2],
          by rw [hc, hlf''], rfl⟩⟩⟩
      · refine hnext (Bool.of_not_eq_false hok) ?_
        rintro k ⟨-, ⟨h, -⟩ | ⟨-, h, -⟩⟩
        · exact hlf' (Option.some.inj (hb'.symm.trans h))
        · exact hlf'' (Option.some.inj (hc.symm.trans h))
    · refine hnext (Bool.of_not_eq_false hok) ?_
      rintro k ⟨-, ⟨h, -⟩ | ⟨h, h', -⟩⟩
      · exact hlf' (Option.some.inj (hb'.symm.trans h))
      · -- the third byte is there
        have hlen := (List.getElem?_eq_some_iff.mp h').1
        exact hcr ⟨by omega, Option.some.inj (hb'.symm.trans h)⟩
    · refine hnext (Bool.of_not_eq_false hok) ?_
      rintro k ⟨h, -⟩
      exact hlf (Option.some.inj (ha.symm.trans h))

theorem httpValidrequest_stops (b : List UInt8) :
    ∃ t r, httpValidrequest b b.length = some r ∧ Undecided b t ∧ ScanStop b t r :=
  httpValidLoop_stops b _ 0 (by omega) (by omega) fun _ hi => absurd hi (Nat.not_lt_zero _)

/-- Nothing ends in front of the place where the scan stops. -/
theorem Undecided.le (h : Undecided b t) (hend : HeadEnd b s k) : t ≤ s := by
  by_contra hlt
  exact (h s (Nat.lt_of_not_le hlt)).2 k hend

theorem HeadEnd.ne_bad (h : HeadEnd b s k) {a : UInt8} (ha : b[t]? = some a)
    (hbad : httpOkchar a = false) : t ≠ s := by
  rintro rfl
  rw [h.1] at ha
  obtain rfl := Option.some.inj ha
  cases hbad

/-- The scan finds the least length at which a head is framed. -/
theorem ScanStop.eq_iff (h : ScanStop b t r) (ht : Undecided b t) (hk : 0 < k) :
    r = k ↔ IsLeast {k | FramedAt b k} k := by
  cases h with
  | bad ha hbad _ =>
    refine iff_of_false (by omega) ?_
    rintro ⟨⟨s, hend, hok⟩, -⟩
    have hlt : t < s := Nat.lt_of_le_of_ne (ht.le hend) (hend.ne_bad ha hbad)
    rw [hok t _ hlt ha] at hbad
    cases hbad
  | frame hend =>
    rename_i l
    have hleast : IsLeast {k | FramedAt b k} l := by
      refine ⟨⟨t, hend, fun i a hi ha => (ht i hi).1 a ha⟩, ?_⟩
      rintro m ⟨s, hend', -⟩
      exact hend.mono hend' (ht.le hend')
    rw [Int.natCast_inj]
    exact ⟨fun heq => heq ▸ hleast, hleast.unique⟩
  | rest hlen =>
    refine iff_of_false (by omega) ?_
    rintro ⟨⟨s, hend, -⟩, -⟩
    have hle := ht.le hend
    obtain ⟨-, ⟨h, -⟩ | ⟨h, -⟩⟩ := hend
    all_goals
      have hlt := (List.getElem?_eq_some_iff.mp h).1
      omega

theorem ScanStop.neg_iff (h : ScanStop b t r) (ht : Undecided b t) : r = -1 ↔ BadByte b := by
  cases h with
  | bad ha hbad hlen =>
    refine iff_of_true rfl ⟨t, _, ha, hbad, hlen, fun s k hend => ?_⟩
    exact Nat.lt_of_le_of_ne (ht.le hend) (hend.ne_bad ha hbad)
  | frame hend =>
    refine iff_of_false (by omega) ?_
    rintro ⟨i, a, ha, hbad, -, hbefore⟩
    rw [(ht i (hbefore t _ hend)).1 a ha] at hbad
    cases hbad
  | rest hlen =>
    refine iff_of_false (by omega) ?_
    rintro ⟨i, a, ha, hbad, hlt, -⟩
    rw [(ht i (by omega)).1 a ha] at hbad
    cases hbad

/-- `xs_http_validrequest` of any bytes : a positive answer is the least length at which a head is
framed, -1 says that a byte comes before that may not, and there is no other answer but 0. An answer
other than 0 stays, whatever follows. -/
theorem httpValidrequest_frames (b : List UInt8) : ∃ r, httpValidrequest b b.length = some r ∧
    (∀ k : ℕ, 0 < k → (r = k ↔ IsLeast {k | FramedAt b k} k)) ∧ (r = -1 ↔ BadByte b) ∧
    (r = 0 ∨ r = -1 ∨ 0 < r) ∧
    (r ≠ 0 → ∀ c, httpValidrequest (b ++ c) (b ++ c).length = some r) := by
  obtain ⟨t, r, hr, ht, hstop⟩ := httpValidrequest_stops b
  refine ⟨r, hr, fun k => hstop.eq_iff ht, hstop.neg_iff ht, ?_, fun hne c => ?_⟩
  · cases hstop with
    | bad => exact .inr (.inl rfl)
    | frame hend =>
      have := hend.lt
      exact .inr (.inr (by omega))
    | rest => exact .inl rfl
  · have hscan : headScan b = some r := by
      rw [headScan, hr, Option.filter_some, if_pos (by simpa using hne)]
    rw [httpValidrequest_eq, headScan_incremental b c r hscan, Option.getD_some]

end Webxs
