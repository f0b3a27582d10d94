import Mathlib.Tactic.FinCases
import Mathlib.Tactic.IntervalCases
import Mathlib.Tactic.Ring
import Webxs.Sha1

/-!
# The rounds of SHA-1 in place

Two things are in other places in `SHA1Transform` than in the standard. The word of round `t` is in
the ring of sixteen words, which holds the last sixteen of the schedule and behind them those
words of the block that no round has swapped yet (`RingHolds`). And the five variables stay where
they are while their parts in a round are handed on : `view i` lists them in the order in which
round `i` takes them, and one round in place is one round of the standard on that list
(`view_roundMacro`). After eighty rounds, a multiple of five, they have come round
(`SHA1Transform_eq`).
-/

namespace Webxs

namespace Sha1

/-! ## Words -/

theorem rol_one (x : BitVec 32) : rol x 1 = x.rotateLeft 1 := rfl

theorem rol_five (x : BitVec 32) : rol x 5 = x.rotateLeft 5 := rfl

theorem rol_thirty (x : BitVec 32) : rol x 30 = x.rotateLeft 30 := rfl

/-- The bytes of a word are turned round. -/
theorem swap_beWord (b₀ b₁ b₂ b₃ : UInt8) :
    (rol (beWord b₃ b₂ b₁ b₀) 24 &&& 0xFF00FF00) ||| (rol (beWord b₃ b₂ b₁ b₀) 8 &&& 0x00FF00FF) =
      beWord b₀ b₁ b₂ b₃ := by
  refine BitVec.eq_of_getLsbD_eq fun i hi => ?_
  unfold beWord rol
  simp only [BitVec.getLsbD_or, BitVec.getLsbD_and, BitVec.getLsbD_shiftLeft,
    BitVec.getLsbD_ushiftRight, BitVec.getLsbD_append]
  interval_cases i <;> simp

/-- `R0` and `R1` choose between two words. -/
theorem choose_eq (w x y : BitVec 32) :
    (w &&& (x ^^^ y)) ^^^ y = (w &&& x) ^^^ (~~~w &&& y) := by
  ext i hi
  simp only [BitVec.getElem_xor, BitVec.getElem_and, BitVec.getElem_not]
  rcases w[i] with _ | _ <;> rcases x[i] with _ | _ <;> rcases y[i] with _ | _ <;> rfl

/-- `R3` takes the majority of three words. -/
theorem majority_eq (w x y : BitVec 32) :
    ((w ||| x) &&& y) ||| (w &&& x) = (w &&& x) ^^^ (w &&& y) ^^^ (x &&& y) := by
  ext i hi
  simp only [BitVec.getElem_xor, BitVec.getElem_and, BitVec.getElem_or]
  rcases w[i] with _ | _ <;> rcases x[i] with _ | _ <;> rcases y[i] with _ | _ <;> rfl

/-! ## The ring -/

theorem ringIdx_eq (i : ℕ) : (ringIdx i : ℕ) = i % 16 :=
  Nat.and_two_pow_sub_one_eq_mod i 4

theorem ringIdx_eq_iff {i j : ℕ} : ringIdx i = ringIdx j ↔ i % 16 = j % 16 := by
  rw [Fin.ext_iff, ringIdx_eq, ringIdx_eq]

theorem get_eq_getElem {α : Type*} {n : ℕ} (v : Vector α n) (i : Fin n) :
    v.get i = v[(i : ℕ)] := rfl

theorem get_ofFn {α : Type*} {n : ℕ} (f : Fin n → α) (i : Fin n) : (Vector.ofFn f).get i = f i := by
  rw [get_eq_getElem, Vector.getElem_ofFn]

theorem get_set {α : Type*} {n : ℕ} (v : Vector α n) (i j : Fin n) (x : α) :
    (v.set i x).get j = if i = j then x else v.get j := by
  rw [get_eq_getElem, Vector.getElem_set, get_eq_getElem]
  simp only [Fin.ext_iff]

variable {be : Bool} {b : List UInt8}

/-- The ring before round `t`. -/
structure RingHolds (be : Bool) (b : List UInt8) (t : ℕ) (block : Block) : Prop where
  done : ∀ j < t, t ≤ j + 16 → block.get (ringIdx j) = schedule b j
  ahead : ∀ j, t ≤ j → j < 16 → block.get (ringIdx j) = (loadBlock be b).get (ringIdx j)

theorem ringHolds_loadBlock (be : Bool) (b : List UInt8) : RingHolds be b 0 (loadBlock be b) where
  done _ hj := absurd hj (Nat.not_lt_zero _)
  ahead _ _ _ := rfl

theorem schedule_of_lt {t : ℕ} (ht : t < 16) : schedule b t = blockWord b t := by
  rw [schedule, if_pos ht]

theorem schedule_of_le {t : ℕ} (ht : 16 ≤ t) :
    schedule b t = (schedule b (t - 3) ^^^ schedule b (t - 8) ^^^ schedule b (t - 14) ^^^
      schedule b (t - 16)).rotateLeft 1 := by
  rw [schedule, if_neg (Nat.not_lt.mpr ht)]

/-- `blk0` puts word `t` in its place. -/
theorem RingHolds.blk0 {t : ℕ} {block : Block} (h : RingHolds be b t block) (ht : t < 16) :
    RingHolds be b (t + 1) (blk0 be block (ringIdx t)).1 ∧
      (blk0 be block (ringIdx t)).2 = schedule b t := by
  have hidx : (ringIdx t : ℕ) = t := by rw [ringIdx_eq, Nat.mod_eq_of_lt ht]
  have hload := h.ahead t (Nat.le_refl t) ht
  have hword : (Sha1.blk0 be block (ringIdx t)).2 = schedule b t := by
    rw [schedule_of_lt ht]
    rcases be with _ | _
    · show (block.set _ _).get _ = _
      rw [get_set, if_pos rfl, hload, loadBlock, get_ofFn]
      simp only [hidx, Bool.false_eq_true, if_false]
      exact swap_beWord ..
    · show block.get _ = _
      rw [hload, loadBlock, get_ofFn]
      simp only [hidx, if_true]
      rfl
  have hother : ∀ j, j % 16 ≠ t % 16 →
      (Sha1.blk0 be block (ringIdx t)).1.get (ringIdx j) = block.get (ringIdx j) := by
    intro j hj
    rcases be with _ | _
    · show (block.set _ _).get _ = _
      rw [get_set, if_neg fun heq => hj (ringIdx_eq_iff.mp heq).symm]
    · rfl
  refine ⟨⟨fun j hj hle => ?_, fun j hj hlt => ?_⟩, hword⟩
  · rcases Nat.lt_succ_iff_lt_or_eq.mp hj with hlt | rfl
    · rw [hother j (by omega)]
      exact h.done j hlt (by omega)
    · exact hword
  · rw [hother j (by omega)]
    exact h.ahead j (by omega) hlt

/-- `blk` writes word `t` over the one that is not needed any more. -/
theorem RingHolds.blk {t : ℕ} {block : Block} (h : RingHolds be b t block) (ht : 16 ≤ t) :
    RingHolds be b (t + 1) (blk block t).1 ∧ (blk block t).2 = schedule b t := by
  have hidx : ∀ {i j : ℕ}, i % 16 = j % 16 → ringIdx i = ringIdx j := ringIdx_eq_iff.mpr
  have hword : (Sha1.blk block t).2 = schedule b t := by
    show (block.set _ _).get _ = _
    rw [get_set, if_pos rfl, rol_one, schedule_of_le ht,
      hidx (by omega : (t + 13) % 16 = (t - 3) % 16), hidx (by omega : (t + 8) % 16 = (t - 8) % 16),
      hidx (by omega : (t + 2) % 16 = (t - 14) % 16), hidx (by omega : t % 16 = (t - 16) % 16),
      h.done (t - 3) (by omega) (by omega), h.done (t - 8) (by omega) (by omega),
      h.done (t - 14) (by omega) (by omega), h.done (t - 16) (by omega) (by omega)]
  refine ⟨⟨fun j hj hle => ?_, fun j hj hlt => absurd ht (by omega)⟩, hword⟩
  rcases Nat.lt_succ_iff_lt_or_eq.mp hj with hlt | rfl
  · show (block.set _ _).get _ = _
    rw [get_set, if_neg fun heq => by have := ringIdx_eq_iff.mp heq; omega]
    exact h.done j hlt (by omega)
  · exact hword

/-! ## The variables -/

/-- The variables in the order in which they stand from number `v` on. -/
def view (v : Fin 5) (vars : State) : State :=
  Vector.ofFn fun k => vars.get (v + k)

theorem view_zero (vars : State) : view 0 vars = vars := by
  ext i hi
  rw [view, Vector.getElem_ofFn, Fin.zero_add]
  rfl

theorem add_inj_five : ∀ v i j : Fin 5, v + i = v + j ↔ i = j := by decide

theorem sub_one_add_five : ∀ v i : Fin 5, v - 1 + i = v + (i - 1) := by decide

/-- A round in place is a round of the standard, and the next one starts at the variable before. -/
theorem view_roundMacro {f : BitVec 32 → BitVec 32 → BitVec 32 → BitVec 32} {k : BitVec 32}
    {t : ℕ} (hf : ∀ w x y, f w x y = roundFn t w x y) (hk : k = roundConst t)
    (word : Block × BitVec 32) (v : Fin 5) (r : Work) :
    view (v - 1) (roundMacro f k word v r).vars = specRound word.2 t (view v r.vars) := by
  have hget : ∀ i : Fin 5, (roundMacro f k word v r).vars.get (v + i) =
      if 1 = i then (r.vars.get (v + 1)).rotateLeft 30
      else if 4 = i then r.vars.get (v + 4) +
        (f (r.vars.get (v + 1)) (r.vars.get (v + 2)) (r.vars.get (v + 3)) + word.2 + k +
          (r.vars.get v).rotateLeft 5)
      else r.vars.get (v + i) := by
    intro i
    rw [roundMacro, get_set, get_set]
    simp only [add_inj_five, rol_thirty, rol_five]
  have hzero : v + 0 = v := Fin.add_zero v
  refine Vector.ext fun i hi => ?_
  rw [view, Vector.getElem_ofFn, sub_one_add_five, hget]
  interval_cases i
  · show r.vars.get (v + 4) + _ = (r.vars.get (v + 0)).rotateLeft 5 +
      roundFn t (r.vars.get (v + 1)) (r.vars.get (v + 2)) (r.vars.get (v + 3)) +
      r.vars.get (v + 4) + roundConst t + word.2
    rw [hf, hk, hzero]
    ac_rfl
  · rfl
  · rfl
  · rfl
  · rfl

theorem firstVar_succ (t : ℕ) : firstVar (t + 1) = firstVar t - 1 := by
  have : Fin.ofNat 5 (t + 1) = Fin.ofNat 5 t + 1 := by
    ext
    simp [Fin.val_add]
  rw [firstVar, firstVar, this]
  generalize Fin.ofNat 5 t = v
  revert v
  decide

/-- Round `t` takes word `t`. -/
theorem round_spec {t : ℕ} (ht : t < 80) {r : Work} (h : RingHolds be b t r.block) :
    RingHolds be b (t + 1) (round be r t).block ∧
      view (firstVar (t + 1)) (round be r t).vars =
        specRound (schedule b t) t (view (firstVar t) r.vars) := by
  rw [firstVar_succ]
  unfold round
  split_ifs with h16 h20 h40 h60
  · obtain ⟨hring, hword⟩ := h.blk0 h16
    refine ⟨hring, ?_⟩
    rw [← hword]
    refine view_roundMacro (fun w x y => ?_) ?_ _ _ r
    · rw [choose_eq, roundFn, if_pos (by omega)]
    · rw [roundConst, if_pos (by omega)]
  all_goals
    obtain ⟨hring, hword⟩ := h.blk (Nat.le_of_not_lt h16)
    refine ⟨hring, ?_⟩
    rw [← hword]
    refine view_roundMacro (fun w x y => ?_) ?_ _ _ r
  · rw [choose_eq, roundFn, if_pos h20]
  · rw [roundConst, if_pos h20]
  · rw [roundFn, if_neg h20, if_pos h40]
  · rw [roundConst, if_neg h20, if_pos h40]
  · rw [majority_eq, roundFn, if_neg h20, if_neg h40, if_pos h60]
  · rw [roundConst, if_neg h20, if_neg h40, if_pos h60]
  · rw [roundFn, if_neg h20, if_neg h40, if_neg h60]
  · rw [roundConst, if_neg h20, if_neg h40, if_neg h60]

theorem rounds_spec (be : Bool) (b : List UInt8) (state : State) :
    ∀ t ≤ 80, RingHolds be b t ((List.range t).foldl (round be) ⟨state, loadBlock be b⟩).block ∧
      view (firstVar t) ((List.range t).foldl (round be) ⟨state, loadBlock be b⟩).vars =
        (List.range t).foldl (fun v t => specRound (schedule b t) t v) state := by
  intro t
  induction t with
  | zero => exact fun _ => ⟨ringHolds_loadBlock be b, view_zero state⟩
  | succ t ih =>
    intro ht
    obtain ⟨hring, hview⟩ := ih (by omega)
    obtain ⟨hring', hview'⟩ := round_spec (by omega : t < 80) hring
    rw [List.range_succ, List.foldl_append, List.foldl_append]
    exact ⟨hring', hview'.trans (by rw [hview]; rfl)⟩

/-- `SHA1Transform` is the compression of the standard, on a host of either byte order. -/
theorem SHA1Transform_eq (be : Bool) (state : State) (buffer : List UInt8) :
    SHA1Transform be state buffer = compress state buffer := by
  have hview := (rounds_spec be buffer state 80 (Nat.le_refl 80)).2
  have hfirst : firstVar 80 = 0 := by decide
  rw [hfirst, view_zero] at hview
  rw [SHA1Transform, compress, ← hview]

end Sha1

end Webxs
