import Webxs.PrintfItems

/-!
# Streaming does not depend on the staging array

In streaming mode the items of a format are written one after the other, whatever is flushed
where (`writeItems_streaming`). In a buffer that has room for the rendering they are written in
place (`writeItems_room`). So the blocks given to a callback are what is written to a buffer
that is large enough, and the dry run returns their length (`sprintfCore_streaming`).

The zeros of a precision near −2³¹ wrap around to more than 2³¹ − 65, which is out of reach of
an output below 2³¹ bytes (`Item.safe_of_bounded`).
-/

namespace Webxs

/-! ## Safe items -/

section Safe

variable {u : Setup} {ind : ℕ}

theorem fillCount_of_lt (s : IntConv) {pr : ℤ} (h : pr - s.backwards.length < -2 ^ 31)
    (h' : -2 ^ 31 ≤ pr) : s.fillCount pr = pr - s.backwards.length + 2 ^ 32 := by
  have hle := s.length_backwards_le
  have hwrap := Int.bmod_eq_of_le (n := pr - s.backwards.length + 2 ^ 32) (m := 2 ^ 32)
    (by omega) (by omega)
  rw [← hwrap]
  exact (Int.add_bmod_right ..).symm

theorem fillCount_le_of_length {s : IntConv} (hb : s.pr.toInt ≤ 1024)
    (hlen : (s.fillCount s.pr.toInt).toNat + s.backwards.length < 2 ^ 31) :
    s.fillCount s.pr.toInt < 1024 := by
  have hpos := s.length_backwards_pos
  have hle : -2 ^ 31 ≤ s.pr.toInt := BitVec.le_toInt _
  rcases lt_or_ge (s.pr.toInt - s.backwards.length) (-2 ^ 31) with h | h
  · rw [fillCount_of_lt s h hle] at hlen
    omega
  · rw [fillCount_of_le s h (by omega)]
    omega

theorem Item.safe_of_bounded (hu : u.Sound) (hroom : u.sroom = 1024) (hlen : 1024 < u.len)
    {item : Item} (hb : item.Bounded 1024) (hitem : item.rendered.length < 2 ^ 31) :
    item.Safe u ind := by
  cases item with
  | int s =>
    have hpr : u.cap s.pr.toInt = s.pr.toInt := cap_of_le (hroom ▸ hb.2)
    show s.Safe u (u.cap s.pr.toInt) ind
    rw [hpr]
    refine or_iff_not_imp_left.mpr fun hsilent => ?_
    have hz : s.fillCount s.pr.toInt < 1024 := by
      refine fillCount_le_of_length hb.2 ?_
      have hitem : (s.sign ++ if s.Silent s.pr.toInt then _ else _).length < 2 ^ 31 := hitem
      rw [if_neg hsilent, List.length_append, length_number, List.length_reverse] at hitem
      omega
    have hmod := Nat.mod_lt (ind + s.sign.length) hu.pos
    unfold IntConv.zerosTo IntConv.zerosFrom
    split_ifs <;> omega
  | _ => trivial

theorem Item.safe_of_room (item : Item) (hroom : u.sroom = u.len)
    (hitem : ind + item.rendered.length ≤ u.len) : item.Safe u ind := by
  cases item with
  | int s =>
    show s.Safe u (u.cap s.pr.toInt) ind
    refine or_iff_not_imp_left.mpr fun hsilent => ?_
    have hpos := s.length_backwards_pos
    by_cases hs : s.Silent s.pr.toInt
    · refine absurd ?_ hsilent
      have hcap : u.cap s.pr.toInt = s.pr.toInt := cap_of_le (by have := hs.2.1; omega)
      rwa [hcap]
    obtain ⟨-, hpr, hle⟩ := int_cap hitem (Or.inr hroom) hs
    rw [hpr, Nat.mod_eq_of_lt (by omega)]
    unfold IntConv.zerosTo IntConv.zerosFrom
    split_ifs <;> omega
  | _ => trivial

end Safe

/-! ## Runs -/

/-- Every wide string the loop reaches has room for its padding; `ind` counts what was written
before. -/
def Setup.WideFits (u : Setup) : ℕ → List Item → Prop
  | _, [] => True
  | ind, item :: is =>
    ind < u.len → item.WideFits u ind ∧ WideFits u (ind + item.rendered.length) is

section Runs

variable {u : Setup} {o : Sink} {is : List Item}

theorem rendering_cons (item : Item) (is : List Item) :
    rendering (item :: is) = item.rendered ++ rendering is :=
  List.flatMap_cons

theorem length_rendering_cons (item : Item) (is : List Item) :
    (rendering (item :: is)).length = item.rendered.length + (rendering is).length := by
  rw [rendering_cons, List.length_append]

/-- In streaming mode the loop appends the rendering. -/
theorem writeItems_streaming (hu : u.Sound) (hroom : u.sroom = 1024) (hlen : u.len = INT_MAX)
    (hb : ∀ item ∈ is, item.Bounded 1024) (hs : u.sroom ≤ o.str.length)
    (h : o.ind ≤ u.sroom) (hfit : o.ind + (rendering is).length ≤ INT_MAX) :
    ∃ o', u.writeItems is o = .ok o' ∧ Appended u o (rendering is) o' := by
  have hmax : INT_MAX = 2 ^ 31 - 1 := rfl
  induction is generalizing o with
  | nil => exact ⟨o, rfl, (Wrote.refl h).toAppended⟩
  | cons item is ih =>
    rw [length_rendering_cons] at hfit
    obtain ⟨o₁, hflush, h₁, hfull, hkept⟩ := flushIf_appended hu (o.ind = u.sroom) hs h
    have hlt : o₁.ind < u.sroom := by
      by_cases hb : o.ind = u.sroom
      · rw [hfull hb]
        exact hu.pos
      · rw [hkept hb]
        omega
    have hle : o₁.ind ≤ o.ind := h₁.ind_le
    have hitem : item.Bounded 1024 := hb item List.mem_cons_self
    have hwide : item.WideFits u o₁.ind := by
      cases item with
      | str left w pr vs p => exact fun _ => Or.inl (by have := hitem.1; omega)
      | _ => trivial
    obtain ⟨t, o₂, hwrite, h₂, htext⟩ := hu.writeItem_wrote (h₁.length ▸ hs) hlt
      (Item.safe_of_bounded hu hroom (by omega) hitem (by omega))
    obtain ⟨rfl, -⟩ := htext (by omega) (Or.inl (hroom ▸ hitem)) hwide
    have happ := h₁.trans h₂
    have hind := happ.ind_le
    rw [List.nil_append] at happ hind
    obtain ⟨o₃, hrest, h₃⟩ := ih (fun item' h => hb item' (List.mem_cons_of_mem _ h))
      (happ.length ▸ hs) happ.le (by omega)
    refine ⟨o₃, ?_, rendering_cons item is ▸ happ.trans h₃⟩
    rw [Setup.writeItems, if_neg (by omega), hflush]
    show (u.writeItem item o₁ >>= _) = _
    rw [hwrite]
    exact hrest

theorem wideFits_of_bounded {ind : ℕ}
    (hb : ∀ item ∈ is, item.Bounded 1024) (hfit : ind + (rendering is).length + 1024 ≤ u.len) :
    u.WideFits ind is := by
  induction is generalizing ind with
  | nil => trivial
  | cons item is ih =>
    rw [length_rendering_cons] at hfit
    refine fun _ => ⟨?_, ih (fun item' h => hb item' (List.mem_cons_of_mem _ h)) (by omega)⟩
    have hitem := hb item List.mem_cons_self
    cases item with
    | str left w pr vs p => exact fun _ => Or.inl (by have := hitem.1; omega)
    | _ => trivial

/-- In a buffer that has room for it the loop writes the rendering in place. -/
theorem writeItems_room (hu : u.Sound) (hroom : u.sroom = u.len) (hs : u.sroom ≤ o.str.length)
    (hfit : o.ind + (rendering is).length ≤ u.len)
    (hwide : u.WideFits o.ind is) :
    ∃ o', u.writeItems is o = .ok o' ∧ Appended u o (rendering is) o' ∧ o'.tot = o.tot := by
  induction is generalizing o with
  | nil => exact ⟨o, rfl, (Wrote.refl (by omega)).toAppended, rfl⟩
  | cons item is ih =>
    rw [length_rendering_cons] at hfit
    by_cases hend : u.len ≤ o.ind
    · have hnil : rendering (item :: is) = [] := by
        rw [← List.length_eq_zero_iff, length_rendering_cons]
        omega
      rw [hnil]
      exact ⟨o, if_pos hend, (Wrote.refl (by omega)).toAppended, rfl⟩
    obtain ⟨hitem, hwide⟩ := hwide (by omega)
    obtain ⟨t, o₂, hwrite, h₂, htext⟩ := hu.writeItem_wrote hs (by omega)
      (item.safe_of_room hroom (by omega))
    obtain ⟨rfl, hw⟩ := htext (by omega) (Or.inr hroom) hitem
    have htot := (hw hroom).kept (by omega)
    have hind := (hw hroom).ind_eq (by omega)
    obtain ⟨o₃, hrest, h₃, htot₃⟩ := ih (h₂.length ▸ hs) (by omega) (hind ▸ hwide)
    refine ⟨o₃, ?_, rendering_cons item is ▸ h₂.trans h₃, htot₃.trans htot⟩
    rw [Setup.writeItems, if_neg hend, flushIf_full_eq (by omega)]
    show (u.writeItem item o >>= _) = _
    rw [hwrite]
    exact hrest

end Runs

/-! ## The calls -/

/-- The setup of streaming mode. -/
def streaming (sflush : Option Sflush) : Setup :=
  ⟨sflush, 1024, INT_MAX⟩

/-- The setup of a buffer of the caller. -/
def fixed (len : ℕ) : Setup :=
  ⟨none, len, len⟩

theorem sound_streaming {sflush : Option Sflush}
    (h : ∀ answer, sflush = some answer → Sflush.Accepts answer) : (streaming sflush).Sound where
  pos := show 0 < 1024 by decide
  le := show 1024 ≤ INT_MAX by decide
  digits := Or.inl (show 64 ≤ 1024 by decide)
  accepts := h

theorem sound_fixed {len : ℕ} (h : 0 < len) : (fixed len).Sound where
  pos := h
  le := Nat.le_refl _
  digits := Or.inr rfl
  accepts _ h := by cases h

section Calls

variable {fmt : List UInt8} {ap : List Arg} {is : List Item} {o : Sink}

theorem sprintfCore_of_streaming {sflush : Option Sflush} {len : ℕ} (h : Matches fmt ap is)
    (hrun : (streaming sflush).writeItems is ⟨List.replicate 1024 0, 0, 0, []⟩ = .ok o) :
    sprintfCore sflush none len fmt ap = sprintfEnd sflush o.ind o := by
  unfold sprintfCore
  dsimp only
  rw [← streaming, Setup.coreLoop_eq_writeItems _ h (Nat.lt_succ_self _), hrun]

theorem sprintfCore_of_fixed {str : List UInt8} {len : ℕ} (hlen : len ≠ 0)
    (h : Matches fmt ap is) (hrun : (fixed len).writeItems is ⟨str, 0, 0, []⟩ = .ok o) :
    sprintfCore none (some str) len fmt ap = some ⟨o.ind + o.tot, [], o.str⟩ := by
  unfold sprintfCore
  dsimp only
  rw [if_neg hlen, ← fixed, Setup.coreLoop_eq_writeItems _ h (Nat.lt_succ_self _), hrun]
  rfl

/-- The streaming run, with or without callback. -/
theorem writeItems_streaming_start (sflush : Option Sflush)
    (ha : ∀ answer, sflush = some answer → Sflush.Accepts answer)
    (hb : ∀ item ∈ is, item.Bounded 1024) (hlen : (rendering is).length < 2 ^ 31) :
    ∃ o, (streaming sflush).writeItems is ⟨List.replicate 1024 0, 0, 0, []⟩ = .ok o ∧
      o.contents = rendering is ∧ o.ind ≤ o.str.length ∧
      o.ind + o.tot = (rendering is).length := by
  have hmax : INT_MAX = 2 ^ 31 - 1 := rfl
  have hstr : (streaming sflush).sroom ≤ (List.replicate 1024 (0 : UInt8)).length := by
    rw [List.length_replicate]
    exact Nat.le_refl _
  obtain ⟨o, hrun, happ⟩ := writeItems_streaming (o := ⟨List.replicate 1024 0, 0, 0, []⟩)
    (sound_streaming ha) rfl rfl hb hstr (Nat.zero_le _) (by dsimp only; omega)
  have htotal := happ.total
  have hle := happ.le
  dsimp only at htotal
  refine ⟨o, hrun, happ.contents, ?_, by omega⟩
  rw [happ.length]
  exact hle.trans hstr

/-- The run to a buffer that has room for the rendering. -/
theorem writeItems_fixed_start {str : List UInt8} (len : ℕ) (hpos : 0 < len)
    (hle : len ≤ str.length) (hfit : (rendering is).length ≤ len)
    (hwide : (fixed len).WideFits 0 is) :
    ∃ o, (fixed len).writeItems is ⟨str, 0, 0, []⟩ = .ok o ∧ o.tot = 0 ∧
      o.ind = (rendering is).length ∧ o.str.take o.ind = rendering is ∧
      o.str.length = str.length := by
  obtain ⟨o, hrun, happ, htot⟩ := writeItems_room (o := ⟨str, 0, 0, []⟩) (sound_fixed hpos) rfl hle
    (by dsimp only; exact (Nat.zero_add _).trans_le hfit) hwide
  have hind : o.ind = (rendering is).length := by
    have := happ.total
    dsimp only at htot this
    omega
  have hcontents : o.flushed.flatten ++ o.str.take o.ind = rendering is := happ.contents
  have hnil : o.flushed.flatten = [] := by
    have hlen := congrArg List.length hcontents
    rw [List.length_append, List.length_take, happ.length] at hlen
    rw [← List.length_eq_zero_iff]
    dsimp only at hlen
    omega
  rw [hnil, List.nil_append] at hcontents
  exact ⟨o, hrun, htot, hind, hcontents, happ.length⟩

/-- What a run of the items gives a callback that accepts it. -/
theorem sprintfCore_of_run_answer {answer : Sflush} {t : List UInt8} (h : Matches fmt ap is)
    (ha : Sflush.Accepts answer) (len : ℕ)
    (hrun : (streaming (some answer)).writeItems is ⟨List.replicate 1024 0, 0, 0, []⟩ = .ok o)
    (hcontents : o.contents = t) (hind : o.ind ≤ o.str.length) (htotal : o.ind + o.tot = t.length) :
    ∃ blocks str, sprintfCore (some answer) none len fmt ap = some ⟨t.length, blocks, str⟩ ∧
      blocks.flatten = t := by
  refine ⟨o.flushed ++ [o.str.take o.ind], o.str, ?_, ?_⟩
  · rw [sprintfCore_of_streaming h hrun, sprintfEnd]
    dsimp only
    rw [if_pos ⟨by omega, by omega⟩, Int.toNat_natCast, ha, List.length_take, ← htotal,
      Nat.min_eq_left hind, Nat.cast_add]
  · rw [List.flatten_append, List.flatten_singleton]
    exact hcontents

/-- What the run without callback counts. -/
theorem sprintfCore_of_run_count {t : List UInt8} (h : Matches fmt ap is) (len : ℕ)
    (hrun : (streaming none).writeItems is ⟨List.replicate 1024 0, 0, 0, []⟩ = .ok o)
    (htotal : o.ind + o.tot = t.length) :
    ∃ str, sprintfCore none none len fmt ap = some ⟨t.length, [], str⟩ :=
  ⟨o.str, by rw [sprintfCore_of_streaming h hrun, sprintfEnd, ← htotal, Nat.cast_add]⟩

/-- For every format and arguments that match it, with widths and precisions up to 1024 and an
output below 2³¹ bytes, in streaming mode every store is inside the staging array, the blocks
given to a callback that accepts them make up the rendering, and the result is its length, with
and without the callback. The rendering is what the formatter writes to a buffer that is large
enough. -/
theorem sprintfCore_streaming (h : Matches fmt ap is) (hb : ∀ item ∈ is, item.Bounded 1024)
    (hlen : (rendering is).length < 2 ^ 31) :
    (∀ answer, Sflush.Accepts answer → ∀ len, ∃ blocks str,
      sprintfCore (some answer) none len fmt ap =
        some ⟨(rendering is).length, blocks, str⟩ ∧ blocks.flatten = rendering is) ∧
    (∀ len, ∃ str,
      sprintfCore none none len fmt ap = some ⟨(rendering is).length, [], str⟩) ∧
    ∀ str : List UInt8, (rendering is).length + 1024 ≤ str.length → ∃ o,
      (fixed str.length).writeItems is ⟨str, 0, 0, []⟩ = .ok o ∧ o.tot = 0 ∧
      o.str.take o.ind = rendering is ∧
      sprintfCore none (some str) str.length fmt ap =
        some ⟨(rendering is).length, [], o.str⟩ := by
  refine ⟨fun answer ha len => ?_, fun len => ?_, fun str hstr => ?_⟩
  · obtain ⟨o, hrun, hcontents, hind, htotal⟩ :=
      writeItems_streaming_start (some answer) (fun _ h => by cases h; exact ha) hb hlen
    exact sprintfCore_of_run_answer h ha len hrun hcontents hind htotal
  · obtain ⟨o, hrun, -, -, htotal⟩ :=
      writeItems_streaming_start none (fun _ h => by cases h) hb hlen
    exact sprintfCore_of_run_count h len hrun htotal
  · obtain ⟨o, hrun, htot, hind, htake, -⟩ := writeItems_fixed_start str.length
      (by omega) (Nat.le_refl _) (by omega)
      (wideFits_of_bounded hb (by rw [Nat.zero_add]; exact hstr))
    refine ⟨o, hrun, htot, htake, ?_⟩
    rw [sprintfCore_of_fixed (by omega) h hrun, htot, hind, Nat.cast_zero, add_zero]

/-- `"%5d!"` of 42. -/
theorem sprintfCore_streaming_number : ∃ blocks str,
    sprintfCore (some fun _ block => block.length) none 0 [37, 53, 100, 33] [.int 42] =
      some ⟨6, blocks, str⟩ ∧ blocks.flatten = [32, 32, 32, 52, 50, 33] := by
  have hmatch : Matches [37, 53, 100, 33] [.int 42]
      [.int ⟨⟨false, false, false, false, false⟩, 5, -1, 4, 10, 100, 42, 0⟩, .text [33]] :=
    .cons (by decide) rfl (.cons (by decide) rfl (.nil _))
  refine (sprintfCore_streaming hmatch ?_ (by decide)).1 _ (fun _ _ => rfl) 0
  intro item hitem
  rcases List.mem_pair.mp hitem with rfl | rfl
  · exact ⟨by decide, by decide⟩
  · trivial

end Calls

end Webxs
