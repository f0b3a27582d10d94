import Webxs.PrintfSink

/-!
# What an item writes

An item is written as its text where the room in front of `len` does not cut it
(`Setup.writeItem_wrote`). Strings and digits are cut. What the formatter needs in order to
write at all is that the zeros of a precision leave room for a digit (`Item.Safe`).
-/

namespace Webxs

/-! ## Text and strings -/

section Strings

variable {u : Setup} {o : Sink}

theorem writeBlock_wrote (hu : u.Sound) {p : List UInt8} (hs : u.sroom ≤ o.str.length)
    (h : o.ind ≤ u.sroom) : ∃ o', u.writeBlock p o = .ok o' ∧ Wrote u o p o' := by
  unfold Setup.writeBlock
  split_ifs with hroom
  · obtain ⟨o', hcopy, happ⟩ := appended_copyLoop hu hs h (by omega) (Nat.le_refl p.length)
    exact ⟨o', hcopy, happ.wrote (by omega)⟩
  · exact wrote_copy p hs (by omega)

theorem writeText_wrote (hu : u.Sound) {l : List UInt8} (hs : u.sroom ≤ o.str.length)
    (h : o.ind < u.sroom) : ∃ o', u.writeText l o = .ok o' ∧ Wrote u o l o' := by
  unfold Setup.writeText
  split
  · exact wrote_put _ hs h
  · exact writeBlock_wrote hu hs h.le

/-- The part of `%s` that writes the string. -/
theorem writeBody_wrote (hu : u.Sound) (vs : ℤ) {q : List UInt8} {l : ℕ} (hl : q.length = l)
    (hs : u.sroom ≤ o.str.length) (h : o.ind ≤ u.sroom) :
    ∃ o₁ o₂, u.flushIf (u.sroom < l + o.ind) o = .ok o₁ ∧ u.writeBody vs q o₁ = .ok o₂ ∧
      Appended u o (if vs = 8 then [] else q) o₂ ∧
      (vs ≠ 8 ∨ l + o.ind ≤ u.sroom → Wrote u o (if vs = 8 then [] else q) o₂) := by
  obtain ⟨o₁, hflush, h₁, hfull, hkept⟩ := flushIf_appended hu (u.sroom < l + o.ind) hs h
  refine ⟨o₁, ?_⟩
  unfold Setup.writeBody
  by_cases hvs : vs = 8
  · simp only [if_pos hvs]
    refine ⟨o₁, hflush, rfl, h₁, fun hor => ?_⟩
    rw [hkept (by omega)]
    exact Wrote.refl h
  · simp only [if_neg hvs]
    obtain ⟨o₂, hblock, h₂⟩ := writeBlock_wrote hu (p := q) (h₁.length ▸ hs) h₁.le
    have hwrote : Wrote u o q o₂ := Wrote.of_flush h₁ hkept h₂ fun hb => by omega
    exact ⟨o₂, hflush, hblock, hwrote.toAppended, fun _ => hwrote⟩

/-- The padding behind a field that was padded in front writes nothing. -/
theorem wrote_pad_nothing (hu : u.Sound) {w j : ℤ} (c : UInt8) (hs : u.sroom ≤ o.str.length)
    (h : o.ind ≤ u.sroom) (hw : w ≤ u.sroom) (hj : 0 ≤ j) (hwj : w ≤ j) :
    ∃ o', u.pad w j c o = .ok o' ∧ Wrote u o [] o' := by
  have hpad := wrote_pad hu c hs h hw hj
  rwa [show (w - j).toNat = 0 by omega] at hpad

/-- How much of a string is written at `ind`. -/
def Setup.strRoom (u : Setup) (ind : ℕ) (pr : ℤ) (p : List UInt8) : ℕ :=
  min (u.len - ind) (clip pr p).length

theorem length_clip (pr : ℤ) (p : List UInt8) :
    (clip pr p).length = if 0 ≤ pr then min p.length pr.toNat else p.length := by
  unfold clip
  split_ifs
  · rw [List.length_take, Nat.min_comm]
  · rfl

theorem writeStr_wrote (hu : u.Sound) (left : Bool) {w : ℤ} (pr vs : ℤ) (p : List UInt8)
    (hs : u.sroom ≤ o.str.length) (h : o.ind < u.sroom) (hw : w ≤ u.sroom) :
    ∃ o', u.writeStr left w pr vs p o = .ok o' ∧
      Appended u o (strText left w vs (p.take (u.strRoom o.ind pr p))) o' ∧
      ((vs = 8 → u.sroom = u.len ∧ (left = true ∨ w ≤ (u.len - o.ind : ℕ))) →
        Wrote u o (strText left w vs (p.take (u.strRoom o.ind pr p))) o') := by
  set l := u.strRoom o.ind pr p with hl
  have hq : (p.take l).length = l := by
    have : (clip pr p).length ≤ p.length := by
      rw [length_clip]
      split_ifs <;> omega
    rw [List.length_take, hl, Setup.strRoom]
    omega
  have hlen : l ≤ u.len - o.ind := by
    rw [hl, Setup.strRoom]
    omega
  unfold Setup.writeStr
  simp only [← length_clip]
  rw [← Setup.strRoom, ← hl]
  unfold strText
  rw [hq]
  cases left with
  | true =>
    obtain ⟨o₁, o₂, hflush, hbody, happ, hwrote⟩ := writeBody_wrote hu vs hq hs h.le
    obtain ⟨o₃, hpad, h₃⟩ := wrote_pad hu 32 (j := l) (happ.length ▸ hs) happ.le hw (by omega)
    refine ⟨o₃, ?_, happ.trans h₃.toAppended, fun hwide => (hwrote ?_).trans h₃⟩
    · show (u.flushIf (u.sroom < l + o.ind) o >>= _) = _
      rw [hflush]
      show (u.writeBody vs (p.take l) o₁ >>= _) = _
      rw [hbody]
      exact hpad
    · by_cases hvs : vs = 8
      · have := hwide hvs
        omega
      · exact Or.inl hvs
  | false =>
    obtain ⟨o₁, hpad, h₁⟩ := wrote_pad hu 32 (j := l) hs h.le hw (by omega)
    obtain ⟨o₂, o₃, hflush, hbody, happ, hwrote⟩ :=
      writeBody_wrote hu vs hq (h₁.length ▸ hs) h₁.le
    have hlen₃ : o₃.str.length = o.str.length := happ.length.trans h₁.length
    obtain ⟨o₄, hpad', h₄⟩ := wrote_pad_nothing hu 32 (j := max (l : ℤ) w + 1) (hlen₃ ▸ hs)
      happ.le hw (by omega) (by omega)
    refine ⟨o₄, ?_, ?_, fun hwide => ?_⟩
    · show (u.pad w l 32 o >>= _) = _
      rw [hpad]
      show (u.flushIf (u.sroom < l + o₁.ind) o₁ >>= _) = _
      rw [hflush]
      show (u.writeBody vs (p.take l) o₂ >>= _) = _
      rw [hbody]
      exact hpad'
    · have := (h₁.toAppended.trans happ).trans h₄.toAppended
      rwa [List.append_nil] at this
    · have := (h₁.trans (hwrote ?_)).trans h₄
      · rwa [List.append_nil] at this
      · by_cases hvs : vs = 8
        · obtain ⟨hroom, hor⟩ := hwide hvs
          have hw' : w ≤ (u.len - o.ind : ℕ) := hor.resolve_left (by decide)
          have hind := h₁.ind_eq (by rw [List.length_replicate]; omega)
          rw [List.length_replicate] at hind
          omega
        · exact Or.inl hvs

end Strings

/-! ## Signs and prefixes -/

/-- The bytes `t` were appended one by one, each with a flush if it filled the buffer. -/
structure Stepped (u : Setup) (o : Sink) (t : List UInt8) (o' : Sink) : Prop
    extends Appended u o t o' where
  ind : o'.ind = (o.ind + t.length) % u.sroom
  kept : o.ind + t.length < u.sroom → o'.tot = o.tot

section Signs

variable {u : Setup} {o o₁ o₂ : Sink} {t t' : List UInt8} {s : IntConv}

theorem Stepped.refl (h : o.ind < u.sroom) : Stepped u o [] o where
  toAppended := (Wrote.refl h.le).toAppended
  ind := (Nat.mod_eq_of_lt h).symm
  kept _ := rfl

theorem Stepped.trans (h₁ : Stepped u o t o₁) (h₂ : Stepped u o₁ t' o₂) :
    Stepped u o (t ++ t') o₂ where
  toAppended := h₁.toAppended.trans h₂.toAppended
  ind := by rw [h₂.ind, h₁.ind, Nat.mod_add_mod, List.length_append, Nat.add_assoc]
  kept hroom := by
    rw [List.length_append] at hroom
    have hind := h₁.ind
    rw [Nat.mod_eq_of_lt (by omega)] at hind
    rw [h₂.kept (by omega), h₁.kept (by omega)]

theorem Stepped.lt (hu : u.Sound) (h : Stepped u o t o₁) : o₁.ind < u.sroom := by
  rw [h.ind]
  exact Nat.mod_lt _ hu.pos

/-- Where there is room behind what was stepped over, it was written in place. -/
theorem Stepped.wrote (h₁ : Stepped u o t o₁) (h₂ : Wrote u o₁ t' o₂) (ht : 0 < t'.length) :
    Wrote u o (t ++ t') o₂ where
  toAppended := h₁.toAppended.trans h₂.toAppended
  kept hroom := by
    rw [List.length_append] at hroom
    have hind := h₁.ind
    rw [Nat.mod_eq_of_lt (by omega)] at hind
    rw [h₂.kept (by omega), h₁.kept (by omega)]

theorem flushIf_full_eq (h : o.ind < u.sroom) : u.flushIf (o.ind = u.sroom) o = .ok o :=
  if_neg (by omega)

theorem stepped_put (hu : u.Sound) (c : UInt8) (hs : u.sroom ≤ o.str.length)
    (h : o.ind < u.sroom) :
    ∃ o₁ o₂, o.put c = .ok o₁ ∧ Wrote u o [c] o₁ ∧
      u.flushIf (o₁.ind = u.sroom) o₁ = .ok o₂ ∧ Stepped u o [c] o₂ := by
  obtain ⟨o₁, hput, h₁⟩ := wrote_put c hs h
  obtain ⟨o₂, hflush, h₂, hfull, hkept⟩ :=
    flushIf_appended hu (o₁.ind = u.sroom) (h₁.length ▸ hs) h₁.le
  have hind : o₁.ind = o.ind + 1 := h₁.ind_eq h
  refine ⟨o₁, o₂, hput, h₁, hflush, ?_, ?_, ?_⟩
  · have := h₁.toAppended.trans h₂
    rwa [List.append_nil] at this
  · rw [List.length_singleton, ← hind]
    by_cases hb : o₁.ind = u.sroom
    · rw [hfull hb, hb, Nat.mod_self]
    · have := h₁.le
      rw [hkept hb, Nat.mod_eq_of_lt (by omega)]
  · intro hroom
    rw [List.length_singleton] at hroom
    rw [hkept (by omega)]
    exact h₁.kept (by rw [List.length_singleton]; omega)

theorem writeSign_stepped (hu : u.Sound) (hs : u.sroom ≤ o.str.length) (h : o.ind < u.sroom) :
    ∃ o₁ o₂, u.writeSign s o = .ok o₁ ∧ u.flushIf (o₁.ind = u.sroom) o₁ = .ok o₂ ∧
      Stepped u o s.sign o₂ ∧ (s.v = 0 → Wrote u o s.sign o₁) := by
  have hone : ∀ c, ∃ o₁ o₂, o.put c = .ok o₁ ∧ u.flushIf (o₁.ind = u.sroom) o₁ = .ok o₂ ∧
      Stepped u o [c] o₂ ∧ (s.v = 0 → Wrote u o [c] o₁) := by
    intro c
    obtain ⟨o₁, o₂, hput, h₁, hflush, h₂⟩ := stepped_put hu c hs h
    exact ⟨o₁, o₂, hput, hflush, h₂, fun _ => h₁⟩
  have hnone : ∃ o₁ o₂, (Except.ok o : Except Halt Sink) = .ok o₁ ∧
      u.flushIf (o₁.ind = u.sroom) o₁ = .ok o₂ ∧
      Stepped u o [] o₂ ∧ (s.v = 0 → Wrote u o [] o₁) :=
    ⟨o, o, rfl, flushIf_full_eq h, Stepped.refl h, fun _ => Wrote.refl h.le⟩
  unfold Setup.writeSign IntConv.sign
  by_cases hneg : s.neg = true
  · simp only [if_pos hneg]
    exact hone 45
  by_cases hplus : s.f.plus = true
  · simp only [if_neg hneg, if_pos hplus]
    exact hone 43
  by_cases hspace : s.f.space = true
  · simp only [if_neg hneg, if_neg hplus, if_pos hspace]
    exact hone 32
  by_cases halt : s.f.alt = true ∧ s.v ≠ 0
  · simp only [if_neg hneg, if_neg hplus, if_neg hspace, if_pos halt]
    have hv : ∀ (t : List UInt8) (o' : Sink), s.v = 0 → Wrote u o t o' :=
      fun _ _ hv => absurd hv halt.2
    obtain ⟨o₁, o₂, hput, -, hflush, h₂⟩ := stepped_put hu 48 hs h
    by_cases h8 : s.r = 8
    · refine ⟨o₂, o₂, ?_, flushIf_full_eq (h₂.lt hu), ?_, hv _ _⟩
      · rw [if_pos (Or.inl h8), hput]
        show (u.flushIf (o₁.ind = u.sroom) o₁ >>= _) = _
        rw [hflush]
        show (if s.r = 16 ∧ o₂.ind < u.len then o₂.put s.c else .ok o₂) = _
        rw [if_neg fun h => by omega]
      · rw [if_pos h8]
        exact h₂
    by_cases h16 : s.r = 16
    · have hlt : o₂.ind < u.len := (h₂.lt hu).trans_le hu.le
      obtain ⟨o₃, o₄, hput', -, hflush', h₄⟩ :=
        stepped_put hu s.c (h₂.length ▸ hs) (h₂.lt hu)
      refine ⟨o₃, o₄, ?_, hflush', ?_, hv _ _⟩
      · rw [if_pos (Or.inr h16), hput]
        show (u.flushIf (o₁.ind = u.sroom) o₁ >>= _) = _
        rw [hflush]
        show (if s.r = 16 ∧ o₂.ind < u.len then o₂.put s.c else .ok o₂) = _
        rw [if_pos ⟨h16, hlt⟩]
        exact hput'
      · rw [if_neg h8, if_pos h16]
        exact h₂.trans h₄
    · rw [if_neg h8, if_neg h16, if_neg (by omega)]
      refine ⟨o, o, ?_, flushIf_full_eq h, Stepped.refl h, hv _ _⟩
      show (u.flushIf (o.ind = u.sroom) o >>= _) = _
      rw [flushIf_full_eq h]
      show (if s.r = 16 ∧ o.ind < u.len then o.put s.c else .ok o) = _
      rw [if_neg fun h => h16 h.1]
  · simp only [if_neg hneg, if_neg hplus, if_neg hspace, if_neg halt]
    exact hnone

end Signs

/-! ## Numbers -/

theorem length_convertToBackwardsStr_le (ssize v r : ℕ) (c : UInt8) :
    (convertToBackwardsStr ssize v r c).length ≤ ssize := by
  induction ssize generalizing v with
  | zero => exact Nat.le_refl _
  | succ ssize ih =>
    rw [convertToBackwardsStr, List.length_cons]
    split_ifs
    · exact Nat.succ_le_succ (Nat.zero_le _)
    · exact Nat.succ_le_succ (ih _)

namespace IntConv

variable (s : IntConv)

theorem length_backwards_le : s.backwards.length ≤ 64 :=
  length_convertToBackwardsStr_le 64 _ _ _

theorem length_backwards_pos : 0 < s.backwards.length :=
  Nat.succ_pos _

/-- Where the zeros of the precision begin, for a number at `ind`. -/
def zerosFrom (u : Setup) (pr : ℤ) (ind : ℕ) : ℕ :=
  if 0 ≤ s.fillCount pr ∧ (u.sroom : ℤ) < s.fillCount pr + ind then 0 else ind

/-- Where the zeros end. -/
def zerosTo (u : Setup) (pr : ℤ) (ind : ℕ) : ℕ :=
  s.zerosFrom u pr ind + (s.fillCount pr).toNat

/-- The zeros behind the sign at `ind` leave room for a digit, inside the buffer. -/
def Safe (u : Setup) (pr : ℤ) (ind : ℕ) : Prop :=
  s.Silent pr ∨
    s.zerosTo u pr ((ind + s.sign.length) % u.sroom) ≤ u.sroom ∧
    s.zerosTo u pr ((ind + s.sign.length) % u.sroom) < u.len

end IntConv

section Numbers

variable {u : Setup} {o : Sink} {s : IntConv}

/-- The digits of a number between its paddings. -/
theorem writeField_wrote (hu : u.Sound) {w : ℤ} {i : ℕ} (hs : u.sroom ≤ o.str.length)
    (h : o.ind ≤ u.sroom) (hw : w ≤ u.sroom) (hpos : 0 < i) (hi : i ≤ s.backwards.length)
    (hroom : i ≤ u.sroom) :
    ∃ o₁ o₂ o₃ o₄,
      (if s.f.left then Except.ok o else u.pad w i s.padByte o) = .ok o₁ ∧
      u.flushIf (u.sroom < i + o₁.ind) o₁ = .ok o₂ ∧ o₂.digits s.backwards i = .ok o₃ ∧
      u.pad w (if s.f.left then i else max (i : ℤ) w + 1) s.padByte o₃ = .ok o₄ ∧
      Wrote u o
        (if s.f.left then
          (s.backwards.take i).reverse ++ List.replicate (w - i).toNat s.padByte
        else List.replicate (w - i).toNat s.padByte ++ (s.backwards.take i).reverse) o₄ := by
  have hpads : ∃ o₁, (if s.f.left then Except.ok o else u.pad w i s.padByte o) = .ok o₁ ∧
      Wrote u o (if s.f.left then [] else List.replicate (w - i).toNat s.padByte) o₁ := by
    split_ifs
    · exact ⟨o, rfl, Wrote.refl h⟩
    · exact wrote_pad hu _ hs h hw (by omega)
  obtain ⟨o₁, hpad, h₁⟩ := hpads
  have hs₁ : u.sroom ≤ o₁.str.length := h₁.length ▸ hs
  obtain ⟨o₂, hflush, h₂, hfull, hkept⟩ := flushIf_appended hu (u.sroom < i + o₁.ind) hs₁ h₁.le
  have hind : o₂.ind + i ≤ u.sroom := by
    by_cases hb : u.sroom < i + o₁.ind
    · rw [hfull hb]
      omega
    · rw [hkept hb]
      omega
  have hs₂ : u.sroom ≤ o₂.str.length := h₂.length ▸ hs₁
  obtain ⟨o₃, hdigits, h₃⟩ := wrote_digits hs₂ hpos hi hind
  have hwrote : Wrote u o₁ (s.backwards.take i).reverse o₃ := by
    refine Wrote.of_flush h₂ hkept h₃ fun hb => ?_
    rw [List.length_reverse, List.length_take]
    omega
  have hs₃ : u.sroom ≤ o₃.str.length := h₃.length ▸ hs₂
  have hj : (0 : ℤ) ≤ if s.f.left then (i : ℤ) else max (i : ℤ) w + 1 := by
    split_ifs <;> omega
  obtain ⟨o₄, hpad', h₄⟩ := wrote_pad hu s.padByte hs₃ h₃.le hw hj
  refine ⟨o₁, o₂, o₃, o₄, hpad, hflush, hdigits, hpad', ?_⟩
  have happ := (h₁.trans hwrote).trans h₄
  cases hleft : s.f.left with
  | true => simpa [hleft] using happ
  | false =>
    have hnil : (w - (max (i : ℤ) w + 1)).toNat = 0 := by omega
    simpa [hleft, hnil] using happ

theorem writeDigits_wrote (hu : u.Sound) {w pr : ℤ} (hs : u.sroom ≤ o.str.length)
    (h : o.ind < u.sroom) (hw : w ≤ u.sroom) (hroom : s.zerosTo u pr o.ind ≤ u.sroom)
    (hlen : s.zerosTo u pr o.ind < u.len) :
    ∃ i o', u.writeDigits s w pr o = .ok o' ∧
      Wrote u o (s.number w pr (s.backwards.take i).reverse) o' ∧
      0 < i ∧ i ≤ s.backwards.length ∧
      (o.ind + (s.fillCount pr).toNat + s.backwards.length ≤ u.len → i = s.backwards.length) ∧
      (o.ind + (s.fillCount pr).toNat ≤ u.sroom →
        i = min (u.len - (o.ind + (s.fillCount pr).toNat)) s.backwards.length) := by
  set z := s.fillCount pr with hz
  obtain ⟨o₁, hflush, h₁, hfull, hkept⟩ :=
    flushIf_appended hu (0 ≤ z ∧ (u.sroom : ℤ) < z + o.ind) hs h.le
  have hfrom : o₁.ind = s.zerosFrom u pr o.ind := by
    unfold IntConv.zerosFrom
    split_ifs with hb
    · exact hfull hb
    · rw [hkept hb]
  rw [IntConv.zerosTo, ← hfrom, ← hz] at hroom hlen
  have hs₁ : u.sroom ≤ o₁.str.length := h₁.length ▸ hs
  obtain ⟨o₂, hzeros, h₂⟩ := wrote_zeros u.len hs₁ hroom hlen.le
  have hind₂ : o₂.ind = o₁.ind + z.toNat := by
    rw [h₂.ind_eq (by rw [List.length_replicate]; exact hroom), List.length_replicate]
  have hzeros' : Wrote u o (List.replicate z.toNat 48) o₂ := by
    refine Wrote.of_flush h₁ hkept h₂ fun hb => ?_
    rw [List.length_replicate]
    omega
  have hpos := s.length_backwards_pos
  have hle := s.length_backwards_le
  have hdigits := hu.digits
  set i := min (u.len - o₂.ind) s.backwards.length with hi
  have hs₂ : u.sroom ≤ o₂.str.length := h₂.length ▸ hs₁
  obtain ⟨o₃, o₄, o₅, o₆, hpad, hflush', hdig, hpad', h₃⟩ :=
    writeField_wrote (s := s) hu (i := i) hs₂ h₂.le hw (by omega) (by omega) (by omega)
  have hrev : ((s.backwards.take i).reverse).length = i := by
    rw [List.length_reverse, List.length_take]
    omega
  refine ⟨i, o₆, ?_, ?_, by omega, by omega, fun hfit => ?_, fun hkeep => ?_⟩
  · unfold Setup.writeDigits
    rw [← hz, hflush]
    show (o₁.zeros u.len z.toNat >>= _) = _
    rw [hzeros]
    show (if s.f.left = true then _ else _) = _
    by_cases hleft : s.f.left = true
    · simp only [if_pos hleft] at hpad hpad' ⊢
      cases hpad
      show (u.flushIf (u.sroom < i + o₂.ind) o₂ >>= _) = _
      rw [hflush']
      show (o₄.digits s.backwards i >>= _) = _
      rw [hdig]
      exact hpad'
    · simp only [if_neg hleft] at hpad hpad' ⊢
      rw [← hi, hpad]
      show (u.flushIf (u.sroom < i + o₃.ind) o₃ >>= _) = _
      rw [hflush']
      show (o₄.digits s.backwards i >>= _) = _
      rw [hdig]
      exact hpad'
  · have := hzeros'.trans h₃
    unfold IntConv.number
    rw [hrev]
    exact this
  · have := hzeros'.toAppended.ind_le
    rw [List.length_replicate] at this
    omega
  · rw [hi, hind₂, hkept (by omega)]

theorem writeInt_wrote (hu : u.Sound) {w pr : ℤ} (hs : u.sroom ≤ o.str.length)
    (h : o.ind < u.sroom) (hw : w ≤ u.sroom) (hsafe : s.Safe u pr o.ind) :
    ∃ i o', u.writeInt s w pr o = .ok o' ∧
      Wrote u o (s.sign ++
        if s.Silent pr then [] else s.number w pr (s.backwards.take i).reverse) o' ∧
      (o.ind + s.sign.length + (s.fillCount pr).toNat + s.backwards.length ≤ u.len →
        i = s.backwards.length) ∧
      (¬s.Silent pr → 0 < i ∧ i ≤ s.backwards.length ∧
        (o.ind + s.sign.length + (s.fillCount pr).toNat < u.sroom →
          i = min (u.len - (o.ind + s.sign.length + (s.fillCount pr).toNat))
            s.backwards.length)) := by
  obtain ⟨o₁, o₂, hsign, hflush, h₂, hwrote⟩ := writeSign_stepped (s := s) hu hs h
  unfold Setup.writeInt
  rw [hsign]
  by_cases hsilent : s.Silent pr
  · refine ⟨s.backwards.length, o₁, ?_, ?_, fun _ => rfl, fun h => absurd hsilent h⟩
    · show (if s.Silent pr then Except.ok o₁ else _) = _
      rw [if_pos hsilent]
    · rw [if_pos hsilent, List.append_nil]
      exact hwrote hsilent.2.2.1
  · obtain ⟨hroom, hlen⟩ := hsafe.resolve_left hsilent
    rw [← h₂.ind] at hroom hlen
    obtain ⟨i, o₃, hdigits, h₃, hpos, hi, hfit, hcut⟩ :=
      writeDigits_wrote hu (h₂.length ▸ hs) (h₂.lt hu) hw hroom hlen
    refine ⟨i, o₃, ?_, ?_, fun hle => hfit ?_, fun _ => ⟨hpos, hi, fun hlt => ?_⟩⟩
    · show (if s.Silent pr then Except.ok o₁ else _) = _
      rw [if_neg hsilent, hflush]
      exact hdigits
    · rw [if_neg hsilent]
      refine h₂.wrote h₃ ?_
      unfold IntConv.number
      split_ifs <;> simp only [List.length_append, List.length_reverse, List.length_take] <;> omega
    · have := h₂.ind_le
      omega
    · have hind := h₂.ind
      rw [Nat.mod_eq_of_lt (by omega)] at hind
      rw [hcut (by omega), hind]

end Numbers

/-! ## Items -/

/-- The zeros of a precision leave room for a digit. -/
def Item.Safe (u : Setup) (ind : ℕ) : Item → Prop
  | .int s => s.Safe u (u.cap s.pr.toInt) ind
  | _ => True

/-- The width and the precision are at most `b`. -/
def Item.Bounded (b : ℤ) : Item → Prop
  | .str _ w pr _ _ => w.toInt ≤ b ∧ pr.toInt ≤ b
  | .int s => s.w.toInt ≤ b ∧ s.pr.toInt ≤ b
  | _ => True

/-- The room at `ind` is enough for the padding of a wide string, which depends on the bytes that
are left out. -/
def Item.WideFits (u : Setup) (ind : ℕ) : Item → Prop
  | .str left w pr vs p => vs = 8 → w.toInt ≤ (u.len - ind : ℕ) ∨
      left = true ∧ w.toInt ≤ u.sroom ∧ (clip pr.toInt p).length ≤ u.len - ind
  | _ => True

section Items

variable {u : Setup} {o : Sink}

theorem cap_le (w : ℤ) : u.cap w ≤ u.sroom := by
  unfold Setup.cap
  split_ifs <;> omega

theorem cap_of_le {w : ℤ} (h : w ≤ u.sroom) : u.cap w = w :=
  if_neg (by omega)

theorem cap_eq_zero (hu : u.Sound) {w : ℤ} : u.cap w = 0 ↔ w = 0 := by
  have := hu.pos
  unfold Setup.cap
  split_ifs <;> omega

theorem fillCount_of_le (s : IntConv) {pr : ℤ} (h : -2 ^ 31 ≤ pr - s.backwards.length)
    (h' : pr < 2 ^ 31) : s.fillCount pr = pr - s.backwards.length :=
  Int.bmod_eq_of_le (by omega) (by omega)

theorem length_strText (left : Bool) (w : ℤ) {vs : ℤ} (hvs : vs ≠ 8) (q : List UInt8) :
    (strText left w vs q).length = q.length + (w - q.length).toNat := by
  unfold strText
  rw [if_neg hvs]
  split_ifs
  all_goals simp only [List.length_append, List.length_replicate]
  omega

theorem length_number (s : IntConv) (w pr : ℤ) (ds : List UInt8) :
    (s.number w pr ds).length =
      (s.fillCount pr).toNat + ds.length + (w - ds.length).toNat := by
  unfold IntConv.number
  split_ifs <;> simp only [List.length_append, List.length_replicate] <;> omega

theorem clip_eq_take (pr : ℤ) (p : List UInt8) : clip pr p = p.take (clip pr p).length := by
  unfold clip
  split_ifs
  · rw [List.length_take, ← List.take_take, List.take_length]
  · rw [List.take_length]

/-- A string that has room is not cut. -/
theorem strRoom_eq {ind : ℕ} {pr : ℤ} {p : List UInt8} (hpr : pr ≤ u.sroom ∨ u.sroom = u.len)
    (h : (clip pr p).length ≤ u.len - ind) :
    u.strRoom ind (u.cap pr) p = (clip pr p).length := by
  unfold Setup.strRoom
  simp only [length_clip, Setup.cap] at *
  split_ifs at * <;> omega

/-- A string that is cut fills the room. -/
theorem strRoom_eq_room {ind : ℕ} {pr : ℤ} {p : List UInt8}
    (hpr : pr ≤ u.sroom ∨ u.sroom = u.len) (h : u.len - ind ≤ (clip pr p).length) :
    u.strRoom ind (u.cap pr) p = u.len - ind := by
  unfold Setup.strRoom
  simp only [length_clip, Setup.cap] at *
  split_ifs at * <;> omega

theorem strText_cap {ind : ℕ} {left : Bool} {w pr : BitVec 32} {vs : ℤ} {p : List UInt8}
    (hroom : ind + (Item.str left w pr vs p).rendered.length ≤ u.len)
    (hb : (Item.str left w pr vs p).Bounded u.sroom ∨ u.sroom = u.len)
    (hwide : (Item.str left w pr vs p).WideFits u ind) :
    strText left (u.cap w.toInt) vs (p.take (u.strRoom ind (u.cap pr.toInt) p)) =
        (Item.str left w pr vs p).rendered ∧
      (vs = 8 → left = true ∨ u.cap w.toInt ≤ (u.len - ind : ℕ)) := by
  have hpr : pr.toInt ≤ u.sroom ∨ u.sroom = u.len := hb.imp_left And.right
  by_cases hvs : vs = 8
  · rcases hwide hvs with hw | ⟨hleft, hw, hq⟩
    · have hcap : u.cap w.toInt = w.toInt := cap_of_le (hb.elim And.left fun h => by omega)
      refine ⟨?_, fun _ => Or.inr (hcap.trans_le hw)⟩
      rw [hcap]
      rcases Nat.le_total (clip pr.toInt p).length (u.len - ind) with hq | hq
      · rw [strRoom_eq hpr hq, ← clip_eq_take]
        rfl
      · have hlen : (p.take (u.len - ind)).length = u.len - ind := by
          have : (clip pr.toInt p).length ≤ p.length := by
            rw [length_clip]
            split_ifs <;> omega
          rw [List.length_take]
          omega
        rw [strRoom_eq_room hpr hq]
        show strText _ _ _ _ = strText _ _ _ _
        unfold strText
        rw [hlen, show (w.toInt - (u.len - ind : ℕ)).toNat = 0 by omega,
          show (w.toInt - (clip pr.toInt p).length).toNat = 0 by omega]
        simp only [if_pos hvs]
    · rw [cap_of_le hw, strRoom_eq hpr hq, ← clip_eq_take]
      exact ⟨rfl, fun _ => Or.inl hleft⟩
  · have hlen : (Item.str left w pr vs p).rendered.length = _ :=
      length_strText left w.toInt hvs (clip pr.toInt p)
    have hw : w.toInt ≤ u.sroom := hb.elim And.left fun h => by omega
    rw [cap_of_le hw, strRoom_eq hpr (by omega), ← clip_eq_take]
    exact ⟨rfl, fun h => absurd h hvs⟩

theorem int_cap {ind : ℕ} {s : IntConv} (hroom : ind + (Item.int s).rendered.length ≤ u.len)
    (hb : (Item.int s).Bounded u.sroom ∨ u.sroom = u.len) (hsilent : ¬ s.Silent s.pr.toInt) :
    u.cap s.w.toInt = s.w.toInt ∧ u.cap s.pr.toInt = s.pr.toInt ∧
      ind + s.sign.length + (s.fillCount s.pr.toInt).toNat + s.backwards.length ≤ u.len := by
  have hlen : (Item.int s).rendered.length =
      s.sign.length + (s.number s.w.toInt s.pr.toInt s.backwards.reverse).length := by
    show (s.sign ++ if s.Silent s.pr.toInt then _ else _).length = _
    rw [if_neg hsilent, List.length_append]
  rw [length_number, List.length_reverse] at hlen
  refine ⟨cap_of_le (hb.elim And.left fun h => by omega), cap_of_le ?_, by omega⟩
  refine hb.elim And.right fun h => ?_
  by_contra hpr
  have hle := s.length_backwards_le
  have hlt : s.pr.toInt < 2 ^ 31 := BitVec.toInt_lt
  rw [fillCount_of_le s (by omega) hlt] at hlen
  omega

end Items

/-- What the formatter writes for an item is its text where it is not cut, in place where there
is room. -/
theorem Setup.Sound.writeItem_wrote {u : Setup} (hu : u.Sound) {o : Sink}
    (hs : u.sroom ≤ o.str.length) (h : o.ind < u.sroom) {item : Item}
    (hsafe : item.Safe u o.ind) :
    ∃ t o', u.writeItem item o = .ok o' ∧ Appended u o t o' ∧
      (o.ind + item.rendered.length ≤ u.len → item.Bounded u.sroom ∨ u.sroom = u.len →
        item.WideFits u o.ind →
        t = item.rendered ∧ (u.sroom = u.len → Wrote u o t o')) := by
  cases item with
  | text l =>
    obtain ⟨o', htext, h'⟩ := writeText_wrote hu (l := l) hs h
    exact ⟨l, o', htext, h'.toAppended, fun _ _ _ => ⟨rfl, fun _ => h'⟩⟩
  | chr c =>
    obtain ⟨o', hput, h'⟩ := wrote_put c hs h
    exact ⟨[c], o', hput, h'.toAppended, fun _ _ _ => ⟨rfl, fun _ => h'⟩⟩
  | nothing =>
    have h' : Wrote u o [] o := Wrote.refl h.le
    exact ⟨[], o, rfl, h'.toAppended, fun _ _ _ => ⟨rfl, fun _ => h'⟩⟩
  | str left w pr vs p =>
    obtain ⟨o', hstr, happ, hwrote⟩ := writeStr_wrote hu left (u.cap pr.toInt) vs p hs h
      (cap_le w.toInt)
    refine ⟨_, o', hstr, happ, fun hroom hb hwide => ?_⟩
    obtain ⟨htext, hwide⟩ := strText_cap hroom hb hwide
    exact ⟨htext, fun hlen => hwrote fun hvs => ⟨hlen, hwide hvs⟩⟩
  | int s =>
    obtain ⟨i, o', hint, h', hfit, -⟩ := writeInt_wrote hu hs h (cap_le s.w.toInt) hsafe
    refine ⟨_, o', hint, h'.toAppended, fun hroom hb _ => ⟨?_, fun _ => h'⟩⟩
    have hcap : s.Silent (u.cap s.pr.toInt) ↔ s.Silent s.pr.toInt := by
      unfold IntConv.Silent
      rw [cap_eq_zero hu]
    show _ = s.sign ++ if s.Silent s.pr.toInt then _ else _
    by_cases hsilent : s.Silent s.pr.toInt
    · rw [if_pos hsilent, if_pos (hcap.mpr hsilent)]
    · obtain ⟨hw, hpr, hle⟩ := int_cap hroom hb hsilent
      rw [hpr] at hfit ⊢
      rw [hfit hle, hw, List.take_length]

end Webxs
