import Webxs.PrintfText

/-!
# Writing without a view of the buffer

A sink stands for the bytes flushed and those in the buffer (`Sink.contents`). What an operation
appends to them does not depend on when the buffer is flushed (`Appended`), and it leaves the
count of the flushed bytes alone if there is room for all it writes (`Wrote`). Both compose, so
an item is followed from step to step without the buffer in view (`Setup.writeItem_wrote`).
-/

namespace Webxs

namespace Sink

/-- The bytes flushed and the bytes in the buffer. -/
def contents (o : Sink) : List UInt8 :=
  o.flushed.flatten ++ o.str.take o.ind

end Sink

/-- From `o` to `o'` the bytes `t` were appended. -/
structure Appended (u : Setup) (o : Sink) (t : List UInt8) (o' : Sink) : Prop where
  contents : o'.contents = o.contents ++ t
  length : o'.str.length = o.str.length
  total : o'.tot + o'.ind = o.tot + o.ind + t.length
  mono : o.tot ≤ o'.tot
  le : o'.ind ≤ u.sroom

/-- The bytes `t` were appended, in place if there is room for them. -/
structure Wrote (u : Setup) (o : Sink) (t : List UInt8) (o' : Sink) : Prop
    extends Appended u o t o' where
  kept : o.ind + t.length ≤ u.sroom → o'.tot = o.tot

/-- The callback accepts what it is given. -/
def Sflush.Accepts (answer : Sflush) : Prop :=
  ∀ blocks (block : List UInt8), answer blocks block = block.length

/-- What the formatter relies on : a buffer, room for the digits, and a callback that accepts
what it is given. -/
structure Setup.Sound (u : Setup) : Prop where
  pos : 0 < u.sroom
  le : u.sroom ≤ u.len
  digits : 64 ≤ u.sroom ∨ u.sroom = u.len
  accepts : ∀ answer, u.sflush = some answer → Sflush.Accepts answer

section Compose

variable {u : Setup} {o o₁ o₂ : Sink} {t t' : List UInt8}

theorem Appended.trans (h₁ : Appended u o t o₁) (h₂ : Appended u o₁ t' o₂) :
    Appended u o (t ++ t') o₂ where
  contents := by rw [h₂.contents, h₁.contents, List.append_assoc]
  length := h₂.length.trans h₁.length
  total := by
    have := h₁.total
    have := h₂.total
    rw [List.length_append]
    omega
  mono := h₁.mono.trans h₂.mono
  le := h₂.le

theorem Appended.ind_le (h : Appended u o t o₁) : o₁.ind ≤ o.ind + t.length := by
  have := h.total
  have := h.mono
  omega

theorem Wrote.ind_eq (h : Wrote u o t o₁) (hroom : o.ind + t.length ≤ u.sroom) :
    o₁.ind = o.ind + t.length := by
  have := h.total
  have := h.kept hroom
  omega

theorem Wrote.refl (h : o.ind ≤ u.sroom) : Wrote u o [] o where
  contents := (List.append_nil _).symm
  length := rfl
  total := rfl
  mono := Nat.le_refl _
  le := h
  kept _ := rfl

theorem Wrote.trans (h₁ : Wrote u o t o₁) (h₂ : Wrote u o₁ t' o₂) : Wrote u o (t ++ t') o₂ where
  toAppended := h₁.toAppended.trans h₂.toAppended
  kept hroom := by
    rw [List.length_append] at hroom
    have hind := h₁.ind_eq (by omega)
    rw [h₂.kept (by omega), h₁.kept (by omega)]

/-- An operation that has no room may flush. -/
theorem Appended.wrote (h : Appended u o t o₁) (hroom : u.sroom < o.ind + t.length) :
    Wrote u o t o₁ where
  toAppended := h
  kept h := absurd h (by omega)

/-- What follows a flush that was made for want of room. -/
theorem Wrote.of_flush {b : Prop} (h₁ : Appended u o [] o₁) (hb : ¬ b → o₁ = o)
    (h₂ : Wrote u o₁ t o₂) (hroom : b → u.sroom < o.ind + t.length) : Wrote u o t o₂ := by
  by_cases hflush : b
  · exact (h₁.trans h₂.toAppended).wrote (hroom hflush)
  · rwa [hb hflush] at h₂

end Compose

/-! ## The operations -/

section Operations

variable {u : Setup} {o : Sink}

theorem take_set_ind (c : UInt8) (h : o.ind < o.str.length) :
    (o.str.set o.ind c).take (o.ind + 1) = o.str.take o.ind ++ [c] := by
  rw [List.take_add_one, List.take_set_of_le (Nat.le_refl _), List.getElem?_set_self h]
  rfl

theorem wrote_put (c : UInt8) (hs : u.sroom ≤ o.str.length) (h : o.ind < u.sroom) :
    ∃ o', o.put c = .ok o' ∧ Wrote u o [c] o' := by
  have hlt : o.ind < o.str.length := by omega
  refine ⟨_, if_pos hlt, ⟨?_, List.length_set .., rfl, Nat.le_refl _, h⟩, fun _ => rfl⟩
  unfold Sink.contents
  rw [take_set_ind c hlt, List.append_assoc]

theorem wrote_copy (p : List UInt8) (hs : u.sroom ≤ o.str.length)
    (h : o.ind + p.length ≤ u.sroom) : ∃ o', o.copy p = .ok o' ∧ Wrote u o p o' := by
  have hle : o.ind + p.length ≤ o.str.length := by omega
  have htake : (o.str.take o.ind).length = o.ind := by
    rw [List.length_take]
    omega
  refine ⟨_, if_pos hle, ⟨?_, ?_, (Nat.add_assoc ..).symm, Nat.le_refl _, h⟩, fun _ => rfl⟩
  · unfold Sink.contents Arr.copyTo
    rw [List.take_left' (by rw [List.length_append, htake])]
    exact (List.append_assoc ..).symm
  · simp only [Arr.copyTo, List.length_append, htake, List.length_drop]
    omega

theorem appended_rewind (o : Sink) : Appended u o [] o.rewind where
  contents := by simp [Sink.contents, Sink.rewind]
  length := rfl
  total := by simp [Sink.rewind]
  mono := Nat.le_add_right _ _
  le := Nat.zero_le _

theorem Setup.Sound.flush_eq (hu : u.Sound) (hs : o.ind ≤ o.str.length) :
    u.flush o = .ok o.rewind := by
  unfold Setup.flush
  cases hf : u.sflush with
  | none => rfl
  | some answer =>
    dsimp only
    rw [if_neg]
    rw [not_not, hu.accepts answer hf, List.length_take, Nat.min_eq_left hs]

theorem flushIf_appended (hu : u.Sound) (b : Prop) [Decidable b] (hs : u.sroom ≤ o.str.length)
    (h : o.ind ≤ u.sroom) :
    ∃ o', u.flushIf b o = .ok o' ∧ Appended u o [] o' ∧ (b → o'.ind = 0) ∧ (¬ b → o' = o) := by
  unfold Setup.flushIf
  by_cases hb : b
  · rw [if_pos hb]
    exact ⟨_, hu.flush_eq (h.trans hs), appended_rewind o, fun _ => rfl,
      fun hn => absurd hb hn⟩
  · rw [if_neg hb]
    exact ⟨o, rfl, (Wrote.refl h).toAppended, fun hp => absurd hp hb, fun _ => rfl⟩

theorem wrote_fill (c : UInt8) {n : ℕ} (hs : u.sroom ≤ o.str.length)
    (h : o.ind + n ≤ u.sroom) :
    ∃ o', o.fill c n = .ok o' ∧ Wrote u o (List.replicate n c) o' := by
  induction n generalizing o with
  | zero => exact ⟨o, rfl, Wrote.refl h⟩
  | succ n ih =>
    obtain ⟨o₁, hput, h₁⟩ := wrote_put c hs (by omega)
    have hind : o₁.ind = o.ind + 1 := h₁.ind_eq (by rw [List.length_singleton]; omega)
    obtain ⟨o₂, hfill, h₂⟩ := ih (h₁.length ▸ hs) (by omega)
    refine ⟨o₂, ?_, h₁.trans h₂⟩
    rw [Sink.fill, hput]
    exact hfill

theorem wrote_zeros (len : ℕ) {n : ℕ} (hs : u.sroom ≤ o.str.length) (h : o.ind + n ≤ u.sroom)
    (hlen : o.ind + n ≤ len) :
    ∃ o', o.zeros len n = .ok o' ∧ Wrote u o (List.replicate n 48) o' := by
  induction n generalizing o with
  | zero => exact ⟨o, rfl, Wrote.refl h⟩
  | succ n ih =>
    obtain ⟨o₁, hput, h₁⟩ := wrote_put 48 hs (by omega)
    have hind : o₁.ind = o.ind + 1 := h₁.ind_eq (by rw [List.length_singleton]; omega)
    obtain ⟨o₂, hzeros, h₂⟩ := ih (h₁.length ▸ hs) (by omega) (by omega)
    refine ⟨o₂, ?_, h₁.trans h₂⟩
    rw [Sink.zeros, if_pos (by omega), hput]
    exact hzeros

theorem wrote_digits {s : List UInt8} {i : ℕ} (hs : u.sroom ≤ o.str.length) (hpos : 0 < i)
    (hi : i ≤ s.length) (h : o.ind + i ≤ u.sroom) :
    ∃ o', o.digits s i = .ok o' ∧ Wrote u o (s.take i).reverse o' := by
  induction i generalizing o with
  | zero => omega
  | succ i ih =>
    have hget : s[i]? = some s[i] := List.getElem?_eq_getElem hi
    have htake : (s.take (i + 1)).reverse = [s[i]] ++ (s.take i).reverse := by
      rw [List.take_add_one, hget, List.reverse_append]
      rfl
    obtain ⟨o₁, hput, h₁⟩ := wrote_put s[i] hs (by omega)
    have hind : o₁.ind = o.ind + 1 := h₁.ind_eq (by rw [List.length_singleton]; omega)
    simp only [Sink.digits, hget, hput, Except.bind, htake]
    by_cases hi0 : i = 0
    · subst hi0
      exact ⟨o₁, rfl, h₁⟩
    · rw [if_neg hi0]
      obtain ⟨o₂, hdigits, h₂⟩ := ih (h₁.length ▸ hs) (by omega) (by omega) (by omega)
      exact ⟨o₂, hdigits, h₁.trans h₂⟩

theorem wrote_pad (hu : u.Sound) {w j : ℤ} (c : UInt8) (hs : u.sroom ≤ o.str.length)
    (h : o.ind ≤ u.sroom) (hw : w ≤ u.sroom) (hj : 0 ≤ j) :
    ∃ o', u.pad w j c o = .ok o' ∧ Wrote u o (List.replicate (w - j).toNat c) o' := by
  obtain ⟨o₁, hflush, h₁, hfull, hkept⟩ :=
    flushIf_appended hu ((u.sroom : ℤ) < w - j + o.ind) hs h
  have hind : o₁.ind + (w - j).toNat ≤ u.sroom := by
    by_cases hb : (u.sroom : ℤ) < w - j + o.ind
    · rw [hfull hb]
      omega
    · rw [hkept hb]
      omega
  obtain ⟨o₂, hfill, h₂⟩ := wrote_fill c (h₁.length ▸ hs) hind
  refine ⟨o₂, ?_, Wrote.of_flush h₁ hkept h₂ fun hb => ?_⟩
  · rw [Setup.pad, hflush]
    exact hfill
  · rw [List.length_replicate]
    omega

theorem appended_copyLoop (hu : u.Sound) {fuel : ℕ} {p : List UInt8}
    (hs : u.sroom ≤ o.str.length) (h : o.ind ≤ u.sroom) (hpos : 0 < p.length)
    (hfuel : p.length ≤ fuel) :
    ∃ o', u.copyLoop fuel p o = .ok o' ∧ Appended u o p o' := by
  have hroom := hu.pos
  induction fuel generalizing o p with
  | zero => omega
  | succ fuel ih =>
    have hflush := hu.flush_eq (h.trans hs)
    set i := if u.sroom < p.length then u.sroom else p.length with hi
    have hile : i ≤ u.sroom ∧ 0 < i ∧ i ≤ p.length := by
      rw [hi]
      split_ifs <;> omega
    have htake : (p.take i).length = i := by
      rw [List.length_take]
      omega
    have hrewind := appended_rewind (u := u) o
    obtain ⟨o₁, hcopy, h₁⟩ := wrote_copy (u := u) (o := o.rewind) (p.take i) hs
      (by rw [htake]; show 0 + i ≤ _; omega)
    have happ : Appended u o (p.take i) o₁ := hrewind.trans h₁.toAppended
    have hstep : u.copyLoop (fuel + 1) p o =
        if (p.drop i).length = 0 then .ok o₁ else u.copyLoop fuel (p.drop i) o₁ := by
      rw [Setup.copyLoop, hflush]
      show (o.rewind.copy (p.take i) >>= _) = _
      rw [hcopy]
      rfl
    rw [hstep]
    by_cases hend : (p.drop i).length = 0
    · rw [if_pos hend]
      have : p.take i = p := List.take_of_length_le (by rw [List.length_drop] at hend; omega)
      exact ⟨o₁, rfl, this ▸ happ⟩
    · rw [if_neg hend]
      obtain ⟨o₂, hloop, h₂⟩ := ih (p := p.drop i) (happ.length ▸ hs) happ.le
        (by omega) (by rw [List.length_drop]; omega)
      refine ⟨o₂, hloop, ?_⟩
      have := happ.trans h₂
      rwa [List.take_append_drop] at this

end Operations

end Webxs
