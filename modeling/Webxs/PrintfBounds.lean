import Webxs.PrintfRuns

/-!
# Formatting to a buffer

`xs_sprintf` stays in its buffer unless the zeros of a precision end at the end of the room
(`Item.Safe`) : then no room is left for the digits, the count of the `do` loop that writes them
begins at zero, and it reads in front of the digits. This happens for `"x%.5d"` and a buffer of
six bytes. A call that reaches no such number stays inside, ends, and leaves the buffer
terminated.

A rendering that fits is then written as it is, but for wide strings : they are left out, and
their padding is computed from the room behind the index (`Setup.WideFits`).
-/

namespace Webxs

/-- The loop over `is` from `o` reaches `item` at `o'`. -/
inductive Setup.Reaches (u : Setup) : List Item → Sink → Item → Sink → Prop
  | here {item is o} (h : o.ind < u.len) : Reaches u (item :: is) o item o
  | there {item is o o₁ item' o'} (h : o.ind < u.len) (hwrite : u.writeItem item o = .ok o₁)
      (hrest : Reaches u is o₁ item' o') : Reaches u (item :: is) o item' o'

/-- The numbers that the loop reaches have room for a digit. -/
def Setup.Safe (u : Setup) (is : List Item) (o : Sink) : Prop :=
  ∀ item o', u.Reaches is o item o' → item.Safe u o'.ind

/-- `xs_sprintf` to `str` returns, stays inside, and leaves a NUL in the buffer; a rendering
`out` that fits is written as it is, and the result is its length. -/
def Formats (str fmt : List UInt8) (ap : List Arg) (out : List UInt8) : Prop :=
  ∃ r str', sprintf str fmt ap = some (r, str') ∧ str'.length = str.length ∧ 0 ∈ str' ∧
    (out.length < str.length → r = out.length ∧ out ++ [0] <+: str')

/-! ## The fault -/

section Fault

variable {u : Setup} {o : Sink} {s : IntConv}

/-- Zeros that end behind the room stop at its end. -/
theorem zeros_full {len n : ℕ} (h : o.ind ≤ len) (hlen : len ≤ o.str.length)
    (hn : len ≤ o.ind + n) :
    ∃ o', o.zeros len n = .ok o' ∧ o'.ind = len ∧ o'.str.length = o.str.length := by
  induction n generalizing o with
  | zero => exact ⟨o, rfl, by omega, rfl⟩
  | succ n ih =>
    rw [Sink.zeros]
    by_cases hend : o.ind < len
    · obtain ⟨o', hzeros, hind, hstr⟩ := ih (o := { o with
          str := o.str.set o.ind 48, ind := o.ind + 1 }) hend
        (by rw [List.length_set]; exact hlen) (by dsimp only; omega)
      refine ⟨o', ?_, hind, hstr.trans (List.length_set ..)⟩
      rw [if_pos hend, Sink.put, if_pos (by omega)]
      exact hzeros
    · exact ⟨o, if_neg hend, by omega, rfl⟩

theorem writeDigits_fault (hu : u.Sound) (hroom : u.sroom = u.len) {w pr : ℤ}
    (hs : u.sroom ≤ o.str.length) (h : o.ind < u.sroom) (hw : w ≤ u.sroom)
    (hfull : u.len ≤ s.zerosTo u pr o.ind) : u.writeDigits s w pr o = .error .fault := by
  set z := s.fillCount pr with hz
  obtain ⟨o₁, hflush, h₁, hrewound, hkept⟩ :=
    flushIf_appended hu (0 ≤ z ∧ (u.sroom : ℤ) < z + o.ind) hs h.le
  have hfrom : o₁.ind = s.zerosFrom u pr o.ind := by
    unfold IntConv.zerosFrom
    split_ifs with hb
    · exact hrewound hb
    · rw [hkept hb]
  rw [IntConv.zerosTo, ← hfrom, ← hz] at hfull
  have hle := h₁.le
  have hlen := h₁.length
  obtain ⟨o₂, hzeros, hind, hstr⟩ := zeros_full (o := o₁) (by omega) (by omega) hfull
  unfold Setup.writeDigits
  rw [← hz, hflush]
  show (o₁.zeros u.len z.toNat >>= _) = _
  rw [hzeros]
  -- no room is left, so the digits are written from the index 0 of the scratch array
  have hnone : min (u.len - o₂.ind) s.backwards.length = 0 := by omega
  show (if s.f.left = true then _ else _) = _
  rw [hnone]
  by_cases hleft : s.f.left = true
  · rw [if_pos hleft]
    show (u.flushIf (u.sroom < 0 + o₂.ind) o₂ >>= _) = _
    rw [Setup.flushIf, if_neg (by omega)]
    rfl
  · obtain ⟨o₃, hpad, h₃⟩ := wrote_pad hu (w := w) (j := (0 : ℕ)) s.padByte
      (o := o₂) (by omega) (by omega) hw (by omega)
    have := h₃.le
    rw [if_neg hleft, hpad]
    show (u.flushIf (u.sroom < 0 + o₃.ind) o₃ >>= _) = _
    rw [Setup.flushIf, if_neg (by omega)]
    rfl

/-- A number without room for a digit is a fault. -/
theorem writeItem_fault (hu : u.Sound) (hroom : u.sroom = u.len) {item : Item}
    (hs : u.sroom ≤ o.str.length) (h : o.ind < u.sroom) (hsafe : ¬ item.Safe u o.ind) :
    u.writeItem item o = .error .fault := by
  cases item with
  | int s =>
    obtain ⟨hsilent, hfull⟩ := not_or.mp hsafe
    obtain ⟨o₁, o₂, hsign, hflush, h₂, -⟩ := writeSign_stepped (s := s) hu hs h
    rw [← h₂.ind] at hfull
    show (u.writeSign s o >>= _) = _
    rw [hsign]
    show (if s.Silent (u.cap s.pr.toInt) then Except.ok o₁ else _) = _
    rw [if_neg hsilent, hflush]
    exact writeDigits_fault hu hroom (h₂.length ▸ hs) (h₂.lt hu) (cap_le _) (by omega)
  | _ => exact absurd trivial hsafe

end Fault

/-! ## Runs -/

section Runs

variable {u : Setup} {o : Sink} {is : List Item}

theorem writeItems_cons (hroom : u.sroom = u.len) {item : Item} (h : o.ind < u.len) :
    u.writeItems (item :: is) o = (u.writeItem item o >>= u.writeItems is) := by
  rw [Setup.writeItems, if_neg (by omega), flushIf_full_eq (by omega)]
  rfl

/-- A fault at an item that is reached is a fault of the loop. -/
theorem writeItems_fault (hu : u.Sound) (hroom : u.sroom = u.len) {item : Item} {o' : Sink}
    (hreach : u.Reaches is o item o') (hs : u.sroom ≤ o.str.length)
    (hsafe : ¬ item.Safe u o'.ind) : u.writeItems is o = .error .fault := by
  induction hreach with
  | here h =>
    rw [writeItems_cons hroom h, writeItem_fault hu hroom hs (by omega) hsafe]
    rfl
  | @there item is o o₁ item' o' h hwrite hrest ih =>
    by_cases hitem : item.Safe u o.ind
    · obtain ⟨t, o₂, hwrite', h₂, -⟩ := hu.writeItem_wrote hs (by omega) hitem
      obtain rfl : o₁ = o₂ := Except.ok.inj (hwrite.symm.trans hwrite')
      rw [writeItems_cons hroom h, hwrite]
      exact ih (h₂.length ▸ hs) hsafe
    · rw [writeItem_fault hu hroom hs (by omega) hitem] at hwrite
      cases hwrite

/-- A loop that reaches no such number ends inside the buffer. -/
theorem writeItems_safe (hu : u.Sound) (hroom : u.sroom = u.len) (hs : u.sroom ≤ o.str.length)
    (h : o.ind ≤ u.len) (hsafe : u.Safe is o) :
    ∃ o', u.writeItems is o = .ok o' ∧ o'.str.length = o.str.length := by
  induction is generalizing o with
  | nil => exact ⟨o, rfl, rfl⟩
  | cons item is ih =>
    by_cases hend : u.len ≤ o.ind
    · exact ⟨o, if_pos hend, rfl⟩
    have hlt : o.ind < u.len := by omega
    obtain ⟨t, o₁, hwrite, h₁, -⟩ := hu.writeItem_wrote hs (by omega) (hsafe _ _ (.here hlt))
    have hle := h₁.le
    obtain ⟨o₂, hrest, hstr⟩ := ih (h₁.length ▸ hs) (by omega) fun item' o' hreach =>
      hsafe item' o' (.there hlt hwrite hreach)
    exact ⟨o₂, by rw [writeItems_cons hroom hlt, hwrite]; exact hrest, hstr.trans h₁.length⟩

end Runs

/-! ## The call -/

section Calls

variable {str fmt : List UInt8} {ap : List Arg} {is : List Item}

/-- What `xs_sprintf` does behind a run of the core that did not fault. -/
theorem formats_of_core {out buf : List UInt8} {result : ℤ} (hne : str ≠ [])
    (hcore : sprintfCore none (some str) (str.length - 1) fmt ap = some ⟨result, [], buf⟩)
    (hbuf : buf.length = str.length)
    (hout : out.length < str.length → result = out.length ∧ buf.take out.length = out) :
    Formats str fmt ap out := by
  have hpos : 0 < str.length := List.length_pos_of_ne_nil hne
  unfold Formats sprintf
  rw [hcore]
  refine ⟨_, _, rfl, ?_, ?_, fun hfit => ?_⟩
  · dsimp only
    split_ifs <;> rw [List.length_set, hbuf]
  · dsimp only
    split_ifs
    · exact List.mem_set (by omega) _
    · exact List.mem_set (by omega) _
  · obtain ⟨rfl, htake⟩ := hout hfit
    refine ⟨rfl, ?_⟩
    dsimp only
    rw [if_pos (by omega), Int.toNat_natCast]
    have hset := take_set_ind (o := ⟨buf, out.length, 0, []⟩) 0 (by dsimp only; omega)
    dsimp only at hset
    rw [htake] at hset
    rw [← hset]
    exact List.take_prefix _ _

end Calls

/-- `"ab%4llsx"` of a wide string of three bytes: the `x` overwrites the `a`, though the
rendering `"ab x"` fits. -/
example : sprintf [0, 0, 0, 0, 0, 0] [97, 98, 37, 52, 108, 108, 115, 120] [.str [1, 2, 3]] =
    some (4, [120, 98, 32, 0, 0, 0]) := by decide

end Webxs
