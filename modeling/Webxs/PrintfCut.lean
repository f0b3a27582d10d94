import Webxs.PrintfBounds
import Webxs.Storing

/-!
# Where the room ends

With a buffer of the caller nothing takes what `xs_sprintf_core` flushes : an item that has no room
is stored at the front again, over what is there, and the result counts both. A string whose width
has room is cut instead, and of a number the last digits are kept. So what is in the buffer is the
front of the text if every item fits up to one that is cut (`Cleanly`, `sprintf_cleanly`), and if
not the result is too large, or the text is another one (`sprintf_over`).
-/

namespace Webxs

/-! ## Items that do not fit -/

/-- A string with a modifier for 64 bits, for which nothing is written. -/
def Item.Wide : Item → Prop
  | .str _ _ _ vs _ => vs = 8
  | _ => False

/-- Where the digits of a number at `ind` begin. -/
def IntConv.digitsAt (s : IntConv) (len ind : ℕ) : ℕ :=
  ind + s.sign.length + (s.fillCount ((fixed len).cap s.pr.toInt)).toNat

/-- There is room for the width of a string, or for a digit and the width of a number. The width of
the first item is narrowed to the buffer. -/
def Item.RoomLeft (len ind : ℕ) : Item → Prop
  | .str _ w _ _ _ => w.toInt ≤ (len - ind : ℕ) ∨ ind = 0
  | .int s => s.digitsAt len ind < len ∧
      (s.w.toInt ≤ (len - s.digitsAt len ind : ℕ) ∨ s.digitsAt len ind = 0)
  | _ => False

/-- An item that is cut at the end of `len` bytes : the front of a string, the last digits of a
number. -/
def Item.short (len ind : ℕ) : Item → List UInt8
  | .str left w pr vs p => strText left ((fixed len).cap w.toInt) vs
      (p.take ((fixed len).strRoom ind ((fixed len).cap pr.toInt) p))
  | .int s => s.sign ++ s.number ((fixed len).cap s.w.toInt) ((fixed len).cap s.pr.toInt)
      (s.backwards.take (len - s.digitsAt len ind)).reverse
  | item => item.rendered

/-- An item that does not fit is cut to its front. -/
def Item.Cut (len ind : ℕ) (item : Item) : Prop :=
  item.RoomLeft len ind ∧ item.short len ind = item.rendered.take (len - ind)

/-- Every item up to the end of the room fits, or is cut to its front. -/
def Cleanly (len : ℕ) : ℕ → List Item → Prop
  | _, [] => True
  | ind, item :: is => ind < len →
      ind + item.rendered.length ≤ len ∧ Cleanly len (ind + item.rendered.length) is ∨
        len < ind + item.rendered.length ∧ item.Cut len ind

section Over

variable {len : ℕ} {o : Sink}

theorem length_strText_short {left : Bool} {w pr : BitVec 32} {vs : ℤ} {p : List UInt8} {ind : ℕ}
    (hvs : vs ≠ 8) :
    ((Item.str left w pr vs p).short len ind).length =
      (fixed len).strRoom ind ((fixed len).cap pr.toInt) p +
        ((fixed len).cap w.toInt - (fixed len).strRoom ind ((fixed len).cap pr.toInt) p).toNat := by
  have hle : (fixed len).strRoom ind ((fixed len).cap pr.toInt) p ≤ p.length := by
    unfold Setup.strRoom
    rw [length_clip]
    split_ifs <;> omega
  rw [Item.short, length_strText _ _ hvs, List.length_take, Nat.min_eq_left hle]

/-- A string without room. -/
theorem writeStr_over {left : Bool} {w pr : BitVec 32} {vs : ℤ} {p : List UInt8} (hvs : vs ≠ 8)
    (hs : len ≤ o.str.length) (h : o.ind < len)
    (hbig : len < o.ind + (Item.str left w pr vs p).rendered.length) :
    ∃ o', (fixed len).writeItem (.str left w pr vs p) o = .ok o' ∧
      Wrote (fixed len) o ((Item.str left w pr vs p).short len o.ind) o' ∧
      len ≤ o.ind + ((Item.str left w pr vs p).short len o.ind).length ∧
      (o.ind + ((Item.str left w pr vs p).short len o.ind).length = len →
        (Item.str left w pr vs p).RoomLeft len o.ind) := by
  have hu : (fixed len).Sound := sound_fixed (by omega)
  obtain ⟨o', hstr, -, hwrote⟩ := writeStr_wrote hu left ((fixed len).cap pr.toInt) vs p hs h
    (cap_le w.toInt)
  refine ⟨o', hstr, hwrote fun h => absurd h hvs, ?_⟩
  rw [length_strText_short hvs]
  have hlen : (Item.str left w pr vs p).rendered.length = _ :=
    length_strText left w.toInt hvs (clip pr.toInt p)
  have hcap : (fixed len).cap w.toInt = if (len : ℤ) < w.toInt then (len : ℤ) else w.toInt := rfl
  have hroom : (fixed len).strRoom o.ind ((fixed len).cap pr.toInt) p =
      min (len - o.ind) (clip pr.toInt p).length := by
    rcases Nat.le_total (clip pr.toInt p).length (len - o.ind) with hq | hq
    · rw [strRoom_eq (.inr rfl) hq, Nat.min_eq_right hq]
    · rw [strRoom_eq_room (.inr rfl) hq, Nat.min_eq_left hq]
      rfl
  rw [hroom, hcap]
  unfold Item.RoomLeft
  split_ifs <;> omega

theorem length_sign_le {s : IntConv} {pr : ℤ} (h : s.Silent pr) : s.sign.length ≤ 1 := by
  have hv : ¬(s.f.alt = true ∧ s.v ≠ 0) := fun halt => halt.2 h.2.2.1
  unfold IntConv.sign
  split_ifs <;> simp

/-- A number has room for a digit if its digits begin in the buffer. -/
theorem safe_of_digitsAt {s : IntConv} {ind : ℕ} (h : s.digitsAt len ind < len) :
    (Item.int s).Safe (fixed len) ind := by
  have hmod : (ind + s.sign.length) % len = ind + s.sign.length :=
    Nat.mod_eq_of_lt ((Nat.le_add_right _ _).trans_lt h)
  refine .inr ?_
  show s.zerosTo (fixed len) _ ((ind + s.sign.length) % len) ≤ len ∧
    s.zerosTo (fixed len) _ ((ind + s.sign.length) % len) < len
  unfold IntConv.digitsAt at h
  rw [hmod, IntConv.zerosTo, IntConv.zerosFrom, if_neg fun hflush => ?_]
  · exact ⟨h.le, h⟩
  · have hroom : (len : ℤ) < s.fillCount ((fixed len).cap s.pr.toInt) +
        (ind + s.sign.length : ℕ) := hflush.2
    omega

/-- A number without room. -/
theorem writeInt_over {s : IntConv} (hlen : len < 2 ^ 31) (hs : len ≤ o.str.length)
    (h : o.ind < len) (hbig : len < o.ind + (Item.int s).rendered.length)
    (hsafe : (Item.int s).Safe (fixed len) o.ind) :
    ∃ t o', (fixed len).writeItem (.int s) o = .ok o' ∧ Wrote (fixed len) o t o' ∧
      len ≤ o.ind + t.length ∧
      ((Item.int s).RoomLeft len o.ind → t = (Item.int s).short len o.ind) ∧
      (o.ind + t.length = len → (Item.int s).RoomLeft len o.ind) := by
  have hu : (fixed len).Sound := sound_fixed (by omega)
  have hcap : ∀ w, (fixed len).cap w = if (len : ℤ) < w then (len : ℤ) else w := fun _ => rfl
  obtain ⟨i, o', hint, hwrote, -, hdigits⟩ := writeInt_wrote hu hs h (cap_le s.w.toInt) hsafe
  have hsilent : ¬s.Silent ((fixed len).cap s.pr.toInt) := by
    intro hsilent
    have hpr : s.Silent s.pr.toInt := ⟨hsilent.1, (cap_eq_zero hu).mp hsilent.2.1, hsilent.2.2⟩
    have hone := length_sign_le hsilent
    rw [Item.rendered, if_pos hpr, List.append_nil] at hbig
    omega
  have hpr : ¬s.Silent s.pr.toInt := fun hpr =>
    hsilent ⟨hpr.1, (cap_eq_zero hu).mpr hpr.2.1, hpr.2.2⟩
  obtain ⟨hpos, hi, hcut⟩ := hdigits hsilent
  rw [if_neg hsilent] at hwrote
  have htake : (s.backwards.take i).reverse.length = i := by
    rw [List.length_reverse, List.length_take, Nat.min_eq_left hi]
  have htotal : o.ind + (s.sign ++ s.number ((fixed len).cap s.w.toInt)
      ((fixed len).cap s.pr.toInt) (s.backwards.take i).reverse).length =
        s.digitsAt len o.ind + i + ((fixed len).cap s.w.toInt - i).toNat := by
    rw [List.length_append, length_number, htake, IntConv.digitsAt]
    omega
  have hcut' : s.digitsAt len o.ind < len →
      i = min (len - s.digitsAt len o.ind) s.backwards.length := hcut
  have hrendered : len < o.ind + s.sign.length + (s.fillCount s.pr.toInt).toNat +
      s.backwards.length + (s.w.toInt - s.backwards.length).toNat := by
    rw [Item.rendered, if_neg hpr, List.length_append, length_number, List.length_reverse] at hbig
    omega
  refine ⟨_, o', hint, hwrote, ?_, fun hroom => ?_, fun heq => ?_⟩
  · rw [htotal]
    by_cases hat : len ≤ s.digitsAt len o.ind
    · omega
    have hi := hcut' (by omega)
    by_cases hfull : len - s.digitsAt len o.ind ≤ s.backwards.length
    · omega
    -- all of the digits fit, so the precision was not capped, and the width does not fit
    have hwide : len < s.digitsAt len o.ind + s.backwards.length +
        (s.w.toInt - s.backwards.length).toNat := by
      unfold IntConv.digitsAt at hfull hat ⊢
      rw [hcap] at hfull hat ⊢
      split_ifs at hfull hat ⊢ with hcapped
      · rw [fillCount_of_le s (by omega) (by omega)] at hfull hat
        omega
      · exact hrendered
    rw [hcap]
    split_ifs <;> omega
  · rw [Item.short, hcut' hroom.1]
    have hsame : s.backwards.take (min (len - s.digitsAt len o.ind) s.backwards.length) =
        s.backwards.take (len - s.digitsAt len o.ind) := by
      rw [← List.take_take, List.take_length]
    rw [hsame]
  · rw [htotal, hcap] at heq
    refine ⟨by omega, ?_⟩
    split_ifs at heq <;> omega

/-- An item without room faults, or writes to the end of the room and beyond. -/
theorem writeItem_over {item : Item} (hlen : len < 2 ^ 31) (hwide : ¬item.Wide)
    (hs : len ≤ o.str.length) (h : o.ind < len) (hbig : len < o.ind + item.rendered.length) :
    (fixed len).writeItem item o = .error .fault ∧ ¬item.RoomLeft len o.ind ∨
      ∃ t o', (fixed len).writeItem item o = .ok o' ∧ Wrote (fixed len) o t o' ∧
        len ≤ o.ind + t.length ∧ (item.RoomLeft len o.ind → t = item.short len o.ind) ∧
        (o.ind + t.length = len → item.RoomLeft len o.ind) := by
  have hu : (fixed len).Sound := sound_fixed (by omega)
  cases item with
  | text l =>
    have hbig : len < o.ind + l.length := hbig
    obtain ⟨o', htext, h'⟩ := writeText_wrote hu (l := l) hs h
    exact .inr ⟨l, o', htext, h', hbig.le, False.elim, fun heq => absurd heq (by omega)⟩
  | chr c =>
    have hbig : len < o.ind + 1 := hbig
    omega
  | nothing =>
    have hbig : len < o.ind + 0 := hbig
    omega
  | str left w pr vs p =>
    obtain ⟨o', hstr, hwrote, hle, hroom⟩ := writeStr_over hwide hs h hbig
    exact .inr ⟨_, o', hstr, hwrote, hle, fun _ => rfl, hroom⟩
  | int s =>
    by_cases hsafe : (Item.int s).Safe (fixed len) o.ind
    · exact .inr (writeInt_over hlen hs h hbig hsafe)
    · exact .inl ⟨writeItem_fault hu rfl hs h hsafe, fun hroom =>
        hsafe (safe_of_digitsAt hroom.1)⟩

theorem Item.wideFits {u : Setup} {ind : ℕ} {item : Item} (h : ¬item.Wide) :
    item.WideFits u ind := by
  cases item with
  | str left w pr vs p => exact fun hvs => absurd hvs h
  | _ => trivial

/-- An item with room. -/
theorem writeItem_fits {item : Item} (hwide : ¬item.Wide) (hs : len ≤ o.str.length)
    (h : o.ind < len) (hfit : o.ind + item.rendered.length ≤ len) :
    ∃ o', (fixed len).writeItem item o = .ok o' ∧ Wrote (fixed len) o item.rendered o' := by
  have hu : (fixed len).Sound := sound_fixed (by omega)
  obtain ⟨t, o', hwrite, -, htext⟩ := hu.writeItem_wrote hs h (item.safe_of_room rfl hfit)
  obtain ⟨rfl, hwrote⟩ := htext hfit (.inr rfl) (Item.wideFits hwide)
  exact ⟨o', hwrite, hwrote rfl⟩

end Over

/-! ## Runs -/

section Runs

variable {len : ℕ} {o : Sink} {is : List Item}

theorem wideFits_of_narrow {u : Setup} {ind : ℕ} (h : ∀ item ∈ is, ¬item.Wide) :
    u.WideFits ind is := by
  induction is generalizing ind with
  | nil => trivial
  | cons item is ih =>
    obtain ⟨hitem, hrest⟩ := List.forall_mem_cons.mp h
    exact fun _ => ⟨Item.wideFits hitem, ih hrest⟩

theorem writeItems_fixed_cons {item : Item} (h : o.ind < len) :
    (fixed len).writeItems (item :: is) o =
      ((fixed len).writeItem item o >>= (fixed len).writeItems is) :=
  writeItems_cons rfl h

/-- A run faults or ends. -/
theorem writeItems_wrote (hlen : len < 2 ^ 31) (hwide : ∀ item ∈ is, ¬item.Wide)
    (hs : len ≤ o.str.length) (h : o.ind ≤ len) :
    (fixed len).writeItems is o = .error .fault ∨
      ∃ t o', (fixed len).writeItems is o = .ok o' ∧ Wrote (fixed len) o t o' := by
  induction is generalizing o with
  | nil => exact .inr ⟨[], o, rfl, Wrote.refl h⟩
  | cons item is ih =>
    obtain ⟨hitem, hrest⟩ := List.forall_mem_cons.mp hwide
    by_cases hend : len ≤ o.ind
    · exact .inr ⟨[], o, if_pos hend, Wrote.refl h⟩
    have hlt : o.ind < len := by omega
    have hwrite : (fixed len).writeItem item o = .error .fault ∨
        ∃ t o', (fixed len).writeItem item o = .ok o' ∧ Wrote (fixed len) o t o' := by
      by_cases hfit : o.ind + item.rendered.length ≤ len
      · obtain ⟨o', hwrite, h'⟩ := writeItem_fits hitem hs hlt hfit
        exact .inr ⟨_, o', hwrite, h'⟩
      · obtain ⟨hfault, -⟩ | ⟨t, o', hwrite, h', -⟩ := writeItem_over hlen hitem hs hlt (by omega)
        · exact .inl hfault
        · exact .inr ⟨t, o', hwrite, h'⟩
    rw [writeItems_fixed_cons hlt]
    obtain hfault | ⟨t, o', hwrite, h'⟩ := hwrite
    · exact .inl (by rw [hfault]; rfl)
    · obtain hfault | ⟨t', o'', hrun, h''⟩ := ih hrest (h'.length ▸ hs) h'.le
      · exact .inl (by rw [hwrite]; exact hfault)
      · exact .inr ⟨_, o'', by rw [hwrite]; exact hrun, h'.trans h''⟩

theorem writeItems_full (h : len ≤ o.ind) : (fixed len).writeItems is o = .ok o := by
  cases is with
  | nil => rfl
  | cons item is => exact if_pos h

theorem rendering_take {item : Item} {n : ℕ} (h : item.rendered.length ≤ n) :
    (rendering (item :: is)).take n =
      item.rendered ++ (rendering is).take (n - item.rendered.length) := by
  rw [rendering_cons, List.take_append, List.take_of_length_le h]

theorem rendering_take_of_lt {item : Item} {n : ℕ} (h : n < item.rendered.length) :
    (rendering (item :: is)).take n = item.rendered.take n := by
  rw [rendering_cons, List.take_append_of_le_length h.le]

/-- In a clean run the front of the text is written. -/
theorem writeItems_cleanly (hlen : len < 2 ^ 31) (hwide : ∀ item ∈ is, ¬item.Wide)
    (hs : len ≤ o.str.length) (h : o.ind ≤ len) (hclean : Cleanly len o.ind is) :
    ∃ o', (fixed len).writeItems is o = .ok o' ∧
      Wrote (fixed len) o ((rendering is).take (len - o.ind)) o' := by
  induction is generalizing o with
  | nil => exact ⟨o, rfl, by rw [rendering, List.flatMap_nil, List.take_nil]; exact Wrote.refl h⟩
  | cons item is ih =>
    obtain ⟨hitem, hrest⟩ := List.forall_mem_cons.mp hwide
    by_cases hend : len ≤ o.ind
    · refine ⟨o, writeItems_full hend, ?_⟩
      rw [Nat.sub_eq_zero_of_le hend, List.take_zero]
      exact Wrote.refl h
    have hlt : o.ind < len := by omega
    rw [writeItems_fixed_cons hlt]
    obtain ⟨hfit, hclean⟩ | ⟨hbig, hroom, hshort⟩ := hclean hlt
    · obtain ⟨o', hwrite, h'⟩ := writeItem_fits hitem hs hlt hfit
      have hind : o'.ind = o.ind + item.rendered.length := h'.ind_eq hfit
      obtain ⟨o'', hrun, h''⟩ := ih hrest (h'.length ▸ hs) h'.le (hind ▸ hclean)
      refine ⟨o'', by rw [hwrite]; exact hrun, ?_⟩
      rw [rendering_take (by omega), Nat.sub_sub, ← hind]
      exact h'.trans h''
    · obtain ⟨-, hnot⟩ | ⟨t, o', hwrite, h', -, ht, -⟩ := writeItem_over hlen hitem hs hlt hbig
      · exact absurd hroom hnot
      have htake : t = item.rendered.take (len - o.ind) := (ht hroom).trans hshort
      have hfull : o.ind + t.length = len := by
        rw [htake, List.length_take]
        omega
      have hind : o'.ind = o.ind + t.length := h'.ind_eq hfull.le
      refine ⟨o', ?_, ?_⟩
      · rw [hwrite]
        exact writeItems_full (by omega)
      · rw [rendering_take_of_lt (by omega), ← htake]
        exact h'

/-- A run that is not clean has too much to write. -/
theorem lt_of_not_cleanly {ind : ℕ} (hover : ¬Cleanly len ind is) :
    len < ind + (rendering is).length := by
  induction is generalizing ind with
  | nil => exact absurd trivial hover
  | cons item is ih =>
    obtain ⟨-, hover⟩ : ind < len ∧ ¬_ := Classical.not_imp.mp hover
    rw [length_rendering_cons]
    by_cases hfit : ind + item.rendered.length ≤ len
    · have hrest := ih fun hclean => hover (.inl ⟨hfit, hclean⟩)
      omega
    · omega

/-- In any other run the text is another one, or too long. -/
theorem writeItems_over (hlen : len < 2 ^ 31) (hwide : ∀ item ∈ is, ¬item.Wide)
    (hs : len ≤ o.str.length) (h : o.ind ≤ len) (hover : ¬Cleanly len o.ind is) :
    (fixed len).writeItems is o = .error .fault ∨
      ∃ t o', (fixed len).writeItems is o = .ok o' ∧ Wrote (fixed len) o t o' ∧
        (len < o.ind + t.length ∨
          o.ind + t.length = len ∧ t ≠ (rendering is).take (len - o.ind)) := by
  induction is generalizing o with
  | nil => exact absurd trivial hover
  | cons item is ih =>
    obtain ⟨hitem, hrest⟩ := List.forall_mem_cons.mp hwide
    obtain ⟨hlt, hover⟩ : o.ind < len ∧ ¬_ := Classical.not_imp.mp hover
    obtain ⟨hfits, hcuts⟩ := not_or.mp hover
    rw [writeItems_fixed_cons hlt]
    by_cases hfit : o.ind + item.rendered.length ≤ len
    · obtain ⟨o', hwrite, h'⟩ := writeItem_fits hitem hs hlt hfit
      have hind : o'.ind = o.ind + item.rendered.length := h'.ind_eq hfit
      rw [hwrite]
      obtain hfault | ⟨t, o'', hrun, h'', hor⟩ := ih hrest (h'.length ▸ hs) h'.le
        (hind ▸ fun hclean => hfits ⟨hfit, hclean⟩)
      · exact .inl hfault
      · refine .inr ⟨_, o'', hrun, h'.trans h'', hor.imp (fun hlong => ?_) fun hne => ⟨?_, ?_⟩⟩
        · rw [List.length_append]
          omega
        · rw [List.length_append]
          omega
        · rw [rendering_take (by omega), Nat.sub_sub, ← hind]
          exact fun heq => hne.2 (List.append_cancel_left heq)
    · obtain ⟨hfault, -⟩ | ⟨t, o', hwrite, h', hle, ht, hroom⟩ :=
        writeItem_over hlen hitem hs hlt (by omega)
      · exact .inl (by rw [hfault]; rfl)
      rw [hwrite]
      by_cases hfull : o.ind + t.length = len
      · have hind : o'.ind = o.ind + t.length := h'.ind_eq hfull.le
        refine .inr ⟨t, o', writeItems_full (by omega), h', .inr ⟨hfull, fun heq => ?_⟩⟩
        rw [rendering_take_of_lt (by omega)] at heq
        exact hcuts ⟨by omega, hroom hfull, (ht (hroom hfull)).symm.trans heq⟩
      · obtain hfault | ⟨t', o'', hrun, h''⟩ :=
          writeItems_wrote hlen hrest (h'.length ▸ hs) h'.le
        · exact .inl hfault
        · refine .inr ⟨_, o'', hrun, h'.trans h'', .inl ?_⟩
          rw [List.length_append]
          omega

end Runs

/-! ## The call -/

section Calls

variable {str fmt : List UInt8} {ap : List Arg} {is : List Item}

/-- What was written in place is in the buffer. -/
theorem Wrote.in_place {len : ℕ} {t : List UInt8} {o : Sink}
    (h : Wrote (fixed len) ⟨str, 0, 0, []⟩ t o) (hfit : t.length ≤ len) (hs : len ≤ str.length) :
    o.ind = t.length ∧ o.tot = 0 ∧ o.str.take t.length = t := by
  have hind : o.ind = t.length := (h.ind_eq ((Nat.zero_add _).trans_le hfit)).trans (Nat.zero_add _)
  have htot : o.tot = 0 := h.kept ((Nat.zero_add _).trans_le hfit)
  have hlen : o.str.length = str.length := h.length
  have hcontents : o.flushed.flatten ++ o.str.take o.ind = t := h.contents
  have hnil : o.flushed.flatten.length = 0 := by
    have hlens := congrArg List.length hcontents
    rw [List.length_append, List.length_take] at hlens
    omega
  rw [List.eq_nil_of_length_eq_zero hnil, List.nil_append, hind] at hcontents
  exact ⟨hind, htot, hcontents⟩

/-- The call behind a run that ends. -/
theorem sprintf_of_run {t : List UInt8} {o : Sink} (h : Matches fmt ap is) (hone : 1 < str.length)
    (hrun : (fixed (str.length - 1)).writeItems is ⟨str, 0, 0, []⟩ = .ok o)
    (hwrote : Wrote (fixed (str.length - 1)) ⟨str, 0, 0, []⟩ t o) :
    ∃ str', sprintf str fmt ap = some ((t.length : ℤ), str') ∧ str'.length = str.length ∧
      (t.length < str.length → str'.take t.length = t) := by
  have hresult : (o.ind : ℤ) + o.tot = t.length := by
    have htotal : o.tot + o.ind = 0 + 0 + t.length := hwrote.total
    omega
  have hlen : o.str.length = str.length := hwrote.length
  unfold sprintf
  rw [sprintfCore_of_fixed (by omega) h hrun, Option.map_some, hresult]
  refine ⟨_, rfl, ?_, fun hfit => ?_⟩
  · dsimp only
    split_ifs <;> rw [List.length_set, hlen]
  · obtain ⟨-, -, htake⟩ := hwrote.in_place (by omega) (Nat.sub_le _ _)
    dsimp only
    rw [if_pos (by omega), Int.toNat_natCast, List.take_set_of_le (Nat.le_refl _), htake]

theorem sprintf_cleanly (h : Matches fmt ap is) (hwide : ∀ item ∈ is, ¬item.Wide)
    (hone : 1 < str.length) (hmax : str.length ≤ 2 ^ 31) (hclean : Cleanly (str.length - 1) 0 is) :
    ∃ str', sprintf str fmt ap =
        some ((((rendering is).take (str.length - 1)).length : ℤ), str') ∧
      Stored str 0 ((rendering is).take (str.length - 1)) str' := by
  have hlt : str.length - 1 < 2 ^ 31 := by omega
  obtain ⟨o, hrun, hwrote⟩ := writeItems_cleanly (o := ⟨str, 0, 0, []⟩) hlt hwide
    (Nat.sub_le _ _) (Nat.zero_le _) hclean
  obtain ⟨str', hsprintf, hlen, htake⟩ := sprintf_of_run h hone hrun hwrote
  refine ⟨str', hsprintf, hlen, ?_⟩
  rw [Nat.zero_add, List.take_zero, List.nil_append]
  refine htake ?_
  rw [List.length_take]
  omega

theorem sprintf_over (h : Matches fmt ap is) (hwide : ∀ item ∈ is, ¬item.Wide)
    (hone : 1 < str.length) (hmax : str.length ≤ 2 ^ 31) (hover : ¬Cleanly (str.length - 1) 0 is) :
    sprintf str fmt ap = none ∨ ∃ (n : ℕ) (str' : List UInt8),
      sprintf str fmt ap = some ((n : ℤ), str') ∧ str'.length = str.length ∧
      (str.length ≤ n ∨ n = str.length - 1 ∧ str'.take n ≠ (rendering is).take n) := by
  have hlt : str.length - 1 < 2 ^ 31 := by omega
  obtain hfault | ⟨t, o, hrun, hwrote, hor⟩ := writeItems_over (o := ⟨str, 0, 0, []⟩) hlt hwide
    (Nat.sub_le _ _) (Nat.zero_le _) hover
  · left
    unfold sprintf sprintfCore
    dsimp only
    rw [if_neg (by omega), ← fixed, Setup.coreLoop_eq_writeItems _ h (Nat.lt_succ_self _), hfault]
    rfl
  · obtain ⟨str', hsprintf, hlen, htake⟩ := sprintf_of_run h hone hrun hwrote
    dsimp only at hor
    refine .inr ⟨t.length, str', hsprintf, hlen, ?_⟩
    refine hor.imp (fun hlong => by omega) fun hcut => ?_
    obtain ⟨hfull, hne⟩ := hcut
    rw [Nat.zero_add] at hfull
    rw [htake (by omega)]
    refine ⟨hfull, ?_⟩
    rwa [hfull]

end Calls

end Webxs
