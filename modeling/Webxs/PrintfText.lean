import Webxs.Printf

/-!
# The text of a format

The text of a format is the texts of its items (`Item.rendered`), which say what the formatter
writes where there is room. An argument list matches a format if every item can be read
(`Matches`). The loop of `xs_sprintf_core` writes the items it reads
(`Setup.coreLoop_eq_writeItems`), and it ends because every turn reads at least one byte.
-/

namespace Webxs

/-! ## The text of a format -/

namespace IntConv

variable (s : IntConv)

/-- The sign, or the prefix of `#`. -/
def sign : List UInt8 :=
  if s.neg then [45]
  else if s.f.plus then [43]
  else if s.f.space then [32]
  else if s.f.alt ∧ s.v ≠ 0 then
    if s.r = 8 then [48] else if s.r = 16 then [48, s.c] else []
  else []

/-- The number behind its sign : the zeros of the precision `pr`, and digits padded to `w`. -/
def number (w pr : ℤ) (ds : List UInt8) : List UInt8 :=
  let pads := List.replicate (w - ds.length).toNat s.padByte
  List.replicate (s.fillCount pr).toNat 48 ++ if s.f.left then ds ++ pads else pads ++ ds

end IntConv

/-- A string padded to `w`; a wide one leaves only its padding. -/
def strText (left : Bool) (w : ℤ) (vs : ℤ) (q : List UInt8) : List UInt8 :=
  let body := if vs = 8 then [] else q
  let pads := List.replicate (w - q.length).toNat 32
  if left then body ++ pads else pads ++ body

/-- What a precision leaves of a string. -/
def clip (pr : ℤ) (p : List UInt8) : List UInt8 :=
  if 0 ≤ pr then p.take pr.toNat else p

/-- What an item is written as. -/
def Item.rendered : Item → List UInt8
  | .text l => l
  | .chr c => [c]
  | .nothing => []
  | .str left w pr vs p => strText left w.toInt vs (clip pr.toInt p)
  | .int s => s.sign ++
      if s.Silent s.pr.toInt then [] else s.number s.w.toInt s.pr.toInt s.backwards.reverse

/-- The arguments match the format, which has the items `is`. -/
inductive Matches : List UInt8 → List Arg → List Item → Prop
  | nil (ap) : Matches [] ap []
  | cons {fmt ap item fmt' ap' is} (hne : fmt ≠ [])
      (hread : readItem fmt ap = some (item, fmt', ap')) (hrest : Matches fmt' ap' is) :
      Matches fmt ap (item :: is)

/-- The complete rendering. -/
def rendering (is : List Item) : List UInt8 :=
  is.flatMap Item.rendered

/-! ## Every turn reads something -/

theorem length_readFlags_le (f : Flags) (fmt : List UInt8) :
    (readFlags f fmt).2.length ≤ fmt.length := by
  induction fmt generalizing f with
  | nil => exact Nat.le_refl _
  | cons c fmt ih =>
    rw [readFlags]
    split_ifs
    any_goals exact (ih _).trans (Nat.le_succ _)
    exact Nat.le_refl _

theorem length_readDigits_le (w : BitVec 32) (fmt : List UInt8) :
    (readDigits w fmt).2.length ≤ fmt.length := by
  induction fmt generalizing w with
  | nil => exact Nat.le_refl _
  | cons c fmt ih =>
    rw [readDigits]
    split_ifs
    · exact (ih _).trans (Nat.le_succ _)
    · exact Nat.le_refl _

theorem length_readWidth_le {fmt fmt' : List UInt8} {ap ap' : List Arg} {w : BitVec 32}
    (h : readWidth fmt ap = some (w, fmt', ap')) : fmt'.length ≤ fmt.length := by
  unfold readWidth at h
  split at h
  · split at h
    · cases h
      exact Nat.le_succ _
    · cases h
  · cases h
    exact length_readDigits_le _ _

theorem length_readPrecision_le {fmt fmt' : List UInt8} {ap ap' : List Arg} {pr : BitVec 32}
    (h : readPrecision fmt ap = some (pr, fmt', ap')) : fmt'.length ≤ fmt.length := by
  unfold readPrecision at h
  split at h
  · exact (length_readWidth_le h).trans (Nat.le_succ _)
  · cases h
    exact Nat.le_refl _

theorem length_readModifier_le (fmt : List UInt8) :
    (readModifier fmt).2.length ≤ fmt.length := by
  unfold readModifier
  split <;> simp only [List.length_cons, List.length_nil] <;> omega

theorem length_readSpec_le {fmt fmt' : List UInt8} {ap ap' : List Arg} {item : Item}
    (h : readSpec fmt ap = some (item, fmt', ap')) : fmt'.length ≤ fmt.length := by
  unfold readSpec at h
  obtain ⟨⟨w, fmt₁, ap₁⟩, hw, h⟩ := Option.bind_eq_some_iff.mp h
  obtain ⟨⟨pr, fmt₂, ap₂⟩, hpr, h⟩ := Option.bind_eq_some_iff.mp h
  have hf := length_readFlags_le ⟨false, false, false, false, false⟩ fmt
  have hw := length_readWidth_le hw
  have hpr : fmt₂.length ≤ fmt₁.length := length_readPrecision_le hpr
  have hm := length_readModifier_le fmt₂
  dsimp only at h
  split at h
  · cases h
    exact Nat.zero_le _
  · rename_i c rest hc
    obtain ⟨i, -, h⟩ := Option.bind_eq_some_iff.mp h
    cases h
    rw [hc, List.length_cons] at hm
    omega

theorem length_readItem_lt {fmt fmt' : List UInt8} {ap ap' : List Arg} {item : Item}
    (hne : fmt ≠ []) (h : readItem fmt ap = some (item, fmt', ap')) :
    fmt'.length < fmt.length := by
  unfold readItem at h
  split at h
  · cases h
    simp only [List.length_cons]
    omega
  · exact Nat.lt_succ_of_le (length_readSpec_le h)
  · rename_i hspec
    cases h
    obtain ⟨c, fmt, rfl⟩ := List.exists_cons_of_ne_nil hne
    have hc : c ≠ 37 := fun hc => hspec fmt (hc ▸ rfl)
    rw [List.dropWhile_cons_of_pos (by simpa using hc)]
    exact Nat.lt_succ_of_le (List.dropWhile_sublist _).length_le

namespace Setup

variable (u : Setup)

/-- The loop over the items of a format. -/
def writeItems : List Item → Sink → Except Halt Sink
  | [], o => .ok o
  | item :: is, o =>
    if u.len ≤ o.ind then .ok o
    else do
      let o ← u.flushIf (o.ind = u.sroom) o
      let o ← u.writeItem item o
      writeItems is o

/-- The loop writes the items it reads. -/
theorem coreLoop_eq_writeItems {fmt : List UInt8} {ap : List Arg} {is : List Item}
    (h : Matches fmt ap is) {fuel : ℕ} (hfuel : fmt.length < fuel) (o : Sink) :
    u.coreLoop fuel fmt ap o = u.writeItems is o := by
  induction h generalizing fuel o with
  | nil ap =>
    obtain ⟨fuel, rfl⟩ := Nat.exists_eq_add_of_lt hfuel
    rfl
  | @cons fmt ap item fmt' ap' is hne hread hrest ih =>
    obtain ⟨fuel, rfl⟩ : ∃ k, fuel = k + 1 := ⟨fuel - 1, by omega⟩
    have hlt := length_readItem_lt hne hread
    simp only [coreLoop, writeItems, hne, false_or, hread]
    split_ifs
    · rfl
    · congr 1
      funext o
      congr 1
      funext o
      exact ih (by omega) o

end Setup

end Webxs
