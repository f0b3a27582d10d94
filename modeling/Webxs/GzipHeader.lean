import Mathlib.Data.List.Basic
import Mathlib.Algebra.Group.Nat.Defs

/-!
# The header of a gzip member

The header of RFC 1952 : ten bytes, of which the fourth has the flags, and the optional parts. The
extra field has its length in front, the file name and the comment end in a zero byte, and the CRC
of the header is the last.

`fieldsEnd` finds the end of the extra field, the name and the comment from where they start. They
start behind the ten bytes (`fieldsEnd_bytes`).
-/

namespace Gzip

/-- A byte of flags with one flag, or none. -/
def flagBit (b : Bool) (v : UInt8) : UInt8 :=
  if b then v else 0

/-- A header of RFC 1952. `fixed` is the time, the extra flags and the system. -/
structure Header where
  ftext : Bool
  fixed : List UInt8
  fixed_length : fixed.length = 6
  extra : Option (List UInt8)
  extra_lt : ∀ x ∈ extra, x.length < 2 ^ 16
  name : Option (List UInt8)
  name_ne : ∀ x ∈ name, 0 ∉ x
  comment : Option (List UInt8)
  comment_ne : ∀ x ∈ comment, 0 ∉ x
  hcrc : Option (UInt8 × UInt8)

namespace Header

/-- `FTEXT`, `FHCRC`, `FEXTRA`, `FNAME` and `FCOMMENT`. -/
def flags (h : Header) : UInt8 :=
  flagBit h.ftext 0x01 ||| flagBit h.hcrc.isSome 0x02 ||| flagBit h.extra.isSome 0x04 |||
    flagBit h.name.isSome 0x08 ||| flagBit h.comment.isSome 0x10

/-- The extra field. -/
def extraBytes : Option (List UInt8) → List UInt8
  | none => []
  | some x => UInt8.ofNat x.length :: UInt8.ofNat (x.length / 256) :: x

/-- The name, or the comment. -/
def stringBytes : Option (List UInt8) → List UInt8
  | none => []
  | some x => x ++ [0]

/-- The CRC of the header. -/
def hcrcBytes : Option (UInt8 × UInt8) → List UInt8
  | none => []
  | some (lo, hi) => [lo, hi]

/-- The first ten bytes. -/
def start (h : Header) : List UInt8 :=
  [0x1f, 0x8b, 0x08, h.flags] ++ h.fixed

/-- The bytes of the header. -/
def bytes (h : Header) : List UInt8 :=
  h.start ++ (extraBytes h.extra ++ (stringBytes h.name ++ (stringBytes h.comment ++
    hcrcBytes h.hcrc)))

theorem length_start (h : Header) : h.start.length = 10 := by
  rw [start, List.length_append, h.fixed_length]
  rfl

/-- Each flag says whether its part is there. -/
theorem flags_spec (h : Header) :
    (h.flags &&& 0x02 ≠ 0 ↔ h.hcrc.isSome = true) ∧ (h.flags &&& 0x04 ≠ 0 ↔ h.extra.isSome = true) ∧
      (h.flags &&& 0x08 ≠ 0 ↔ h.name.isSome = true) ∧
      (h.flags &&& 0x10 ≠ 0 ↔ h.comment.isSome = true) := by
  have hall : ∀ a b c d e : Bool,
      let f := flagBit a 0x01 ||| flagBit b 0x02 ||| flagBit c 0x04 ||| flagBit d 0x08 |||
        flagBit e 0x10
      (f &&& 0x02 ≠ 0 ↔ b = true) ∧ (f &&& 0x04 ≠ 0 ↔ c = true) ∧ (f &&& 0x08 ≠ 0 ↔ d = true) ∧
        (f &&& 0x10 ≠ 0 ↔ e = true) := by
    decide
  exact hall _ _ _ _ _

end Header

/-! ## Where the parts end -/

/-- The end of the extra field that starts at `offset`. -/
def extraEnd (T : List UInt8) (offset : ℕ) : Option ℕ := do
  let lo ← T[offset]?
  let hi ← T[offset + 1]?
  some (offset + 2 + lo.toNat + hi.toNat * 256)

/-- The end of the string that starts at `offset`. -/
def stringEnd (T : List UInt8) (offset : ℕ) : Option ℕ :=
  ((T.drop offset).findIdx? fun a => a = 0).map fun n => offset + n + 1

/-- The end of a part that is there if `flag` is set. -/
def partEnd (flag : Bool) (f : ℕ → Option ℕ) (offset : ℕ) : Option ℕ :=
  if flag then f offset else some offset

/-- The end of the extra field, the name and the comment, which start at `offset`. -/
def fieldsEnd (T : List UInt8) (flags : UInt8) (offset : ℕ) : Option ℕ :=
  (partEnd (flags &&& 0x04 ≠ 0) (extraEnd T) offset).bind fun offset =>
    (partEnd (flags &&& 0x08 ≠ 0) (stringEnd T) offset).bind fun offset =>
      partEnd (flags &&& 0x10 ≠ 0) (stringEnd T) offset

open Header

theorem extraEnd_bytes (p x t : List UInt8) (hx : x.length < 2 ^ 16) :
    extraEnd (p ++ (extraBytes (some x) ++ t)) p.length =
      some (p ++ extraBytes (some x)).length := by
  have h0 : (p ++ (extraBytes (some x) ++ t))[p.length]? = some (UInt8.ofNat x.length) := by
    rw [List.getElem?_append_right (Nat.le_refl _), Nat.sub_self]
    rfl
  have h1 : (p ++ (extraBytes (some x) ++ t))[p.length + 1]? =
      some (UInt8.ofNat (x.length / 256)) := by
    rw [List.getElem?_append_right (Nat.le_add_right _ _), Nat.add_sub_cancel_left]
    rfl
  unfold extraEnd
  rw [h0, h1]
  simp only [Option.bind_eq_bind, Option.bind_some, UInt8.toNat_ofNat', List.length_append,
    extraBytes, List.length_cons, Option.some.injEq]
  omega

theorem stringEnd_bytes (p x t : List UInt8) (hx : 0 ∉ x) :
    stringEnd (p ++ (stringBytes (some x) ++ t)) p.length =
      some (p ++ stringBytes (some x)).length := by
  have hfind : (x ++ [0] ++ t).findIdx? (fun a => decide (a = 0)) = some x.length := by
    induction x with
    | nil => rfl
    | cons a x ih =>
      obtain ⟨ha, hx⟩ := not_or.mp (mt List.mem_cons.mpr hx)
      rw [List.cons_append, List.cons_append, List.findIdx?_cons, ih hx,
        decide_eq_false (Ne.symm ha)]
      rfl
  unfold stringEnd stringBytes
  rw [List.drop_left, hfind, Option.map_some, List.length_append, List.length_append]
  rfl

/-- The parts of a header, wherever they start. -/
theorem fieldsEnd_parts (h : Header) (p t : List UInt8) :
    fieldsEnd (p ++ (extraBytes h.extra ++ (stringBytes h.name ++ (stringBytes h.comment ++ t))))
        h.flags p.length =
      some (p ++ (extraBytes h.extra ++ (stringBytes h.name ++ stringBytes h.comment))).length := by
  obtain ⟨-, hextra, hname, hcomment⟩ := h.flags_spec
  have hpart : ∀ (b : Bool) (o : Option (List UInt8)) (f : List UInt8 → ℕ → Option ℕ)
      (g : Option (List UInt8) → List UInt8) (p t : List UInt8), (b = true ↔ o.isSome = true) →
      g none = [] → (∀ x ∈ o, f (p ++ (g (some x) ++ t)) p.length = some (p ++ g (some x)).length) →
      partEnd b (f (p ++ (g o ++ t))) p.length = some (p ++ g o).length := by
    intro b o f g p t hb hnone hsome
    unfold partEnd
    cases o with
    | none =>
      rw [if_neg (by rw [hb]; decide), hnone, List.append_nil]
    | some x =>
      rw [if_pos (hb.mpr rfl)]
      exact hsome x rfl
  unfold fieldsEnd
  rw [hpart _ h.extra extraEnd extraBytes p _ (by rw [decide_eq_true_iff, hextra]) rfl
    fun x hx => extraEnd_bytes p x _ (h.extra_lt x hx), Option.bind_some, ← List.append_assoc,
    hpart _ h.name stringEnd stringBytes _ _ (by rw [decide_eq_true_iff, hname]) rfl
      fun x hx => stringEnd_bytes _ x _ (h.name_ne x hx), Option.bind_some, ← List.append_assoc,
    hpart _ h.comment stringEnd stringBytes _ _ (by rw [decide_eq_true_iff, hcomment]) rfl
      fun x hx => stringEnd_bytes _ x _ (h.comment_ne x hx)]
  simp only [List.append_assoc]

/-- Without a CRC the header ends with them. -/
theorem fieldsEnd_bytes (h : Header) (hcrc : h.hcrc = none) (t : List UInt8) :
    fieldsEnd (h.bytes ++ t) h.flags 10 = some h.bytes.length := by
  have hparts := fieldsEnd_parts h h.start t
  rw [h.length_start] at hparts
  unfold bytes
  rw [hcrc, hcrcBytes, List.append_nil]
  simpa only [List.append_assoc] using hparts

end Gzip
