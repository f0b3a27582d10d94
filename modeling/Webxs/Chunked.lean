import Mathlib.Data.List.Basic
import Mathlib.Data.List.TakeWhile

/-!
# The chunked transfer coding

The grammar of a chunked body (RFC 7230, section 4.1), without extensions and trailers : chunks with
their sizes in hexadecimal digits, a last chunk of size 0, and an empty line. `ChunkedBody s d` says
that `s` is one, and `d` what it decodes to.

The size of a chunk ends with the first byte that is no digit, so a body is read in one way only :
`ChunkedBody.chunk_iff` and `ChunkedBody.last_iff` say what follows a chunk, and that nothing
follows the last one.
-/

/-- The value of a hexadecimal digit. -/
def hexDigitValue (a : UInt8) : Option ℕ :=
  if 48 ≤ a ∧ a ≤ 57 then some (a.toNat - 48)
  else if 65 ≤ a ∧ a ≤ 70 then some (a.toNat - 55)
  else if 97 ≤ a ∧ a ≤ 102 then some (a.toNat - 87)
  else none

/-- The value of hexadecimal digits. -/
def hexValue (ds : List UInt8) : ℕ :=
  ds.foldl (fun v a => v * 16 + (hexDigitValue a).getD 0) 0

/-- One digit at least, and nothing else. -/
def IsHex (ds : List UInt8) : Prop :=
  ds ≠ [] ∧ ∀ a ∈ ds, (hexDigitValue a).isSome = true

/-- `s` is a chunked body, and decodes to `d`. -/
inductive ChunkedBody : List UInt8 → List UInt8 → Prop
  | last {ds : List UInt8} (hex : IsHex ds) (zero : hexValue ds = 0) :
      ChunkedBody (ds ++ 13 :: 10 :: [13, 10]) []
  | chunk {ds data s d : List UInt8} (hex : IsHex ds) (pos : 0 < data.length)
      (size : hexValue ds = data.length) (rest : ChunkedBody s d) :
      ChunkedBody (ds ++ 13 :: 10 :: (data ++ 13 :: 10 :: s)) (data ++ d)

variable {ds ds' data s s' d : List UInt8}

theorem hexValue_append (ds ds' : List UInt8) :
    hexValue (ds ++ ds') =
      ds'.foldl (fun v a => v * 16 + (hexDigitValue a).getD 0) (hexValue ds) :=
  List.foldl_append

/-- Digits that a carriage return follows are all digits in front. -/
theorem IsHex.takeWhile (h : IsHex ds) (s : List UInt8) :
    (ds ++ 13 :: s).takeWhile (fun a => (hexDigitValue a).isSome) = ds := by
  rw [List.takeWhile_append_of_pos h.2, List.takeWhile_cons_of_neg (by decide), List.append_nil]

/-- The end of the digits is determined. -/
theorem IsHex.append_inj (h : IsHex ds) (h' : IsHex ds') (heq : ds ++ 13 :: s = ds' ++ 13 :: s') :
    ds = ds' ∧ s = s' := by
  have hds : ds = ds' := by
    rw [← h.takeWhile s, heq, h'.takeWhile]
  subst hds
  exact ⟨rfl, by simpa using heq⟩

namespace ChunkedBody

/-- Nothing follows the last chunk. -/
theorem last_iff (h : IsHex ds) (h0 : hexValue ds = 0) :
    ChunkedBody (ds ++ 13 :: s) d ↔ s = [10, 13, 10] ∧ d = [] := by
  constructor
  · intro hbody
    generalize ht : ds ++ 13 :: s = t at hbody
    cases hbody with
    | last hex zero => exact ⟨(h.append_inj hex ht).2, rfl⟩
    | chunk hex pos size rest =>
      obtain ⟨rfl, -⟩ := h.append_inj hex ht
      omega
  · rintro ⟨rfl, rfl⟩
    exact .last h h0

/-- The rest of a body follows a chunk. -/
theorem chunk_iff (h : IsHex ds) (hpos : 0 < data.length) (hsize : hexValue ds = data.length) :
    ChunkedBody (ds ++ 13 :: 10 :: (data ++ 13 :: 10 :: s)) d ↔
      ∃ d', ChunkedBody s d' ∧ d = data ++ d' := by
  constructor
  · intro hbody
    generalize ht : ds ++ 13 :: 10 :: (data ++ 13 :: 10 :: s) = t at hbody
    cases hbody with
    | last hex zero =>
      obtain ⟨rfl, -⟩ := h.append_inj hex ht
      omega
    | @chunk ds' data' s' d' hex pos size rest =>
      obtain ⟨rfl, hrest⟩ := h.append_inj hex ht
      obtain ⟨rfl, hs⟩ := List.append_inj (List.cons.inj hrest).2 (hsize.symm.trans size)
      obtain rfl : s = s' := by simpa using hs
      exact ⟨d', rest, rfl⟩
  · rintro ⟨d', hbody, rfl⟩
    exact .chunk h hpos hsize hbody

end ChunkedBody
