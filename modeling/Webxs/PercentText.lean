import Webxs.Chunked

/-!
# Percent-encoded texts

What a text with percent escapes decodes to (RFC 3986, section 2.1). `PercentEscaped s` says that
every `%` of `s` begins an escape, and that no escape is one of the byte 0.
-/

/-- The byte of two hexadecimal digits. -/
def hexByte (hi lo : UInt8) : UInt8 :=
  UInt8.ofNat ((hexDigitValue hi).getD 0 * 16 + (hexDigitValue lo).getD 0)

/-- The bytes a text stands for. -/
def percentDecode : List UInt8 → List UInt8
  | [] => []
  | [a] => [a]
  | [a, b] => [a, b]
  | a :: hi :: lo :: s =>
    if a = 37 then hexByte hi lo :: percentDecode s else a :: percentDecode (hi :: lo :: s)

/-- Every escape is well formed, and none is `%00`. -/
inductive PercentEscaped : List UInt8 → Prop
  | nil : PercentEscaped []
  | byte {a : UInt8} {s : List UInt8} : a ≠ 37 → PercentEscaped s → PercentEscaped (a :: s)
  | escape {hi lo : UInt8} {s : List UInt8} : (hexDigitValue hi).isSome = true →
      (hexDigitValue lo).isSome = true → hexByte hi lo ≠ 0 → PercentEscaped s →
      PercentEscaped (37 :: hi :: lo :: s)

variable {a : UInt8} {s : List UInt8}

theorem percentDecode_byte (ha : a ≠ 37) (s : List UInt8) :
    percentDecode (a :: s) = a :: percentDecode s := by
  match s with
  | [] => rfl
  | [b] => rfl
  | _ :: _ :: _ => rw [percentDecode, if_neg ha]

theorem percentDecode_escape (hi lo : UInt8) (s : List UInt8) :
    percentDecode (37 :: hi :: lo :: s) = hexByte hi lo :: percentDecode s := by
  rw [percentDecode, if_pos rfl]

namespace PercentEscaped

theorem length_le (h : PercentEscaped s) : (percentDecode s).length ≤ s.length := by
  induction h with
  | nil => exact le_rfl
  | byte ha _ ih =>
    rw [percentDecode_byte ha, List.length_cons, List.length_cons]
    omega
  | escape _ _ _ _ ih =>
    rw [percentDecode_escape]
    simp only [List.length_cons]
    omega

theorem zero_notMem (h : PercentEscaped s) (h0 : 0 ∉ s) : 0 ∉ percentDecode s := by
  induction h with
  | nil => exact h0
  | byte ha _ ih =>
    rw [List.mem_cons, not_or] at h0
    rw [percentDecode_byte ha, List.mem_cons, not_or]
    exact ⟨h0.1, ih h0.2⟩
  | escape _ _ hne _ ih =>
    simp only [List.mem_cons, not_or] at h0
    rw [percentDecode_escape, List.mem_cons, not_or]
    exact ⟨hne.symm, ih h0.2.2.2⟩

/-- Only a text without escapes stands for itself. -/
theorem decode_eq_self (h : PercentEscaped s) : percentDecode s = s ↔ 37 ∉ s := by
  induction h with
  | nil => exact iff_of_true rfl List.not_mem_nil
  | byte ha _ ih =>
    rw [percentDecode_byte ha, List.cons.injEq, List.mem_cons, not_or, ih]
    exact and_congr (iff_of_true rfl ha.symm) Iff.rfl
  | escape _ _ _ h _ =>
    refine iff_of_false (fun heq => ?_) (fun hn => hn List.mem_cons_self)
    have hlen := congrArg List.length heq
    have := h.length_le
    rw [percentDecode_escape] at hlen
    simp only [List.length_cons] at hlen
    omega

end PercentEscaped
