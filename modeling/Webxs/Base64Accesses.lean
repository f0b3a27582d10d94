import Webxs.Base64
import Webxs.Percent
import Webxs.Scanning

/-!
# What the base64 functions access

`xs_b64_decode` tests the room once for three stores, reads four characters even if less are left,
and has no element for the byte 255 in its table. `b64Decode_within` says when it stays inside.

`xs_b64_encode` is told no room. It writes the encoding and a NUL and nothing else, as long as the
length is an `int` (`b64EncodeIn_eq`); a decoder that follows RFC 4648 reads it back
(`rfcDecode_base64`).
-/

namespace Webxs

/-! ## Decoding -/

/-- Decoding all of `src` into `dst` stores in `dst` only, and reads in `src` and the table only. -/
def B64Within (dst src : List UInt8) : Prop :=
  (b64Decode dst src src.length).isSome

variable {dst src : List UInt8} {len n : ℕ}

/-- No element of the table ends the loop. -/
theorem ne_of_b64DecodeTab {a : UInt8} {s : ℤ} (h : b64DecodeTab[a.toNat]? = some s) :
    s ≠ 99 := by
  have hall : ∀ s ∈ b64DecodeTab, s ≠ 99 := by decide +kernel
  exact hall s (List.mem_of_getElem? h)

theorem b64DecodeTab_some (a : UInt8) : (b64DecodeTab[a.toNat]?).isSome ↔ a ≠ 255 := by
  revert a
  exact forall_byte (by decide +kernel)

theorem b64Lookup_some {i : ℕ} {s : ℤ} (h : b64Lookup src i = some s) :
    i < src.length ∧ src[i]? ≠ some 255 ∧ s ≠ 99 := by
  obtain ⟨a, ha, hs⟩ := Option.bind_eq_some_iff.mp h
  refine ⟨(List.getElem?_eq_some_iff.mp ha).1, ?_, ne_of_b64DecodeTab hs⟩
  rw [ha, Ne, Option.some.injEq]
  exact (b64DecodeTab_some a).mp (by rw [hs]; rfl)

theorem b64Store_some {dst' : List UInt8} {d : ℤ} (h : b64Store dst len d = some dst') :
    len < dst.length ∧ dst'.length = dst.length := by
  unfold b64Store at h
  split_ifs at h with hlt
  cases h
  exact ⟨hlt, List.length_set⟩

/-- A step that stays inside has four characters of the table and room for three bytes. -/
theorem b64DecodeLoop_inside (hlen : len ≤ dst.length)
    (h : (b64DecodeLoop (n + 1) src dst len).isSome) :
    4 ≤ src.length ∧ (∀ i < 4, src[i]? ≠ some 255) ∧ len + 3 ≤ dst.length := by
  obtain ⟨r, h⟩ := Option.isSome_iff_exists.mp h
  rw [b64DecodeLoop, if_neg (by omega)] at h
  simp only [Option.bind_eq_bind, Option.bind_eq_some_iff] at h
  obtain ⟨s1, h1, s2, h2, s3, h3, s4, h4, dst₁, hd₁, h⟩ := h
  obtain ⟨-, hne1, -⟩ := b64Lookup_some h1
  obtain ⟨-, hne2, -⟩ := b64Lookup_some h2
  obtain ⟨-, hne3, h3'⟩ := b64Lookup_some h3
  obtain ⟨hlt, hne4, h4'⟩ := b64Lookup_some h4
  rw [if_neg h3', Option.bind_eq_some_iff] at h
  obtain ⟨dst₂, hd₂, h⟩ := h
  rw [if_neg h4', Option.bind_eq_some_iff] at h
  obtain ⟨dst₃, hd₃, -⟩ := h
  have hlen₁ := b64Store_some hd₁
  have hlen₂ := b64Store_some hd₂
  have hlen₃ := b64Store_some hd₃
  refine ⟨hlt, fun i hi => ?_, by omega⟩
  obtain rfl | rfl | rfl | rfl : i = 0 ∨ i = 1 ∨ i = 2 ∨ i = 3 := by omega
  · exact hne1
  · exact hne2
  · exact hne3
  · exact hne4

/-- The steps stay inside exactly if each has four characters and room for three bytes. -/
theorem b64DecodeLoop_isSome (n : ℕ) {src dst : List UInt8} {len : ℕ} (hlen : len ≤ dst.length) :
    (b64DecodeLoop n src dst len).isSome ↔
      4 * n ≤ src.length ∧ 255 ∉ src.take (4 * n) ∧ len + 3 * n ≤ dst.length := by
  induction n generalizing src dst len with
  | zero => exact iff_of_true rfl ⟨by omega, by simp, by omega⟩
  | succ n ih =>
    by_cases hstep : 4 ≤ src.length ∧ (∀ i < 4, src[i]? ≠ some 255) ∧ len + 3 ≤ dst.length
    · obtain ⟨hsrc, h255, hroom⟩ := hstep
      obtain ⟨w, x, y, z, rest, rfl⟩ : ∃ w x y z rest, src = w :: x :: y :: z :: rest := by
        match src, hsrc with
        | w :: x :: y :: z :: rest, _ => exact ⟨w, x, y, z, rest, rfl⟩
      have hw : w ≠ 255 := fun h => h255 0 (by decide) (congrArg some h)
      have hx : x ≠ 255 := fun h => h255 1 (by decide) (congrArg some h)
      have hy : y ≠ 255 := fun h => h255 2 (by decide) (congrArg some h)
      have hz : z ≠ 255 := fun h => h255 3 (by decide) (congrArg some h)
      obtain ⟨s1, h1⟩ := Option.isSome_iff_exists.mp ((b64DecodeTab_some _).mpr hw)
      obtain ⟨s2, h2⟩ := Option.isSome_iff_exists.mp ((b64DecodeTab_some _).mpr hx)
      obtain ⟨s3, h3⟩ := Option.isSome_iff_exists.mp ((b64DecodeTab_some _).mpr hy)
      obtain ⟨s4, h4⟩ := Option.isSome_iff_exists.mp ((b64DecodeTab_some _).mpr hz)
      obtain ⟨dst', hr, hs⟩ := b64DecodeLoop_group n rest h1 h2 h3 h4 (ne_of_b64DecodeTab h3)
        (ne_of_b64DecodeTab h4) (by omega : len + 2 < dst.length)
      rw [hr, ih (by rw [hs.length]; exact hroom), hs.length, show 4 * (n + 1) = 4 * n + 4 by omega]
      simp only [List.take_succ_cons, List.mem_cons, List.length_cons, hw.symm, hx.symm, hy.symm,
        hz.symm, false_or]
      exact and_congr (by omega) (and_congr_right' (by omega))
    · refine iff_of_false (fun h => hstep (b64DecodeLoop_inside hlen h)) ?_
      rintro ⟨hsrc, h255, hroom⟩
      refine hstep ⟨by omega, fun i hi hget => h255 ?_, by omega⟩
      exact List.mem_of_getElem? ((List.getElem?_take_of_lt (by omega)).trans hget)

/-- Decoding stays inside exactly if the characters are groups of four, three bytes for each have
room, and there is no byte 255. -/
theorem b64Decode_within (dst src : List UInt8) :
    B64Within dst src ↔
      4 ∣ src.length ∧ 3 * (src.length / 4) ≤ dst.length ∧ 255 ∉ src := by
  unfold B64Within b64Decode
  rw [Option.isSome_map, b64DecodeLoop_isSome _ (Nat.zero_le _), Nat.zero_add]
  constructor
  · rintro ⟨hsrc, h255, hroom⟩
    have hfour : 4 * ((src.length + 3) / 4) = src.length := by omega
    rw [hfour, List.take_length] at h255
    exact ⟨by omega, by omega, h255⟩
  · rintro ⟨hfour, hroom, h255⟩
    exact ⟨by omega, fun h => h255 (List.mem_of_mem_take h), by omega⟩

/-- The room for two bytes gets three, and one character is read as four. -/
theorem not_b64Within_short : ¬B64Within [0, 0] (ascii "AAAA") ∧ ¬B64Within [0, 0, 0] [65] := by
  unfold B64Within
  decide +kernel

/-! ## Encoding -/

/-- A sum of type `int`. It is undefined from 2³¹ on. -/
def intSum (n : ℕ) : Option ℕ :=
  if n < 2 ^ 31 then some n else none

/-- The memory at `dst`, and the index `j` into it. -/
structure B64Out where
  dst : ℕ → UInt8
  j : ℕ

/-- `dst[j++] = c`. -/
def B64Out.put (out : B64Out) (c : UInt8) : Option B64Out :=
  (intSum (out.j + 1)).map fun j => ⟨Function.update out.dst out.j c, j⟩

/-- `if (p) dst[j++] = c`. -/
def B64Out.putIf (p : Prop) [Decidable p] (out : B64Out) (c : UInt8) : Option B64Out :=
  if p then out.put c else some out

/-- `(i>=count) ? 0 : src[i]`. -/
def b64At (src : List UInt8) (i : ℕ) : Option UInt8 :=
  if src.length ≤ i then some 0 else src[i]?

/-- The loop of `xs_b64_encode` from `i` on, if it ends in `n` steps. -/
def b64EncodeTurns (src : List UInt8) : ℕ → ℕ → B64Out → Option B64Out
  | 0, _, _ => none
  | n + 1, i, out =>
    if i < src.length then do
      let a ← src[i]?
      let i₁ ← intSum (i + 1)
      let b ← b64At src i₁
      let i₂ ← intSum (i + 2)
      let c ← b64At src i₂
      let out ← out.put (b64Char (a.toNat / 4))
      let out ← out.put (b64Char (a.toNat % 4 * 16 + b.toNat / 16))
      let out ← out.putIf (i₁ < src.length) (b64Char (b.toNat % 16 * 4 + c.toNat / 64))
      let out ← out.putIf (i₂ < src.length) (b64Char (c.toNat % 64))
      let i ← intSum (i + 3)
      b64EncodeTurns src n i out
    else some out

/-- The loop that pads, if it ends in `n` steps. -/
def b64PadTurns : ℕ → B64Out → Option B64Out
  | 0, _ => none
  | n + 1, out => if out.j % 4 = 0 then some out else (out.put 61).bind (b64PadTurns n)

/-- `xs_b64_encode` of the bytes `src` into the memory at `dst` : the length, and the memory. -/
def b64EncodeIn (dst : ℕ → UInt8) (src : List UInt8) : Option (ℕ × (ℕ → UInt8)) := do
  let out ← b64EncodeTurns src (src.length + 1) 0 ⟨dst, 0⟩
  let out ← b64PadTurns 4 out
  some (out.j, Function.update out.dst out.j 0)

/-- The memory with the text `t` at its beginning. -/
def written (dst : ℕ → UInt8) (t : List UInt8) : ℕ → UInt8 :=
  fun k => t[k]?.getD (dst k)

/-- Nothing but the text `t` was written to the memory since. -/
structure B64Out.Holds (out : B64Out) (dst : ℕ → UInt8) (t : List UInt8) : Prop where
  dst : out.dst = written dst t
  j : out.j = t.length

variable {mem : ℕ → UInt8} {t : List UInt8} {out : B64Out} {i : ℕ}

theorem intSum_of_lt (h : n < 2 ^ 31) : intSum n = some n :=
  if_pos h

theorem update_written (mem : ℕ → UInt8) (t : List UInt8) (c : UInt8) :
    Function.update (written mem t) t.length c = written mem (t ++ [c]) := by
  funext k
  unfold written
  obtain hlt | rfl | hgt := Nat.lt_trichotomy k t.length
  · rw [Function.update_of_ne hlt.ne, List.getElem?_append_left hlt]
  · rw [Function.update_self, List.getElem?_append_right le_rfl, Nat.sub_self]
    rfl
  · rw [Function.update_of_ne hgt.ne', List.getElem?_eq_none hgt.le, List.getElem?_eq_none]
    rw [List.length_append, List.length_singleton]
    omega

theorem B64Out.Holds.put (h : out.Holds mem t) (c : UInt8) (hlt : t.length + 1 < 2 ^ 31) :
    ∃ out', out.put c = some out' ∧ out'.Holds mem (t ++ [c]) := by
  unfold B64Out.put
  rw [h.j, intSum_of_lt hlt, h.dst, update_written]
  exact ⟨_, rfl, rfl, by rw [List.length_append, List.length_singleton]⟩

theorem B64Out.putIf_pos {p : Prop} [Decidable p] (h : p) (out : B64Out) (c : UInt8) :
    out.putIf p c = out.put c :=
  if_pos h

theorem B64Out.putIf_neg {p : Prop} [Decidable p] (h : ¬p) (out : B64Out) (c : UInt8) :
    out.putIf p c = some out :=
  if_neg h

theorem b64At_of_le (h : src.length ≤ i) : b64At src i = some 0 :=
  if_pos h

theorem b64At_of_eq {a : UInt8} (h : src[i]? = some a) : b64At src i = some a :=
  (if_neg (by have := (List.getElem?_eq_some_iff.mp h).1; omega)).trans h

theorem b64EncodeTurns_end (h : src.length ≤ i) :
    b64EncodeTurns src (n + 1) i out = some out :=
  if_neg (by omega)

/-- The loop writes what `b64EncodeLoop` makes of the bytes from `i` on. -/
theorem b64EncodeTurns_drop {rest : List UInt8} (hdrop : src.drop i = rest)
    (hn : rest.length < n) (h : out.Holds mem t)
    (hlen : t.length + (b64EncodeLoop rest).length < 2 ^ 31) (hsrc : src.length + 3 < 2 ^ 31) :
    ∃ out', b64EncodeTurns src n i out = some out' ∧
      out'.Holds mem (t ++ b64EncodeLoop rest) := by
  induction rest using b64EncodeLoop.induct generalizing i n t out with
  | case1 =>
    obtain ⟨n, rfl⟩ : ∃ k, n = k + 1 := ⟨n - 1, by omega⟩
    exact ⟨out, b64EncodeTurns_end (List.drop_eq_nil_iff.mp hdrop), by rwa [b64EncodeLoop,
      List.append_nil]⟩
  | case2 a =>
    obtain ⟨n, rfl⟩ : ∃ k, n = k + 2 := ⟨n - 2, by rw [List.length_singleton] at hn; omega⟩
    obtain ⟨ha, hdrop₁⟩ := getElem?_of_drop hdrop
    obtain ⟨hi, -⟩ := List.getElem?_eq_some_iff.mp ha
    have hend := List.drop_eq_nil_iff.mp hdrop₁
    simp only [b64EncodeLoop, b64Group, List.take, List.length_cons, List.length_nil,
      UInt8.toNat_zero] at hlen ⊢
    obtain ⟨out₁, hput₁, h₁⟩ := h.put (b64Char (a.toNat / 4)) (by omega)
    obtain ⟨out₂, hput₂, h₂⟩ := h₁.put (b64Char (a.toNat % 4 * 16 + 0 / 16))
      (by rw [List.length_append, List.length_singleton]; omega)
    refine ⟨out₂, ?_, by rwa [List.append_assoc] at h₂⟩
    rw [b64EncodeTurns, if_pos hi]
    simp only [Option.bind_eq_bind, ha, intSum_of_lt (by omega : i + 1 < 2 ^ 31),
      intSum_of_lt (by omega : i + 2 < 2 ^ 31), intSum_of_lt (by omega : i + 3 < 2 ^ 31),
      Option.bind_some, b64At_of_le hend, b64At_of_le (by omega : src.length ≤ i + 2),
      UInt8.toNat_zero, hput₁, hput₂, B64Out.putIf_neg (by omega : ¬i + 1 < src.length),
      B64Out.putIf_neg (by omega : ¬i + 2 < src.length)]
    exact b64EncodeTurns_end (by omega)
  | case3 a b =>
    obtain ⟨n, rfl⟩ : ∃ k, n = k + 2 := ⟨n - 2, by
      rw [List.length_cons, List.length_singleton] at hn
      omega⟩
    obtain ⟨ha, hdrop₁⟩ := getElem?_of_drop hdrop
    obtain ⟨hb, hdrop₂⟩ := getElem?_of_drop hdrop₁
    obtain ⟨hi, -⟩ := List.getElem?_eq_some_iff.mp hb
    have hend := List.drop_eq_nil_iff.mp hdrop₂
    simp only [b64EncodeLoop, b64Group, List.take, List.length_cons, List.length_nil,
      UInt8.toNat_zero] at hlen ⊢
    obtain ⟨out₁, hput₁, h₁⟩ := h.put (b64Char (a.toNat / 4)) (by omega)
    obtain ⟨out₂, hput₂, h₂⟩ := h₁.put (b64Char (a.toNat % 4 * 16 + b.toNat / 16))
      (by rw [List.length_append, List.length_singleton]; omega)
    obtain ⟨out₃, hput₃, h₃⟩ := h₂.put (b64Char (b.toNat % 16 * 4 + 0 / 64))
      (by simp only [List.length_append, List.length_singleton]; omega)
    refine ⟨out₃, ?_, by rwa [List.append_assoc, List.append_assoc] at h₃⟩
    rw [b64EncodeTurns, if_pos (by omega)]
    simp only [Option.bind_eq_bind, ha, intSum_of_lt (by omega : i + 1 < 2 ^ 31),
      intSum_of_lt (by omega : i + 2 < 2 ^ 31), intSum_of_lt (by omega : i + 3 < 2 ^ 31),
      Option.bind_some, b64At_of_eq hb, b64At_of_le hend, UInt8.toNat_zero, hput₁, hput₂,
      B64Out.putIf_pos hi, hput₃, B64Out.putIf_neg (by omega : ¬i + 2 < src.length)]
    exact b64EncodeTurns_end (by omega)
  | case4 a b c rest ih =>
    obtain ⟨n, rfl⟩ : ∃ k, n = k + 1 := ⟨n - 1, by omega⟩
    obtain ⟨ha, hdrop₁⟩ := getElem?_of_drop hdrop
    obtain ⟨hb, hdrop₂⟩ := getElem?_of_drop hdrop₁
    obtain ⟨hc, hdrop₃⟩ := getElem?_of_drop hdrop₂
    obtain ⟨hi, -⟩ := List.getElem?_eq_some_iff.mp hc
    simp only [b64EncodeLoop, b64Group, List.length_append, List.length_cons, List.length_nil]
      at hlen hn ⊢
    obtain ⟨out₁, hput₁, h₁⟩ := h.put (b64Char (a.toNat / 4)) (by omega)
    obtain ⟨out₂, hput₂, h₂⟩ := h₁.put (b64Char (a.toNat % 4 * 16 + b.toNat / 16))
      (by rw [List.length_append, List.length_singleton]; omega)
    obtain ⟨out₃, hput₃, h₃⟩ := h₂.put (b64Char (b.toNat % 16 * 4 + c.toNat / 64))
      (by simp only [List.length_append, List.length_singleton]; omega)
    obtain ⟨out₄, hput₄, h₄⟩ := h₃.put (b64Char (c.toNat % 64))
      (by simp only [List.length_append, List.length_singleton]; omega)
    obtain ⟨out', hr, h'⟩ := ih (i := i + 3) (n := n) hdrop₃ (by omega) h₄
      (by simp only [List.length_append, List.length_singleton]; omega)
    refine ⟨out', ?_, by simpa only [List.append_assoc, List.cons_append, List.nil_append] using h'⟩
    rw [b64EncodeTurns, if_pos (by omega), ← hr]
    simp only [Option.bind_eq_bind, ha, intSum_of_lt (by omega : i + 1 < 2 ^ 31),
      intSum_of_lt (by omega : i + 2 < 2 ^ 31), intSum_of_lt (by omega : i + 3 < 2 ^ 31),
      Option.bind_some, b64At_of_eq hb, b64At_of_eq hc, hput₁, hput₂,
      B64Out.putIf_pos (by omega : i + 1 < src.length), hput₃, B64Out.putIf_pos hi, hput₄]

/-- The padding makes the length a multiple of four. -/
theorem b64PadTurns_spec (k : ℕ) (h : out.Holds mem t) (hk : (t.length + k) % 4 = 0)
    (hn : k < n) (hmin : k < 4) (hlen : t.length + k < 2 ^ 31) :
    ∃ out', b64PadTurns n out = some out' ∧ out'.Holds mem (t ++ List.replicate k 61) := by
  induction k generalizing n t out with
  | zero =>
    obtain ⟨n, rfl⟩ : ∃ m, n = m + 1 := ⟨n - 1, by omega⟩
    exact ⟨out, if_pos (by rw [h.j]; exact hk), by rwa [List.replicate_zero, List.append_nil]⟩
  | succ k ih =>
    obtain ⟨n, rfl⟩ : ∃ m, n = m + 1 := ⟨n - 1, by omega⟩
    obtain ⟨out₁, hput, h₁⟩ := h.put 61 (by omega)
    have hlen₁ : (t ++ [61]).length = t.length + 1 := by
      rw [List.length_append, List.length_singleton]
    obtain ⟨out', hr, h'⟩ := ih (n := n) h₁ (by rw [hlen₁]; omega) (by omega) (by omega)
      (by rw [hlen₁]; omega)
    refine ⟨out', ?_, by rwa [List.append_assoc, List.singleton_append] at h'⟩
    rw [b64PadTurns, if_neg (by rw [h.j]; omega), hput, Option.bind_some, hr]

/-! ### The index is an int -/

theorem intSum_lt {m : ℕ} (h : intSum n = some m) : m < 2 ^ 31 := by
  unfold intSum at h
  split_ifs at h with hlt
  cases h
  exact hlt

theorem B64Out.j_put {out' : B64Out} {c : UInt8} (h : out.put c = some out') :
    out'.j < 2 ^ 31 := by
  obtain ⟨j, hj, rfl⟩ := Option.map_eq_some_iff.mp h
  exact intSum_lt hj

theorem B64Out.j_putIf {out' : B64Out} {p : Prop} [Decidable p] {c : UInt8}
    (h : out.putIf p c = some out') (hout : out.j < 2 ^ 31) : out'.j < 2 ^ 31 := by
  unfold B64Out.putIf at h
  split_ifs at h
  · exact B64Out.j_put h
  · cases h
    exact hout

theorem b64EncodeTurns_j {out' : B64Out} (h : b64EncodeTurns src n i out = some out')
    (hout : out.j < 2 ^ 31) : out'.j < 2 ^ 31 := by
  induction n generalizing i out with
  | zero => cases h
  | succ n ih =>
    rw [b64EncodeTurns] at h
    split_ifs at h with hi
    · simp only [Option.bind_eq_bind, Option.bind_eq_some_iff] at h
      obtain ⟨a, -, i₁, -, b, -, i₂, -, c, -, out₁, -, out₂, h₂, out₃, h₃, out₄, h₄, i₃, -, h⟩ := h
      exact ih h (B64Out.j_putIf h₄ (B64Out.j_putIf h₃ (B64Out.j_put h₂)))
    · cases h
      exact hout

theorem b64PadTurns_j {out' : B64Out} (h : b64PadTurns n out = some out')
    (hout : out.j < 2 ^ 31) : out'.j < 2 ^ 31 := by
  induction n generalizing out with
  | zero => cases h
  | succ n ih =>
    rw [b64PadTurns] at h
    split_ifs at h
    · cases h
      exact hout
    · obtain ⟨out₁, hput, h⟩ := Option.bind_eq_some_iff.mp h
      exact ih h (B64Out.j_put hput)

theorem b64EncodeIn_lt {m : ℕ → UInt8} (h : b64EncodeIn mem src = some (n, m)) : n < 2 ^ 31 := by
  simp only [b64EncodeIn, Option.bind_eq_bind, Option.bind_eq_some_iff, Option.some.injEq,
    Prod.mk.injEq] at h
  obtain ⟨out₁, h₁, out₂, h₂, rfl, -⟩ := h
  exact b64PadTurns_j h₂ (b64EncodeTurns_j h₁ (Nat.two_pow_pos 31))

/-! ## A decoder -/

/-- The value of a character of the base64 alphabet. -/
def b64Value (a : UInt8) : Option ℕ :=
  if 65 ≤ a ∧ a ≤ 90 then some (a.toNat - 65)
  else if 97 ≤ a ∧ a ≤ 122 then some (a.toNat - 97 + 26)
  else if 48 ≤ a ∧ a ≤ 57 then some (a.toNat - 48 + 52)
  else if a = 43 then some 62
  else if a = 47 then some 63
  else none

/-- Decoding by RFC 4648 : four characters are 24 bits, and `=` is allowed at the end only. -/
def rfcDecode : List UInt8 → Option (List UInt8)
  | [] => some []
  | w :: x :: y :: z :: rest => do
    let vw ← b64Value w
    let vx ← b64Value x
    if z = 61 ∧ rest = [] then
      if y = 61 then some [UInt8.ofNat (vw * 4 + vx / 16)]
      else do
        let vy ← b64Value y
        some [UInt8.ofNat (vw * 4 + vx / 16), UInt8.ofNat (vx % 16 * 16 + vy / 4)]
    else do
      let vy ← b64Value y
      let vz ← b64Value z
      let more ← rfcDecode rest
      some (UInt8.ofNat (vw * 4 + vx / 16) :: UInt8.ofNat (vx % 16 * 16 + vy / 4) ::
        UInt8.ofNat (vy % 4 * 64 + vz) :: more)
  | _ => none

theorem b64Value_b64Char {v : ℕ} (hv : v < 64) : b64Value (b64Char v) = some v := by
  unfold b64Char
  rw [b64EncodeTab_eq]
  revert v
  decide +kernel

section

variable {w x y z : UInt8} {rest bytes : List UInt8} {vw vx vy vz : ℕ}

theorem rfcDecode_two (hw : b64Value w = some vw) (hx : b64Value x = some vx) :
    rfcDecode [w, x, 61, 61] = some [UInt8.ofNat (vw * 4 + vx / 16)] := by
  simp [rfcDecode, hw, hx]

theorem rfcDecode_three (hw : b64Value w = some vw) (hx : b64Value x = some vx)
    (hy : b64Value y = some vy) (hpad : y ≠ 61) : rfcDecode [w, x, y, 61] =
      some [UInt8.ofNat (vw * 4 + vx / 16), UInt8.ofNat (vx % 16 * 16 + vy / 4)] := by
  simp [rfcDecode, hw, hx, hy, hpad]

theorem rfcDecode_four (hw : b64Value w = some vw) (hx : b64Value x = some vx)
    (hy : b64Value y = some vy) (hz : b64Value z = some vz) (hpad : z ≠ 61)
    (hrest : rfcDecode rest = some bytes) : rfcDecode (w :: x :: y :: z :: rest) =
      some (UInt8.ofNat (vw * 4 + vx / 16) :: UInt8.ofNat (vx % 16 * 16 + vy / 4) ::
        UInt8.ofNat (vy % 4 * 64 + vz) :: bytes) := by
  simp [rfcDecode, hw, hx, hy, hz, hpad, hrest]

end

theorem ofNat_eq_of_toNat {n : ℕ} {a : UInt8} (h : n = a.toNat) : UInt8.ofNat n = a := by
  rw [h, UInt8.ofNat_toNat]

/-- What is encoded is read back. -/
theorem rfcDecode_base64 (x : List UInt8) : rfcDecode (base64 x) = some x := by
  induction x using base64.induct with
  | case1 => rfl
  | case2 a =>
    have := a.toNat_lt
    rw [base64, rfcDecode_two (b64Value_b64Char (by omega)) (b64Value_b64Char (by omega))]
    exact congrArg (fun v => some [v]) (ofNat_eq_of_toNat (by omega))
  | case3 a b =>
    have := a.toNat_lt
    have := b.toNat_lt
    rw [base64, rfcDecode_three (b64Value_b64Char (by omega)) (b64Value_b64Char (by omega))
      (b64Value_b64Char (by omega)) (b64Char_ne_pad (by omega))]
    exact congrArg₂ (fun v w => some [v, w]) (ofNat_eq_of_toNat (by omega))
      (ofNat_eq_of_toNat (by omega))
  | case4 a b c x ih =>
    have := a.toNat_lt
    have := b.toNat_lt
    have := c.toNat_lt
    rw [base64, rfcDecode_four (b64Value_b64Char (by omega)) (b64Value_b64Char (by omega))
      (b64Value_b64Char (by omega)) (b64Value_b64Char (by omega)) (b64Char_ne_pad (by omega)) ih]
    -- the six bits of the digits are put together again
    exact congrArg some (congrArg₂ List.cons (ofNat_eq_of_toNat (by omega))
      (congrArg₂ List.cons (ofNat_eq_of_toNat (by omega))
        (congrArg₂ List.cons (ofNat_eq_of_toNat (by omega)) rfl)))

/-- Encoding returns the length of the encoding, writes the encoding and a NUL and nothing else,
and it can be read back. -/
def B64Encodes (x : List UInt8) : Prop :=
  ∀ mem, b64EncodeIn mem x = some (4 * ((x.length + 2) / 3), written mem (base64 x ++ [0])) ∧
    rfcDecode (base64 x) = some x

/-- All this is so exactly if the length is an `int`. -/
theorem b64Encodes_iff (x : List UInt8) :
    B64Encodes x ↔ 4 * ((x.length + 2) / 3) < 2 ^ 31 := by
  refine ⟨fun h => b64EncodeIn_lt (h fun _ => 0).1, fun h mem => ⟨?_, rfcDecode_base64 x⟩⟩
  have hlen := length_base64 x
  rw [← b64Encode_eq_base64, b64Encode, List.length_append, List.length_replicate] at hlen
  have hstart : B64Out.Holds ⟨mem, 0⟩ mem [] := ⟨rfl, rfl⟩
  obtain ⟨out₁, hr₁, h₁⟩ := b64EncodeTurns_drop (n := x.length + 1) (List.drop_zero (l := x))
    (by omega) hstart (by rw [List.length_nil]; omega) (by omega)
  rw [List.nil_append] at h₁
  obtain ⟨out₂, hr₂, h₂⟩ := b64PadTurns_spec (n := 4) ((4 - (b64EncodeLoop x).length % 4) % 4) h₁
    (by omega) (by omega) (by omega) (by omega)
  rw [show b64EncodeLoop x ++ List.replicate ((4 - (b64EncodeLoop x).length % 4) % 4) 61 =
    base64 x from b64Encode_eq_base64 x] at h₂
  unfold b64EncodeIn
  simp only [Option.bind_eq_bind, hr₁, hr₂, Option.bind_some]
  rw [h₂.dst, h₂.j, update_written, length_base64]

/-- The length of the encoding of this many bytes is no `int`. -/
theorem not_b64Encodes_long : ¬B64Encodes (List.replicate 1610612734 0) := by
  intro h
  have hlt := b64EncodeIn_lt (h fun _ => 0).1
  rw [List.length_replicate] at hlt
  omega

end Webxs
