import Webxs.Heads

/-!
# Base64

`xs_b64_encode` (`xs_utils.h`) writes four characters for three bytes, and pads the last ones with
`=` : the encoding of RFC 4648, `base64` (`b64Encode_eq_base64`). `xs_b64_decode` looks the
characters up in a table that has -2 for `=`, and goes on to the bytes of the padding, since it
tests for 99. So it makes three bytes of four characters, always : what was encoded, and the bytes
of the padding behind it (`b64Decode_base64`). It gives back what was encoded exactly if there is no
padding (`b64RoundTrip_iff`).

Shifts and masks are quotients and remainders. Reads of the table and of the source are checked, and
so are the stores : decoding is `none` if it goes outside. Lengths are below 2³¹.
-/

namespace Webxs

/-! ## Encoding -/

/-- `b64_tab` of `xs_b64_encode`. -/
def b64EncodeTab : List UInt8 :=
  ascii "ABCDEFGHIJKLMNOPQRSTUVWXYZabcdefghijklmnopqrstuvwxyz0123456789+/"

/-- An element of it. -/
def b64Char (v : ℕ) : UInt8 :=
  b64EncodeTab.getD v 0

/-- The characters that a step of the loop of `xs_b64_encode` makes of three bytes. -/
def b64Group (a b c : UInt8) : List UInt8 :=
  [b64Char (a.toNat / 4), b64Char (a.toNat % 4 * 16 + b.toNat / 16),
    b64Char (b.toNat % 16 * 4 + c.toNat / 64), b64Char (c.toNat % 64)]

/-- The loop of `xs_b64_encode`. Bytes behind the end are 0, and of the characters only those are
written that have bits of a byte. -/
def b64EncodeLoop : List UInt8 → List UInt8
  | [] => []
  | [a] => (b64Group a 0 0).take 2
  | [a, b] => (b64Group a b 0).take 3
  | a :: b :: c :: src => b64Group a b c ++ b64EncodeLoop src

/-- `xs_b64_encode` : what it writes before the NUL. -/
def b64Encode (src : List UInt8) : List UInt8 :=
  let dst := b64EncodeLoop src
  dst ++ List.replicate ((4 - dst.length % 4) % 4) 61

/-! ## Decoding -/

/-- `b64_tab` of `xs_b64_decode`, with 255 elements. -/
def b64DecodeTab : List ℤ :=
  List.replicate 43 0 ++
  [62, -1, -1, -1, 63, 52, 53, 54, 55, 56, 57, 58, 59, 60, 61, -1,
    -1, -1, -2, -1, -1, -1, 0, 1, 2, 3, 4, 5, 6, 7, 8, 9,
    10, 11, 12, 13, 14, 15, 16, 17, 18, 19, 20, 21, 22, 23, 24, 25,
    -1, -1, -1, -1, -1, -1, 26, 27, 28, 29, 30, 31, 32, 33, 34, 35,
    36, 37, 38, 39, 40, 41, 42, 43, 44, 45, 46, 47, 48, 49, 50, 51] ++
  List.replicate 132 0

/-- `b64_tab[*src]` at an offset from `src`. -/
def b64Lookup (src : List UInt8) (i : ℕ) : Option ℤ :=
  src[i]?.bind fun a => b64DecodeTab[a.toNat]?

/-- Store a `char` at `dst[len]`. -/
def b64Store (dst : List UInt8) (len : ℕ) (d : ℤ) : Option (List UInt8) :=
  if len < dst.length then some (dst.set len (UInt8.ofInt d)) else none

/-- The loop of `xs_b64_decode` in `n` more steps, with `dstLen` the length of `dst`; it returns
`len`, or `none` inside for a return of 0, and `dst`. -/
def b64DecodeLoop : ℕ → List UInt8 → List UInt8 → ℕ → Option (Option ℕ × List UInt8)
  | 0, _, dst, len => some (some len, dst)
  | n + 1, src, dst, len =>
    if dst.length < len then some (none, dst)
    else do
      let s1 ← b64Lookup src 0
      let s2 ← b64Lookup src 1
      let s3 ← b64Lookup src 2
      let s4 ← b64Lookup src 3
      let dst ← b64Store dst len (s1 % 64 * 4 + s2 / 16 % 4)
      if s3 = 99 then some (some (len + 1), dst)
      else
        let dst ← b64Store dst (len + 1) (s2 % 16 * 16 + s3 / 4 % 16)
        if s4 = 99 then some (some (len + 2), dst)
        else
          let dst ← b64Store dst (len + 2) (s3 % 4 * 64 + s4 % 64)
          b64DecodeLoop n (src.drop 4) dst (len + 3)

/-- `xs_b64_decode` of `count` characters at `src` into the buffer `dst` : the length, and the
buffer. -/
def b64Decode (dst src : List UInt8) (count : ℕ) : Option (ℕ × List UInt8) :=
  (b64DecodeLoop ((count + 3) / 4) src dst 0).map fun r =>
    match r with
    | (none, dst) => (0, dst)
    | (some len, dst) => (len, if len < dst.length then dst.set len 0 else dst)

/-- `xs_b64_decode` of what `xs_b64_encode` makes of `x` returns the length of `x` and has `x` in
the buffer `dst`. -/
def B64RoundTrip (x dst : List UInt8) : Prop :=
  ∃ dst', b64Decode dst (b64Encode x) (b64Encode x).length = some (x.length, dst') ∧
    dst'.take x.length = x

/-! ## RFC 4648 -/

/-- The base64 encoding of RFC 4648 : 24 bits are four digits, and `=` stands for digits of no
byte. -/
def base64 : List UInt8 → List UInt8
  | [] => []
  | [a] =>
    let v := a.toNat * 2 ^ 16
    [b64Char (v / 2 ^ 18), b64Char (v / 2 ^ 12 % 64), 61, 61]
  | [a, b] =>
    let v := a.toNat * 2 ^ 16 + b.toNat * 2 ^ 8
    [b64Char (v / 2 ^ 18), b64Char (v / 2 ^ 12 % 64), b64Char (v / 2 ^ 6 % 64), 61]
  | a :: b :: c :: x =>
    let v := a.toNat * 2 ^ 16 + b.toNat * 2 ^ 8 + c.toNat
    b64Char (v / 2 ^ 18) :: b64Char (v / 2 ^ 12 % 64) :: b64Char (v / 2 ^ 6 % 64) ::
      b64Char (v % 64) :: base64 x

/-- The bytes that `xs_b64_decode` makes of the padding behind `n` bytes. -/
def b64Padding (n : ℕ) : List UInt8 :=
  if n % 3 = 1 then [0x0f, 0xbe] else if n % 3 = 2 then [0x3e] else []

/-! ## What is encoded -/

theorem b64Encode_eq_base64 (x : List UInt8) : b64Encode x = base64 x := by
  induction x using base64.induct with
  | case1 => rfl
  | case2 a =>
    simp only [b64Encode, b64EncodeLoop, b64Group, base64, List.take, UInt8.toNat_zero]
    rw [show a.toNat * 2 ^ 16 / 2 ^ 18 = a.toNat / 4 by omega,
      show a.toNat * 2 ^ 16 / 2 ^ 12 % 64 = a.toNat % 4 * 16 + 0 / 16 by omega]
    rfl
  | case3 a b =>
    have := b.toNat_lt
    simp only [b64Encode, b64EncodeLoop, b64Group, base64, List.take, UInt8.toNat_zero]
    rw [show (a.toNat * 2 ^ 16 + b.toNat * 2 ^ 8) / 2 ^ 18 = a.toNat / 4 by omega,
      show (a.toNat * 2 ^ 16 + b.toNat * 2 ^ 8) / 2 ^ 12 % 64 =
        a.toNat % 4 * 16 + b.toNat / 16 by omega,
      show (a.toNat * 2 ^ 16 + b.toNat * 2 ^ 8) / 2 ^ 6 % 64 =
        b.toNat % 16 * 4 + 0 / 64 by omega]
    rfl
  | case4 a b c x ih =>
    have := b.toNat_lt
    have := c.toNat_lt
    rw [base64, ← ih]
    simp only [b64Encode, b64EncodeLoop, b64Group]
    rw [show (a.toNat * 2 ^ 16 + b.toNat * 2 ^ 8 + c.toNat) / 2 ^ 18 = a.toNat / 4 by omega,
      show (a.toNat * 2 ^ 16 + b.toNat * 2 ^ 8 + c.toNat) / 2 ^ 12 % 64 =
        a.toNat % 4 * 16 + b.toNat / 16 by omega,
      show (a.toNat * 2 ^ 16 + b.toNat * 2 ^ 8 + c.toNat) / 2 ^ 6 % 64 =
        b.toNat % 16 * 4 + c.toNat / 64 by omega,
      show (a.toNat * 2 ^ 16 + b.toNat * 2 ^ 8 + c.toNat) % 64 = c.toNat % 64 by omega]
    simp only [List.cons_append, List.nil_append, List.length_cons]
    rw [show (4 - ((b64EncodeLoop x).length + 1 + 1 + 1 + 1) % 4) % 4 =
      (4 - (b64EncodeLoop x).length % 4) % 4 by omega]

theorem length_base64 (x : List UInt8) : (base64 x).length = 4 * ((x.length + 2) / 3) := by
  induction x using base64.induct with
  | case1 => rfl
  | case2 a => simp [base64]
  | case3 a b => simp [base64]
  | case4 a b c x ih =>
    simp only [base64, List.length_cons, ih]
    omega

theorem length_b64Padding (n : ℕ) : n + (b64Padding n).length = 3 * ((n + 2) / 3) := by
  unfold b64Padding
  split_ifs <;> simp only [List.length_cons, List.length_nil] <;> omega

theorem b64Padding_add_three (n : ℕ) : b64Padding (n + 3) = b64Padding n := by
  simp [b64Padding]

/-! ## What is decoded -/

/-- The alphabet, as bytes. -/
theorem b64EncodeTab_eq :
    b64EncodeTab = [
      65, 66, 67, 68, 69, 70, 71, 72, 73, 74, 75, 76, 77, 78, 79, 80, 81, 82, 83, 84, 85,
      86, 87, 88, 89, 90, 97, 98, 99, 100, 101, 102, 103, 104, 105, 106, 107, 108, 109,
      110, 111, 112, 113, 114, 115, 116, 117, 118, 119, 120, 121, 122, 48, 49, 50, 51, 52,
      53, 54, 55, 56, 57, 43, 47] := by
  decide +kernel

theorem b64DecodeTab_b64Char {v : ℕ} (hv : v < 64) :
    b64DecodeTab[(b64Char v).toNat]? = some (v : ℤ) := by
  unfold b64Char
  rw [b64EncodeTab_eq]
  revert v
  decide +kernel

/-- A step of the loop makes three bytes of four characters. -/
theorem b64DecodeLoop_group {w x y z : UInt8} {s1 s2 s3 s4 : ℤ} {dst : List UInt8} {len : ℕ}
    (n : ℕ) (rest : List UInt8) (h1 : b64DecodeTab[w.toNat]? = some s1)
    (h2 : b64DecodeTab[x.toNat]? = some s2) (h3 : b64DecodeTab[y.toNat]? = some s3)
    (h4 : b64DecodeTab[z.toNat]? = some s4) (h3' : s3 ≠ 99) (h4' : s4 ≠ 99)
    (hlen : len + 2 < dst.length) :
    ∃ dst', b64DecodeLoop (n + 1) (w :: x :: y :: z :: rest) dst len =
        b64DecodeLoop n rest dst' (len + 3) ∧
      Stored dst len [UInt8.ofInt (s1 % 64 * 4 + s2 / 16 % 4),
        UInt8.ofInt (s2 % 16 * 16 + s3 / 4 % 16), UInt8.ofInt (s3 % 4 * 64 + s4 % 64)] dst' := by
  have hs1 := Stored.set (b := dst) (d := len) (by omega)
    (UInt8.ofInt (s1 % 64 * 4 + s2 / 16 % 4))
  have hs2 := hs1.trans (.set (by rw [hs1.length]; simp; omega)
    (UInt8.ofInt (s2 % 16 * 16 + s3 / 4 % 16)))
  have hs3 := hs2.trans (.set (by rw [hs2.length]; simp; omega)
    (UInt8.ofInt (s3 % 4 * 64 + s4 % 64)))
  refine ⟨_, ?_, hs3⟩
  simp only [b64DecodeLoop, b64Lookup, b64Store, List.getElem?_cons_zero,
    List.getElem?_cons_succ, Option.bind_some, Option.bind_eq_bind, h1, h2, h3, h4]
  rw [if_neg (by omega), if_pos (by omega), Option.bind_some, if_neg h3', List.length_set,
    if_pos (by omega), Option.bind_some, if_neg h4', List.length_set, List.length_set,
    if_pos (by omega), Option.bind_some]
  rfl

theorem b64DecodeTab_pad : b64DecodeTab[(61 : UInt8).toNat]? = some (-2) := rfl

theorem ofInt_eq {v : ℤ} {a : UInt8} (h : v = a.toNat) : UInt8.ofInt v = a := by
  have hv : (v % 2 ^ 8).toNat = a.toNat := by
    have := a.toNat_lt
    omega
  rw [UInt8.ofInt, hv, UInt8.ofNat_toNat]

/-- The characters of `x` give `x` and the bytes of the padding. -/
theorem b64DecodeLoop_base64 (x rest : List UInt8) {dst : List UInt8} {len : ℕ}
    (hlen : len + 3 * ((x.length + 2) / 3) ≤ dst.length) :
    ∃ dst', b64DecodeLoop ((x.length + 2) / 3) (base64 x ++ rest) dst len =
        some (some (len + 3 * ((x.length + 2) / 3)), dst') ∧
      Stored dst len (x ++ b64Padding x.length) dst' := by
  induction x using base64.induct generalizing dst len with
  | case1 => exact ⟨dst, rfl, .nil _ _⟩
  | case2 a =>
    have := a.toNat_lt
    have hk : ([a].length + 2) / 3 = 1 := by simp
    rw [hk] at hlen ⊢
    obtain ⟨dst', hr, hs⟩ := b64DecodeLoop_group 0 rest
      (b64DecodeTab_b64Char (v := a.toNat * 2 ^ 16 / 2 ^ 18) (by omega))
      (b64DecodeTab_b64Char (v := a.toNat * 2 ^ 16 / 2 ^ 12 % 64) (by omega))
      b64DecodeTab_pad b64DecodeTab_pad (by decide) (by decide)
      (by omega : len + 2 < dst.length)
    refine ⟨dst', by rw [base64]; exact hr, ?_⟩
    rw [ofInt_eq (a := a) (by omega), ofInt_eq (a := 0x0f) (by simp; omega),
      ofInt_eq (a := 0xbe) (by decide)] at hs
    exact hs
  | case3 a b =>
    have := a.toNat_lt
    have := b.toNat_lt
    have hk : ([a, b].length + 2) / 3 = 1 := by simp
    rw [hk] at hlen ⊢
    obtain ⟨dst', hr, hs⟩ := b64DecodeLoop_group 0 rest
      (b64DecodeTab_b64Char (v := (a.toNat * 2 ^ 16 + b.toNat * 2 ^ 8) / 2 ^ 18) (by omega))
      (b64DecodeTab_b64Char (v := (a.toNat * 2 ^ 16 + b.toNat * 2 ^ 8) / 2 ^ 12 % 64) (by omega))
      (b64DecodeTab_b64Char (v := (a.toNat * 2 ^ 16 + b.toNat * 2 ^ 8) / 2 ^ 6 % 64) (by omega))
      b64DecodeTab_pad (by omega) (by decide) (by omega : len + 2 < dst.length)
    refine ⟨dst', by rw [base64]; exact hr, ?_⟩
    rw [ofInt_eq (a := a) (by omega), ofInt_eq (a := b) (by omega),
      ofInt_eq (a := 0x3e) (by simp; omega)] at hs
    exact hs
  | case4 a b c x ih =>
    have := a.toNat_lt
    have := b.toNat_lt
    have := c.toNat_lt
    have hn : ((a :: b :: c :: x).length + 2) / 3 = (x.length + 2) / 3 + 1 := by
      simp only [List.length_cons]
      omega
    rw [hn] at hlen ⊢
    obtain ⟨dst₁, hr, hs⟩ := b64DecodeLoop_group ((x.length + 2) / 3) (base64 x ++ rest)
      (b64DecodeTab_b64Char
        (v := (a.toNat * 2 ^ 16 + b.toNat * 2 ^ 8 + c.toNat) / 2 ^ 18) (by omega))
      (b64DecodeTab_b64Char
        (v := (a.toNat * 2 ^ 16 + b.toNat * 2 ^ 8 + c.toNat) / 2 ^ 12 % 64) (by omega))
      (b64DecodeTab_b64Char
        (v := (a.toNat * 2 ^ 16 + b.toNat * 2 ^ 8 + c.toNat) / 2 ^ 6 % 64) (by omega))
      (b64DecodeTab_b64Char
        (v := (a.toNat * 2 ^ 16 + b.toNat * 2 ^ 8 + c.toNat) % 64) (by omega))
      (by omega) (by omega) (by omega : len + 2 < dst.length)
    rw [ofInt_eq (a := a) (by omega), ofInt_eq (a := b) (by omega),
      ofInt_eq (a := c) (by omega)] at hs
    obtain ⟨dst', hr', hs'⟩ := ih
      (by rw [hs.length]; omega : len + 3 + 3 * ((x.length + 2) / 3) ≤ dst₁.length)
    refine ⟨dst', ?_, ?_⟩
    · rw [base64]
      refine hr.trans (hr'.trans ?_)
      rw [show len + 3 + 3 * ((x.length + 2) / 3) = len + 3 * ((x.length + 2) / 3 + 1) by omega]
    · rw [List.length_cons, List.length_cons, List.length_cons, b64Padding_add_three]
      exact hs.trans hs'

/-- Decoding an encoding : what was encoded, and the bytes of the padding; then a NUL if there is
room. -/
theorem b64Decode_base64 (x rest dst : List UInt8)
    (hdst : 3 * ((x.length + 2) / 3) ≤ dst.length) :
    ∃ dst', b64Decode dst (base64 x ++ rest) (base64 x).length =
        some (3 * ((x.length + 2) / 3), dst') ∧
      Stored dst 0 (x ++ b64Padding x.length) dst' ∧
      (3 * ((x.length + 2) / 3) < dst.length →
        Stored dst 0 (x ++ b64Padding x.length ++ [0]) dst') := by
  have hroom : 0 + 3 * ((x.length + 2) / 3) ≤ dst.length := by omega
  obtain ⟨dst₁, hr, hs⟩ := b64DecodeLoop_base64 x rest hroom
  have hpad := length_b64Padding x.length
  rw [Nat.zero_add] at hr
  unfold b64Decode
  rw [length_base64, show (4 * ((x.length + 2) / 3) + 3) / 4 = (x.length + 2) / 3 by omega, hr,
    Option.map_some]
  dsimp only
  by_cases hlt : 3 * ((x.length + 2) / 3) < dst₁.length
  · have hset := Stored.set (b := dst₁) (d := 0 + (x ++ b64Padding x.length).length)
      (by rw [List.length_append]; omega) 0
    have hfull := hs.trans hset
    rw [Nat.zero_add, List.length_append, hpad] at hfull
    rw [if_pos hlt]
    refine ⟨_, rfl, ⟨hfull.length, ?_⟩, fun _ => hfull⟩
    rw [Nat.zero_add]
    exact hfull.take_of_append
  · rw [if_neg hlt]
    exact ⟨_, rfl, hs, fun h => absurd (hs.length ▸ h) hlt⟩

/-- The round trip goes through exactly if there is no padding. -/
theorem b64RoundTrip_iff {x dst : List UInt8} (hdst : x.length + 3 ≤ dst.length) :
    B64RoundTrip x dst ↔ 3 ∣ x.length := by
  obtain ⟨dst', hr, hs, -⟩ := b64Decode_base64 x [] dst (by omega)
  rw [List.append_nil] at hr
  unfold B64RoundTrip
  rw [b64Encode_eq_base64, hr]
  constructor
  · rintro ⟨_, h, -⟩
    simp only [Option.some.injEq, Prod.mk.injEq] at h
    omega
  · intro h
    exact ⟨dst', by rw [show 3 * ((x.length + 2) / 3) = x.length by omega], hs.take_of_append⟩

theorem b64RoundTrip_man : B64RoundTrip (ascii "Man") (List.replicate 6 7) :=
  (b64RoundTrip_iff (by decide)).mpr (by decide)

/-- One byte comes back as three. -/
theorem not_b64RoundTrip_one : ¬B64RoundTrip [77] (List.replicate 4 0) := by
  rintro ⟨dst', h, -⟩
  have hr : b64Decode (List.replicate 4 0) (b64Encode [77]) (b64Encode [77]).length =
      some (3, [77, 0x0f, 0xbe, 0]) := by decide +kernel
  rw [hr] at h
  simp at h

/-! ## The encoding is injective -/

theorem b64Char_ne_pad {v : ℕ} (hv : v < 64) : b64Char v ≠ 61 := by
  unfold b64Char
  rw [b64EncodeTab_eq]
  revert v
  decide +kernel

theorem count_pad_b64Char {v : ℕ} (hv : v < 64) (l : List UInt8) :
    (b64Char v :: l).count 61 = l.count 61 :=
  List.count_cons_of_ne (b64Char_ne_pad hv)

theorem count_pad_base64 (x : List UInt8) : (base64 x).count 61 = (3 - x.length % 3) % 3 := by
  induction x using base64.induct with
  | case1 => rfl
  | case2 a =>
    have := a.toNat_lt
    rw [base64, count_pad_b64Char (by omega), count_pad_b64Char (by omega)]
    rfl
  | case3 a b =>
    have := a.toNat_lt
    have := b.toNat_lt
    rw [base64, count_pad_b64Char (by omega), count_pad_b64Char (by omega),
      count_pad_b64Char (by omega)]
    rfl
  | case4 a b c x ih =>
    have := a.toNat_lt
    have := b.toNat_lt
    have := c.toNat_lt
    rw [base64, count_pad_b64Char (by omega), count_pad_b64Char (by omega),
      count_pad_b64Char (by omega), count_pad_b64Char (by omega), ih]
    simp only [List.length_cons]
    omega

theorem base64_injective {x y : List UInt8} (h : base64 x = base64 y) : x = y := by
  have hlen := congrArg List.length h
  have hpad := congrArg (List.count 61) h
  rw [length_base64, length_base64] at hlen
  rw [count_pad_base64, count_pad_base64] at hpad
  have hxy : x.length = y.length := by omega
  -- both are what the decoder makes of the text
  obtain ⟨dx, hx, hsx, -⟩ := b64Decode_base64 x []
    (List.replicate (3 * ((x.length + 2) / 3)) 0) (by simp)
  obtain ⟨dy, hy, hsy, -⟩ := b64Decode_base64 y []
    (List.replicate (3 * ((x.length + 2) / 3)) 0) (by simp [hxy])
  rw [h, hy] at hx
  obtain ⟨-, rfl⟩ : _ ∧ dy = dx := by simpa using hx
  rw [← hsx.take_of_append, ← hsy.take_of_append, hxy]

end Webxs
