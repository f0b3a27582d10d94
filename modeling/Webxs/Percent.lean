import Webxs.Heads

/-!
# Percent-encoding

`xs_uri_encode` (`xs_connection.h`) copies the bytes that `xs_http_okchar` allows, writes a space
of a form as `+` and escapes the others with two hex digits of `xs_tohex`; `xs_uri_decode` reads
the digits with `xs_fromhex`. Bytes are signed, and `xs_tohex` makes letters from `K` on of the
values from 10 on, so that not every byte comes back : `uriRoundTrip_iff` says which do.

The buffers are lists. A loop of the source that never ends is `none`.
-/

namespace Webxs

/-- The value of a `char`, which is signed. -/
def charValue (a : UInt8) : ℤ :=
  if a < 128 then a.toNat else a.toNat - 256

/-- `xs_tohex`, as a `char`. -/
def tohex (v : ℤ) (upper : Bool) : UInt8 :=
  UInt8.ofInt (if v < 10 then v + 48 else if upper = true then v + 65 else v + 97)

/-- The loop of `xs_uri_encode` on the source bytes from `s` on, up to `slen`; it returns `dst` and
`d`. A byte to be escaped that has no room is looked at forever. -/
def uriEncodeLoop (form : Bool) (dlen : ℤ) :
    List UInt8 → List UInt8 → ℕ → Option (List UInt8 × ℕ)
  | [], dst, d => some (dst, d)
  | a :: src, dst, d =>
    if dlen ≤ d ∨ a = 0 then some (dst, d)
    else if form = true ∧ a = 32 then uriEncodeLoop form dlen src (dst.set d 43) (d + 1)
    else if httpOkchar a = true ∧ a ≠ 37 then
      uriEncodeLoop form dlen src (dst.set d a) (d + 1)
    else if (d : ℤ) + 2 < dlen then
      let c := charValue a
      let dst := dst.set d 37
      let dst := dst.set (d + 1) (tohex (c / 16) true)
      let dst := dst.set (d + 2) (tohex (c % 16) true)
      uriEncodeLoop form dlen src dst (d + 3)
    else none

/-- `xs_uri_encode` of `src` into the buffer `dst`, of which `dlen` is the size. -/
def uriEncode (dst src : List UInt8) (form : Bool) : Option (ℤ × List UInt8) :=
  let dlen : ℤ := dst.length - 1
  if dlen ≤ 0 then some (-50, dst)
  else (uriEncodeLoop form dlen src dst 0).map fun (dst, d) => (0, dst.set d 0)

/-- `xs_uri_encode` of `x` into the buffer `enc` goes through, and `xs_uri_decode` of the string
there into the buffer `dec` behind it returns 0 and yields `x`. -/
def UriRoundTrip (x : List UInt8) (form : Bool) (enc dec : List UInt8) : Prop :=
  ∃ enc', uriEncode enc x form = some (0, enc') ∧
    (uriDecode (enc' ++ dec) enc'.length dec.length 0 (cstr enc' 0).length form).1 = 0 ∧
    cstr (uriDecode (enc' ++ dec) enc'.length dec.length 0 (cstr enc' 0).length form).2
      enc'.length = x

/-! ## One byte -/

/-- How a byte is written. -/
def uriEncoded (form : Bool) (a : UInt8) : List UInt8 :=
  if form = true ∧ a = 32 then [43]
  else if httpOkchar a = true ∧ a ≠ 37 then [a]
  else [37, tohex (charValue a / 16) true, tohex (charValue a % 16) true]

/-- What is read for a byte that was written so; `none` is an error. -/
def uriReread (form : Bool) (a : UInt8) : Option UInt8 :=
  if httpOkchar a = true ∧ a ≠ 37 then some (if form = true ∧ a = 43 then 32 else a)
  else if a < 128 ∧ a % 16 < 10 then some a
  else none

/-- A byte that comes back : a legal one, but for the `+` of a form, or one that is escaped with
two digits below 10. -/
def UriSafe (form : Bool) (a : UInt8) : Prop :=
  if httpOkchar a = true ∧ a ≠ 37 then ¬(form = true ∧ a = 43) else a < 128 ∧ a % 16 < 10

instance (form : Bool) (a : UInt8) : Decidable (UriSafe form a) := by
  unfold UriSafe
  infer_instance

theorem uriReread_eq_self {form : Bool} {a : UInt8} :
    uriReread form a = some a ↔ UriSafe form a := by
  unfold uriReread UriSafe
  by_cases hok : httpOkchar a = true ∧ a ≠ 37
  · rw [if_pos hok, if_pos hok, Option.some.injEq]
    by_cases hp : form = true ∧ a = 43
    · rw [if_pos hp, hp.2]
      exact ⟨fun h => absurd h (by decide), fun h => absurd ⟨hp.1, rfl⟩ h⟩
    · rw [if_neg hp]
      exact ⟨fun _ => hp, fun _ => rfl⟩
  · rw [if_neg hok, if_neg hok]
    split_ifs with hd <;> simp [hd]

theorem forall_byte {P : UInt8 → Prop} (h : ∀ n < 256, P (UInt8.ofNat n)) (a : UInt8) : P a := by
  simpa using h a.toNat a.toNat_lt

/-- The digits of an escaped byte, which are signed for a byte from 128 on. -/
theorem tohex_digits (a : UInt8) :
    if a < 128 ∧ a % 16 < 10 then
      0 ≤ fromhex (tohex (charValue a / 16) true) ∧ 0 ≤ fromhex (tohex (charValue a % 16) true) ∧
        UInt8.ofNat ((fromhex (tohex (charValue a / 16) true)).toNat * 16 +
          (fromhex (tohex (charValue a % 16) true)).toNat) = a
    else fromhex (tohex (charValue a / 16) true) < 0 ∨
      fromhex (tohex (charValue a % 16) true) < 0 := by
  revert a
  exact forall_byte (by decide +kernel)

theorem tohex_ne_zero (a : UInt8) :
    tohex (charValue a / 16) true ≠ 0 ∧ tohex (charValue a % 16) true ≠ 0 := by
  revert a
  exact forall_byte (by decide +kernel)

theorem zero_notMem_uriEncoded {form : Bool} {a : UInt8} (ha : a ≠ 0) :
    0 ∉ uriEncoded form a := by
  obtain ⟨hhi, hlo⟩ := tohex_ne_zero a
  unfold uriEncoded
  split_ifs <;> simp [ha.symm, hhi.symm, hlo.symm]

theorem uriReread_ne_zero {form : Bool} {a b : UInt8} (ha : a ≠ 0)
    (h : uriReread form a = some b) : b ≠ 0 := by
  unfold uriReread at h
  split_ifs at h <;> cases h <;> first
    | exact ha
    | decide

theorem length_uriEncoded (form : Bool) (a : UInt8) :
    1 ≤ (uriEncoded form a).length ∧ (uriEncoded form a).length ≤ 3 := by
  unfold uriEncoded
  split_ifs <;> simp

theorem length_flatMap_uriEncoded (form : Bool) (x : List UInt8) :
    x.length ≤ (x.flatMap (uriEncoded form)).length ∧
      (x.flatMap (uriEncoded form)).length ≤ 3 * x.length := by
  induction x with
  | nil => simp
  | cons a x ih =>
    have := length_uriEncoded form a
    rw [List.flatMap_cons, List.length_append, List.length_cons]
    omega

theorem flatMap_uriReread (form : Bool) {x : List UInt8} (h0 : 0 ∉ x) :
    (x.flatMap fun a => (uriReread form a).toList).length ≤ x.length ∧
      0 ∉ x.flatMap fun a => (uriReread form a).toList := by
  induction x with
  | nil => simp
  | cons a x ih =>
    obtain ⟨ha, h0⟩ : a ≠ 0 ∧ 0 ∉ x := by simpa [eq_comm] using h0
    obtain ⟨hle, hz⟩ := ih h0
    rw [List.flatMap_cons, List.length_append, List.length_cons]
    cases h : uriReread form a with
    | none => exact ⟨by simp only [Option.toList_none, List.length_nil]; omega, hz⟩
    | some b =>
      have hb := uriReread_ne_zero ha h
      refine ⟨by simp only [Option.toList_some, List.length_singleton]; omega, ?_⟩
      simp only [Option.toList_some, List.singleton_append, List.mem_cons, not_or]
      exact ⟨hb.symm, hz⟩

/-- All bytes can be read again and are what they were. -/
theorem flatMap_uriReread_eq_self {form : Bool} {x : List UInt8} :
    ((∀ a ∈ x, (uriReread form a).isSome) ∧
        (x.flatMap fun a => (uriReread form a).toList) = x) ↔ ∀ a ∈ x, UriSafe form a := by
  induction x with
  | nil => simp
  | cons a x ih =>
    rw [List.forall_mem_cons, List.forall_mem_cons, ← ih, ← uriReread_eq_self]
    cases h : uriReread form a with
    | none => simp
    | some b =>
      simp [h]
      tauto

/-! ## Encoding -/

theorem uriEncodeLoop_spec (form : Bool) {src dst : List UInt8} {d : ℕ} {dlen : ℤ}
    (h0 : 0 ∉ src) (hd : d + 3 * (src.length : ℤ) ≤ dlen) (hdst : dlen < dst.length) :
    ∃ dst', uriEncodeLoop form dlen src dst d =
        some (dst', d + (src.flatMap (uriEncoded form)).length) ∧
      Stored dst d (src.flatMap (uriEncoded form)) dst' := by
  induction src generalizing dst d with
  | nil => exact ⟨dst, rfl, .nil dst d⟩
  | cons a src ih =>
    obtain ⟨ha, h0⟩ : a ≠ 0 ∧ 0 ∉ src := by simpa [eq_comm] using h0
    rw [List.length_cons, Nat.cast_succ] at hd
    -- one byte is written, and the loop goes on behind it
    have hstep : ∃ dst₁, Stored dst d (uriEncoded form a) dst₁ ∧
        uriEncodeLoop form dlen (a :: src) dst d =
          uriEncodeLoop form dlen src dst₁ (d + (uriEncoded form a).length) := by
      rw [uriEncodeLoop, if_neg (by simp only [ha, or_false]; omega)]
      unfold uriEncoded
      by_cases hf : form = true ∧ a = 32
      · rw [if_pos hf, if_pos hf]
        exact ⟨_, .set (by omega) 43, rfl⟩
      · rw [if_neg hf, if_neg hf]
        by_cases hok : httpOkchar a = true ∧ a ≠ 37
        · rw [if_pos hok, if_pos hok]
          exact ⟨_, .set (by omega) a, rfl⟩
        · rw [if_neg hok, if_neg hok, if_pos (by omega)]
          have h1 := Stored.set (b := dst) (d := d) (by omega) 37
          have h2 := h1.trans (.set (by rw [h1.length]; simp; omega)
            (tohex (charValue a / 16) true))
          exact ⟨_, h2.trans (.set (by rw [h2.length]; simp; omega)
            (tohex (charValue a % 16) true)), rfl⟩
    obtain ⟨dst₁, hs, heq⟩ := hstep
    have := length_uriEncoded form a
    have hd' : ((d + (uriEncoded form a).length : ℕ) : ℤ) + 3 * (src.length : ℤ) ≤ dlen := by
      push_cast
      omega
    obtain ⟨dst', hr, hs'⟩ := ih h0 hd' (by rw [hs.length]; exact hdst)
    refine ⟨dst', ?_, hs.trans hs'⟩
    rw [heq, hr, List.flatMap_cons, List.length_append, Nat.add_assoc]

/-- With room enough the text of the bytes is written, with a NUL behind it. -/
theorem uriEncode_spec {x enc : List UInt8} (form : Bool) (h0 : 0 ∉ x)
    (henc : 3 * x.length + 1 ≤ enc.length) (hlt : 1 < enc.length) :
    ∃ enc', uriEncode enc x form = some (0, enc') ∧
      Stored enc 0 (x.flatMap (uriEncoded form) ++ [0]) enc' := by
  have hd : ((0 : ℕ) : ℤ) + 3 * (x.length : ℤ) ≤ (enc.length : ℤ) - 1 := by omega
  obtain ⟨dst, hr, hs⟩ := uriEncodeLoop_spec form h0 hd (by omega : _ < (enc.length : ℤ))
  have hle := length_flatMap_uriEncoded form x
  rw [Nat.zero_add] at hr
  refine ⟨dst.set (x.flatMap (uriEncoded form)).length 0, ?_, ?_⟩
  · unfold uriEncode
    dsimp only
    rw [if_neg (by omega), hr]
    rfl
  · have hset := Stored.set (b := dst) (d := 0 + (x.flatMap (uriEncoded form)).length)
      (by rw [hs.length]; omega) 0
    rw [Nat.zero_add] at hset
    exact hs.trans (by rwa [Nat.zero_add])

/-! ## Decoding -/

theorem getD_of_take_drop {m p r : List UInt8} {dst s k : ℕ} (h : (m.take dst).drop s = p ++ r)
    (hk : k < p.length) : m.getD (s + k) 0 = p.getD k 0 := by
  have hget : (m.take dst)[s + k]? = some p[k] := by
    rw [← List.getElem?_drop, h, List.getElem?_append_left hk, List.getElem?_eq_getElem hk]
  obtain ⟨hlt, -⟩ := List.getElem?_eq_some_iff.mp hget
  rw [List.length_take] at hlt
  rw [List.getElem?_take_of_lt (by omega)] at hget
  rw [List.getD_eq_getElem?_getD, hget, List.getD_eq_getElem?_getD, List.getElem?_eq_getElem hk]

/-- One byte is read : a plus, a byte as it is, or an escaped one. -/
theorem uriDecodeLoop_byte {form : Bool} {a : UInt8} {rest m : List UInt8} {dst s d : ℕ}
    {dlen slen : ℤ} (n : ℕ) (err : ℤ) (ha : a ≠ 0)
    (hsrc : (m.take dst).drop s = uriEncoded form a ++ rest)
    (hslen : s + (uriEncoded form a).length ≤ slen) (hd : (d : ℤ) + 1 < dlen)
    (hm : dst + dlen ≤ m.length) :
    ∃ m₁, uriDecodeLoop dst 0 dlen slen form (n + 1) m s d err =
        uriDecodeLoop dst 0 dlen slen form n m₁ (s + (uriEncoded form a).length)
          (d + (uriReread form a).toList.length)
          (if (uriReread form a).isSome then err else -1) ∧
      Stored m (dst + d) (uriReread form a).toList m₁ := by
  have hget := fun k => getD_of_take_drop (k := k) hsrc
  have hset : ∀ b, Stored m (dst + d) [b] (m.set (dst + d) b) := .set (by omega)
  unfold uriEncoded at hslen hget ⊢
  rw [uriDecodeLoop]
  dsimp only
  rw [Nat.zero_add]
  by_cases hf : form = true ∧ a = 32
  · obtain ⟨rfl, rfl⟩ := hf
    rw [if_pos ⟨rfl, rfl⟩] at hslen hget
    have h : m.getD s 0 = 43 := hget 0 (by simp)
    rw [h, if_neg (by simp at hslen ⊢; omega), if_pos ⟨rfl, rfl⟩, if_pos ⟨rfl, rfl⟩]
    exact ⟨_, rfl, hset 32⟩
  · rw [if_neg hf] at hslen hget ⊢
    by_cases hok : httpOkchar a = true ∧ a ≠ 37
    · rw [if_pos hok] at hslen hget ⊢
      have h : m.getD s 0 = a := hget 0 (by simp)
      unfold uriReread
      rw [h, if_neg (by simp [ha] at hslen ⊢; omega), if_pos hok]
      by_cases hp : form = true ∧ a = 43
      · rw [if_pos hp, if_pos hp]
        exact ⟨_, rfl, hset 32⟩
      · rw [if_neg hp, if_pos hok.2, if_neg hp]
        exact ⟨_, rfl, hset a⟩
    · rw [if_neg hok] at hslen hget ⊢
      have h : m.getD s 0 = 37 := hget 0 (by simp)
      have h1 : m.getD (s + 1) 0 = tohex (charValue a / 16) true := hget 1 (by simp)
      have h2 : m.getD (s + 2) 0 = tohex (charValue a % 16) true := hget 2 (by simp)
      have hdig := tohex_digits a
      simp only [List.length_cons, List.length_nil] at hslen
      unfold uriReread
      rw [h, h1, h2, if_neg (by simp; omega), if_neg (by simp), if_neg (by simp),
        if_pos (by omega), if_neg hok]
      by_cases hs : a < 128 ∧ a % 16 < 10
      · rw [if_pos hs] at hdig
        rw [if_neg (by omega), if_pos hs, hdig.2.2]
        exact ⟨_, rfl, hset a⟩
      · rw [if_neg hs] at hdig
        rw [if_pos hdig, if_neg hs]
        exact ⟨m, rfl, .nil _ _⟩

/-- What the loop makes of the text of `x`, at `s` in the first `dst` bytes, if the buffer of
`dlen` bytes at `dst` has room : the bytes that can be read again. -/
theorem uriDecodeLoop_spec {form : Bool} {x rest m : List UInt8} {dst s d n : ℕ}
    {dlen slen : ℤ} (err : ℤ) (h0 : 0 ∉ x)
    (hsrc : (m.take dst).drop s = x.flatMap (uriEncoded form) ++ rest)
    (hslen : slen = s + (x.flatMap (uriEncoded form)).length) (hn : x.length ≤ n)
    (hd : (d : ℤ) + x.length < dlen) (hm : dst + dlen ≤ m.length) :
    ∃ m', uriDecodeLoop dst 0 dlen slen form n m s d err =
        (m', s + (x.flatMap (uriEncoded form)).length,
          d + (x.flatMap fun a => (uriReread form a).toList).length,
          if x.all fun a => (uriReread form a).isSome then err else -1) ∧
      Stored m (dst + d) (x.flatMap fun a => (uriReread form a).toList) m' := by
  induction x generalizing m s d n err with
  | nil =>
    refine ⟨m, ?_, .nil _ _⟩
    cases n with
    | zero => simp [uriDecodeLoop]
    | succ n =>
      rw [uriDecodeLoop, if_pos (.inl (by simpa using hslen.le))]
      simp
  | cons a x ih =>
    obtain ⟨ha, h0⟩ : a ≠ 0 ∧ 0 ∉ x := by simpa [eq_comm] using h0
    rw [List.flatMap_cons, List.append_assoc] at hsrc
    rw [List.flatMap_cons, List.length_append] at hslen
    rw [List.length_cons] at hn hd
    obtain ⟨n, rfl⟩ : ∃ k, n = k + 1 := ⟨n - 1, by omega⟩
    have hsl : (s : ℤ) + (uriEncoded form a).length ≤ slen := by omega
    have hdl : (d : ℤ) + 1 < dlen := by omega
    obtain ⟨m₁, heq, hs⟩ := uriDecodeLoop_byte n err ha hsrc hsl hdl hm
    have hlen : (uriReread form a).toList.length ≤ 1 := by
      cases uriReread form a <;> simp
    have hsrc' : (m₁.take dst).drop (s + (uriEncoded form a).length) =
        x.flatMap (uriEncoded form) ++ rest := by
      rw [hs.take_of_le (by omega) (by omega), ← List.drop_drop, hsrc, List.drop_left]
    obtain ⟨m', hr, hs'⟩ := ih (n := n) (d := d + (uriReread form a).toList.length) _ h0 hsrc'
      (by push_cast; omega) (by omega) (by push_cast; omega) (by rw [hs.length]; exact hm)
    refine ⟨m', ?_, ?_⟩
    · rw [heq, hr, List.flatMap_cons, List.flatMap_cons, List.length_append, List.length_append,
        Nat.add_assoc, Nat.add_assoc]
      rw [List.all_cons]
      cases uriReread form a <;> cases x.all fun a => (uriReread form a).isSome <;> simp
    · rw [List.flatMap_cons]
      exact hs.trans (by rwa [Nat.add_assoc])

/-- The text of `x` is decoded without an error exactly if every byte of it can be read again. -/
theorem uriDecode_spec (form : Bool) {x enc dec : List UInt8} (h0 : 0 ∉ x)
    (henc : ∃ v, enc = x.flatMap (uriEncoded form) ++ v) (hdec : 3 * x.length + 2 ≤ dec.length) :
    (uriDecode (enc ++ dec) enc.length dec.length 0 (x.flatMap (uriEncoded form)).length form).1 =
        (if x.all fun a => (uriReread form a).isSome then 0 else -1) ∧
      cstr (uriDecode (enc ++ dec) enc.length dec.length 0
        (x.flatMap (uriEncoded form)).length form).2 enc.length =
          x.flatMap fun a => (uriReread form a).toList := by
  obtain ⟨v, hv⟩ := henc
  have hsrc : ((enc ++ dec).take enc.length).drop 0 = x.flatMap (uriEncoded form) ++ v := by
    rw [List.take_left, List.drop_zero, hv]
  have hsl : (((x.flatMap (uriEncoded form)).length : ℕ) : ℤ) =
      ((0 : ℕ) : ℤ) + (x.flatMap (uriEncoded form)).length := by
    omega
  have hn := (length_flatMap_uriEncoded form x).1
  have hdl : ((0 : ℕ) : ℤ) + x.length < (dec.length : ℤ) - 1 := by omega
  have hm : ((enc.length : ℕ) : ℤ) + ((dec.length : ℤ) - 1) ≤ ((enc ++ dec).length : ℕ) := by
    rw [List.length_append]
    omega
  obtain ⟨m', hr, hs⟩ := uriDecodeLoop_spec 0 h0 hsrc hsl hn hdl hm
  rw [Nat.zero_add, Nat.zero_add] at hr
  obtain ⟨hout, hz⟩ := flatMap_uriReread form h0
  have hset := Stored.set (b := m')
    (d := enc.length + 0 + (x.flatMap fun a => (uriReread form a).toList).length)
    (by rw [hs.length, List.length_append]; omega) 0
  have hstr := cstr_of_stored (hs.trans hset) (by rw [List.length_append]; omega) hz
  unfold uriDecode
  dsimp only
  rw [if_neg (by omega), Int.toNat_natCast, hr]
  dsimp only
  rw [sub_self, if_neg (by simp)]
  exact ⟨rfl, hstr⟩

/-- The round trip goes through exactly if every byte comes back. The empty string needs a buffer of
two bytes all the same. -/
theorem uriRoundTrip_iff {x : List UInt8} (form : Bool) {enc dec : List UInt8} (h0 : 0 ∉ x)
    (henc : 3 * x.length + 1 ≤ enc.length) (hdec : 3 * x.length + 2 ≤ dec.length) :
    UriRoundTrip x form enc dec ↔
      (∀ a ∈ x, UriSafe form a) ∧ (x = [] → 2 ≤ enc.length) := by
  by_cases hlt : 1 < enc.length
  · obtain ⟨enc', hr, hs⟩ := uriEncode_spec form h0 henc hlt
    have hz : 0 ∉ x.flatMap (uriEncoded form) := by
      simp only [List.mem_flatMap, not_exists, not_and]
      exact fun a ha => zero_notMem_uriEncoded fun h => h0 (h ▸ ha)
    have hstr := cstr_of_stored hs (Nat.zero_le _) hz
    obtain ⟨v, hv⟩ := drop_of_stored hs (Nat.zero_le _)
    rw [List.drop_zero, List.append_assoc] at hv
    obtain ⟨hret, hout⟩ := uriDecode_spec form h0 ⟨_, hv⟩ hdec
    unfold UriRoundTrip
    rw [hr, ← flatMap_uriReread_eq_self]
    simp only [Option.some.injEq, Prod.mk.injEq, ↓existsAndEq, true_and]
    rw [hstr, hret, hout]
    constructor
    · rintro ⟨h, heq⟩
      refine ⟨⟨?_, heq⟩, fun _ => hlt⟩
      by_contra hne
      rw [if_neg (by rwa [List.all_eq_true])] at h
      cases h
    · rintro ⟨⟨h, heq⟩, -⟩
      exact ⟨if_pos (List.all_eq_true.mpr h), heq⟩
  · obtain rfl : x = [] := List.length_eq_zero_iff.mp (by omega)
    constructor
    · rintro ⟨enc', hr, -⟩
      unfold uriEncode at hr
      dsimp only at hr
      rw [if_pos (by omega)] at hr
      cases hr
    · exact fun h => absurd (h.2 rfl) hlt

theorem uriRoundTrip_form :
    UriRoundTrip [97, 32, 37, 1] true (List.replicate 13 0) (List.replicate 14 0) :=
  (uriRoundTrip_iff true (by decide) (by decide) (by decide)).mpr (by decide +kernel)

/-- The digits of the byte 127 are `7P`, which `xs_uri_decode` does not read. -/
theorem not_uriRoundTrip_del :
    ¬UriRoundTrip [127] false (List.replicate 4 0) (List.replicate 5 0) := by
  rintro ⟨enc', h, hret, -⟩
  have henc : uriEncode (List.replicate 4 0) [127] false = some (0, [37, 55, 80, 0]) := by decide
  rw [henc] at h
  obtain rfl : [37, 55, 80, 0] = enc' := by simpa using h
  exact absurd hret (by decide)

end Webxs
