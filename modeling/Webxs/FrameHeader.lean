import Webxs.Scanning

/-!
# The header of a frame

`xs_conn_write_websocket` writes a header of one of six shapes : the length of the payload in the
second byte, in two bytes or in eight, with the key behind it or without. The second byte says
which shape it is, and so how long the header is (`headerSize`). `xs_websocket_framevalid` reads
back the length and the key, whatever follows the header, and finds no header in less
(`websocketFramevalid_websocketHeader`).
-/

namespace Webxs

/-! ## Network order -/

theorem length_bytesBE (n : ℕ) : ∀ v, (bytesBE v n).length = n := by
  induction n with
  | zero => exact fun _ => rfl
  | succ n ih => exact fun v => by simp [bytesBE, ih]

theorem readBE_bytesBE (pre : List UInt8) (n : ℕ) :
    ∀ v post, readBE (pre ++ (bytesBE v n ++ post)) pre.length n = some (v % 256 ^ n) := by
  induction n with
  | zero => exact fun v _ => by simp [readBE, Nat.mod_one]
  | succ n ih =>
    intro v post
    have hsplit : bytesBE v (n + 1) ++ post =
        bytesBE (v / 256) n ++ (UInt8.ofNat (v % 256) :: post) := by
      simp [bytesBE]
    have hlast :
        (pre ++ (bytesBE (v / 256) n ++ (UInt8.ofNat (v % 256) :: post)))[pre.length + n]? =
          some (UInt8.ofNat (v % 256)) := by
      rw [List.getElem?_append_right (by omega), List.getElem?_append_right
        (by rw [length_bytesBE]; omega), length_bytesBE]
      simp
    rw [hsplit, readBE, ih]
    simp only [hlast, Option.bind_eq_bind, Option.bind_some]
    rw [pow_succ', Nat.mod_mul, UInt8.toNat_ofNat']
    congr 1
    omega

/-! ## Headers -/

theorem headerFields_eq (l : List UInt8) (b : UInt8) :
    headerFields l b =
      (if b.toNat % 128 < 126 then some (b.toNat % 128)
        else readBE l 2 (lenBytes (b.toNat % 128))).bind fun v =>
        (if maskLen b ≠ 0 then readBytes l (headerSize b - 4) 4 else some [0, 0, 0, 0]).map
          fun mask => (mask, v) := by
  unfold headerFields
  split_ifs <;> simp [Option.map_eq_bind]

/-- The bytes of a header with the length `v` and the key `key` : `ext` is what follows the second
byte `b'`, up to the key. -/
structure HeaderParts (b b' : UInt8) (ext key : List UInt8) (v : ℕ) : Prop where
  length_ext : ext.length = lenBytes (b'.toNat % 128)
  length_key : key.length = maskLen b'
  len : (if b'.toNat % 128 < 126 then some (b'.toNat % 128)
    else readBE (b :: b' :: (ext ++ key)) 2 (lenBytes (b'.toNat % 128))) = some v

namespace HeaderParts

variable {b b' : UInt8} {ext key : List UInt8} {v : ℕ}

theorem headerSize_eq (h : HeaderParts b b' ext key v) :
    headerSize b' = (b :: b' :: (ext ++ key)).length := by
  have := h.length_ext
  have := h.length_key
  simp only [headerSize, List.length_cons, List.length_append]
  omega

/-- A header that is whole is read back. -/
theorem frameScan_eq (h : HeaderParts b b' ext key v) :
    frameScan (b :: b' :: (ext ++ key)) =
      some (((b :: b' :: (ext ++ key)).length : ℤ), if key = [] then [0, 0, 0, 0] else key, v) := by
  have hs := h.headerSize_eq
  have hfields : headerFields (b :: b' :: (ext ++ key)) b' =
      some (if key = [] then [0, 0, 0, 0] else key, v) := by
    rw [headerFields_eq, h.len, Option.bind_some]
    by_cases hm : maskLen b' = 0
    · have hk : key = [] := List.length_eq_zero_iff.mp (h.length_key.trans hm)
      rw [if_neg (not_not_intro hm), if_pos hk]
      rfl
    · have hm4 : maskLen b' = 4 := by
        unfold maskLen at hm ⊢
        split_ifs at hm ⊢ <;> trivial
      have hk : key ≠ [] := fun hk => hm (by rw [← h.length_key, hk, List.length_nil])
      have hd : headerSize b' - 4 = ext.length + 1 + 1 := by
        rw [headerSize, hm4, h.length_ext]
        omega
      rw [if_pos hm, if_neg hk, hd, readBytes_of_le
        (by rw [← hm4, ← h.length_key]; simp only [List.length_cons, List.length_append]; omega),
        List.drop_succ_cons, List.drop_succ_cons, List.drop_left, ← hm4, ← h.length_key,
        List.take_length]
      rfl
  rw [frameScan, websocketFramevalid_eq (b := b') rfl, if_pos hs.le, hfields, hs]
  simp only [Option.map_some, Option.filter]
  exact if_pos (decide_eq_true (by simp only [List.length_cons]; omega))

/-- Less than a header is none. -/
theorem framevalid_of_prefix (h : HeaderParts b b' ext key v) {p : List UInt8}
    (hp : p <+: b :: b' :: (ext ++ key)) (hne : p ≠ b :: b' :: (ext ++ key)) :
    (websocketFramevalid p p.length).map Prod.fst = some 0 := by
  have hlt : p.length < (b :: b' :: (ext ++ key)).length :=
    lt_of_le_of_ne hp.length_le fun he => hne (hp.eq_of_length he)
  by_cases h2 : p.length < 2
  · rw [websocketFramevalid, if_pos (by omega)]
    rfl
  · obtain ⟨a, ha⟩ := exists_getElem? (l := p) (i := 1) (by omega)
    obtain ⟨x, hx⟩ := hp
    -- its second byte is the one of the header
    obtain rfl : a = b' := by
      have := getElem?_append_some (x := x) ha
      rw [hx] at this
      exact (Option.some.inj this).symm
    rw [websocketFramevalid_eq ha, if_neg (by rw [h.headerSize_eq]; omega)]
    rfl

end HeaderParts

/-! ## The header written -/

/-- The key that a header has. -/
def headerKey (len : ℕ) (mask : Option (List UInt8)) : List UInt8 :=
  if len ≠ 0 then mask.getD [] else []

/-- The second byte of a header of a payload whose length is written as `n`. -/
theorem sizeByte {n : ℕ} (hn : n < 128) (len : ℕ) {mask : Option (List UInt8)}
    (hmask : ∀ key ∈ mask, key.length = 4) :
    (UInt8.ofNat ((if mask.isSome ∧ len ≠ 0 then 128 else 0) + n)).toNat % 128 = n ∧
      (headerKey len mask).length =
        maskLen (UInt8.ofNat ((if mask.isSome ∧ len ≠ 0 then 128 else 0) + n)) := by
  unfold headerKey maskLen
  rw [UInt8.toNat_ofNat']
  cases mask with
  | none =>
    simp only [Option.isSome_none, Option.getD_none, ite_self]
    refine ⟨by simp; omega, ?_⟩
    rw [if_neg (by simp; omega), List.length_nil]
  | some key =>
    have hk := hmask key rfl
    by_cases h0 : len = 0
    · simp only [h0, Option.isSome_some, ne_eq, not_true_eq_false, and_false, if_false]
      refine ⟨by omega, ?_⟩
      rw [if_neg (by omega), List.length_nil]
    · simp only [h0, Option.isSome_some, ne_eq, not_false_eq_true, and_self, if_true,
        Option.getD_some]
      refine ⟨by omega, ?_⟩
      rw [if_pos (by omega), hk]

theorem websocketHeader_parts (opcode : ℕ) {len : ℕ} (hlen : len < 2 ^ 64)
    {mask : Option (List UInt8)} (hmask : ∀ key ∈ mask, key.length = 4) :
    ∃ b b' ext, websocketHeader opcode len mask = b :: b' :: (ext ++ headerKey len mask) ∧
      HeaderParts b b' ext (headerKey len mask) len := by
  unfold websocketHeader
  dsimp only
  by_cases h7 : len < 126
  · obtain ⟨hn, hk⟩ := sizeByte (n := len) (by omega) len hmask
    refine ⟨_, _, [], by rw [if_pos h7]; rfl, ?_, hk, ?_⟩
    · rw [hn, lenBytes, if_pos h7, List.length_nil]
    · rw [hn, if_pos h7]
  by_cases h16 : len ≤ 0xFFFF
  · obtain ⟨hn, hk⟩ := sizeByte (n := 126) (by omega) len hmask
    refine ⟨_, _, bytesBE len 2, by rw [if_neg h7, if_pos h16]; rfl, ?_, hk, ?_⟩
    · rw [hn, length_bytesBE]
      rfl
    · rw [hn, if_neg (by omega)]
      refine (readBE_bytesBE [_, _] 2 len _).trans (congrArg some (Nat.mod_eq_of_lt ?_))
      omega
  · obtain ⟨hn, hk⟩ := sizeByte (n := 127) (by omega) len hmask
    refine ⟨_, _, bytesBE len 8, by rw [if_neg h7, if_neg h16]; rfl, ?_, hk, ?_⟩
    · rw [hn, length_bytesBE]
      rfl
    · rw [hn, if_neg (by omega)]
      refine (readBE_bytesBE [_, _] 8 len _).trans (congrArg some (Nat.mod_eq_of_lt ?_))
      omega

/-- A header that is written is read back, whatever follows it, and not before it is whole. A frame
with no payload has no key, masked or not. -/
theorem websocketFramevalid_websocketHeader (opcode : ℕ) {len : ℕ} (hlen : len < 2 ^ 64)
    {mask : Option (List UInt8)} (hmask : ∀ key ∈ mask, key.length = 4) {h : List UInt8}
    (hh : websocketHeader opcode len mask = h) :
    (∀ t, websocketFramevalid (h ++ t) (h ++ t).length =
      some ((h.length : ℤ), if len = 0 then [0, 0, 0, 0] else mask.getD [0, 0, 0, 0], len)) ∧
      ∀ p, p <+: h → p ≠ h → (websocketFramevalid p p.length).map Prod.fst = some 0 := by
  obtain ⟨b, b', ext, heq, hparts⟩ := websocketHeader_parts opcode hlen hmask
  rw [← hh, heq]
  refine ⟨fun t => ?_, fun p hp hne => hparts.framevalid_of_prefix hp hne⟩
  have hkey : (if headerKey len mask = [] then [0, 0, 0, 0] else headerKey len mask) =
      if len = 0 then [0, 0, 0, 0] else mask.getD [0, 0, 0, 0] := by
    unfold headerKey
    by_cases h0 : len = 0
    · simp [h0]
    · cases mask with
      | none => simp [h0]
      | some key =>
        have hne : key ≠ [] := fun hnil => by simpa [hnil] using hmask key rfl
        simp [h0, hne]
  have hscan := frameScan_incremental _ t _ hparts.frameScan_eq
  rw [(frameScan_bound hscan).2.2, hkey]

/-- A payload of 65536 bytes, masked, has a header of 14 bytes. -/
theorem websocketFramevalid_websocketHeader_long :
    websocketFramevalid ([0x82, 255, 0, 0, 0, 0, 0, 1, 0, 0, 1, 2, 3, 4] ++ [9]) 15 =
      some (14, [1, 2, 3, 4], 65536) :=
  have hlen : 65536 < 2 ^ 64 := by decide
  have hmask : ∀ key ∈ some [(1 : UInt8), 2, 3, 4], key.length = 4 := by simp
  (websocketFramevalid_websocketHeader 2 hlen hmask (by decide)).1 [9]

end Webxs
