import Webxs.Sha1Rounds

/-!
# SHA-1 of data in pieces

`Ctx.After context msg` says what a context is after the data `msg`, in whatever pieces they came :
the state after the whole blocks, the rest of the data at the front of the buffer, and the number of
bits, modulo 2⁶⁴, in the two counts. `SHA1Update` keeps this (`Ctx.After.update`), `SHA1Final` adds
the padding of the standard piece by piece, and so the digest is that of all the data
(`SHA1Final_eq`).
-/

open BlockStream

namespace Webxs

namespace Sha1

/-- A context after the data `msg`. -/
structure Ctx.After (context : Ctx) (msg : List UInt8) : Prop where
  state : context.state = (absorb compress 64 initial msg).1
  buffer : context.buffer.length = 64
  rest : context.buffer.take (msg.length % 64) = (absorb compress 64 initial msg).2
  count0 : context.count0.toNat = 8 * msg.length % 2 ^ 32
  count1 : context.count1.toNat = 8 * msg.length / 2 ^ 32 % 2 ^ 32

theorem after_init {context : Ctx} (h : context.buffer.length = 64) :
    (SHA1Init context).After [] where
  state := by rw [absorb_of_lt (by simp)]; rfl
  buffer := h
  rest := by rw [absorb_of_lt (by simp)]; rfl
  count0 := rfl
  count1 := rfl

/-! ## Updating -/

theorem length_copyTo {dst src : List UInt8} {i : ℕ} (h : i + src.length ≤ dst.length) :
    (copyTo dst i src).length = dst.length := by
  rw [copyTo, List.length_append, List.length_append, List.length_take, List.length_drop]
  omega

theorem take_copyTo {dst : List UInt8} {i : ℕ} (h : i ≤ dst.length) (src : List UInt8) :
    (copyTo dst i src).take (i + src.length) = dst.take i ++ src := by
  have hlen : (dst.take i ++ src).length = i + src.length := by
    rw [List.length_append, List.length_take]
    omega
  rw [copyTo, ← hlen, List.take_left]

/-- The loop over the whole blocks of the data. -/
theorem updateLoop_spec (be : Bool) (data : List UInt8) (state : State) (i : ℕ)
    (hi : i ≤ data.length) :
    (updateLoop be data state i).1 = (absorb compress 64 state (data.drop i)).1 ∧
      data.drop (updateLoop be data state i).2 = (absorb compress 64 state (data.drop i)).2 ∧
      (updateLoop be data state i).2 ≤ data.length := by
  induction state, i using updateLoop.induct be data with
  | case1 state i h ih =>
    rw [updateLoop, if_pos h, absorb_of_le (by omega) (by rw [List.length_drop]; omega),
      List.drop_drop, ← SHA1Transform_eq be]
    exact ih (by omega)
  | case2 state i h =>
    rw [updateLoop, if_neg h, absorb_of_lt (by rw [List.length_drop]; omega)]
    exact ⟨rfl, rfl, hi⟩

/-- The counts after more data. -/
theorem update_counts {c₀ c₁ len : BitVec 32} {n k : ℕ} (h₀ : c₀.toNat = 8 * n % 2 ^ 32)
    (h₁ : c₁.toNat = 8 * n / 2 ^ 32 % 2 ^ 32) (hlen : len.toNat = k) :
    (c₀ + (len <<< 3)).toNat = 8 * (n + k) % 2 ^ 32 ∧
      ((if c₀ + (len <<< 3) < c₀ then c₁ + 1 else c₁) + (len >>> 29)).toNat =
        8 * (n + k) / 2 ^ 32 % 2 ^ 32 := by
  have hk : k < 2 ^ 32 := hlen ▸ len.isLt
  have hsum : (c₀ + (len <<< 3)).toNat = 8 * (n + k) % 2 ^ 32 := by
    rw [BitVec.toNat_add, BitVec.toNat_shiftLeft, h₀, hlen, Nat.shiftLeft_eq]
    omega
  have hshift : (len >>> 29).toNat = 8 * k / 2 ^ 32 := by
    rw [BitVec.toNat_ushiftRight, hlen, Nat.shiftRight_eq_div_pow]
    omega
  refine ⟨hsum, ?_⟩
  rw [BitVec.toNat_add, hshift]
  split_ifs with hlt <;> rw [BitVec.lt_def, hsum, h₀] at hlt
  · rw [BitVec.toNat_add, h₁, show (1 : BitVec 32).toNat = 1 from rfl]
    omega
  · rw [h₁]
    omega

variable {context : Ctx} {msg : List UInt8}

/-- The place behind the rest in the buffer. -/
theorem Ctx.After.offset (h : context.After msg) :
    ((context.count0 >>> 3) &&& 63).toNat = msg.length % 64 := by
  rw [BitVec.toNat_and, BitVec.toNat_ushiftRight, h.count0, Nat.shiftRight_eq_div_pow]
  have := Nat.and_two_pow_sub_one_eq_mod (8 * msg.length % 2 ^ 32 / 2 ^ 3) 6
  refine this.trans ?_
  omega

/-- The rest and the front of the data fill the buffer, and the whole blocks behind it follow. -/
theorem update_full (be : Bool) (state : State) {buffer data : List UInt8} {r : ℕ}
    (hbuf : buffer.length = 64) (hr : r < 64) (hfull : 64 ≤ r + data.length) :
    ∃ block res, copyTo buffer r (data.take (64 - r)) = block ∧
      updateLoop be data (SHA1Transform be state block) (64 - r) = res ∧ block.length = 64 ∧
      absorb compress 64 state (buffer.take r ++ data) = (res.1, data.drop res.2) := by
  have htake : r + (data.take (64 - r)).length = 64 := by
    rw [List.length_take]
    omega
  generalize hblock : copyTo buffer r (data.take (64 - r)) = block
  have hblen : block.length = 64 := by
    rw [← hblock, length_copyTo (by omega), hbuf]
  have heq : block = buffer.take r ++ data.take (64 - r) := by
    rw [← take_copyTo (by omega) (data.take (64 - r)), htake, hblock, ← hblen, List.take_length]
  obtain ⟨hstate, hrest, -⟩ := updateLoop_spec be data (SHA1Transform be state block) (64 - r)
    (by omega)
  refine ⟨block, _, rfl, rfl, hblen, ?_⟩
  have hsplit : buffer.take r ++ data = block ++ data.drop (64 - r) := by
    rw [heq, List.append_assoc, List.take_append_drop]
  rw [hsplit, absorb_block (by omega) hblen, ← SHA1Transform_eq be, hstate, hrest]

theorem Ctx.After.update (h : context.After msg) (be : Bool) (data : List UInt8)
    (hlen : data.length + 64 ≤ 2 ^ 32) :
    (SHA1Update be context data).After (msg ++ data) := by
  have hdata : (BitVec.ofNat 32 data.length).toNat = data.length := by
    rw [BitVec.toNat_ofNat, Nat.mod_eq_of_lt (by omega)]
  obtain ⟨hc₀, hc₁⟩ := update_counts h.count0 h.count1 hdata
  have hj := h.offset
  have hwhole : (63 : BitVec 32) < ((context.count0 >>> 3) &&& 63) + BitVec.ofNat 32 data.length ↔
      64 ≤ msg.length % 64 + data.length := by
    rw [BitVec.lt_def, BitVec.toNat_add, hj, hdata, show (63 : BitVec 32).toNat = 63 from rfl,
      Nat.mod_eq_of_lt (by omega)]
    omega
  have happend := absorb_append compress 64 initial msg data
  rw [← h.state, ← h.rest] at happend
  have hrestlen : (context.buffer.take (msg.length % 64)).length = msg.length % 64 := by
    rw [List.length_take, h.buffer]
    omega
  have hmod : (msg ++ data).length % 64 = (absorb compress 64 initial (msg ++ data)).2.length :=
    (length_absorb_mod compress (by omega) initial (msg ++ data)).symm
  rw [SHA1Update]
  dsimp only
  by_cases hfull : (63 : BitVec 32) <
      ((context.count0 >>> 3) &&& 63) + BitVec.ofNat 32 data.length
  · rw [if_pos hfull, hj]
    obtain ⟨block, res, hblock, hres, hblen, habsorb⟩ := update_full be context.state h.buffer
      (Nat.mod_lt _ (by omega)) (hwhole.mp hfull)
    rw [← happend] at habsorb
    rw [hblock, hres]
    have hshort : (data.drop res.2).length < 64 := by
      have := length_absorb_lt compress (by omega : 0 < 64) initial (msg ++ data)
      rwa [habsorb] at this
    exact {
      state := by rw [habsorb]
      buffer := (length_copyTo (by rw [hblen]; omega)).trans hblen
      rest := by
        rw [hmod, habsorb]
        have := take_copyTo (Nat.zero_le block.length) (data.drop res.2)
        rwa [Nat.zero_add, List.take_zero, List.nil_append] at this
      count0 := by rw [List.length_append]; exact hc₀
      count1 := by rw [List.length_append]; exact hc₁ }
  · rw [if_neg hfull, hj]
    rw [hwhole] at hfull
    have hleft : absorb compress 64 initial (msg ++ data) =
        (context.state, context.buffer.take (msg.length % 64) ++ data) := by
      rw [happend, absorb_of_lt (by rw [List.length_append]; omega)]
    exact {
      state := by rw [hleft]
      buffer := (length_copyTo (by rw [h.buffer]; omega)).trans h.buffer
      rest := by
        rw [hmod, hleft, List.length_append, hrestlen]
        exact take_copyTo (by rw [h.buffer]; omega) data
      count0 := by rw [List.length_append]; exact hc₀
      count1 := by rw [List.length_append]; exact hc₁ }

/-! ## Finishing -/

theorem Ctx.After.foldl (h : context.After msg) (be : Bool) :
    ∀ pieces : List (List UInt8), (∀ data ∈ pieces, data.length + 64 ≤ 2 ^ 32) →
      (pieces.foldl (SHA1Update be) context).After (msg ++ pieces.flatten) := by
  intro pieces
  induction pieces generalizing context msg with
  | nil =>
    intro _
    rwa [List.flatten_nil, List.append_nil]
  | cons data pieces ih =>
    intro hlen
    rw [List.foldl_cons, List.flatten_cons, ← List.append_assoc]
    exact ih (h.update be data (hlen data (.head pieces))) fun d hd => hlen d (.tail data hd)

/-- The loop ends where eight bytes are missing in a block. -/
theorem Ctx.After.isFull_iff (h : context.After msg) :
    context.count0 &&& 504 = 448 ↔ msg.length % 64 = 56 := by
  have hand : (context.count0 &&& 504).toNat = 8 * (msg.length % 64) := by
    have hcount : 8 * msg.length % 2 ^ 32 = (msg.length % 2 ^ 29) <<< 3 := by
      rw [Nat.shiftLeft_eq]
      omega
    have hmask : (504 : BitVec 32).toNat = (2 ^ 6 - 1) <<< 3 := rfl
    rw [BitVec.toNat_and, hmask, h.count0, hcount, ← Nat.shiftLeft_and_distrib,
      Nat.and_two_pow_sub_one_eq_mod, Nat.shiftLeft_eq]
    omega
  rw [BitVec.toNat_eq, hand, show (448 : BitVec 32).toNat = 448 from rfl]
  omega

theorem Ctx.After.padLoop (h : context.After msg) (be : Bool) (turns : ℕ)
    (hturns : (120 - msg.length % 64) % 64 < turns) :
    ∃ context', padLoop be turns context = some context' ∧
      context'.After (msg ++ List.replicate ((120 - msg.length % 64) % 64) 0) := by
  induction turns generalizing context msg with
  | zero => omega
  | succ turns ih =>
    rw [Sha1.padLoop]
    by_cases hfull : msg.length % 64 = 56
    · rw [if_neg (not_not.mpr (h.isFull_iff.mpr hfull)), hfull]
      exact ⟨context, rfl, by rwa [List.replicate_zero, List.append_nil]⟩
    · rw [if_pos (mt h.isFull_iff.mp hfull)]
      have hlen : (msg ++ [0]).length = msg.length + 1 := List.length_append
      have hone := h.update be [0] (by rw [List.length_singleton]; omega)
      obtain ⟨context', hrun, hafter⟩ := ih hone (by rw [hlen]; omega)
      refine ⟨context', hrun, ?_⟩
      have hrep : (120 - msg.length % 64) % 64 = (120 - (msg ++ [0]).length % 64) % 64 + 1 := by
        rw [hlen]
        omega
      rwa [List.append_assoc, List.singleton_append, ← List.replicate_succ, ← hrep] at hafter

/-- The bytes of a number of words. -/
theorem map_byteOf (word : ℕ → BitVec 32) (n : ℕ) :
    (List.range (4 * n)).map (byteOf word) = (List.range n).flatMap fun i => beBytes (word i) := by
  induction n with
  | zero => rfl
  | succ n ih =>
    have hrange : List.range (4 * (n + 1)) =
        List.range (4 * n) ++ [4 * n, 4 * n + 1, 4 * n + 2, 4 * n + 3] := by
      rw [Nat.mul_succ, List.range_add]
      rfl
    have hbyte : ∀ k < 4, byteOf word (4 * n + k) =
        ⟨(word n).extractLsb' ((3 - k) * 8) 8⟩ := by
      intro k hk
      have hdiv : (4 * n + k) >>> 2 = n := by
        rw [Nat.shiftRight_eq_div_pow]
        omega
      have hmod : (4 * n + k) &&& 3 = k := by
        have := Nat.and_two_pow_sub_one_eq_mod (4 * n + k) 2
        refine this.trans ?_
        omega
      rw [byteOf, hdiv, hmod]
      congr 1
      have hmask : ∀ i < 8, (255 : BitVec 32).getLsbD i = true := by decide
      ext i hi
      rw [BitVec.getElem_setWidth, BitVec.getLsbD_and, BitVec.getLsbD_ushiftRight,
        BitVec.getElem_extractLsb', hmask i hi, Bool.and_true]
    rw [hrange, List.map_append, ih, List.range_succ, List.flatMap_append]
    congr 1
    simp only [List.map_cons, List.map_nil, List.flatMap_cons, List.flatMap_nil, List.append_nil,
      hbyte 1 (by omega), hbyte 2 (by omega), hbyte 3 (by omega)]
    rw [show byteOf word (4 * n) = _ from hbyte 0 (by omega)]
    rfl

theorem toList_state (state : State) :
    state.toList = (List.range 5).map fun i => state.get (Fin.ofNat 5 i) := by
  refine List.ext_getElem (by simp) fun i hi _ => ?_
  have hlt : i < 5 := by simpa using hi
  rw [List.getElem_map, List.getElem_range, get_eq_getElem, Vector.getElem_toList]
  simp only [Fin.val_ofNat, Nat.mod_eq_of_lt hlt]

/-- `SHA1Final` pads what has come. -/
theorem Ctx.After.final {ctx : Ctx} (hmsg : ctx.After msg) (be : Bool) :
    SHA1Final be ctx = some (sha1 msg) := by
  have hmark := hmsg.update be [0o200] (by rw [List.length_singleton]; omega)
  have hmarklen : (msg ++ [0o200]).length = msg.length + 1 := List.length_append
  obtain ⟨padded, hrun, hpadded⟩ := hmark.padLoop be 64 (Nat.mod_lt _ (by omega))
  have hcounts : (List.range 8).map (byteOf fun i => if i = 1 then ctx.count0 else ctx.count1) =
      beBytes ctx.count1 ++ beBytes ctx.count0 := map_byteOf _ 2
  have hfinal := hpadded.update be (beBytes ctx.count1 ++ beBytes ctx.count0)
    (by show 8 + 64 ≤ 2 ^ 32; omega)
  have hwords : beBytes ctx.count1 ++ beBytes ctx.count0 =
      beBytes (BitVec.ofNat 32 (8 * msg.length / 2 ^ 32)) ++
        beBytes (BitVec.ofNat 32 (8 * msg.length)) := by
    have h₁ : ctx.count1 = BitVec.ofNat 32 (8 * msg.length / 2 ^ 32) :=
      BitVec.eq_of_toNat_eq (by rw [hmsg.count1, BitVec.toNat_ofNat])
    have h₀ : ctx.count0 = BitVec.ofNat 32 (8 * msg.length) :=
      BitVec.eq_of_toNat_eq (by rw [hmsg.count0, BitVec.toNat_ofNat])
    rw [h₁, h₀]
  have hzeros : (120 - (msg ++ [0o200]).length % 64) % 64 = (119 - msg.length % 64) % 64 := by
    rw [hmarklen]
    omega
  have hpad : (msg ++ [0o200] ++ List.replicate ((120 - (msg ++ [0o200]).length % 64) % 64) 0) ++
      (beBytes ctx.count1 ++ beBytes ctx.count0) = msg ++ padding msg.length := by
    rw [hzeros, hwords, padding, List.append_assoc, List.append_assoc]
    rfl
  rw [hpad] at hfinal
  have hstate : (SHA1Update be padded (beBytes ctx.count1 ++ beBytes ctx.count0)).state =
      hash msg := hfinal.state
  rw [SHA1Final, hcounts]
  simp only [hrun, Option.bind_eq_bind, Option.bind_some, hstate]
  rw [show 20 = 4 * 5 from rfl, map_byteOf, sha1, toList_state, List.flatMap_map]

/-- The digest of data in pieces is the digest of the data. Only a piece of nearly 2³² bytes is too
long. -/
theorem SHA1Final_eq (be : Bool) (context : Ctx) (hbuf : context.buffer.length = 64)
    (pieces : List (List UInt8)) (hlen : ∀ data ∈ pieces, data.length + 64 ≤ 2 ^ 32) :
    SHA1Final be (pieces.foldl (SHA1Update be) (SHA1Init context)) =
      some (sha1 pieces.flatten) := by
  have hmsg := (after_init hbuf).foldl be pieces hlen
  rw [List.nil_append] at hmsg
  exact hmsg.final be

/-- A context as it may be found. -/
def anyContext : Ctx where
  state := Vector.replicate 5 0
  count0 := 0
  count1 := 0
  buffer := List.replicate 64 0

/-- "a" and "bc". -/
theorem SHA1Final_eq_abc :
    SHA1Final false ([[97], [98, 99]].foldl (SHA1Update false) (SHA1Init anyContext)) =
      some (sha1 [[97], [98, 99]].flatten) :=
  SHA1Final_eq false anyContext List.length_replicate [[97], [98, 99]] (by simp)

end Sha1

end Webxs
