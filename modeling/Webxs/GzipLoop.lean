import Webxs.Crc32
import Webxs.CompressDrain

/-!
# The loop of xs_compress_out for gzip

The loop copies what is staged and calls the codec, one after the other. It keeps account of what it
delivers : `Copying` says for both directions what the CRC and the counters are and that nothing the
codec makes is lost, left out or delivered twice. It ends (`Copying.loop`).

The codecs have history variables (`Codec.History`), by which the format can be stated.
-/

namespace Webxs

open Compress

variable {κ : Type*}

/-- The codec of a direction. -/
def Zlib.codec (Z : Zlib κ) (isCompress fin : Bool) : κ → List UInt8 → Codec.Turn κ UInt8 :=
  if isCompress = true then Z.deflate fin else Z.inflate fin

/-- zlib with history variables, and `xs_crc32`. -/
structure Zlib.Traced (Z : Zlib κ) (isBigEndian : Bool) (taken made : κ → List UInt8)
    (failed : κ → Bool) : Prop where
  bounded : ∀ isCompress fin, Codec.Bounded (Z.codec isCompress fin) XS_CHUNK_SIZE
  history : ∀ isCompress fin, Codec.History (Z.codec isCompress fin) taken made failed
  crc32_eq : ∀ crc data,
    (Z.crc32 crc data).toBitVec = Crc32.xsCrc32 isBigEndian crc.toBitVec data

/-! ## The format -/

/-- The CRC-32 of some data. -/
def crc32Of (data : List UInt8) : BitVec 32 :=
  ~~~CrcRegister.feed Crc32.poly (~~~0#32) (Crc32.bitsOf data)

/-- The trailer of a gzip stream of some data. -/
def gzTrailer (data : List UInt8) : List UInt8 :=
  le32 (crc32Of data).toNat ++ le32 data.length

/-- The gzip stream of some data for which `deflate` made `body`. -/
def gzStream (body data : List UInt8) : List UInt8 :=
  gzHdr ++ body ++ gzTrailer data

theorem length_gzTrailer (data : List UInt8) : (gzTrailer data).length = 8 := rfl

theorem crc32Of_nil : crc32Of [] = 0#32 := by
  decide

/-- `xs_crc32` goes on. -/
theorem Zlib.Traced.crc32 {Z : Zlib κ} {isBigEndian : Bool} {taken made : κ → List UInt8}
    {failed : κ → Bool} (hZ : Z.Traced isBigEndian taken made failed) {crc : UInt32}
    {data : List UInt8} (hcrc : crc.toBitVec = crc32Of data) (buf : List UInt8) :
    (Z.crc32 crc buf).toBitVec = crc32Of (data ++ buf) := by
  rw [hZ.crc32_eq, hcrc, Crc32.xsCrc32_eq_feed, crc32Of, crc32Of, BitVec.not_not,
    ← CrcRegister.feed_append, Crc32.bitsOf, Crc32.bitsOf, Crc32.bitsOf, List.flatMap_append]

/-! ## Rounds -/

namespace OutState

variable {Z : Zlib κ} {isBigEndian isCompress : Bool} {taken made : κ → List UInt8}
  {failed : κ → Bool} {handed written : List UInt8} {isLast : ℕ} {s : OutState κ}

/-- In the loop of a call, before which `written` was delivered and `handed` was handed over. -/
structure Copying (isCompress : Bool) (taken made : κ → List UInt8) (failed : κ → Bool)
    (handed written : List UInt8) (isLast : ℕ) (s : OutState κ) : Prop where
  gzip : s.xc.isGzip = true
  mode : s.xc.isCompress = isCompress
  chunk : s.xc.out.length = XS_CHUNK_SIZE
  bounds : s.xc.outoffset + s.xc.outavail ≤ XS_CHUNK_SIZE
  avail : s.xc.availIn ≤ s.xc.nextIn.length
  last : s.xc.isLast = isLast
  before : isLast < 2
  error : s.xc.errnum = 0 ↔ failed s.xc.z = false
  crc : s.xc.crc.toBitVec = crc32Of (if isCompress = true then handed else written ++ s.written)
  wtotal : s.xc.wtotal = (written ++ s.written).length
  taken : taken s.xc.z ++ s.xc.input = handed
  rtotal : isCompress = true → s.xc.rtotal = handed.length
  header : isCompress = true → gzHdr.length ≤ s.xc.wtotal
  body : written ++ s.written ++ s.xc.pending =
    (if isCompress = true then gzHdr else []) ++ made s.xc.z

namespace Copying

theorem length_pending (h : s.Copying isCompress taken made failed handed written isLast) :
    s.xc.pending.length = s.xc.outavail := by
  have hchunk := h.chunk
  have hbounds := h.bounds
  rw [pending, List.length_take, List.length_drop]
  omega

/-- What is staged is copied, as far as there is room. -/
theorem staged_eq (h : s.Copying isCompress taken made failed handed written isLast) (Z : Zlib κ) :
    s.staged Z = some
      { s with
        xc := { s.xc with
          crc := if isCompress = true then s.xc.crc
            else Z.crc32 s.xc.crc (s.xc.pending.take s.len)
          outavail := s.xc.outavail - s.len
          wtotal := s.xc.wtotal + min s.len s.xc.outavail }
        written := s.written ++ s.xc.pending.take s.len
        len := s.len - s.xc.outavail } := by
  obtain ⟨outlen, houtlen⟩ : ∃ n, (if s.xc.outavail ≥ s.len then s.len else s.xc.outavail) = n :=
    ⟨_, rfl⟩
  have hmin : outlen = min s.len s.xc.outavail := by
    rw [← houtlen]
    split_ifs <;> omega
  have hchunk := h.chunk
  have hbounds := h.bounds
  have hread : readBytes s.xc.out s.xc.outoffset outlen = some (s.xc.pending.take s.len) := by
    rw [readBytes, if_pos (by omega), pending, List.take_take, hmin]
  have hcrc : (if s.xc.isGzip = true ∧ s.xc.isCompress = false
      then Z.crc32 s.xc.crc (s.xc.pending.take s.len) else s.xc.crc) =
      if isCompress = true then s.xc.crc else Z.crc32 s.xc.crc (s.xc.pending.take s.len) := by
    rw [h.gzip, h.mode]
    rcases isCompress with _ | _ <;> rfl
  unfold staged
  dsimp only
  rw [houtlen, hread, Option.map_some, hcrc, hmin,
    show s.len - min s.len s.xc.outavail = s.len - s.xc.outavail by omega,
    show s.xc.outavail - min s.len s.xc.outavail = s.xc.outavail - s.len by omega]

/-- A copy moves the beginning of what is staged. -/
theorem copy (hZ : Z.Traced isBigEndian taken made failed)
    (h : s.Copying isCompress taken made failed handed written isLast) (off : ℕ)
    (hb : off + (s.xc.outavail - s.len) ≤ XS_CHUNK_SIZE)
    (hpending : (s.xc.out.drop off).take (s.xc.outavail - s.len) = s.xc.pending.drop s.len)
    (len : ℕ) :
    Copying isCompress taken made failed handed written isLast
      { s with
        xc := { s.xc with
          crc := if isCompress = true then s.xc.crc
            else Z.crc32 s.xc.crc (s.xc.pending.take s.len)
          outoffset := off
          outavail := s.xc.outavail - s.len
          wtotal := s.xc.wtotal + min s.len s.xc.outavail }
        written := s.written ++ s.xc.pending.take s.len
        len := len } := by
  have hpart : (s.xc.pending.take s.len).length = min s.len s.xc.outavail := by
    rw [List.length_take, h.length_pending]
  have hcrc := h.crc
  refine ⟨h.gzip, h.mode, h.chunk, hb, h.avail, h.last, h.before, h.error, ?_, ?_, h.taken,
    h.rtotal, fun hc => (h.header hc).trans (Nat.le_add_right _ _), ?_⟩
  · rcases isCompress with _ | _
    · exact (hZ.crc32 hcrc _).trans (congrArg crc32Of (List.append_assoc _ _ _))
    · exact hcrc
  · rw [← List.append_assoc, List.length_append, hpart, ← h.wtotal]
  · have hwhole : s.xc.pending.take s.len ++ (s.xc.out.drop off).take (s.xc.outavail - s.len) =
        s.xc.pending := by
      rw [hpending, List.take_append_drop]
    rw [← List.append_assoc, List.append_assoc]
    exact (congrArg (written ++ s.written ++ ·) hwhole).trans h.body

/-- After a copy either the room is used up, or nothing is staged. -/
theorem copied (hZ : Z.Traced isBigEndian taken made failed)
    (h : s.Copying isCompress taken made failed handed written isLast) (havail : s.xc.outavail ≠ 0)
    (hlen : 0 < s.len) :
    ∃ t, s.staged Z = some t ∧
      (t.len = 0 → (t.full s.len).Copying isCompress taken made failed handed written isLast ∧
        (t.full s.len).written ≠ []) ∧
      (t.len ≠ 0 → t.Copying isCompress taken made failed handed written isLast ∧
        t.xc.outavail = 0 ∧ t.measure < s.measure) := by
  have hbounds := h.bounds
  have hlength := h.length_pending
  have hne : s.written ++ s.xc.pending.take s.len ≠ [] := by
    rw [Ne, List.append_eq_nil_iff, ← List.length_eq_zero_iff (l := List.take _ _),
      List.length_take, hlength]
    omega
  have hnone : s.xc.outavail ≤ s.len → (s.xc.out.drop s.xc.outoffset).take
      (s.xc.outavail - s.len) = s.xc.pending.drop s.len := fun hle => by
    rw [List.drop_eq_nil_of_le (by omega : s.xc.pending.length ≤ s.len), Nat.sub_eq_zero_of_le hle,
      List.take_zero]
  refine ⟨_, h.staged_eq Z, fun h0 => ?_, fun h0 => ?_⟩
  · dsimp only at h0
    by_cases hkept : s.xc.outavail - s.len ≠ 0
    · rw [full, if_pos hkept]
      exact ⟨h.copy hZ (s.xc.outoffset + s.len) (by omega)
        (by rw [pending, List.drop_take, List.drop_drop]) _, hne⟩
    · rw [full, if_neg hkept]
      exact ⟨h.copy hZ _ (by omega) (hnone (by omega)) _, hne⟩
  · dsimp only at h0
    refine ⟨h.copy hZ _ (by omega) (hnone (by omega)) _, by dsimp only; omega, ?_⟩
    unfold measure
    dsimp only
    rw [if_pos (by omega), if_neg havail]
    omega

/-- The codec is called. -/
theorem codec (hZ : Z.Traced isBigEndian taken made failed)
    (h : s.Copying isCompress taken made failed handed written isLast) (havail : s.xc.outavail = 0)
    (hin : s.xc.availIn ≠ 0) (hret : s.ret = 0) :
    (s.codec Z).Copying isCompress taken made failed handed written isLast ∧
      (s.codec Z).len = s.len ∧ (s.codec Z).measure < s.measure := by
  obtain ⟨turn, hturn⟩ :
      ∃ turn, Z.codec isCompress (s.xc.isLast ≠ 0) s.xc.z s.xc.input = turn := ⟨_, rfl⟩
  have hcodec : s.codec Z = { s with
      xc := { s.xc with
        outoffset := 0
        z := turn.state
        nextIn := s.xc.nextIn.drop turn.consumed
        availIn := s.xc.availIn - turn.consumed
        out := turn.produced ++ s.xc.out.drop turn.produced.length
        outavail := turn.produced.length
        errnum := if turn.ret < 0 then turn.ret else s.xc.errnum }
      ret := if turn.produced.length = XS_CHUNK_SIZE then 1000 else turn.ret } := by
    have hif : (if s.xc.isCompress = true then Z.deflate (s.xc.isLast ≠ 0) s.xc.z s.xc.input
        else Z.inflate (s.xc.isLast ≠ 0) s.xc.z s.xc.input) = turn := by
      rw [← hturn, h.mode, Zlib.codec]
      rcases isCompress with _ | _ <;> rfl
    unfold OutState.codec
    dsimp only
    rw [hif]
  have hbounded := hZ.bounded isCompress (s.xc.isLast ≠ 0)
  have hhistory := hZ.history isCompress (s.xc.isLast ≠ 0)
  have hinput : s.xc.input.length = s.xc.availIn := by
    rw [Compress.input, List.length_take, Nat.min_eq_left h.avail]
  have hne : s.xc.input ≠ [] := by
    rw [← List.length_pos_iff]
    omega
  have hconsumed := hbounded.consumed_le s.xc.z s.xc.input
  have hproduced := hbounded.produced_le s.xc.z s.xc.input
  have hprogress := hbounded.progress s.xc.z s.xc.input hne
  have htaken := hhistory.taken_eq s.xc.z s.xc.input
  have hmade := hhistory.made_eq s.xc.z s.xc.input
  have hfailed := hhistory.failed_eq s.xc.z s.xc.input
  rw [hturn] at hconsumed hproduced hprogress htaken hmade hfailed
  have hchunk := h.chunk
  have havailIn := h.avail
  have hbody := h.body
  rw [pending_of_outavail havail, List.append_nil] at hbody
  rw [hcodec]
  refine ⟨⟨h.gzip, h.mode, ?_, ?_, ?_, h.last, h.before, ?_, h.crc, h.wtotal, ?_, h.rtotal,
    h.header, ?_⟩, rfl, ?_⟩
  · rw [List.length_append, List.length_drop]
    omega
  · dsimp only
    omega
  · rw [List.length_drop]
    dsimp only
    omega
  · rw [hfailed, Bool.or_eq_false_iff, ← h.error, decide_eq_false_iff_not]
    dsimp only
    split_ifs with hneg <;> omega
  · rw [htaken, ← h.taken, List.append_assoc]
    congr 1
    exact (congrArg (s.xc.input.take turn.consumed ++ ·) List.drop_take.symm).trans
      (List.take_append_drop _ _)
  · rw [hmade, pending, List.drop_zero, List.take_left, hbody, List.append_assoc]
  · unfold measure
    dsimp only
    rw [hret, havail, if_pos rfl, if_pos rfl]
    by_cases hzero : (if turn.produced.length = XS_CHUNK_SIZE then 1000 else turn.ret) = 0
    · have hret0 : turn.ret = 0 := by
        split_ifs at hzero
        · exact absurd hzero (by decide)
        · exact hzero
      rw [if_pos hzero]
      rcases hprogress hret0 with hpos | hprod
      · split_ifs <;> omega
      · rw [if_neg (List.length_pos_iff.mpr hprod).ne']
        omega
    · rw [if_neg hzero]
      split_ifs <;> omega

/-- The codec is called, or the loop ends. -/
theorem next (hZ : Z.Traced isBigEndian taken made failed)
    (h : s.Copying isCompress taken made failed handed written isLast) (havail : s.xc.outavail = 0)
    (hlen : 0 < s.len) :
    (s.next Z).1.Copying isCompress taken made failed handed written isLast ∧
      ((s.next Z).2 = true → 0 < (s.next Z).1.len ∧ (s.next Z).1.measure < s.measure) ∧
      ((s.next Z).2 = false → (s.next Z).1.xc.outavail = 0) := by
  unfold OutState.next
  split_ifs with hstop
  · exact ⟨h, fun hgo => absurd hgo (by decide), fun _ => havail⟩
  · obtain ⟨hret, hin⟩ := not_or.mp hstop
    obtain ⟨hcodec, hl, hmeasure⟩ := h.codec hZ havail hin (not_not.mp hret)
    exact ⟨hcodec, fun _ => ⟨by rw [hl]; exact hlen, hmeasure⟩, fun hgo => absurd hgo (by decide)⟩

/-- A round goes through. -/
theorem round (hZ : Z.Traced isBigEndian taken made failed)
    (h : s.Copying isCompress taken made failed handed written isLast) (hlen : 0 < s.len) :
    ∃ t go, s.round Z = some (t, go) ∧
      t.Copying isCompress taken made failed handed written isLast ∧
      (go = true → 0 < t.len ∧ t.measure < s.measure) ∧
      (go = false → t.written = [] → t.xc.outavail = 0) := by
  unfold OutState.round
  by_cases havail : s.xc.outavail = 0
  · obtain ⟨hnext, hgo, hstop⟩ := h.next hZ havail hlen
    rw [if_neg (not_not.mpr havail)]
    exact ⟨_, _, rfl, hnext, hgo, fun hg _ => hstop hg⟩
  obtain ⟨t, hstaged, hfull, hroom⟩ := h.copied hZ havail hlen
  rw [if_pos havail, hstaged, Option.map_some]
  by_cases h0 : t.len = 0
  · obtain ⟨hinv, hne⟩ := hfull h0
    rw [if_pos h0]
    exact ⟨_, _, rfl, hinv, fun hgo => absurd hgo (by decide), fun _ hnil => absurd hnil hne⟩
  · obtain ⟨hinv, hnone, hmeasure⟩ := hroom h0
    obtain ⟨hnext, hgo, hstop⟩ := hinv.next hZ hnone (Nat.pos_of_ne_zero h0)
    rw [if_neg h0]
    exact ⟨_, _, rfl, hnext, fun hg => ⟨(hgo hg).1, (hgo hg).2.trans hmeasure⟩,
      fun hg _ => hstop hg⟩

/-- The loop ends. -/
theorem loop (hZ : Z.Traced isBigEndian taken made failed) {fuel : ℕ}
    (h : s.Copying isCompress taken made failed handed written isLast) (hlen : 0 < s.len)
    (hfuel : s.measure < fuel) :
    ∃ t, s.loop Z fuel = some t ∧ t.Copying isCompress taken made failed handed written isLast ∧
      (t.written = [] → t.xc.outavail = 0) := by
  induction fuel generalizing s with
  | zero => omega
  | succ fuel ih =>
    obtain ⟨t, go, hround, ht, hgo, hstop⟩ := h.round hZ hlen
    unfold OutState.loop
    rw [hround, Option.bind_some]
    rcases go with _ | _
    · exact ⟨t, rfl, ht, hstop rfl⟩
    · obtain ⟨hlen', hmeasure⟩ := hgo rfl
      exact ih ht hlen' (by omega)

end Copying

end OutState

/-! ## Stored blocks -/

/-- The stream of `deflate` at level 0, of less than 2^16 bytes. -/
def storedBlock (x : List UInt8) : List UInt8 :=
  let n := x.length
  [0x01, UInt8.ofNat n, UInt8.ofNat (n / 2 ^ 8), ~~~UInt8.ofNat n, ~~~UInt8.ofNat (n / 2 ^ 8)] ++ x

/-- `deflate` at level 0, for input that comes in one piece. -/
def storedDeflate (fin : Bool) (x : List UInt8) : ℕ × List UInt8 × ℤ :=
  if fin then (x.length, (storedBlock x).take XS_CHUNK_SIZE, 1) else (x.length, [], 0)

/-- `inflate`, for one such block. -/
def storedInflate : List UInt8 → ℕ × List UInt8 × ℤ
  | _ :: lo :: hi :: _ :: _ :: x =>
    let n := lo.toNat + 2 ^ 8 * hi.toNat
    if n ≤ x.length ∧ n ≤ XS_CHUNK_SIZE then (n + 5, x.take n, 1) else (0, [], -5)
  | _ => (0, [], -5)

/-- zlib for data that fit one block. -/
def storedZlib : Zlib (Codec.Trace UInt8) where
  deflate fin := Codec.traced (storedDeflate fin)
  inflate _ := Codec.traced storedInflate
  crc32 crc data := ⟨Crc32.xsCrc32 false crc.toBitVec data⟩

theorem storedDeflate_bounded (fin : Bool) :
    Codec.Bounded (Codec.traced (storedDeflate fin)) XS_CHUNK_SIZE where
  consumed_le k x := by
    rcases fin with _ | _ <;> exact le_rfl
  produced_le k x := by
    rcases fin with _ | _
    · exact Nat.zero_le _
    · exact List.length_take_le _ _
  progress k x hx _ := by
    rcases fin with _ | _ <;> exact Or.inl (List.length_pos_iff.mpr hx)

theorem storedInflate_bounded : Codec.Bounded (Codec.traced storedInflate) XS_CHUNK_SIZE := by
  have hcall : ∀ x, (storedInflate x).1 ≤ x.length ∧ (storedInflate x).2.1.length ≤ XS_CHUNK_SIZE ∧
      (storedInflate x).2.2 ≠ 0 := by
    intro x
    unfold storedInflate
    split
    · dsimp only
      split_ifs with hroom
      · refine ⟨?_, (List.length_take_le _ _).trans hroom.2, (by decide : (1 : ℤ) ≠ 0)⟩
        simp only [List.length_cons]
        omega
      · exact ⟨Nat.zero_le _, Nat.zero_le _, by decide⟩
    · exact ⟨Nat.zero_le _, Nat.zero_le _, by decide⟩
  exact ⟨fun _ x => (hcall x).1, fun _ x => (hcall x).2.1,
    fun _ x _ hret => absurd hret (hcall x).2.2⟩

theorem storedZlib_traced :
    storedZlib.Traced false Codec.Trace.taken Codec.Trace.made Codec.Trace.failed where
  bounded isCompress fin := by
    rcases isCompress with _ | _
    · exact storedInflate_bounded
    · exact storedDeflate_bounded fin
  history isCompress fin := by
    rcases isCompress with _ | _ <;> exact Codec.traced_history _
  crc32_eq _ _ := rfl

end Webxs
