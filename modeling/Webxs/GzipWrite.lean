import Webxs.GzipLoop

/-!
# The gzip stream that is written

The calls of `xs_compress_in` and `xs_compress_out` for a gzip compressor, in any order that takes
no input before the last one is used up : what is delivered is at all times a beginning of the
stream that consists of the header, the output of `deflate`, and the CRC-32 and the length of the
input (`GzipWrites.written_stream`). The header and the trailer are delivered in pieces too.
-/

namespace Webxs

open Compress

variable {κ : Type*} {Z : Zlib κ} {isBigEndian : Bool} {taken made : κ → List UInt8}
  {failed : κ → Bool}

/-- A gzip compressor that was handed `data` and delivered `written`. -/
structure Compress.Writing (taken made : κ → List UInt8) (failed : κ → Bool) (xc : Compress κ)
    (data written : List UInt8) : Prop where
  gzip : xc.isGzip = true
  mode : xc.isCompress = true
  chunk : xc.out.length = XS_CHUNK_SIZE
  bounds : xc.outoffset + xc.outavail ≤ XS_CHUNK_SIZE
  avail : xc.availIn ≤ xc.nextIn.length
  last : xc.isLast ≤ 2
  error : xc.errnum = 0 ↔ failed xc.z = false
  crc : xc.crc.toBitVec = crc32Of data
  rtotal : xc.rtotal = data.length
  wtotal : xc.wtotal = written.length
  taken : taken xc.z ++ xc.input = data
  body : xc.isLast < 2 →
    written ++ (gzHdr.drop xc.wtotal ++ xc.pending) = gzHdr ++ made xc.z
  /-- In the footer mode `xc->outoffset` counts the bytes of the trailer. -/
  footer : xc.isLast = 2 → xc.outavail = 0 ∧ gzHdr.length ≤ xc.wtotal ∧
    written ++ (gzTrailer data).drop xc.outoffset = gzStream (made xc.z) data

namespace Compress.Writing

variable {xc : Compress κ} {data written : List UInt8}

theorem create {z : κ} (htaken : taken z = []) (hmade : made z = []) (hfailed : failed z = false) :
    (compressCreate .compressGzip z).Writing taken made failed [] [] where
  gzip := rfl
  mode := rfl
  chunk := List.length_replicate
  bounds := Nat.zero_le _
  avail := Nat.zero_le _
  last := Nat.zero_le _
  error := iff_of_true rfl hfailed
  crc := crc32Of_nil.symm
  rtotal := rfl
  wtotal := rfl
  taken := (List.append_nil _).trans htaken
  body _ := (congrArg (gzHdr ++ ·) hmade).symm
  footer h := absurd (show 0 = 2 from h) (by decide)

/-- Input is handed on once the one before is used up. -/
theorem input (hZ : Z.Traced isBigEndian taken made failed)
    (h : xc.Writing taken made failed data written) (hused : xc.availIn = 0)
    (hlast : xc.isLast = 0) {buf : List UInt8} (hbuf : buf.length < 2 ^ 32) (isLastInput : Bool) :
    ∃ xc', compressIn Z xc buf isLastInput = some (0, xc') ∧
      xc'.Writing taken made failed (data ++ buf) written := by
  have hin : compressIn Z xc buf isLastInput =
      some (0, { xc with crc := Z.crc32 xc.crc buf }.hand buf isLastInput) := by
    unfold compressIn
    exact if_pos ⟨h.gzip, h.mode⟩
  have hlast' : (if isLastInput then 1 else 0 : ℕ) < 2 := by
    split_ifs <;> decide
  refine ⟨_, hin, h.gzip, h.mode, h.chunk, h.bounds, Nat.mod_le _ _, hlast'.le, h.error,
    hZ.crc32 h.crc buf, ?_, h.wtotal, ?_, fun _ => h.body (by omega), fun h2 => absurd h2 hlast'.ne⟩
  · exact (congrArg (· + buf.length) h.rtotal).trans List.length_append.symm
  · have htaken := h.taken
    rw [Compress.input, hused, List.take_zero, List.append_nil] at htaken
    exact congrArg₂ (· ++ ·) htaken (by
      rw [Compress.input, Compress.hand, Nat.mod_eq_of_lt hbuf, List.take_length])

end Compress.Writing

/-! ## A call of xs_compress_out -/

namespace OutState

variable {data written : List UInt8} {s : OutState κ}

/-- The header of the stream. Either the call has no room left then, or the header is complete. -/
theorem header_writing (h : s.xc.Writing taken made failed data written) (hnone : s.written = [])
    (hlen : 0 < s.len) :
    s.header.xc.Writing taken made failed data (written ++ s.header.written) ∧
      s.header.ret = s.ret ∧ s.header.len ≤ s.len ∧ s.header.xc.availIn = s.xc.availIn ∧
      s.header.xc.isLast = s.xc.isLast ∧ (s.header.len = 0 → s.header.written ≠ []) ∧
      (gzHdr.length ≤ s.header.xc.wtotal ∨ s.header.len = 0) ∧
      (gzHdr.length ≤ s.xc.wtotal → s.header = s) := by
  by_cases hw : s.xc.wtotal < gzHdr.length
  · obtain ⟨outlen, houtlen⟩ : ∃ n, (if s.len < gzHdr.length - s.xc.wtotal then s.len
        else gzHdr.length - s.xc.wtotal) = n := ⟨_, rfl⟩
    have hmin : outlen = min s.len (gzHdr.length - s.xc.wtotal) := by
      rw [← houtlen]
      split_ifs <;> omega
    have hheader : s.header = { s with
        xc := { s.xc with wtotal := s.xc.wtotal + outlen }
        written := (gzHdr.drop s.xc.wtotal).take outlen
        len := s.len - outlen } := by
      rw [OutState.header, if_pos ⟨hw, h.mode, h.gzip⟩, houtlen, hnone]
      rfl
    have hlast : s.xc.isLast < 2 := by
      have hle := h.last
      by_contra hge
      have := (h.footer (by omega)).2.1
      omega
    have hpart : ((gzHdr.drop s.xc.wtotal).take outlen).length = outlen := by
      rw [List.length_take, List.length_drop]
      omega
    rw [hheader]
    refine ⟨⟨h.gzip, h.mode, h.chunk, h.bounds, h.avail, h.last, h.error, h.crc, h.rtotal, ?_,
      h.taken, fun _ => ?_, fun h2 => absurd h2 hlast.ne⟩, rfl, Nat.sub_le _ _, rfl, rfl,
      fun h0 hnil => ?_, ?_, fun hge => absurd hw (Nat.not_lt_of_le hge)⟩
    · exact (congrArg₂ (· + ·) h.wtotal hpart.symm).trans List.length_append.symm
    · rw [← h.body hlast, List.append_assoc, ← List.append_assoc (List.take _ _),
        ← List.drop_drop, List.take_append_drop]
      rfl
    · dsimp only at h0 hnil
      rw [hnil] at hpart
      rw [List.length_nil] at hpart
      omega
    · dsimp only
      omega
  · have hheader : s.header = s := if_neg fun hf => hw hf.1
    rw [hheader, hnone, List.append_nil]
    exact ⟨h, rfl, le_rfl, rfl, rfl, fun h0 => absurd h0 hlen.ne', Or.inl (Nat.le_of_not_lt hw),
      fun _ => rfl⟩

/-- The loop keeps the invariant, with the header complete. -/
theorem loop_writing (hZ : Z.Traced isBigEndian taken made failed)
    (h : s.xc.Writing taken made failed data (written ++ s.written)) (hlast : s.xc.isLast < 2)
    (hheader : gzHdr.length ≤ s.xc.wtotal) (hlen : 0 < s.len) {fuel : ℕ}
    (hfuel : s.measure < fuel) :
    ∃ t, s.loop Z fuel = some t ∧
      t.xc.Writing taken made failed data (written ++ t.written) ∧
      (t.written = [] → t.xc.outavail = 0 ∧ gzHdr.length ≤ t.xc.wtotal) := by
  have hbody := h.body hlast
  rw [List.drop_eq_nil_of_le hheader, List.nil_append] at hbody
  have hcopying : s.Copying true taken made failed data written s.xc.isLast :=
    ⟨h.gzip, h.mode, h.chunk, h.bounds, h.avail, rfl, hlast, h.error, h.crc, h.wtotal, h.taken,
      fun _ => h.rtotal, fun _ => hheader, hbody⟩
  obtain ⟨t, ht, hc, hnone⟩ := hcopying.loop hZ hlen hfuel
  have hlast' : t.xc.isLast < 2 := hc.last.trans_lt hlast
  refine ⟨t, ht, ⟨hc.gzip, hc.mode, hc.chunk, hc.bounds, hc.avail, hlast'.le, hc.error, hc.crc,
    hc.rtotal rfl, hc.wtotal, hc.taken, fun _ => ?_, fun h2 => absurd h2 hlast'.ne⟩,
    fun hnil => ⟨hnone hnil, hc.header rfl⟩⟩
  rw [List.drop_eq_nil_of_le (hc.header rfl), List.nil_append]
  exact hc.body

/-- The footer mode begins when there is nothing else to deliver. -/
theorem footerMode_writing (h : s.xc.Writing taken made failed data written)
    (hnone : s.xc.outavail = 0) (hheader : gzHdr.length ≤ s.xc.wtotal) (hlast : s.xc.isLast ≠ 0) :
    ∃ xc, (if s.xc.isLast = 1 then { s.xc with outoffset := 0, isLast := 2 } else s.xc) = xc ∧
      xc.Writing taken made failed data written ∧ xc.isLast = 2 ∧
      (s.xc.isLast = 2 → xc = s.xc) := by
  have hle := h.last
  by_cases h1 : s.xc.isLast = 1
  · have hbody := h.body (by omega)
    rw [List.drop_eq_nil_of_le hheader, pending_of_outavail hnone, List.append_nil,
      List.append_nil] at hbody
    refine ⟨_, if_pos h1, ⟨h.gzip, h.mode, h.chunk, ?_, h.avail, le_rfl, h.error, h.crc, h.rtotal,
      h.wtotal, h.taken, fun h2 => absurd h2 (lt_irrefl 2), fun _ => ⟨hnone, hheader, ?_⟩⟩, rfl,
      fun h2 => by omega⟩
    · dsimp only
      omega
    · rw [List.drop_zero, hbody, gzStream]
  · exact ⟨s.xc, if_neg h1, h, by omega, fun _ => rfl⟩

/-- The trailer is delivered, as far as there is room. -/
theorem footer_writing (h : s.xc.Writing taken made failed data (written ++ s.written))
    (hnone : s.written = [] → s.xc.outavail = 0 ∧ gzHdr.length ≤ s.xc.wtotal) :
    ∃ t, s.footer = some t ∧ t.xc.Writing taken made failed data (written ++ t.written) ∧
      (s.xc.isLast = 2 → s.len ≠ 0 → s.ret = 0 → t.written = [] → 8 ≤ s.xc.outoffset) := by
  by_cases hf : s.xc.isLast ≠ 0 ∧ s.written = []
  · obtain ⟨hlast, hnil⟩ := hf
    rw [hnil, List.append_nil] at h
    obtain ⟨xc, hxc, hw, h2, hsame⟩ :=
      footerMode_writing h (hnone hnil).1 (hnone hnil).2 hlast
    obtain ⟨havail, hheader, hfooter⟩ := hw.footer h2
    have hftr : le32 xc.crc.toNat ++ le32 xc.rtotal = gzTrailer data := by
      have hcrc : xc.crc.toNat = (crc32Of data).toNat := congrArg BitVec.toNat hw.crc
      rw [hcrc, hw.rtotal, gzTrailer]
    unfold OutState.footer
    rw [if_pos ⟨hlast, hnil⟩]
    dsimp only
    rw [hxc, hftr, length_gzTrailer]
    by_cases hroom : s.len ≠ 0 ∧ s.ret = 0 ∧ xc.outoffset < 8 ∧ xc.isCompress = true ∧
        xc.isGzip = true
    · obtain ⟨outlen, houtlen⟩ : ∃ n, (if s.len < 8 - xc.outoffset then s.len
          else 8 - xc.outoffset) = n := ⟨_, rfl⟩
      have hmin : outlen = min s.len (8 - xc.outoffset) := by
        rw [← houtlen]
        split_ifs <;> omega
      have hpart : (((gzTrailer data).drop xc.outoffset).take outlen).length = outlen := by
        rw [List.length_take, List.length_drop, length_gzTrailer]
        omega
      rw [if_pos hroom, houtlen, hnil, List.nil_append]
      have hchunk : 8 ≤ XS_CHUNK_SIZE := by decide
      refine ⟨_, rfl, ⟨hw.gzip, hw.mode, hw.chunk, ?_, hw.avail, hw.last, hw.error, hw.crc,
        hw.rtotal, ?_, hw.taken, fun hlt => absurd h2 hlt.ne, fun _ => ⟨havail, ?_, ?_⟩⟩,
        fun _ _ _ hd => ?_⟩
      · dsimp only
        omega
      · exact (congrArg₂ (· + ·) hw.wtotal hpart.symm).trans List.length_append.symm
      · exact hheader.trans (Nat.le_add_right _ _)
      · rw [← hfooter, List.append_assoc, ← List.drop_drop, List.take_append_drop]
      · dsimp only at hd
        rw [hd, List.length_nil] at hpart
        omega
    · have hmode : ¬(xc.isCompress = false ∧ xc.isGzip = true) := by
        rw [hw.mode]
        exact fun hm => Bool.noConfusion hm.1
      rw [if_neg hroom, if_neg hmode]
      refine ⟨_, rfl, by rw [hnil, List.append_nil]; exact hw, fun hs2 hlen hret _ => ?_⟩
      rw [← hsame hs2]
      by_contra hlt
      exact hroom ⟨hlen, hret, Nat.lt_of_not_le hlt, hw.mode, hw.gzip⟩
  · refine ⟨s, if_neg hf, h, fun hs2 _ _ hd => absurd ⟨?_, hd⟩ hf⟩
    rw [hs2]
    decide

end OutState

/-- A call of `xs_compress_out` delivers more of the stream. -/
theorem Compress.Writing.output (hZ : Z.Traced isBigEndian taken made failed) {xc : Compress κ}
    {data written : List UInt8} (h : xc.Writing taken made failed data written) {len : ℕ}
    (hlen : 0 < len) :
    ∃ d xc', compressOut Z xc len = some (d, xc') ∧
      xc'.Writing taken made failed data (written ++ d) ∧
      (xc.isLast = 2 → d = [] → 8 ≤ xc.outoffset) := by
  obtain ⟨s, hs⟩ : ∃ s, s = OutState.mk xc [] len 0 := ⟨_, rfl⟩
  have hxc : s.xc = xc := by rw [hs]
  have hslen : s.len = len := by rw [hs]
  have hsret : s.ret = 0 := by rw [hs]
  rw [← hxc] at h
  obtain ⟨hw, -, hle, havailIn, hlast, hfull, hheader, hskip⟩ :=
    OutState.header_writing h (by rw [hs]) (by omega)
  unfold compressOut
  rw [if_neg hlen.ne']
  dsimp only
  rw [← hs]
  by_cases hloop : s.header.len ≠ 0 ∧ s.header.xc.isLast < 2
  · obtain ⟨hroom, hopen⟩ := hloop
    have hfuel : s.header.measure < 2 * (xc.availIn + len) + 3 := by
      rw [← hxc, ← havailIn]
      unfold OutState.measure
      split_ifs <;> omega
    obtain ⟨t, ht, hwt, hnone⟩ := OutState.loop_writing hZ hw hopen (hheader.resolve_right hroom)
      (Nat.pos_of_ne_zero hroom) hfuel
    obtain ⟨u, hu, hwu, -⟩ := OutState.footer_writing hwt hnone
    rw [if_pos ⟨hroom, hopen⟩, ht, Option.bind_some, hu]
    refine ⟨_, _, rfl, hwu, fun h2 => ?_⟩
    rw [hlast, hxc] at hopen
    omega
  · rw [if_neg hloop, Option.bind_some]
    obtain ⟨u, hu, hwu, hend⟩ := OutState.footer_writing hw fun hnil => by
      have hroom : s.header.len ≠ 0 := fun h0 => hfull h0 hnil
      have h2 : s.header.xc.isLast = 2 := by
        have hle2 := hw.last
        by_contra hne
        exact hloop ⟨hroom, by omega⟩
      exact ⟨(hw.footer h2).1, (hw.footer h2).2.1⟩
    rw [hu]
    refine ⟨_, _, rfl, hwu, fun h2 hnil => ?_⟩
    rw [← hxc] at h2
    rw [hskip (h.footer h2).2.1] at hend
    rw [← hxc]
    exact hend h2 (by omega) hsret hnil

/-! ## Runs -/

/-- The calls for a gzip compressor, in any order, but input is handed over only when the input
before is used up and was not the last. -/
inductive GzipWrites (Z : Zlib κ) (z : κ) : Compress κ → List UInt8 → List UInt8 → Prop
  | create : GzipWrites Z z (compressCreate .compressGzip z) [] []
  | input {xc xc' : Compress κ} {data written buf : List UInt8} {isLastInput : Bool} {r : ℤ} :
    GzipWrites Z z xc data written → xc.availIn = 0 → xc.isLast = 0 → buf.length < 2 ^ 32 →
      compressIn Z xc buf isLastInput = some (r, xc') → GzipWrites Z z xc' (data ++ buf) written
  | output {xc xc' : Compress κ} {data written d : List UInt8} {len : ℕ} :
    GzipWrites Z z xc data written → 0 < len → compressOut Z xc len = some (d, xc') →
      GzipWrites Z z xc' data (written ++ d)

namespace GzipWrites

variable {z : κ} {xc : Compress κ} {data written : List UInt8}

theorem writing (hZ : Z.Traced isBigEndian taken made failed) (htaken : taken z = [])
    (hmade : made z = []) (hfailed : failed z = false) (h : GzipWrites Z z xc data written) :
    xc.Writing taken made failed data written := by
  induction h with
  | create => exact .create htaken hmade hfailed
  | input _ hused hlast hbuf hin ih =>
    obtain ⟨xc', hin', hw⟩ := ih.input hZ hused hlast hbuf _
    rw [hin, Option.some_inj, Prod.mk.injEq] at hin'
    rw [hin'.2]
    exact hw
  | output _ hlen hout ih =>
    obtain ⟨d, xc', hout', hw, -⟩ := ih.output hZ hlen
    rw [hout, Option.some_inj, Prod.mk.injEq] at hout'
    rw [hout'.1, hout'.2]
    exact hw

/-- What is delivered is a beginning of the stream, `deflate` gets the input once and in order, its
failures are not forgotten, and a call in the footer mode that delivers nothing comes after the
whole stream. -/
theorem written_stream (hZ : Z.Traced isBigEndian taken made failed) (htaken : taken z = [])
    (hmade : made z = []) (hfailed : failed z = false) (h : GzipWrites Z z xc data written)
    {len : ℕ} (hlen : 0 < len) :
    taken xc.z ++ xc.input = data ∧ (xc.errnum = 0 ↔ failed xc.z = false) ∧
      written <+: gzStream (made xc.z) data ∧
      ∃ d xc', compressOut Z xc len = some (d, xc') ∧
        (xc.isLast = 2 → d = [] → written = gzStream (made xc.z) data) := by
  have hw := h.writing hZ htaken hmade hfailed
  obtain ⟨d, xc', hout, -, hend⟩ := hw.output hZ hlen
  refine ⟨hw.taken, hw.error, ?_, d, xc', hout, fun h2 hnil => ?_⟩
  · rcases Nat.lt_or_ge xc.isLast 2 with hlt | hge
    · exact ⟨gzHdr.drop xc.wtotal ++ xc.pending ++ gzTrailer data, by
        rw [← List.append_assoc, hw.body hlt, gzStream]⟩
    · exact ⟨_, (hw.footer (Nat.le_antisymm hw.last hge)).2.2⟩
  · have hfooter := (hw.footer h2).2.2
    rwa [List.drop_eq_nil_of_le (hend h2 hnil), List.append_nil] at hfooter

/-- Three bytes, and the first call of `xs_compress_out`. -/
theorem written_stream_abc : ∃ xc written,
    GzipWrites storedZlib ⟨[], [], false⟩ xc [0x61, 0x62, 0x63] written ∧
      xc.z.taken ++ xc.input = [0x61, 0x62, 0x63] ∧ (xc.errnum = 0 ↔ xc.z.failed = false) ∧
      written <+: gzStream xc.z.made [0x61, 0x62, 0x63] ∧
      ∃ d xc', compressOut storedZlib xc 8 = some (d, xc') ∧
        (xc.isLast = 2 → d = [] → written = gzStream xc.z.made [0x61, 0x62, 0x63]) := by
  have hin : GzipWrites storedZlib ⟨[], [], false⟩ _ [0x61, 0x62, 0x63] [] :=
    .input .create rfl rfl (by decide) (show compressIn storedZlib _ _ true = _ from rfl)
  obtain ⟨d, xc, hout, -⟩ := (hin.writing storedZlib_traced rfl rfl rfl).output storedZlib_traced
    (by decide : 0 < 8)
  have hrun := GzipWrites.output hin (by decide) hout
  exact ⟨xc, _, hrun, written_stream storedZlib_traced rfl rfl rfl hrun (by decide)⟩

end GzipWrites

end Webxs
