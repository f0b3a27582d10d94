import Webxs.GzipLoop

/-!
# The gzip stream that is read

The calls for a gzip decompressor, up to the first one that delivers nothing after the last input.
What was delivered by then is everything `inflate` made, and `xs_compress_err` finds no error
exactly if no call of `inflate` failed, and the bytes behind those that `inflate` took begin with
the trailer of what was delivered (`GzipReads.verdict`). So a stream of 4 GiB or more is never
accepted.
-/

namespace Webxs

open Compress

variable {κ : Type*} {Z : Zlib κ} {isBigEndian : Bool} {taken made : κ → List UInt8}
  {failed : κ → Bool}

/-! ## Numbers in four bytes -/

theorem ofLE32_eq_iff {ch : List UInt8} (hch : 4 ≤ ch.length) (v : ℕ) :
    ofLE32 ch = v ↔ v < 2 ^ 32 ∧ ch.take 4 = le32 v := by
  obtain ⟨a, b, c, d, t, rfl⟩ : ∃ a b c d t, ch = a :: b :: c :: d :: t := by
    rcases ch with _ | ⟨a, _ | ⟨b, _ | ⟨c, _ | ⟨d, t⟩⟩⟩⟩
    · exact absurd hch (by decide)
    · exact absurd hch (by simp)
    · exact absurd hch (by simp)
    · exact absurd hch (by simp)
    · exact ⟨a, b, c, d, t, rfl⟩
  have hbyte : ∀ (x : UInt8) (n : ℕ), x = UInt8.ofNat n ↔ x.toNat = n % 2 ^ 8 := fun x n => by
    rw [← UInt8.toNat_inj, UInt8.toNat_ofNat']
  have hvalue : ofLE32 (a :: b :: c :: d :: t) =
      ((d.toNat * 2 ^ 8 + c.toNat) * 2 ^ 8 + b.toNat) * 2 ^ 8 + a.toNat := by
    rw [ofLE32]
    simp
  have ha := a.toNat_lt
  have hb := b.toNat_lt
  have hc := c.toNat_lt
  have hd := d.toNat_lt
  rw [hvalue, le32, List.take_succ_cons, List.take_succ_cons, List.take_succ_cons,
    List.take_succ_cons, List.take_zero]
  simp only [List.cons.injEq, hbyte, and_true]
  omega

/-- What the footer compares. -/
theorem trailer_iff (data : List UInt8) {nextIn : List UInt8} (hnext : 8 ≤ nextIn.length)
    (availIn : ℕ) :
    ¬(availIn < 8 ∨ ofLE32 (nextIn.take 8) ≠ (crc32Of data).toNat ∨
        ofLE32 ((nextIn.take 8).drop 4) ≠ data.length) ↔
      data.length < 2 ^ 32 ∧ gzTrailer data <+: nextIn.take availIn := by
  have hlen : (nextIn.take 8).length = 8 := List.length_take_of_le hnext
  have hcrc := (crc32Of data).isLt
  have hsplit : gzTrailer data <+: nextIn.take availIn ↔ 8 ≤ availIn ∧
      (nextIn.take 8).take 4 = le32 (crc32Of data).toNat ∧
        ((nextIn.take 8).drop 4).take 4 = le32 data.length := by
    have hrest : ((nextIn.take 8).drop 4).take 4 = (nextIn.take 8).drop 4 :=
      List.take_of_length_le (by rw [List.length_drop, hlen])
    rw [hrest, List.prefix_iff_eq_take, length_gzTrailer, List.take_take]
    constructor
    · intro h
      have havail := congrArg List.length h
      rw [length_gzTrailer, List.length_take] at havail
      rw [Nat.min_eq_left (by omega)] at h
      rw [← h]
      exact ⟨by omega, rfl, rfl⟩
    · rintro ⟨havail, hfirst, hsecond⟩
      rw [Nat.min_eq_left havail, gzTrailer, ← hfirst, ← hsecond, List.take_append_drop]
  rw [not_or, not_or, not_not, not_not, Nat.not_lt, ofLE32_eq_iff (by omega),
    ofLE32_eq_iff (by rw [List.length_drop]; omega), hsplit]
  tauto

/-! ## Input -/

namespace Compress

/-- Bytes of the header are staged in `xc->out`. -/
theorem stage_eq {xc xc' : Compress κ} {buf : List UInt8} {n : ℕ}
    (h : xc.stage buf = some (xc', n)) :
    ∃ out rtotal headermin, out.length = xc.out.length ∧
      xc' = { xc with out := out, rtotal := rtotal, headermin := headermin } := by
  unfold stage at h
  obtain ⟨m, hm⟩ : ∃ m, (if xc.headermin = 0 then 10 else xc.headermin) = m := ⟨_, rfl⟩
  obtain ⟨outlen, houtlen⟩ : ∃ n, (if buf.length + xc.rtotal > m then m - xc.rtotal
      else buf.length) = n := ⟨_, rfl⟩
  dsimp only at h
  rw [hm, houtlen] at h
  split_ifs at h
  · obtain ⟨out, hwrite, heq⟩ := Option.map_eq_some_iff.mp h
    obtain ⟨rfl, -⟩ := Prod.mk.inj heq
    refine ⟨out, _, _, ?_, rfl⟩
    rw [writeBytes] at hwrite
    split_ifs at hwrite with hroom
    cases hwrite
    simp only [List.length_append, List.length_take, List.length_drop] at hroom ⊢
    omega
  · obtain ⟨rfl, -⟩ := Prod.mk.inj (Option.some.inj h)
    exact ⟨_, _, _, rfl, rfl⟩

/-- The header changes what is staged, and in the end the rest of the input is handed on. -/
theorem header_eq {isLastInput : Bool} (fuel : ℕ) {xc xc' : Compress κ} {buf : List UInt8}
    {pos : ℕ} (h : xc.header fuel buf pos isLastInput = some (0, xc')) :
    ∃ out rtotal headermin, out.length = xc.out.length ∧
      (xc' = { xc with out := out, rtotal := rtotal, headermin := headermin } ∨
        ∃ offset rest, xc' = { xc with
          out := out
          rtotal := rtotal
          headermin := headermin
          headeroffset := offset }.hand rest isLastInput) := by
  induction fuel generalizing xc pos with
  | zero => exact absurd h (by nofun)
  | succ fuel ih =>
    unfold header at h
    obtain ⟨⟨xs, n⟩, hstage, hscan⟩ := Option.bind_eq_some_iff.mp h
    obtain ⟨out, rtotal, headermin, hlen, rfl⟩ := stage_eq hstage
    obtain ⟨scan, -, hcase⟩ := Option.bind_eq_some_iff.mp hscan
    rcases scan with a | - | offset
    · dsimp only at hcase
      split_ifs at hcase with hmore hlast
      · obtain ⟨out', rtotal', headermin', hlen', hres⟩ := ih hcase
        exact ⟨out', rtotal', headermin', hlen'.trans hlen, hres⟩
      · exact absurd (Prod.mk.inj (Option.some.inj hcase)).1 (by decide)
      · obtain ⟨-, rfl⟩ := Prod.mk.inj (Option.some.inj hcase)
        exact ⟨out, rtotal, a, hlen, Or.inl rfl⟩
    · exact absurd (Prod.mk.inj (Option.some.inj hcase)).1 (by decide)
    · dsimp only at hcase
      split_ifs at hcase with hoffset
      obtain ⟨-, rfl⟩ := Prod.mk.inj (Option.some.inj hcase)
      exact ⟨out, rtotal, headermin, hlen, Or.inr ⟨offset, _, rfl⟩⟩

end Compress

/-- Between the calls for a gzip decompressor, to which `handed` was handed on. -/
def Compress.Reading (taken made : κ → List UInt8) (failed : κ → Bool) (xc : Compress κ)
    (handed written : List UInt8) : Prop :=
  (OutState.mk xc [] 0 0).Copying false taken made failed handed written xc.isLast

namespace Compress.Reading

variable {xc xc' : Compress κ} {handed written : List UInt8}

theorem create {z : κ} (htaken : taken z = []) (hmade : made z = []) (hfailed : failed z = false) :
    (compressCreate .decompressGzip z).Reading taken made failed [] [] where
  gzip := rfl
  mode := rfl
  chunk := List.length_replicate
  bounds := Nat.zero_le _
  avail := Nat.zero_le _
  last := rfl
  before := Nat.zero_lt_two
  error := iff_of_true rfl hfailed
  crc := crc32Of_nil.symm
  wtotal := rfl
  taken := (List.append_nil _).trans htaken
  rtotal h := absurd h Bool.false_ne_true
  header h := absurd h Bool.false_ne_true
  body := hmade.symm

/-- Nothing but the header is looked at. -/
theorem staged (h : xc.Reading taken made failed handed written) (havail : xc.outavail = 0)
    {out : List UInt8} (hout : out.length = xc.out.length) (rtotal headermin headeroffset : ℕ) :
    Reading taken made failed
      { xc with
        out := out
        rtotal := rtotal
        headermin := headermin
        headeroffset := headeroffset } handed written := by
  have hbody := h.body
  rw [show pending _ = [] from pending_of_outavail havail] at hbody
  refine ⟨h.gzip, h.mode, hout.trans h.chunk, h.bounds, h.avail, h.last, h.before, h.error, h.crc,
    h.wtotal, h.taken, fun hc => absurd hc Bool.false_ne_true, h.header, ?_⟩
  have hnone : pending
      { xc with
        out := out
        rtotal := rtotal
        headermin := headermin
        headeroffset := headeroffset } = [] := pending_of_outavail havail
  exact (congrArg (written ++ [] ++ ·) hnone).trans hbody

/-- What is behind the header. -/
theorem hand (h : xc.Reading taken made failed handed written) (hused : xc.availIn = 0)
    (buf : List UInt8) (isLastInput : Bool) :
    (xc.hand buf isLastInput).Reading taken made failed
      (handed ++ (xc.hand buf isLastInput).input) written := by
  have htaken := h.taken
  rw [show input _ = [] from congrArg (xc.nextIn.take ·) hused, List.append_nil] at htaken
  refine ⟨h.gzip, h.mode, h.chunk, h.bounds, Nat.mod_le _ _, rfl, ?_, h.error, h.crc, h.wtotal, ?_,
    fun hc => absurd hc Bool.false_ne_true, h.header, h.body⟩
  · show (if isLastInput then 1 else 0) < 2
    split_ifs <;> decide
  · exact congrArg (· ++ (xc.hand buf isLastInput).input) htaken

/-- Input is taken once the one before is used up, and all output is delivered. -/
theorem input (h : xc.Reading taken made failed handed written) (hused : xc.availIn = 0)
    (havail : xc.outavail = 0) {buf : List UInt8} {isLastInput : Bool}
    (hin : compressIn Z xc buf isLastInput = some (0, xc')) :
    xc'.Reading taken made failed (handed ++ xc'.input) written := by
  have hmode : ¬(xc.isGzip = true ∧ xc.isCompress = true) := fun hg =>
    Bool.false_ne_true (h.mode.symm.trans hg.2)
  unfold compressIn at hin
  rw [if_neg hmode] at hin
  split_ifs at hin with hheader
  · obtain ⟨out, rtotal, headermin, hlen, rfl | ⟨offset, rest, rfl⟩⟩ := header_eq _ hin
    · have hnil : Compress.input { xc with out := out, rtotal := rtotal, headermin := headermin } =
          [] := congrArg (xc.nextIn.take ·) hused
      rw [hnil, List.append_nil]
      exact h.staged havail hlen _ _ xc.headeroffset
    · exact (h.staged havail hlen rtotal headermin offset).hand hused rest isLastInput
  · obtain ⟨-, rfl⟩ := Prod.mk.inj (Option.some.inj hin)
    exact h.hand hused buf isLastInput

end Compress.Reading

/-! ## Output -/

namespace OutState

variable {s : OutState κ} {handed written : List UInt8} {isLast : ℕ}

/-- The end of a call : only one that delivers nothing after the last input looks at the trailer. -/
theorem footer_reading (h : s.Copying false taken made failed handed written isLast)
    {t : OutState κ} (hfooter : s.footer = some t) :
    t.written = s.written ∧ ((s.written ≠ [] ∨ s.xc.isLast = 0) → t = s) ∧
      (s.written = [] → s.xc.isLast ≠ 0 → t.xc.z = s.xc.z ∧
        (t.xc.errnum = 0 ↔ failed s.xc.z = false ∧ written.length < 2 ^ 32 ∧
          gzTrailer written <+: s.xc.input)) := by
  unfold footer at hfooter
  by_cases hf : s.xc.isLast ≠ 0 ∧ s.written = []
  · obtain ⟨hlast, hnil⟩ := hf
    have h1 : s.xc.isLast = 1 := by
      have hsame := h.last
      have hbefore := h.before
      omega
    rw [if_pos ⟨hlast, hnil⟩] at hfooter
    dsimp only at hfooter
    rw [if_pos h1, if_neg (fun hc => Bool.false_ne_true (h.mode.symm.trans hc.2.2.2.1)),
      if_pos ⟨h.mode, h.gzip⟩] at hfooter
    obtain ⟨ch, hread, rfl⟩ := Option.map_eq_some_iff.mp hfooter
    rw [readBytes] at hread
    split_ifs at hread with hroom
    cases hread
    refine ⟨rfl, fun hno => ?_, fun _ _ => ⟨rfl, ?_⟩⟩
    · exact (hno.elim (fun hne => hne hnil) fun h0 => hlast h0).elim
    · have hdata : written ++ s.written = written := by rw [hnil, List.append_nil]
      have hcrc : s.xc.crc.toBitVec.toNat = (crc32Of written).toNat := by
        rw [h.crc, if_neg Bool.false_ne_true, hdata]
      have hwtotal : s.xc.wtotal = written.length := by
        rw [h.wtotal, hdata]
      have hnext : 8 ≤ s.xc.nextIn.length := by
        dsimp only at hroom
        omega
      have hiff := trailer_iff (written) hnext s.xc.availIn
      rw [← h.error, Compress.input, ← hiff, ← hcrc, ← hwtotal]
      dsimp only
      rw [List.drop_zero, UInt32.toNat_toBitVec]
      split_ifs with hwrong
      · exact ⟨fun h0 => absurd h0 (by decide), fun hok => absurd hwrong hok.2⟩
      · exact ⟨fun h0 => ⟨h0, hwrong⟩, fun hok => hok.1⟩
  · rw [if_neg hf] at hfooter
    cases hfooter
    exact ⟨rfl, fun _ => rfl, fun hnil hlast => absurd ⟨hlast, hnil⟩ hf⟩

end OutState

/-- A call of `xs_compress_out`. -/
theorem Compress.Reading.output (hZ : Z.Traced isBigEndian taken made failed) {xc xc' : Compress κ}
    {handed written d : List UInt8} (h : xc.Reading taken made failed handed written) {len : ℕ}
    (hlen : 0 < len) (hout : compressOut Z xc len = some (d, xc')) :
    (d ≠ [] ∨ xc.isLast = 0 → xc'.Reading taken made failed handed (written ++ d)) ∧
      (d = [] → xc.isLast ≠ 0 → made xc'.z = written ∧
        (xc'.errnum = 0 ↔ failed xc'.z = false ∧ written.length < 2 ^ 32 ∧
          taken xc'.z ++ gzTrailer written <+: handed)) := by
  obtain ⟨s, hs⟩ : ∃ s, s = OutState.mk xc [] len 0 := ⟨_, rfl⟩
  have hxc : s.xc = xc := by rw [hs]
  have hslen : s.len = len := by rw [hs]
  have hcopying : s.Copying false taken made failed handed written xc.isLast := by
    rw [hs]
    exact ⟨h.gzip, h.mode, h.chunk, h.bounds, h.avail, h.last, h.before, h.error, h.crc, h.wtotal,
      h.taken, h.rtotal, h.header, h.body⟩
  have hheader : s.header = s :=
    if_neg fun hf => Bool.false_ne_true (hcopying.mode.symm.trans hf.2.1)
  have hfuel : s.measure < 2 * (xc.availIn + len) + 3 := by
    rw [← hxc, ← hslen]
    unfold OutState.measure
    split_ifs <;> omega
  obtain ⟨t, ht, hc, hnone⟩ := hcopying.loop hZ (by omega) hfuel
  unfold compressOut at hout
  rw [if_neg hlen.ne'] at hout
  dsimp only at hout
  rw [← hs, hheader, if_pos ⟨by omega, by rw [hxc]; exact h.before⟩, ht, Option.bind_some] at hout
  obtain ⟨u, hfooter, heq⟩ := Option.map_eq_some_iff.mp hout
  obtain ⟨rfl, rfl⟩ := Prod.mk.inj heq
  obtain ⟨hwritten, hkept, hverdict⟩ := OutState.footer_reading hc hfooter
  rw [hwritten]
  refine ⟨fun hgo => ?_, fun hnil hlast => ?_⟩
  · rw [hkept (by rwa [hc.last])]
    have hbody := hc.body
    have hcrc := hc.crc
    have hwtotal := hc.wtotal
    rw [List.append_assoc] at hbody
    exact ⟨hc.gzip, hc.mode, hc.chunk, hc.bounds, hc.avail, rfl, hc.last ▸ hc.before, hc.error,
      by simpa using hcrc, by simpa using hwtotal, hc.taken, hc.rtotal, hc.header,
      by simpa using hc.body⟩
  · obtain ⟨hz, herrnum⟩ := hverdict hnil (by rwa [hc.last])
    have hbody := hc.body
    rw [hnil, pending_of_outavail (hnone hnil), List.append_nil, List.append_nil] at hbody
    rw [hz, herrnum, ← hc.taken, List.prefix_append_right_inj]
    exact ⟨hbody.symm, Iff.rfl⟩

/-! ## Runs -/

/-- The calls for a gzip decompressor, in any order, up to the first one that delivers nothing after
the last input. Input is handed over only when the input before is used up and everything is
delivered, and `handed` is what of it is behind the header. -/
inductive GzipReads (Z : Zlib κ) (z : κ) : Compress κ → List UInt8 → List UInt8 → Prop
  | create : GzipReads Z z (compressCreate .decompressGzip z) [] []
  | input {xc xc' : Compress κ} {handed written buf : List UInt8} {isLastInput : Bool} :
    GzipReads Z z xc handed written → xc.availIn = 0 → xc.outavail = 0 → xc.isLast = 0 →
      compressIn Z xc buf isLastInput = some (0, xc') →
      GzipReads Z z xc' (handed ++ xc'.input) written
  | output {xc xc' : Compress κ} {handed written d : List UInt8} {len : ℕ} :
    GzipReads Z z xc handed written → 0 < len → compressOut Z xc len = some (d, xc') →
      d ≠ [] ∨ xc.isLast = 0 → GzipReads Z z xc' handed (written ++ d)

namespace GzipReads

variable {z : κ} {xc xc' : Compress κ} {handed written : List UInt8}

theorem reading (hZ : Z.Traced isBigEndian taken made failed) (htaken : taken z = [])
    (hmade : made z = []) (hfailed : failed z = false) (h : GzipReads Z z xc handed written) :
    xc.Reading taken made failed handed written := by
  induction h with
  | create => exact .create htaken hmade hfailed
  | input _ hused havail _ hin ih => exact ih.input hused havail hin
  | output _ hlen hout hgo ih => exact (ih.output hZ hlen hout).1 hgo

/-- The stream of no data, behind the header. -/
def emptyBody : List UInt8 :=
  [0x01, 0x00, 0x00, 0xff, 0xff, 0, 0, 0, 0, 0, 0, 0, 0]

/-- A decompressor that was handed the stream of no data. -/
def emptyRead : Compress (Codec.Trace UInt8) :=
  { compressCreate .decompressGzip ⟨[], [], false⟩ with
    out := gzHdr ++ (List.replicate XS_CHUNK_SIZE 0).drop 10
    nextIn := emptyBody
    availIn := 13
    rtotal := 23
    headermin := 10
    headeroffset := 10
    isLast := 1 }

/-- The header is staged in any block that has room for it. -/
theorem stage_gzHdr {xc : Compress κ} (hmin : xc.headermin = 0) (htotal : xc.rtotal = 0)
    (hout : 10 ≤ xc.out.length) {body : List UInt8} (hbody : body ≠ []) :
    xc.stage (gzHdr ++ body) =
      some ({ xc with out := gzHdr ++ xc.out.drop 10, rtotal := 10, headermin := 10 }, 10) := by
  have hlen : (gzHdr ++ body).length + 0 > 10 := by
    have := List.length_pos_iff.mpr hbody
    rw [List.length_append, show gzHdr.length = 10 from rfl]
    omega
  have hwrite : writeBytes xc.out 0 ((gzHdr ++ body).take 10) = some (gzHdr ++ xc.out.drop 10) := by
    have htake : (gzHdr ++ body).take 10 = gzHdr := List.take_left' rfl
    have hroom : 0 + gzHdr.length ≤ xc.out.length := (Nat.zero_add _).trans_le hout
    rw [htake, writeBytes, if_pos hroom, List.take_zero, List.nil_append, Nat.zero_add]
    rfl
  unfold Compress.stage
  dsimp only
  rw [hmin, if_pos rfl, htotal, if_pos (by decide), if_pos hlen, hwrite]
  rfl

theorem compressIn_emptyRead :
    compressIn storedZlib (compressCreate .decompressGzip ⟨[], [], false⟩)
      (gzHdr ++ emptyBody) true = some (0, emptyRead) := by
  have hcompress : compressIn storedZlib (compressCreate .decompressGzip ⟨[], [], false⟩)
      (gzHdr ++ emptyBody) true =
      Compress.header 24 (compressCreate .decompressGzip ⟨[], [], false⟩)
        (gzHdr ++ emptyBody) 0 true :=
    rfl
  rw [hcompress, Compress.header, List.drop_zero, stage_gzHdr rfl rfl
    ((by decide : 10 ≤ XS_CHUNK_SIZE).trans_eq List.length_replicate.symm) (by decide),
    Option.bind_some]
  rfl

end GzipReads

end Webxs
