import Webxs.Compress

/-!
# What gets out of the codec

`xs_compress_out` calls the codec while there is input. But a codec may have taken the last byte
with output still pending, more than the block `xc->out` had room for, and it is not called again
then, nor for an empty input, though its output may not be empty.

`drains_iff` : after one `xs_compress_in` with the last input, in the modes without gzip, the calls
of `xs_compress_out` deliver the output of the codec exactly if it has none left when its input is
used up (and the length of the input fits `avail_in`).
-/

namespace Webxs

variable {κ : Type*}

/-- The codec of a mode, for the last input. -/
def Zlib.finish (Z : Zlib κ) (isCompress : Bool) : κ → List UInt8 → Codec.Turn κ UInt8 :=
  if isCompress = true then Z.deflate true else Z.inflate true

/-- Calls with the sizes `lens`, until one returns 0, deliver these bytes. -/
inductive Drains (Z : Zlib κ) : Compress κ → (ℕ → ℕ) → List UInt8 → Prop
  | stop {xc xc' : Compress κ} {lens : ℕ → ℕ} :
    compressOut Z xc (lens 0) = some ([], xc') → Drains Z xc lens []
  | more {xc xc' : Compress κ} {lens : ℕ → ℕ} {d ds : List UInt8} :
    compressOut Z xc (lens 0) = some (d, xc') → d ≠ [] →
      Drains Z xc' (fun i => lens (i + 1)) ds → Drains Z xc lens (d ++ ds)

theorem Drains.unique {Z : Zlib κ} {xc : Compress κ} {lens : ℕ → ℕ} {d d' : List UInt8}
    (h : Drains Z xc lens d) (h' : Drains Z xc lens d') : d = d' := by
  induction h generalizing d' with
  | stop hout =>
    cases h' with
    | stop _ => rfl
    | more hout' hne _ =>
      rw [hout] at hout'
      cases hout'
      exact absurd rfl hne
  | more hout hne _ ih =>
    cases h' with
    | stop hout' =>
      rw [hout] at hout'
      cases hout'
      exact absurd rfl hne
    | more hout' _ h' =>
      rw [hout] at hout'
      cases hout'
      rw [ih h']

/-! ## What is on its way -/

namespace Compress

/-- What the codec made and is not copied yet. -/
def pending (xc : Compress κ) : List UInt8 :=
  (xc.out.drop xc.outoffset).take xc.outavail

/-- What is still to be delivered, if the codec has `out` to produce. -/
def rest (out : κ → List UInt8 → List UInt8) (xc : Compress κ) : List UInt8 :=
  xc.pending ++ out xc.z xc.input

/-- `xc` has its last input, in a mode without gzip, and what it staged is inside of `xc->out`. -/
structure Ready (isCompress : Bool) (xc : Compress κ) : Prop where
  chunk : xc.out.length = XS_CHUNK_SIZE
  bounds : xc.outoffset + xc.outavail ≤ XS_CHUNK_SIZE
  avail : xc.availIn ≤ xc.nextIn.length
  last : xc.isLast = 1
  gzip : xc.isGzip = false
  mode : xc.isCompress = isCompress

variable {xc : Compress κ} {isCompress : Bool}

theorem Ready.length_pending (h : xc.Ready isCompress) : xc.pending.length = xc.outavail := by
  have hchunk := h.chunk
  have hbounds := h.bounds
  rw [pending, List.length_take, List.length_drop]
  omega

theorem Ready.length_input (h : xc.Ready isCompress) : xc.input.length = xc.availIn := by
  rw [input, List.length_take, Nat.min_eq_left h.avail]

/-- Copying changes what is staged only. -/
theorem Ready.copied (h : xc.Ready isCompress) (crc : UInt32) (wtotal : ℕ) {off avail : ℕ}
    (hb : off + avail ≤ XS_CHUNK_SIZE) :
    Ready isCompress
      { xc with crc := crc, wtotal := wtotal, outoffset := off, outavail := avail } :=
  ⟨h.chunk, hb, h.avail, h.last, h.gzip, h.mode⟩

theorem pending_of_outavail (h : xc.outavail = 0) : xc.pending = [] := by
  rw [pending, h, List.take_zero]

end Compress

namespace OutState

open Compress

variable {Z : Zlib κ} {isCompress : Bool} {out : κ → List UInt8 → List UInt8}
  {total l : List UInt8} {s : OutState κ}

/-- In a call that has `total` to deliver, of which `l` will be left. -/
structure Inv (Z : Zlib κ) (isCompress : Bool) (out : κ → List UInt8 → List UInt8)
    (total l : List UInt8) (s : OutState κ) : Prop where
  ready : s.xc.Ready isCompress
  total : total = s.written ++ s.xc.rest out
  left : Codec.Left (Z.finish isCompress) out s.xc.z s.xc.input l
  settled : s.ret ≠ 0 → s.written = [] → s.xc.pending = [] → out s.xc.z s.xc.input = []

/-- What gets smaller in each round. -/
def measure (s : OutState κ) : ℕ :=
  2 * (s.xc.availIn + s.len) + (if s.xc.outavail = 0 then 1 else 0) + (if s.ret = 0 then 1 else 0)

/-! ## A round -/

theorem staged_eq (h : s.xc.Ready isCompress) :
    ∃ crc wtotal, s.staged Z = some
      { s with
        xc := { s.xc with crc := crc, outavail := s.xc.outavail - s.len, wtotal := wtotal }
        written := s.written ++ s.xc.pending.take s.len
        len := s.len - s.xc.outavail } := by
  obtain ⟨outlen, houtlen⟩ : ∃ n, (if s.xc.outavail ≥ s.len then s.len else s.xc.outavail) = n :=
    ⟨_, rfl⟩
  have hmin : outlen = min s.len s.xc.outavail := by
    rw [← houtlen]
    split_ifs <;> omega
  have hchunk := h.chunk
  have hbounds := h.bounds
  have hread : readBytes s.xc.out s.xc.outoffset outlen = some (s.xc.pending.take s.len) := by
    rw [readBytes, if_pos (by omega), pending, List.take_take, hmin]
  unfold staged
  dsimp only
  rw [houtlen, hread, Option.map_some, show s.xc.outavail - s.len = s.xc.outavail - outlen by omega,
    show s.len - s.xc.outavail = s.len - outlen by omega]
  exact ⟨_, _, rfl⟩

theorem codec_eq (h : s.xc.Ready isCompress) {turn : Codec.Turn κ UInt8}
    (hturn : Z.finish isCompress s.xc.z s.xc.input = turn) :
    s.codec Z =
      { s with
        xc := { s.xc with
          outoffset := 0
          z := turn.state
          nextIn := s.xc.nextIn.drop turn.consumed
          availIn := s.xc.availIn - turn.consumed
          out := turn.produced ++ s.xc.out.drop turn.produced.length
          outavail := turn.produced.length
          errnum := if turn.ret < 0 then turn.ret else s.xc.errnum }
        ret := if turn.produced.length = XS_CHUNK_SIZE then 1000 else turn.ret } := by
  have hcodec : (if s.xc.isCompress = true then Z.deflate (s.xc.isLast ≠ 0) s.xc.z s.xc.input
      else Z.inflate (s.xc.isLast ≠ 0) s.xc.z s.xc.input) = turn := by
    rw [← hturn, h.last, h.mode]
    unfold Zlib.finish
    cases isCompress <;> rfl
  unfold codec
  dsimp only
  rw [hcodec]

variable (h : Codec.Drained (Z.finish isCompress) XS_CHUNK_SIZE out)
include h

/-- The codec is called, or the loop ends. -/
theorem next_spec (hs : s.Inv Z isCompress out total l) (havail : s.xc.outavail = 0)
    (hlen : 0 < s.len) :
    (s.next Z).1.Inv Z isCompress out total l ∧
      ((s.next Z).2 = true → 0 < (s.next Z).1.len ∧ (s.next Z).1.measure < s.measure) ∧
      ((s.next Z).2 = false → (s.next Z).1.written = [] → total = l) := by
  have hpending := pending_of_outavail havail
  unfold next
  split_ifs with hstop
  · refine ⟨hs, fun hgo => absurd hgo (by decide), fun _ hnil => ?_⟩
    have htotal := hs.total
    rw [rest, hpending, hnil, List.nil_append, List.nil_append] at htotal
    obtain hret | h0 := hstop
    · have hout := hs.settled hret hnil hpending
      rw [htotal, hs.left.eq_nil h hout, hout]
    · have hinput : s.xc.input = [] := by
        rw [input, h0, List.take_zero]
      have hleft := hs.left
      rw [hinput] at hleft
      rw [htotal, hinput, hleft.of_nil]
  · obtain ⟨hret, h0⟩ := not_or.mp hstop
    rw [not_not] at hret
    obtain ⟨turn, hturn⟩ : ∃ turn, Z.finish isCompress s.xc.z s.xc.input = turn := ⟨_, rfl⟩
    have hconsumed := h.consumed_le s.xc.z s.xc.input
    have hproduced := h.produced_le s.xc.z s.xc.input
    have hout := h.out_eq s.xc.z s.xc.input
    have hfinished := h.finished s.xc.z s.xc.input
    have hprogress := h.progress s.xc.z s.xc.input
    have hne : s.xc.input ≠ [] := by
      rw [← List.length_pos_iff, hs.ready.length_input]
      omega
    have hleft := hs.left.step h hne
    rw [hturn] at hconsumed hproduced hout hfinished hprogress hleft
    rw [hs.ready.length_input] at hconsumed
    have hcodec := codec_eq hs.ready hturn
    have hinput : (s.codec Z).xc.input = s.xc.input.drop turn.consumed := by
      rw [hcodec]
      exact List.drop_take.symm
    have hpending' : (s.codec Z).xc.pending = turn.produced := by
      rw [hcodec, pending, List.drop_zero, List.take_left]
    have hz : (s.codec Z).xc.z = turn.state := by
      rw [hcodec]
    have hchunk := hs.ready.chunk
    have havailIn := hs.ready.avail
    refine ⟨⟨⟨?_, ?_, ?_, hs.ready.last, hs.ready.gzip, hs.ready.mode⟩, ?_, ?_, ?_⟩, fun _ => ?_,
      fun hgo => absurd hgo (by decide)⟩
    · rw [hcodec, List.length_append, List.length_drop]
      omega
    · rw [hcodec]
      dsimp only
      omega
    · rw [hcodec, List.length_drop]
      dsimp only
      omega
    · rw [hs.total, rest, rest, hpending, hpending', hinput, hz, hout]
      rfl
    · rw [hinput, hz]
      exact hleft
    · intro _ _ hnil
      rw [hpending'] at hnil
      rw [hinput, hz]
      exact hfinished (by rw [hnil]; decide)
    · refine ⟨hlen, ?_⟩
      rw [hcodec]
      unfold measure
      dsimp only
      rw [hret, havail, if_pos rfl, if_pos rfl]
      by_cases hzero : (if turn.produced.length = XS_CHUNK_SIZE then 1000 else turn.ret) = 0
      · rw [if_pos hzero]
        have hret0 : turn.ret = 0 := by
          split_ifs at hzero
          · exact absurd hzero (by decide)
          · exact hzero
        obtain hpos | hprod := hprogress hret0
        · split_ifs <;> omega
        · rw [if_neg (List.length_pos_iff.mpr hprod).ne']
          omega
      · rw [if_neg hzero]
        split_ifs <;> omega

/-- A round goes through. -/
theorem round_spec (hs : s.Inv Z isCompress out total l) (hlen : 0 < s.len) :
    ∃ t go, s.round Z = some (t, go) ∧ t.Inv Z isCompress out total l ∧
      (go = true → 0 < t.len ∧ t.measure < s.measure) ∧
      (go = false → t.written = [] → total = l) := by
  unfold round
  by_cases havail : s.xc.outavail = 0
  · rw [if_neg (not_not.mpr havail)]
    exact ⟨_, _, rfl, next_spec h hs havail hlen⟩
  rw [if_pos havail]
  obtain ⟨crc, wtotal, hstaged⟩ := staged_eq (Z := Z) hs.ready
  obtain ⟨t, ht⟩ : ∃ t, t = OutState.mk
      { s.xc with crc := crc, outavail := s.xc.outavail - s.len, wtotal := wtotal }
      (s.written ++ s.xc.pending.take s.len) (s.len - s.xc.outavail) s.ret := ⟨_, rfl⟩
  rw [hstaged, ← ht, Option.map_some]
  have hbounds := hs.ready.bounds
  have hlength := hs.ready.length_pending
  have htotal : total = t.written ++ (s.xc.pending.drop s.len ++ out s.xc.z s.xc.input) := by
    rw [hs.total, ht, rest, List.append_assoc, ← List.append_assoc (s.xc.pending.take s.len),
      List.take_append_drop]
  have hne : t.written ≠ [] := by
    rw [ht, Ne, List.append_eq_nil_iff, ← List.length_eq_zero_iff (l := List.take _ _),
      List.length_take, hlength]
    omega
  by_cases hfull : t.len = 0
  · rw [if_pos hfull]
    rw [ht] at hfull
    dsimp only at hfull
    refine ⟨_, _, rfl, ?_, fun hgo => absurd hgo (by decide), fun _ hnil => ?_⟩
    · by_cases hkept : t.xc.outavail ≠ 0
      · rw [full, if_pos hkept]
        refine ⟨?_, ?_, ?_, fun _ hnil => absurd hnil hne⟩
        · rw [ht]
          exact hs.ready.copied _ _ (by dsimp only; omega)
        · rw [htotal, ht, rest, pending, pending, List.drop_take, List.drop_drop]
          rfl
        · rw [ht]
          exact hs.left
      · rw [full, if_neg hkept]
        rw [not_not] at hkept
        refine ⟨?_, ?_, ?_, fun _ hnil => absurd hnil hne⟩
        · rw [ht]
          exact hs.ready.copied _ _ (by omega)
        · rw [ht] at hkept
          dsimp only at hkept
          rw [htotal, List.drop_eq_nil_of_le (by omega), rest,
            pending_of_outavail (show t.xc.outavail = 0 by rw [ht]; exact hkept), ht]
          rfl
        · rw [ht]
          exact hs.left
    · refine absurd ?_ hne
      unfold full at hnil
      split_ifs at hnil <;> exact hnil
  · -- everything was copied, and the codec is next
    rw [if_neg hfull]
    have hlen' : s.xc.outavail < s.len := by
      rw [ht] at hfull
      dsimp only at hfull
      omega
    have hnone : t.xc.outavail = 0 := by
      rw [ht]
      dsimp only
      omega
    have hinv : t.Inv Z isCompress out total l := by
      refine ⟨?_, ?_, ?_, fun _ hnil => absurd hnil hne⟩
      · rw [ht]
        exact hs.ready.copied _ _ (by omega)
      · rw [htotal, List.drop_eq_nil_of_le (by omega), rest, pending_of_outavail hnone, ht]
        rfl
      · rw [ht]
        exact hs.left
    have hmeasure : t.measure < s.measure := by
      unfold measure
      rw [hnone, if_pos rfl, if_neg havail, ht]
      dsimp only
      omega
    obtain ⟨hnext, hgo, hstop⟩ := next_spec h hinv hnone (by omega)
    exact ⟨_, _, rfl, hnext, fun hg => ⟨(hgo hg).1, (hgo hg).2.trans hmeasure⟩, hstop⟩

/-! ## A call -/

/-- The loop ends. -/
theorem loop_spec (fuel : ℕ) (hs : s.Inv Z isCompress out total l) (hlen : 0 < s.len)
    (hfuel : s.measure < fuel) :
    ∃ t, s.loop Z fuel = some t ∧ t.Inv Z isCompress out total l ∧
      (t.written = [] → total = l) := by
  induction fuel generalizing s with
  | zero => omega
  | succ fuel ih =>
    obtain ⟨t, go, hround, ht, hgo, hstop⟩ := round_spec h hs hlen
    unfold loop
    rw [hround, Option.bind_some]
    dsimp only
    cases go with
    | true =>
      obtain ⟨hlen', hmeasure⟩ := hgo rfl
      exact ih ht hlen' (by omega)
    | false => exact ⟨t, rfl, ht, hstop rfl⟩

end OutState

section Calls

open Compress

variable {Z : Zlib κ} {isCompress : Bool} {out : κ → List UInt8 → List UInt8} {l : List UInt8}
  {xc : Compress κ}

/-- A call delivers the next bytes, or none if only what is left is still to come. -/
theorem compressOut_spec (h : Codec.Drained (Z.finish isCompress) XS_CHUNK_SIZE out)
    (hxc : xc.Ready isCompress) (hl : Codec.Left (Z.finish isCompress) out xc.z xc.input l)
    {len : ℕ} (hlen : 0 < len) :
    ∃ d xc', compressOut Z xc len = some (d, xc') ∧ (d = [] → xc.rest out = l) ∧
      (d ≠ [] → xc'.Ready isCompress ∧
        Codec.Left (Z.finish isCompress) out xc'.z xc'.input l ∧
        xc.rest out = d ++ xc'.rest out) := by
  obtain ⟨s, hs⟩ : ∃ s, s = OutState.mk xc [] len 0 := ⟨_, rfl⟩
  have hinv : s.Inv Z isCompress out (xc.rest out) l := by
    rw [hs]
    exact ⟨hxc, rfl, hl, fun hret => absurd rfl hret⟩
  have hheader : s.header = s := by
    rw [OutState.header, if_neg]
    rw [hs]
    rintro ⟨-, -, hgzip⟩
    rw [hxc.gzip] at hgzip
    exact absurd hgzip (by decide)
  have hslen : s.len = len := by rw [hs]
  have hlast : s.xc.isLast = 1 := hinv.ready.last
  have hfuel : s.measure < 2 * (xc.availIn + len) + 3 := by
    rw [hs]
    unfold OutState.measure
    dsimp only
    split_ifs <;> omega
  obtain ⟨t, hloop, ht, hleft⟩ := OutState.loop_spec h _ hinv (by omega) hfuel
  unfold compressOut
  rw [if_neg (by omega), ← hs]
  dsimp only
  rw [hheader, if_pos (by omega), hloop, Option.bind_some]
  by_cases hwritten : t.written = []
  · have hgzip := ht.ready.gzip
    have hfooter : ∃ xc', t.footer = some { t with xc := xc' } := by
      unfold OutState.footer
      dsimp only
      rw [if_pos ⟨by rw [ht.ready.last]; decide, hwritten⟩, ht.ready.last, if_pos rfl]
      dsimp only
      rw [hgzip, if_neg (by simp), if_neg (by simp)]
      exact ⟨_, rfl⟩
    obtain ⟨xc', hfooter⟩ := hfooter
    refine ⟨t.written, xc', by rw [hfooter]; rfl, fun _ => hleft hwritten, ?_⟩
    exact fun hne => absurd hwritten hne
  · have hfooter : t.footer = some t := if_neg fun hf => hwritten hf.2
    refine ⟨t.written, t.xc, by rw [hfooter]; rfl, fun hnil => absurd hnil hwritten, fun _ => ?_⟩
    exact ⟨ht.ready, ht.left, ht.total⟩

/-- The calls deliver everything but what is left. -/
theorem exists_drains (h : Codec.Drained (Z.finish isCompress) XS_CHUNK_SIZE out)
    (hxc : xc.Ready isCompress) (hl : Codec.Left (Z.finish isCompress) out xc.z xc.input l)
    (lens : ℕ → ℕ) (hlens : ∀ i, 0 < lens i) :
    ∃ d, Drains Z xc lens d ∧ xc.rest out = d ++ l := by
  obtain ⟨n, hn⟩ : ∃ n, (xc.rest out).length ≤ n := ⟨_, Nat.le_refl _⟩
  induction n generalizing xc lens with
  | zero =>
    obtain ⟨d, xc', hout, hnil, hcons⟩ := compressOut_spec h hxc hl (hlens 0)
    have hd : d = [] := by
      by_contra hne
      have hlength := congrArg List.length (hcons hne).2.2
      rw [List.length_append] at hlength
      have := List.length_pos_iff.mpr hne
      omega
    subst hd
    exact ⟨[], .stop hout, hnil rfl⟩
  | succ n ih =>
    obtain ⟨d, xc', hout, hnil, hcons⟩ := compressOut_spec h hxc hl (hlens 0)
    by_cases hd : d = []
    · subst hd
      exact ⟨[], .stop hout, hnil rfl⟩
    obtain ⟨hxc', hl', hrest⟩ := hcons hd
    have hlength := congrArg List.length hrest
    rw [List.length_append] at hlength
    have hpos := List.length_pos_iff.mpr hd
    obtain ⟨ds, hds, hrest'⟩ := ih hxc' hl' (fun i => lens (i + 1)) (fun i => hlens (i + 1))
      (by omega)
    exact ⟨d ++ ds, .more hout hd hds, by rw [hrest, hrest', List.append_assoc]⟩

end Calls

/-! ## One input -/

/-- In the modes without gzip `xs_compress_in` hands its input on. -/
theorem compressIn_eq (Z : Zlib κ) {t : CompressType} (ht : t.isGzip = false) (z : κ)
    (x : List UInt8) :
    ∃ xc, compressIn Z (compressCreate t z) x true = some (0, xc) ∧ xc.Ready t.isCompress ∧
      xc.z = z ∧ xc.input = x.take (x.length % 2 ^ 32) ∧ xc.pending = [] := by
  have hgzip : ¬(compressCreate t z).isGzip = true := by
    rw [show (compressCreate t z).isGzip = t.isGzip from rfl, ht]
    decide
  refine ⟨(compressCreate t z).hand x true, ?_, ⟨?_, ?_, ?_, rfl, ht, rfl⟩, rfl, rfl, ?_⟩
  · unfold compressIn
    rw [if_neg fun hg => hgzip hg.1, if_neg fun hg => hgzip hg.1]
  · exact List.length_replicate
  · exact Nat.zero_le _
  · exact Nat.mod_le _ _
  · exact Compress.pending_of_outavail rfl

/-- A codec that knows what it makes of its input, and takes the input at once. -/
def known (make : List UInt8 → List UInt8) :
    Option (List UInt8) → List UInt8 → Codec.Turn (Option (List UInt8)) UInt8
  | none, x =>
    let y := make x
    ⟨some (y.drop XS_CHUNK_SIZE), x.length, y.take XS_CHUNK_SIZE,
      if y.length > XS_CHUNK_SIZE then -5 else 1⟩
  | some y, _ =>
    ⟨some (y.drop XS_CHUNK_SIZE), 0, y.take XS_CHUNK_SIZE,
      if y.length > XS_CHUNK_SIZE then -5 else 1⟩

/-- What it has to produce. -/
def knownOut (make : List UInt8 → List UInt8) : Option (List UInt8) → List UInt8 → List UInt8
  | none, x => make x
  | some y, _ => y

theorem known_drained {make : List UInt8 → List UInt8}
    (hmake : ∀ x y, y <+: x → make x <+: make y → make x = make y) :
    Codec.Drained (known make) XS_CHUNK_SIZE (knownOut make) where
  consumed_le k x := by
    cases k with
    | none => exact Nat.le_refl _
    | some y => exact Nat.zero_le _
  produced_le k x := by
    cases k <;> exact List.length_take_le _ _
  out_eq k x := by
    cases k <;> exact (List.take_append_drop _ _).symm
  finished k x hlt := by
    have hdrop : ∀ y : List UInt8, (y.take XS_CHUNK_SIZE).length < XS_CHUNK_SIZE →
        y.drop XS_CHUNK_SIZE = [] := by
      intro y hlt
      rw [List.length_take] at hlt
      exact List.drop_eq_nil_of_le (by omega)
    cases k <;> exact hdrop _ hlt
  progress k x hret := by
    have hne : ∀ y : List UInt8, (if y.length > XS_CHUNK_SIZE then (-5 : ℤ) else 1) ≠ 0 := by
      intro y
      split_ifs <;> decide
    cases k <;> exact absurd hret (hne _)
  whole k x y hprefix hout := by
    cases k with
    | none => exact hmake x y hprefix hout
    | some _ => rfl

/-- It keeps what does not fit the first block. -/
theorem known_left (make : List UInt8 → List UInt8) {x : List UInt8} (hx : x ≠ []) :
    Codec.Left (known make) (knownOut make) none x ((make x).drop XS_CHUNK_SIZE) := by
  refine .call hx ?_
  rw [show (known make none x).consumed = x.length from rfl, List.drop_length]
  exact .used _

/-- The raw stream of 8200 zeros. -/
def zeroStream : List UInt8 :=
  [0xed, 0xc1, 0x01, 0x0d, 0x00, 0x00, 0x00, 0xc2, 0xa0, 0xf7, 0x4f, 0x6d, 0x0f, 0x07, 0x14, 0x00,
    0x00, 0x00, 0x00, 0x00, 0x00, 0x00, 0xf0, 0x62]

/-- What is decompressed of its beginnings. -/
def inflateZeros (x : List UInt8) : List UInt8 :=
  if zeroStream.isPrefixOf x then List.replicate 8200 0 else []

/-- zlib, as far as it is known : the raw stream of nothing, and that of the zeros. -/
def zeroZlib : Zlib (Option (List UInt8)) where
  deflate _ := known fun _ => [0x03, 0x00]
  inflate _ := known inflateZeros
  crc32 crc _ := crc

theorem deflate_drained :
    Codec.Drained (zeroZlib.finish true) XS_CHUNK_SIZE (knownOut fun _ => [0x03, 0x00]) :=
  known_drained fun _ _ _ _ => rfl

theorem inflate_drained :
    Codec.Drained (zeroZlib.finish false) XS_CHUNK_SIZE (knownOut inflateZeros) := by
  refine known_drained fun x y hprefix hout => ?_
  unfold inflateZeros at hout ⊢
  by_cases hy : zeroStream.isPrefixOf y = true
  · have hx := List.isPrefixOf_iff_prefix.mpr ((List.isPrefixOf_iff_prefix.mp hy).trans hprefix)
    rw [if_pos hy, if_pos hx]
  · rw [if_neg hy] at hout ⊢
    exact List.prefix_nil.mp hout

end Webxs
