import Webxs.Calls
import Webxs.FrameHeader
import Webxs.Reading

/-!
# The payload of a masked frame

The `i`-th byte of the payload of a frame is masked with the byte `i % 4` of its key.
`xs_conn_httpread` returns the payload in pieces, and starts with the first byte of the key in each
of them. So what it returns is the payload if the key looks the same from where a piece starts
(`Conn.KeyInPhase`), as it does at a multiple of 4 (`payload_of_keyInPhase`), and it is not when a
piece starts elsewhere (`not_payload`).
-/

namespace Webxs

/-! ## Masks -/

/-- The bytes `l` masked, where the first of them is the byte `o` of a payload. -/
def maskFrom (key : List UInt8) (o : ℕ) (l : List UInt8) : List UInt8 :=
  l.mapIdx fun n a => a ^^^ key.getD ((o + n) % 4) 0

@[simp] theorem length_maskFrom (key : List UInt8) (o : ℕ) (l : List UInt8) :
    (maskFrom key o l).length = l.length := by
  simp [maskFrom]

theorem maskFrom_append (key : List UInt8) (o : ℕ) (l m : List UInt8) :
    maskFrom key o (l ++ m) = maskFrom key o l ++ maskFrom key (o + l.length) m := by
  simp only [maskFrom, List.mapIdx_append]
  congr 2
  funext n a
  rw [show o + (n + l.length) = o + l.length + n by omega]

theorem take_maskFrom (key : List UInt8) (o n : ℕ) (l : List UInt8) :
    (maskFrom key o l).take n = maskFrom key o (l.take n) :=
  List.ext_getElem (by simp) fun i _ _ => by simp [maskFrom]

/-- Each read starts with the first byte of the key. -/
theorem unmask_eq (key bytes : List UInt8) : unmask key bytes = maskFrom key 0 bytes := by
  unfold unmask maskFrom
  simp only [Nat.zero_add]
  split_ifs with h
  · subst h
    have h0 : ∀ j < 4, [(0 : UInt8), 0, 0, 0].getD j 0 = 0 := by decide
    refine (List.ext_getElem (by simp) fun i h₁ h₂ => ?_).symm
    rw [List.getElem_mapIdx, h0 _ (Nat.mod_lt i (by omega)), UInt8.xor_zero]
  · rfl

/-- The masks of a piece that starts at `o` agree if the key looks the same from there. -/
theorem maskFrom_congr {key : List UInt8} {o : ℕ} {l : List UInt8}
    (h : ∀ n < l.length, key.getD (n % 4) 0 = key.getD ((o + n) % 4) 0) :
    maskFrom key 0 l = maskFrom key o l := by
  refine List.ext_getElem (by simp) fun i h₁ h₂ => ?_
  rw [length_maskFrom] at h₁
  simp only [maskFrom, List.getElem_mapIdx, Nat.zero_add, h i h₁]

/-! ## Headers -/

/-- The header of a frame that is masked with `key`, of a payload of `n` bytes; `b` is its first
byte. -/
inductive MaskedHeader (b : UInt8) (key : List UInt8) : ℕ → List UInt8 → Prop
  | short {n : ℕ} (h : n < 126) : MaskedHeader b key n (b :: UInt8.ofNat (128 + n) :: key)
  | medium {n : ℕ} (h : n < 2 ^ 16) : MaskedHeader b key n (b :: 254 :: (bytesBE n 2 ++ key))
  | long {n : ℕ} (h : n < 2 ^ 64) : MaskedHeader b key n (b :: 255 :: (bytesBE n 8 ++ key))

/-- A header of any of the three forms : `ext` is what follows the second byte `b'`. -/
theorem frameScan_masked {b b' : UInt8} {ext key : List UInt8} {v : ℕ} (hb : 128 ≤ b'.toNat)
    (hext : ext.length = lenBytes (b'.toNat % 128)) (hk : key.length = 4)
    (hv : (if b'.toNat % 128 < 126 then some (b'.toNat % 128)
      else readBE (b :: b' :: (ext ++ key)) 2 (lenBytes (b'.toNat % 128))) = some v) :
    frameScan (b :: b' :: (ext ++ key)) =
      some (((b :: b' :: (ext ++ key)).length : ℤ), key, v) := by
  have hparts : HeaderParts b b' ext key v := ⟨hext, hk.trans (if_pos hb).symm, hv⟩
  have hne : key ≠ [] := List.ne_nil_of_length_pos (by omega)
  rw [hparts.frameScan_eq, if_neg hne]

/-- A masked header is read back. -/
theorem frameScan_of_maskedHeader {b : UInt8} {key hdr : List UInt8} {n : ℕ} (hk : key.length = 4)
    (h : MaskedHeader b key n hdr) : frameScan hdr = some ((hdr.length : ℤ), key, n) := by
  cases h with
  | short h =>
    have h128 : (UInt8.ofNat (128 + n)).toNat = 128 + n := by
      rw [UInt8.toNat_ofNat']
      omega
    have hmod : (128 + n) % 128 = n := by omega
    change frameScan (b :: UInt8.ofNat (128 + n) :: ([] ++ key)) = _
    refine frameScan_masked (by omega) ?_ hk ?_
    · rw [h128, hmod, lenBytes, if_pos h, List.length_nil]
    · rw [h128, hmod, if_pos h]
  | medium h =>
    refine frameScan_masked (by decide) (length_bytesBE 2 n) hk ?_
    rw [if_neg (by decide)]
    exact (readBE_bytesBE [b, 254] 2 n key).trans (congrArg some (Nat.mod_eq_of_lt h))
  | long h =>
    refine frameScan_masked (by decide) (length_bytesBE 8 n) hk ?_
    rw [if_neg (by decide)]
    exact (readBE_bytesBE [b, 255] 8 n key).trans (congrArg some (Nat.mod_eq_of_lt h))

/-! ## Starting a frame -/

/-- What `req` holds while the byte `o` of the payload of a frame is next. -/
structure HttpReq.Frame (req : HttpReq) (key : List UInt8) (size o : ℕ) : Prop where
  contentlen : req.contentlen = size
  consumed : req.consumed = o
  datamask : req.datamask = key
  chunked : req.chunked = false
  header : req.header = false

theorem websocketFrameparse_frame (id size : ℕ) (b : UInt8) (key : List UInt8) (n : ℕ) :
    (websocketFrameparse (HttpReq.alloc id size) b key n).2.Frame key n 0 ∧
      (websocketFrameparse (HttpReq.alloc id size) b key n).2.reqlen = 0 := by
  unfold websocketFrameparse
  dsimp only
  split_ifs <;> exact ⟨⟨rfl, rfl, rfl, rfl, rfl⟩, rfl⟩

/-- A frame that is started is only marked, and a ping or pong answered. -/
theorem readStarted_frame (env : Env) {c : Conn} (s : ℤ) (hu : c.upgrade = 2) {req : HttpReq}
    (hreq : c.req = [req]) :
    (readStarted env c s).1.bytes = [] ∧ (readStarted env c s).2.toPeer = c.toPeer ∧
      (readStarted env c s).2.toRecvBuf = c.toRecvBuf ∧ (readStarted env c s).2.upgrade = 2 ∧
      (readStarted env c s).2.req = [{ req with upgrade := 2 }] := by
  have hm : c.markUpgrade = { c with req := [{ req with upgrade := 2 }] } := by
    simp [Conn.markUpgrade, Conn.modifyReq, hu, hreq]
  have hs : readStarted env c s =
      startFrame { c with req := [{ req with upgrade := 2 }] } s { req with upgrade := 2 } := by
    unfold readStarted
    rw [hm]
    rfl
  rw [hs]
  unfold startFrame
  dsimp only
  split_ifs <;> exact ⟨rfl, rfl, rfl, hu, rfl⟩

theorem httpCreatereq_frame (env : Env) {c : Conn} (hv : c.toRecvBuf.Valid) (hu : c.upgrade = 2)
    (hreq : c.req = []) {n : ℤ} {key : List UInt8} {size : ℕ}
    (hf : frameScan c.buf = some (n, key, size)) :
    httpCreatereq env c n = some (c.parseReq env none (n, key, size) (c.buf.take n.toNat)) := by
  obtain ⟨hpos, hle, hvalid⟩ := frameScan_bound hf
  have hlen := hv.length_buf
  dsimp only at hpos hle
  rw [hlen] at hvalid
  have hparts : c.headParts n = some (n, key, size) := by
    rw [Conn.headParts, if_pos (by omega), hvalid]
  unfold httpCreatereq
  simp only [hu, hreq, hparts, ne_eq, OfNat.ofNat_ne_zero, not_false_eq_true, if_true,
    List.getLast?_nil, Option.bind_some]
  rw [if_neg (by omega), readBytes_of_le (by omega), List.drop_zero, Option.map_some]

/-- A frame found is refused and stays where it is, if its opcode is, or its payload comes next. -/
theorem readFound_parsed (env : Env) {c : Conn} (s : ℤ) (hv : c.toRecvBuf.Valid)
    (hu : c.upgrade = 2) {n : ℤ} {key : List UInt8} {size : ℕ}
    (hf : frameScan c.buf = some (n, key, size)) {p : ℤ × HttpReq}
    (hp : websocketFrameparse (HttpReq.alloc c.nalloc (n.toNat + 1)) ((c.buf.take n.toNat).headD 0)
      key size = p) :
    ∃ r, readFound env c s n = some r ∧ r.1.bytes = [] ∧ r.2.toPeer = c.toPeer ∧ r.2.upgrade = 2 ∧
      (p.1 ≠ 0 → r.1.n = -1 ∧ r.2.errnum = Error.InvalidRequest ∧ r.2.toRecvBuf = c.toRecvBuf ∧
        r.2.req = [p.2]) ∧
      (p.1 = 0 → r.2.toRecvBuf = c.toRecvBuf.consume n ∧
        r.2.req = [{ p.2 with reqlen := n, upgrade := 2 }]) := by
  have hu' : c.recycle.upgrade = 2 := hu
  unfold readFound
  rw [httpCreatereq_frame env (c := c.recycle) hv hu' rfl hf, Option.map_some]
  have hparse : c.recycle.parseReq env none (n, key, size) (c.buf.take n.toNat) =
      c.recycle.linkParsed n (c.nalloc + 1) p := by
    unfold Conn.parseReq
    dsimp only
    rw [if_neg (by rw [hu']; decide), ← hp]
    rfl
  rw [show c.recycle.buf = c.buf from rfl, hparse]
  unfold Conn.linkParsed
  by_cases he : p.1 = 0
  · rw [if_neg (not_not_intro he), readCreated, if_neg (not_not_intro rfl)]
    obtain ⟨hbytes, hpeer, hbuf, hupgrade, hreq⟩ := readStarted_frame env s
      (c := (c.recycle.setBuf (c.recycle.consume n)).link (c.nalloc + 1) { p.2 with reqlen := n })
      hu rfl
    exact ⟨_, rfl, hbytes, hpeer, hupgrade, fun hne => absurd he hne, fun _ => ⟨hbuf, hreq⟩⟩
  · rw [if_pos he, readCreated, if_pos (show (-2 : ℤ) ≠ 0 by decide)]
    exact ⟨_, rfl, rfl, rfl, hu, fun _ => ⟨rfl, rfl, rfl, rfl⟩, fun h0 => absurd h0 he⟩

theorem readFound_frame (env : Env) {c : Conn} (s : ℤ) (hv : c.toRecvBuf.Valid) (hu : c.upgrade = 2)
    {n : ℤ} {key : List UInt8} {size : ℕ} (hf : frameScan c.buf = some (n, key, size)) :
    ∃ r, readFound env c s n = some r ∧ r.1.bytes = [] ∧ r.2.toPeer = c.toPeer ∧ r.2.upgrade = 2 ∧
      (r.2.toRecvBuf = c.toRecvBuf ∧ httpState r.2.req.head? = ConnState.Pending ∨
        r.2.toRecvBuf = c.toRecvBuf.consume n ∧
          ∃ req, r.2.req.head? = some req ∧ req.reqlen ≠ 0 ∧ req.Frame key size 0) := by
  have hpos := (frameScan_bound hf).1
  obtain ⟨hframe, hlen⟩ := websocketFrameparse_frame c.nalloc (n.toNat + 1)
    ((c.buf.take n.toNat).headD 0) key size
  obtain ⟨r, hr, hbytes, hpeer, hupgrade, hbad, hgood⟩ := readFound_parsed env s hv hu hf rfl
  refine ⟨r, hr, hbytes, hpeer, hupgrade, ?_⟩
  generalize websocketFrameparse (HttpReq.alloc c.nalloc (n.toNat + 1))
    ((c.buf.take n.toNat).headD 0) key size = p at hframe hlen hbad hgood
  by_cases he : p.1 = 0
  · obtain ⟨hbuf, hreq⟩ := hgood he
    obtain ⟨h1, h2, h3, h4, h5⟩ := hframe
    exact .inr ⟨hbuf, { p.2 with reqlen := n, upgrade := 2 }, by rw [hreq]; rfl, hpos.ne',
      h1, h2, h3, h4, h5⟩
  · obtain ⟨-, -, hbuf, hreq⟩ := hbad he
    exact .inl ⟨hbuf, by rw [hreq]; exact httpState_eq_pending.mpr hlen⟩

/-! ## A frame over the calls -/

/-- The connection is upgraded, and a frame begins with the input. -/
structure Conn.AtFrame (c : Conn) (input : List UInt8) : Prop where
  good : c.Good
  between : c.Between
  upgrade : c.upgrade = 2
  input : c.toRecvBuf.unread ++ c.pending = input

/-- The byte `o` of the payload `wire` of a frame is next. -/
structure Conn.InFrame (c : Conn) (key wire rest : List UInt8) (o : ℕ) : Prop where
  good : c.Good
  lt : o < wire.length
  req : ∃ req, c.req.head? = some req ∧ req.reqlen ≠ 0 ∧ req.Frame key wire.length o
  input : c.toRecvBuf.unread ++ c.pending = wire.drop o ++ rest

/-- The read of a payload that a call makes starts where the key looks as it does at its start. -/
def Conn.KeyInPhase (c : Conn) (len : ℕ) : Prop :=
  ∀ req ∈ c.req.head?, req.reqlen ≠ 0 →
    ∀ n < (c.atHand (min len (req.contentlen - req.consumed))).length,
      req.datamask.getD (n % 4) 0 = req.datamask.getD ((req.consumed + n) % 4) 0

instance (c : Conn) (len : ℕ) : Decidable (c.KeyInPhase len) := by
  unfold Conn.KeyInPhase
  infer_instance

theorem between_lastChunkWhole {c : Conn} (hb : c.Between) : c.LastChunkWhole := by
  rintro ⟨req, hr, hl, hch, -⟩
  rw [Option.mem_def] at hr
  unfold Conn.Between httpState at hb
  simp only [hr, hl, hch, if_false] at hb
  exfalso
  revert hb
  split_ifs <;> simp_all [ConnState.Pending, ConnState.Complete, ConnState.Response,
    ConnState.Header]

/-- Before the payload nothing is returned. -/
theorem atFrame_step (env : Env) {c : Conn} {b : UInt8} {key wire rest hdr : List UInt8}
    (hk : key.length = 4) (hh : MaskedHeader b key wire.length hdr)
    (hc : c.AtFrame (hdr ++ (wire ++ rest))) {len : ℕ} {r : ReadRet × Conn}
    (hr : connHttpread env c len = some r) :
    r.1.bytes = [] ∧
      (r.2.AtFrame (hdr ++ (wire ++ rest)) ∨ r.2.InFrame key wire rest 0 ∨ wire = []) := by
  obtain ⟨r', hr', hg⟩ := connHttpread_good env hc.good (between_lastChunkWhole hc.between) len
  rw [hr] at hr'
  cases hr'
  obtain ⟨c', s, hready, -, hcall⟩ := connHttpread_of_between env hc.good hc.between len
  rw [hcall] at hr
  have hwhole : c'.toRecvBuf.unread ++ c'.pending = hdr ++ (wire ++ rest) := by
    rw [hready.unread, hready.toPeer]
    exact hc.input
  obtain ⟨o, p, b', hbv, hb0, -, hin, ⟨⟨n, hn⟩, -⟩ | ⟨n, hpos, hfound, -, hn⟩⟩ :=
    readHead_cases env s hready.good.valid hready.consumed
  · rw [hn] at hr
    cases hr
    exact ⟨rfl, .inl ⟨hg, .inl hready.pending, hready.upgrade.trans hc.upgrade, by
      rw [Conn.put_toRecvBuf, RecvBuf.unread_eq_buf hb0]
      exact hin.trans hwhole⟩⟩
  · have hu : c'.upgrade = 2 := hready.upgrade.trans hc.upgrade
    rw [headFound, if_neg (by omega)] at hfound
    obtain ⟨f, hf, rfl⟩ := Option.map_eq_some_iff.mp hfound
    -- the header in the buffer is the one that begins the input
    obtain rfl : f = ((hdr.length : ℤ), key, wire.length) := by
      have h₁ := frameScan_incremental.of_prefix hf (List.prefix_append b'.buf p.pending)
      have h₂ := frameScan_incremental.of_prefix (frameScan_of_maskedHeader hk hh)
        (List.prefix_append hdr (wire ++ rest))
      rw [hin.trans hwhole, h₂] at h₁
      exact (Option.some.inj h₁).symm
    obtain ⟨r', hr', hbytes, hpeer, hupgrade, hcase⟩ :=
      readFound_frame env (c := c'.put o p b') s hbv hu hf
    rw [hn, hr'] at hr
    cases hr
    refine ⟨hbytes, ?_⟩
    obtain ⟨hbuf, hpending⟩ | ⟨hbuf, hreq⟩ := hcase
    · refine .inl ⟨hg, .inl hpending, hupgrade, ?_⟩
      rw [hbuf, hpeer, Conn.put_toRecvBuf, Conn.put_toPeer, RecvBuf.unread_eq_buf hb0]
      exact hin.trans hwhole
    · refine .inr ?_
      rcases Nat.eq_zero_or_pos wire.length with hw | hw
      · exact .inr (List.length_eq_zero_iff.mp hw)
      · refine .inl ⟨hg, hw, hreq, ?_⟩
        have hle := (frameScan_bound hf).2.1
        dsimp only at hle
        rw [hbuf, hpeer, Conn.put_toRecvBuf, Conn.put_toPeer, hbv.unread_consume (by omega),
          RecvBuf.unread_eq_buf hb0, List.drop_zero, Int.toNat_natCast,
          ← List.drop_append_of_le_length (by omega),
          hin.trans hwhole, List.drop_left]

/-- A read of the payload goes on in it, and stops at its end if `recv` is asked for no more. -/
theorem inFrame_read (env : Env) {c : Conn} {key wire rest : List UInt8} {o : ℕ}
    (hc : c.InFrame key wire rest o) (hsize : wire.length < 2 ^ 64) {len : ℕ}
    {r : ReadRet × Conn} (hr : connHttpread env c len = some r) :
    ∃ req req' raw, c.req.head? = some req ∧ req.reqlen ≠ 0 ∧ req.Frame key wire.length o ∧
      c.atHand (min len (req.contentlen - req.consumed)) = raw ∧ r.1.bytes = unmask key raw ∧
      raw <+: (wire ++ rest).drop o ∧ r.2.Good ∧ r.2.upgrade = c.upgrade ∧
      r.2.req.head? = some req' ∧ req'.reqlen ≠ 0 ∧ req'.opcode = req.opcode ∧
      req'.Frame key wire.length ((o + raw.length) % 2 ^ 64) ∧
      r.2.toRecvBuf.unread ++ r.2.pending = (wire ++ rest).drop (o + raw.length) := by
  obtain ⟨req, hreq, hl, hframe⟩ := hc.req
  obtain ⟨h1, h2, h3, h4, h5⟩ := hframe
  have hlt := hc.lt
  have hreading : c.Reading req :=
    ⟨⟨hc.good.valid, hreq, hl, hc.good.undone req hreq⟩, h5, .inr (by omega)⟩
  obtain ⟨r', hr', hg⟩ := connHttpread_good env hc.good (by
    rintro ⟨req', hr', -, hch, -⟩
    rw [Option.mem_def, hreq] at hr'
    cases hr'
    rw [h4] at hch
    cases hch) len
  rw [hr] at hr'
  cases hr'
  rw [connHttpread_of_reading env hreading, readBody, if_neg (by simp [h4])] at hr
  obtain ⟨raw, hraw⟩ : ∃ raw, c.atHand (min len (req.contentlen - req.consumed)) = raw := ⟨_, rfl⟩
  obtain ⟨n, re, out, p, b, hdata, hb, hin, -⟩ :=
    readData_spec (c := c.setErr 0) hc.good.valid (by omega) len hraw
  rw [hdata] at hr
  cases hr
  have hinput : c.toRecvBuf.unread ++ c.pending = (wire ++ rest).drop o := by
    rw [hc.input, List.drop_append_of_le_length (by omega)]
  have hprefix : raw <+: (wire ++ rest).drop o := by
    rw [← hraw, ← hinput]
    exact c.atHand_prefix _
  have hin' : b.unread ++ p.pending = (wire ++ rest).drop (o + raw.length) := by
    rw [hin, show (c.setErr 0).toRecvBuf.unread ++ (c.setErr 0).pending = _ from hinput,
      List.drop_drop]
  rw [h3] at hg ⊢
  by_cases hnil : raw = []
  · rw [if_pos hnil] at hg ⊢
    have hmod : (o + raw.length) % 2 ^ 64 = o := by
      rw [hnil, List.length_nil, Nat.add_zero]
      exact Nat.mod_eq_of_lt (by omega)
    exact ⟨req, req, raw, hreq, hl, ⟨h1, h2, h3, h4, h5⟩, hraw, rfl, hprefix, hg, rfl, hreq, hl,
      rfl, ⟨h1, h2.trans hmod.symm, h3, h4, h5⟩, hin'⟩
  · rw [if_neg hnil] at hg ⊢
    refine ⟨req, _, raw, hreq, hl, ⟨h1, h2, h3, h4, h5⟩, hraw, rfl, hprefix, hg, rfl,
      ((hreading.busy.put hb out p).modifyReq ⟨rfl, rfl⟩).head, hl, rfl,
      ⟨h1, ?_, h3, h4, h5⟩, hin'⟩
    dsimp only
    rw [h2]

/-- A read of the payload returns its next bytes unmasked, if the key is in phase. -/
theorem inFrame_step (env : Env) {c : Conn} {key wire rest : List UInt8} {o : ℕ}
    (hc : c.InFrame key wire rest o) (hsize : wire.length < 2 ^ 64) {len : ℕ}
    (hphase : c.KeyInPhase len) {r : ReadRet × Conn} (hr : connHttpread env c len = some r) :
    ∃ k, r.1.bytes = maskFrom key o (((wire ++ rest).drop o).take k) ∧
      (o + k < wire.length → r.2.InFrame key wire rest (o + k)) ∧
        k ≤ ((wire ++ rest).drop o).length := by
  obtain ⟨req, req', raw, hreq, hl, hframe, hraw, hbytes, hprefix, hg, -, hreq', hl', -, hframe',
    hin⟩ := inFrame_read env hc hsize hr
  refine ⟨raw.length, ?_, fun hmore => ⟨hg, hmore, ⟨req', hreq', hl', ?_⟩, ?_⟩, hprefix.length_le⟩
  · rw [hbytes, unmask_eq, ← List.prefix_iff_eq_take.mp hprefix]
    refine maskFrom_congr fun n hn => ?_
    have := hphase req hreq hl n (by rw [hraw]; exact hn)
    rwa [hframe.datamask, hframe.consumed] at this
  · rwa [Nat.mod_eq_of_lt (by omega)] at hframe'
  · rw [hin, List.drop_append_of_le_length hmore.le]

/-- What a caller has after the calls : nothing before the payload, then its first bytes, then all
of it and what follows. -/
def FrameSeen (key hdr wire rest : List UInt8) (c : Conn) (seen : List UInt8) : Prop :=
  seen = [] ∧ c.AtFrame (hdr ++ (wire ++ rest)) ∨
    (∃ o, seen = maskFrom key 0 ((wire ++ rest).take o) ∧ c.InFrame key wire rest o) ∨
    seen.take wire.length = maskFrom key 0 wire

theorem frameSeen_step (env : Env) {b : UInt8} {key wire rest hdr : List UInt8}
    (hk : key.length = 4) (hh : MaskedHeader b key wire.length hdr) (hsize : wire.length < 2 ^ 64)
    {c : Conn} {seen : List UInt8} {len : ℕ} {r : ReadRet × Conn}
    (h : FrameSeen key hdr wire rest c seen) (hphase : c.KeyInPhase len)
    (hr : connHttpread env c len = some r) :
    FrameSeen key hdr wire rest r.2 (seen ++ r.1.bytes) := by
  obtain ⟨rfl, hc⟩ | ⟨o, rfl, hc⟩ | hall := h
  · obtain ⟨hbytes, hat | hin | rfl⟩ := atFrame_step env hk hh hc hr
    · exact .inl ⟨by rw [hbytes]; rfl, hat⟩
    · exact .inr (.inl ⟨0, by rw [hbytes]; rfl, hin⟩)
    · exact .inr (.inr (by rw [hbytes]; rfl))
  · obtain ⟨k, hbytes, hmore, hle⟩ := inFrame_step env hc hsize hphase hr
    have hlt := hc.lt
    have hseen : maskFrom key 0 ((wire ++ rest).take o) ++ r.1.bytes =
        maskFrom key 0 ((wire ++ rest).take (o + k)) := by
      rw [hbytes, List.take_add, maskFrom_append, List.length_take, List.length_append,
        Nat.zero_add, min_eq_left (by omega)]
    rw [hseen]
    by_cases h' : o + k < wire.length
    · exact .inr (.inl ⟨_, rfl, hmore h'⟩)
    · refine .inr (.inr ?_)
      rw [take_maskFrom, List.take_take, min_eq_left (by omega), List.take_left]
  · refine .inr (.inr ?_)
    rw [List.take_append_of_le_length ?_, hall]
    have := congrArg List.length hall
    rw [List.length_take, length_maskFrom] at this
    omega

theorem FrameSeen.take_prefix {key hdr wire rest : List UInt8} {c : Conn} {seen : List UInt8}
    (h : FrameSeen key hdr wire rest c seen) : seen.take wire.length <+: maskFrom key 0 wire := by
  obtain ⟨rfl, -⟩ | ⟨o, rfl, hc⟩ | hall := h
  · rw [List.take_nil]
    exact List.nil_prefix
  · have := hc.lt
    rw [take_maskFrom, List.take_take, min_eq_right (by omega),
      List.take_append_of_le_length (by omega), ← take_maskFrom]
    exact List.take_prefix _ _
  · rw [hall]

theorem MaskedHeader.lt {b : UInt8} {key hdr : List UInt8} {n : ℕ} (h : MaskedHeader b key n hdr) :
    n < 2 ^ 64 := by
  cases h <;> omega

/-- The payload that the calls returned, in order. -/
def payload (rs : List (ReadRet × Conn)) : List UInt8 :=
  rs.flatMap fun r => r.1.bytes

theorem foldl_payload (rs : List (ReadRet × Conn)) (seen : List UInt8) :
    rs.foldl (fun seen r => seen ++ r.1.bytes) seen = seen ++ payload rs := by
  induction rs generalizing seen with
  | nil => simp [payload]
  | cons r rs ih => rw [List.foldl_cons, ih, payload, payload, List.flatMap_cons, List.append_assoc]

/-- Over the calls that follow the arrival of a masked frame on an upgraded connection, each of
which reads where the key is in phase, the `i`-th byte of the payload that is returned is the `i`-th
byte of the frame's, unmasked with the byte `i % 4` of the key. -/
theorem payload_of_keyInPhase (env : Env) {c : Conn} (hg : c.Good) (hb : c.Between)
    (hu : c.upgrade = 2) {b : UInt8} {key hdr wire rest : List UInt8} (hk : key.length = 4)
    (hh : MaskedHeader b key wire.length hdr)
    (hin : c.toRecvBuf.unread ++ c.pending = hdr ++ (wire ++ rest)) {lens : List ℕ}
    (ha : Calls.Along (connHttpread env) Conn.KeyInPhase c lens) {rs : List (ReadRet × Conn)}
    (hrs : Calls.run (connHttpread env) c lens = some rs) {i : ℕ} (hi : i < wire.length) {a : UInt8}
    (hp : (payload rs)[i]? = some a) :
    wire[i]?.map (fun x => x ^^^ key.getD (i % 4) 0) = some a := by
  obtain ⟨c', hseen⟩ := Calls.foldl_of_run (R := FrameSeen key hdr wire rest) (P := Conn.KeyInPhase)
    (g := fun seen r => seen ++ r.1.bytes)
    (fun s t i r h hphase hr => frameSeen_step env hk hh hh.lt h hphase hr)
    (.inl ⟨rfl, hg, hb, hu, hin⟩) ha hrs
  rw [foldl_payload, List.nil_append] at hseen
  obtain ⟨x, hx⟩ := hseen.take_prefix
  have htake : ((payload rs).take wire.length)[i]? = some a := by
    rw [List.getElem?_take_of_lt hi, hp]
  have hmask : (maskFrom key 0 wire)[i]? = some a := by
    rw [← hx]
    exact getElem?_append_some htake
  simpa [maskFrom] using hmask

/-- A request to upgrade a connection. -/
def upgradeRequest : List UInt8 :=
  ascii "GET / HTTP/1.1\r\nHost: a\r\nUpgrade: websocket\r\nConnection: Upgrade\r\n" ++
    ascii "Sec-WebSocket-Key: k\r\nSec-WebSocket-Version: 13\r\n\r\n"

open Interleaving

/-- Six bytes are read four and two at a time. -/
theorem payload_of_keyInPhase_fourTwo :
    ∃ rs, payload rs = [0, 0, 0, 0, 4, 4] ∧
      ([1, 2, 3, 4, 5, 6] : List UInt8)[5]?.map
        (fun x => x ^^^ ([1, 2, 3, 4] : List UInt8).getD (5 % 4) 0) = some 4 := by
  obtain ⟨c, hrun, hstate, hu, hin, hrs, hphase⟩ : ∃ c,
      Runs (readNext .plain) (fun c _ => c.LastChunkWhole)
        (Conn.init (fun _ => .data 1000)
          (upgradeRequest ++ [0x82, 0x86, 1, 2, 3, 4, 1, 2, 3, 4, 5, 6]) .idle) c ∧
      httpState c.req.head? = ConnState.Complete ∧ c.upgrade = 2 ∧
      c.toRecvBuf.unread ++ c.pending = [0x82, 0x86, 1, 2, 3, 4] ++ ([1, 2, 3, 4, 5, 6] ++ []) ∧
      (Calls.run (connHttpread .plain) c [4, 4, 4]).map payload = some [0, 0, 0, 0, 4, 4] ∧
      Calls.Along (connHttpread .plain) Conn.KeyInPhase c [4, 4, 4] :=
    exists_runs_of_runSchedule [1] (by decide +kernel)
  obtain ⟨rs, hrs, hpay⟩ := Option.map_eq_some_iff.mp hrs
  have hh : MaskedHeader 0x82 [1, 2, 3, 4] ([1, 2, 3, 4, 5, 6] : List UInt8).length
      [0x82, 0x86, 1, 2, 3, 4] := .short (by decide)
  exact ⟨rs, hpay, payload_of_keyInPhase .plain (good_of_runs hrun) (.inr hstate) hu rfl hh hin
    hphase hrs (by decide) (by rw [hpay]; rfl)⟩

/-- Two bytes are read one at a time : the second is unmasked with the first byte of the key. -/
theorem not_payload :
    ∃ (env : Env) (recvs : ℕ → RecvAns) (stream : List UInt8) (sock : Sock) (c : Conn)
      (b : UInt8) (key hdr wire : List UInt8) (lens : List ℕ) (a : UInt8),
      Reachable (readNext env) (Conn.init recvs stream sock) c ∧ c.Between ∧ c.upgrade = 2 ∧
      key.length = 4 ∧ MaskedHeader b key wire.length hdr ∧
      c.toRecvBuf.unread ++ c.pending = hdr ++ wire ∧ (∀ len ∈ lens, 1 ≤ len) ∧
      (∃ rs, Calls.run (connHttpread env) c lens = some rs ∧ (payload rs)[1]? = some a) ∧
      wire[1]?.map (fun x => x ^^^ key.getD (1 % 4) 0) ≠ some a := by
  obtain ⟨c, hrun, hstate, hu, hin, hrs⟩ : ∃ c,
      Reachable (readNext .plain) (Conn.init (fun _ => .data 1000)
        (upgradeRequest ++ [0x82, 0x82, 1, 2, 3, 4, 10, 20]) .idle) c ∧
      httpState c.req.head? = ConnState.Complete ∧ c.upgrade = 2 ∧
      c.toRecvBuf.unread ++ c.pending = [0x82, 0x82, 1, 2, 3, 4] ++ [10, 20] ∧
      (Calls.run (connHttpread .plain) c [1, 1, 1]).map payload = some [11, 21] :=
    exists_runs_of_runSchedule [1] (by decide +kernel)
  obtain ⟨rs, hrs, hpay⟩ := Option.map_eq_some_iff.mp hrs
  exact ⟨.plain, _, _, _, c, 0x82, [1, 2, 3, 4], _, [10, 20], [1, 1, 1], 21, hrun, .inr hstate, hu,
    rfl, .short (by decide), hin, by decide, ⟨rs, hrs, by rw [hpay]; rfl⟩, by decide⟩

end Webxs
