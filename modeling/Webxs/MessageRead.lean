import Webxs.Continuations
import Webxs.RequestStream

/-!
# Messages on an upgraded connection

After an upgrade `xs_conn_httpread` finds the headers of frames, and returns their payloads, through
the buffer that the head of the request came through; no byte behind the head is lost at the switch
(`listens_of_upgrade`). The frames come whole or cut off, at any place. However `recv` splits them,
and whatever lengths are read, a caller that reads where the key is in phase gets the messages in
order, each with its opcode and all of its payload, and none that did not arrive
(`messages_read`).
-/

namespace Webxs

/-! ## Messages -/

/-- A message as a caller has it. -/
structure Message where
  opcode : ℕ
  payload : List UInt8
  deriving DecidableEq

namespace WsFrame

/-- The key that the payload is masked with. -/
def mask (f : WsFrame) : List UInt8 :=
  f.parsed.2.1

/-- The message that is sent in one frame. -/
def message (f : WsFrame) : Message :=
  ⟨f.opcode, maskFrom f.mask 0 f.payload⟩

/-- A text, some binary data, or the last message, in one frame. -/
def Single (f : WsFrame) : Prop :=
  f.opcode = 1 ∨ f.opcode = 2 ∨ f.opcode = WS.CONNECTION_CLOSE

theorem length_header_le (f : WsFrame) : f.header.length ≤ 14 := by
  have hext := f.parts.length_ext
  have hkey := f.parts.length_key
  simp only [header, List.length_cons, List.length_append]
  unfold lenBytes at hext
  unfold maskLen at hkey
  split_ifs at hext hkey <;> omega

end WsFrame

/-- What `xs_websocket_frameparse` makes of a message in one frame. -/
theorem websocketFrameparse_single (req : HttpReq) {b : UInt8}
    (hb : b.toNat % 16 = 1 ∨ b.toNat % 16 = 2 ∨ b.toNat % 16 = WS.CONNECTION_CLOSE)
    (key : List UInt8) (n : ℕ) :
    (websocketFrameparse req b key n).1 = 0 ∧
      (websocketFrameparse req b key n).2.opcode = b.toNat % 16 ∧
      (websocketFrameparse req b key n).2.statuscode = 0 ∧
      (websocketFrameparse req b key n).2.done = false := by
  unfold websocketFrameparse
  dsimp only
  rcases hb with hb | hb | hb <;> rw [hb] <;> exact ⟨rfl, rfl, rfl, rfl⟩

/-! ## An upgraded connection -/

/-- What a connection keeps that is upgraded, with the bytes `input` left. -/
structure Conn.Framing (c : Conn) (input : List UInt8) : Prop where
  good : c.Good
  upgrade : c.upgrade = 2
  quiet : c.toPeer.AlwaysQuiet
  sized : c.toRecvBuf.Sized
  bytes : c.toRecvBuf.unread ++ c.pending = input

/-- The next call looks for a header. -/
structure Conn.Listens (c : Conn) (input : List UInt8) : Prop extends c.Framing input where
  between : c.Between
  room : (c.toRecvBuf.unread.length : ℤ) < c.bufsize ∨ frameScan c.toRecvBuf.unread = none

/-- `o` bytes of the payload of `f` were returned. -/
structure Conn.Holds (c : Conn) (f : WsFrame) (o : ℕ) (input : List UInt8) : Prop
    extends c.Framing input where
  taken : 0 < c.consumed
  le : o ≤ f.payload.length
  req : ∃ req, c.req.head? = some req ∧ req.reqlen ≠ 0 ∧ req.Frame f.mask f.payload.length o ∧
    req.opcode = f.opcode ∧ req.statuscode = 0

variable {c : Conn} {f : WsFrame} {fs : List WsFrame} {input : List UInt8} {o : ℕ}

theorem Conn.Holds.state_lt (h : c.Holds f o input) (hlt : o < f.payload.length) :
    httpState c.req.head? ≠ ConnState.Complete := by
  obtain ⟨req, hreq, hl, hframe, -⟩ := h.req
  rw [hreq]
  exact (httpState_of_lt hl (by rw [hframe.consumed, hframe.contentlen]; exact hlt)).2

theorem Conn.Holds.complete (h : c.Holds f f.payload.length input) :
    httpState c.req.head? = ConnState.Complete := by
  obtain ⟨req, hreq, hl, hframe, -, hstatus⟩ := h.req
  rw [hreq, httpState]
  rcases Nat.eq_zero_or_pos f.payload.length with h0 | hpos
  · simp [hl, hframe.contentlen, hframe.chunked, hframe.header, hstatus, h0]
  · simp [hl, hframe.contentlen, hframe.chunked, hframe.consumed, hpos.ne']

/-- After the payload the next header is looked for. -/
theorem Conn.Holds.listens (h : c.Holds f f.payload.length input) : c.Listens input := by
  have hlen := h.good.valid.length_unread
  have hle := h.good.valid.datalen_le
  have htaken := h.taken
  exact ⟨h.toFraming, .inr h.complete, .inl (by omega)⟩

/-- A header is short, so the buffer does not fill up while one is looked for. -/
theorem Conn.Listens.few (h : c.Listens input) (hin : input <+: wire fs) :
    c.toRecvBuf.unread.length < 2 ^ 17 := by
  have hlen := h.good.valid.length_unread
  have hmax := h.sized.le
  obtain hroom | hnone := h.room
  · omega
  have hprefix : c.toRecvBuf.unread <+: wire fs := .trans ⟨_, h.bytes⟩ hin
  cases fs with
  | nil =>
    rw [List.prefix_nil.mp hprefix]
    decide
  | cons f fs =>
    by_contra hge
    have hshort := f.length_header_le
    have hheader : f.header <+: wire (f :: fs) := by
      rw [wire_cons, WsFrame.bytes, List.append_assoc]
      exact List.prefix_append _ _
    have hsome := frameScan_incremental.of_prefix f.frameScan_header
      (List.prefix_of_prefix_length_le hheader hprefix (by omega))
    rw [hnone] at hsome
    cases hsome

/-! ## The switch -/

theorem readStarted_toPeer (env : Env) (c : Conn) (s : ℤ) :
    (readStarted env c s).2.toPeer = c.toPeer := by
  have hresponse : ∀ c, (websocketResponse env c).2.toPeer = c.toPeer := by
    intro c
    unfold websocketResponse
    repeat' split
    all_goals rfl
  have haccept : ∀ c, (websocketAccept c).2.toPeer = c.toPeer := by
    intro c
    unfold websocketAccept
    repeat' split
    all_goals rfl
  have hupgrade : ∀ c req, (startUpgrade env c s req).2.toPeer = c.toPeer := by
    intro c req
    have h : (if req.method.isSome then websocketResponse env c
        else websocketAccept c).2.toPeer = c.toPeer := by
      split_ifs
      · exact hresponse c
      · exact haccept c
    unfold startUpgrade
    generalize (if req.method.isSome then websocketResponse env c else websocketAccept c) = r
      at h ⊢
    dsimp only
    split_ifs <;> exact h
  have hframe : ∀ c req, (startFrame c s req).2.toPeer = c.toPeer := by
    intro c req
    unfold startFrame
    dsimp only
    split_ifs <;> rfl
  have hempty : ∀ c req, (startEmpty c s req).2.toPeer = c.toPeer := by
    intro c req
    unfold startEmpty
    split_ifs <;> rfl
  have hmark : c.markUpgrade.toPeer = c.toPeer := by
    unfold Conn.markUpgrade
    split_ifs <;> rfl
  unfold readStarted
  dsimp only
  split
  · exact hmark
  · split_ifs
    · exact (hupgrade _ _).trans hmark
    · exact (hframe _ _).trans hmark
    · exact (hempty _ _).trans hmark
    · exact hmark

/-- A call that takes the head of an upgrade leaves what is behind it. -/
theorem listens_of_upgrade (env : Env) {head rest : List UInt8} (h : c.Awaits (head ++ rest))
    (hroomy : c.Roomy) (hframed : headScan head = some (head.length : ℤ))
    (hle : head.length ≤ 131072) (hacc : (parsedHead env head).1 = 0) {len : ℕ}
    {r : ReadRet × Conn} (hr : connHttpread env c len = some r) (hu : r.2.upgrade = 2)
    (hstate : httpState r.2.req.head? = ConnState.Complete) : r.2.Listens rest := by
  have hne : head ≠ [] := by
    rintro rfl
    cases hframed
  have hhead : BeginsWithHead (head ++ rest) :=
    .inr ⟨head, hframed, hle, hne, List.prefix_append _ _⟩
  obtain ⟨r', hr', hgood⟩ :=
    connHttpread_good env h.good (between_lastChunkWhole h.between) len
  obtain rfl := Option.some.inj (hr.symm.trans hr')
  obtain ⟨hfits, hsized⟩ := h.fits hroomy hhead
  obtain ⟨r', hr', -, -, -, hawaits, -⟩ | ⟨s, n, c', -, hpos, hcall, hf⟩ :=
    awaits_head env h hhead hfits len
  · obtain rfl := Option.some.inj (hr.symm.trans hr')
    have := hawaits.upgrade
    omega
  · obtain ⟨rfl, hbuf⟩ := head_of_headScan hframed ⟨_, hf.bytes⟩ hf.scan
    obtain ⟨c₁, req, hfound, ht⟩ := readFound_taken s hf.upgrade hf.unmarked hacc hne hbuf
    obtain ⟨hbegun, -, hsize⟩ := hf.begun ht hne hbuf
    rw [hcall, hfound] at hr
    obtain rfl := Option.some.inj hr
    have hpeer := readStarted_toPeer env c₁ s
    have hrecv := (readStarted_sameBuf env c₁ s).1
    have hlen := hbegun.good.valid.length_unread
    have hdata := hbegun.good.valid.datalen_le
    have htaken := hbegun.consumed_pos
    refine ⟨⟨hgood, hu, ?_, ?_, ?_⟩, .inr hstate, .inl ?_⟩
    · rw [hpeer]
      exact hbegun.quiet
    · unfold RecvBuf.Sized
      rw [hrecv, hsize, hf.bufsize]
      exact hsized
    · rw [hrecv, hpeer]
      exact hbegun.bytes
    · rw [hrecv]
      omega

/-! ## Looking for a header -/

/-- `xs_conn_headerready` finds the header if it is there, and otherwise takes some bytes. -/
theorem connHeaderready_upgraded (hv : c.toRecvBuf.Valid) (h0 : c.consumed = 0)
    (hu : c.upgrade = 2) (he : c.errnum = 0) (hq : c.toPeer.AlwaysQuiet) (hs : c.toRecvBuf.Sized)
    (hfew : c.toRecvBuf.unread.length < 2 ^ 17) :
    ∃ n o p b, connHeaderready c = some (n, c.put o p b) ∧ o.errnum = 0 ∧ p.AlwaysQuiet ∧
      b.Valid ∧ b.consumed = 0 ∧ b.Sized ∧
      b.unread ++ p.pending = c.toRecvBuf.unread ++ c.pending ∧
      (0 < n ∧ (frameScan b.buf).map Prod.fst = some n ∨ n < 0 ∧ frameScan b.buf = none) := by
  obtain ⟨hbv, hunread, hzero, -⟩ := connBufresize_spec hv
  have hbuf := RecvBuf.unread_eq_buf (hzero h0)
  have hblen := hbv.length_buf
  rw [← hbuf, hunread] at hblen
  have hsized := connBufresize_sized hv h0 hs (by exact_mod_cast hfew)
  have hmax := hsized.le
  cases hscan : frameScan c.toRecvBuf.unread with
  | some q =>
    obtain ⟨hpos, hle, -⟩ := frameScan_bound hscan
    obtain ⟨o, hready, ho, -⟩ := connHeaderready_of_some hv h0
      (r := q.1) (by rw [headFound_upgraded hu, hscan]; rfl)
    rw [if_pos hpos] at hready
    refine ⟨q.1, o, _, _, hready, ?_, hq, hbv, hzero h0, hsized, by rw [hunread],
      .inl ⟨hpos, ?_⟩⟩
    · rw [ho hpos (by unfold maxheaderlen; omega) (by unfold maxheaderlen; omega)]
      exact he
    · rw [← hbuf, hunread, hscan]
      rfl
  | none =>
    obtain ⟨bytes, hbytes⟩ : ∃ bytes, c.toPeer.arrive (connBufresize c.toRecvBuf).room = bytes :=
      ⟨_, rfl⟩
    have hroom := connBufresize_room hv (by omega)
    have harrive := hbv.length_arrive_le hbytes
    obtain ⟨n, o, hready, hn, hn', hquiet, -⟩ := connHeaderready_of_none hv h0 rfl hbytes
      (by rw [headFound_upgraded hu, hscan]; rfl)
    obtain ⟨hne, ho⟩ := hquiet hq.quiet (by unfold RecvBuf.room; omega)
      (by unfold maxheaderlen; omega)
    have hbuf' : (connBufresize c.toRecvBuf).buf ++ bytes = c.toRecvBuf.unread ++ bytes := by
      rw [← hbuf, hunread]
    refine ⟨n, o, _, _, hready, ho, hq.next _, hbv.extend harrive, hzero h0, hsized, ?_, ?_⟩
    · rw [hbv.unread_extend, hunread, List.append_assoc, ← hbytes, Peer.arrive_append_next]
    · show 0 < n ∧ (frameScan ((connBufresize c.toRecvBuf).buf ++ bytes)).map Prod.fst = some n ∨
        n < 0 ∧ frameScan ((connBufresize c.toRecvBuf).buf ++ bytes) = none
      rw [hbuf']
      rw [headFound_upgraded hu] at hn hn'
      rcases lt_trichotomy n 0 with hneg | hz | hpos
      · refine .inr ⟨hneg, ?_⟩
        cases hall : frameScan (c.toRecvBuf.unread ++ bytes) with
        | none => rfl
        | some q =>
          have hq := (frameScan_bound hall).1
          have := hn' q.1 hq (by rw [hall]; rfl)
          omega
      · exact absurd hz hne
      · exact .inl ⟨hpos, hn hpos⟩

/-- A message is made of a header that is found. -/
theorem readFound_single (env : Env) {s : ℤ} (hs : s = ConnState.Pending ∨ s = ConnState.LastState)
    (hv : c.toRecvBuf.Valid) (hu : c.upgrade = 2) (he : c.errnum = 0) (hf : f.Single)
    (hscan : frameScan c.buf = some f.parsed) (hb : c.buf.headD 0 = f.b) :
    ∃ r req, readFound env c s f.parsed.1 = some r ∧ r.1.bytes = [] ∧ r.1.n = 0 ∧
      r.2.errnum = 0 ∧ r.2.toPeer = c.toPeer ∧ r.2.toRecvBuf = c.toRecvBuf.consume f.parsed.1 ∧
      r.2.upgrade = 2 ∧ r.2.req = [req] ∧ req.reqlen ≠ 0 ∧ req.Frame f.mask f.payload.length 0 ∧
      req.opcode = f.opcode ∧ req.statuscode = 0 ∧ req.done = false := by
  have hpos := (frameScan_bound hscan).1
  have hfirst : (c.buf.take f.parsed.1.toNat).headD 0 = f.b := by
    rw [← hb]
    cases c.buf with
    | nil => rw [List.take_nil]
    | cons a l =>
      obtain ⟨k, hk⟩ : ∃ k, f.parsed.1.toNat = k + 1 := ⟨f.parsed.1.toNat - 1, by omega⟩
      rw [hk, List.take_succ_cons, List.headD_cons, List.headD_cons]
  obtain ⟨p, hp⟩ : ∃ p, websocketFrameparse (HttpReq.alloc c.nalloc (f.parsed.1.toNat + 1)) f.b
    f.mask f.payload.length = p := ⟨_, rfl⟩
  obtain ⟨herr, hopc, hstatus, hdone⟩ := websocketFrameparse_single
    (HttpReq.alloc c.nalloc (f.parsed.1.toNat + 1)) hf f.mask f.payload.length
  obtain ⟨hframe, -⟩ := websocketFrameparse_frame c.nalloc (f.parsed.1.toNat + 1) f.b f.mask
    f.payload.length
  rw [hp] at herr hopc hstatus hdone hframe
  have hcreate : httpCreatereq env c.recycle f.parsed.1 =
      some (c.recycle.linkParsed f.parsed.1 (c.nalloc + 1) p) := by
    have hparsed : frameScan c.recycle.buf = some (f.parsed.1, f.mask, f.payload.length) := hscan
    have hu' : c.recycle.upgrade = 2 := hu
    rw [httpCreatereq_frame env (c := c.recycle) hv hu' rfl hparsed, Conn.parseReq]
    dsimp only
    rw [if_neg (by rw [hu']; decide), ← hp, ← hfirst]
    rfl
  obtain ⟨req, hreq⟩ : ∃ req : HttpReq,
      { p.2 with reqlen := f.parsed.1, upgrade := 2 } = req := ⟨_, rfl⟩
  obtain ⟨c', hc'⟩ : ∃ c', { c.recycle.setBuf (c.toRecvBuf.consume f.parsed.1) with
      nalloc := c.nalloc + 1, req := [req] } = c' := ⟨_, rfl⟩
  have hstate : httpState c'.req.head? = ConnState.Complete ∨
      httpState c'.req.head? = ConnState.Header := by
    rw [← hc', ← hreq, List.head?_cons]
    rcases Nat.eq_zero_or_pos f.payload.length with h0 | hlen
    · left
      simp [httpState, hpos.ne', hframe.contentlen, hframe.chunked, hframe.header, hstatus, h0]
    · right
      simp [httpState, hpos.ne', hframe.contentlen, hframe.consumed, hframe.chunked, hlen.ne']
  have hstart : readFound env c s f.parsed.1 = some (startFrame c' s req) := by
    unfold readFound
    rw [hcreate, Option.map_some, Conn.linkParsed, if_neg (not_not_intro herr), readCreated,
      if_neg (not_not_intro rfl), readStarted]
    have hmark : ((c.recycle.setBuf (c.recycle.toRecvBuf.consume f.parsed.1)).link (c.nalloc + 1)
        { p.2 with reqlen := f.parsed.1 }).markUpgrade = c' := by
      rw [Conn.markUpgrade, if_pos (by
        show c.upgrade ≠ 0
        omega), ← hc', ← hreq, ← hu]
      rfl
    dsimp only
    rw [hmark, show c'.req.head? = some req by rw [← hc', List.head?_cons]]
    dsimp only
    have hupgrade : req.upgrade = 2 := by rw [← hreq]
    rw [if_neg (by omega), if_pos hupgrade]
  have hop : req.opcode = f.opcode := by
    rw [← hreq]
    exact hopc
  have hquiet : req.opcode ≠ WS.PING ∧ req.opcode ≠ WS.PONG := by
    rw [hop]
    rcases hf with h | h | h <;> rw [h] <;> decide
  rw [startFrame, if_neg hquiet.1, if_neg hquiet.2] at hstart
  have herr' : c'.errnum = 0 := by
    rw [← hc']
    exact he
  refine ⟨_, req, hstart, rfl, ?_, herr', by rw [← hc']; rfl, by rw [← hc']; rfl, ?_,
    by rw [← hc'], ?_, ?_, hop, ?_, ?_⟩
  · show c'.retvalue s = 0
    rw [Conn.retvalue_eq herr']
    rcases hstate with h | h <;> rcases hs with rfl | rfl <;> rw [h] <;> rfl
  · rw [← hc']
    exact hu
  · rw [← hreq]
    exact hpos.ne'
  · rw [← hreq]
    exact ⟨hframe.contentlen, hframe.consumed, hframe.datamask, hframe.chunked, hframe.header⟩
  · rw [← hreq]
    exact hstatus
  · rw [← hreq]
    exact hdone

/-- A call that looks for a header waits, or takes the header of the next frame. -/
theorem listens_step (env : Env) (h : c.Listens input) (hin : input <+: wire fs)
    (hfs : ∀ f ∈ fs, f.Single) (len : ℕ) :
    ∃ r, connHttpread env c len = some r ∧ r.1.bytes = [] ∧ r.2.errnum = 0 ∧
      (r.1.n < 0 ∧ r.2.Listens input ∧ (r.2.pending = [] → frameScan input = none) ∨
        ∃ f rest input', fs = f :: rest ∧ input = f.header ++ input' ∧ r.1.n = 0 ∧
          r.2.Holds f 0 input') := by
  have hready := cleared_ready h.good h.between
  have hu : c.cleared.upgrade = 2 := hready.upgrade.trans h.upgrade
  have hquiet : c.cleared.toPeer.AlwaysQuiet := by
    rw [hready.toPeer]
    exact h.quiet
  have hsized : c.cleared.toRecvBuf.Sized := by
    unfold RecvBuf.Sized
    rw [hready.bufsize]
    exact h.sized
  obtain ⟨s, hs, hcall⟩ := connHttpread_cleared env h.good h.between len
  obtain ⟨n, o, p, b, hheader, herr, hpeer, hv, h0, hbsized, hbytes, hcase⟩ :=
    connHeaderready_upgraded hready.good.valid hready.consumed hu hready.errnum hquiet hsized
      (by rw [hready.unread]; exact h.few hin)
  rw [hready.unread, hready.toPeer, h.bytes] at hbytes
  rw [hcall, readHead, hheader, Option.bind_some]
  dsimp only
  have hbuf := RecvBuf.unread_eq_buf h0
  obtain ⟨hpos, hfound⟩ | ⟨hneg, hnone⟩ := hcase
  · rw [Conn.put_toOut, if_neg (by omega)]
    obtain ⟨q, hq, rfl⟩ := Option.map_eq_some_iff.mp hfound
    obtain ⟨m, hm⟩ := hin
    rw [← hbytes, hbuf, List.append_assoc] at hm
    obtain ⟨f, rest, rfl, rfl, hb⟩ := frameScan_wire hm hq
    obtain ⟨r, req, hr, hnil, hn, he, hpeer', hrecv, hupgrade, hreq, hlen, hframe, hopc, hstatus,
      hdone⟩ := readFound_single env (c := c.cleared.put o p b) hs hv hu herr
        (hfs f List.mem_cons_self) hq hb
    have hle : f.header.length ≤ b.buf.length := by
      have := (frameScan_bound hq).2.1
      rwa [show f.parsed.1 = (f.header.length : ℤ) from rfl, Nat.cast_le] at this
    have hheader : f.header <+: wire (f :: rest) := by
      rw [wire_cons, WsFrame.bytes, List.append_assoc]
      exact List.prefix_append _ _
    obtain ⟨tail, htail⟩ := List.prefix_of_prefix_length_le hheader ⟨_, hm⟩ hle
    have hlength := hv.length_buf
    have hreqhead : r.2.req.head? = some req := by rw [hreq, List.head?_cons]
    refine ⟨r, hr, hnil, he, .inr ⟨f, rest, tail ++ p.pending, rfl, ?_, hn,
      ⟨⟨⟨?_, fun hidle => absurd (hidle req hreqhead) hlen, fun req' hreq' => ?_⟩, hupgrade, ?_,
        ?_, ?_⟩, ?_, Nat.zero_le _, req, hreqhead, hlen, hframe, hopc, hstatus⟩⟩⟩
    · rw [← hbytes, hbuf, ← htail, List.append_assoc]
    · rw [hrecv]
      exact hv.consume hpos.le (by
        show (f.header.length : ℤ) ≤ b.datalen - b.consumed
        omega)
    · rw [hreqhead] at hreq'
      cases hreq'
      exact hdone
    · rw [hpeer']
      exact hpeer
    · rw [hrecv]
      exact hbsized
    · rw [hrecv, hpeer', Conn.put_toRecvBuf, Conn.put_toPeer, hv.unread_consume hpos.le, hbuf,
        ← htail]
      congr 1
      exact List.drop_left
    · rw [hrecv]
      show 0 < b.consumed + f.parsed.1
      omega
  · rw [if_pos (.inl hneg.le), if_pos hneg.ne]
    refine ⟨_, rfl, rfl, herr, .inl ⟨hneg, ⟨⟨⟨hv, fun _ => h0, hready.good.undone⟩, hu, hpeer,
      hbsized, hbytes⟩, .inl hready.pending, .inr ?_⟩, fun hnil => ?_⟩⟩
    · rw [Conn.put_toRecvBuf, hbuf]
      exact hnone
    · have hnil' : p.pending = [] := hnil
      rw [← hbytes, hnil', List.append_nil, hbuf]
      exact hnone

/-! ## Reading a payload -/

/-- A call in a payload returns its next bytes, or none if none are there. -/
theorem holds_step (env : Env) (h : c.Holds f o input) (hlt : o < f.payload.length) {len : ℕ}
    (h1 : 1 ≤ len) (h31 : min len f.payload.length < 2 ^ 31) (hphase : c.KeyInPhase len) :
    ∃ r, connHttpread env c len = some r ∧ r.2.errnum = 0 ∧
      (∃ req, r.2.req.head? = some req ∧ req.opcode = f.opcode) ∧
      (r.1.n < 0 ∧ r.2.Holds f o input ∧ (r.2.pending = [] → input = []) ∨
        ∃ raw input', input = raw ++ input' ∧ r.1.n = r.1.bytes.length ∧
          r.1.bytes = maskFrom f.mask o raw ∧ r.2.Holds f (o + raw.length) input') := by
  obtain ⟨req, hreq, hl, hframe, hopc, hstatus⟩ := h.req
  have hcontent := hframe.contentlen
  have hconsumed := hframe.consumed
  have hreading : c.Reading req :=
    ⟨⟨h.good.valid, hreq, hl, h.good.undone req hreq⟩, hframe.header, .inr (by omega)⟩
  have hraw := hphase req hreq hl
  rw [connHttpread_of_reading env hreading, readBody, if_neg (by simp [hframe.chunked]), readData,
    if_pos (by omega)]
  have hmin : 1 ≤ min len (req.contentlen - req.consumed) := by omega
  obtain ⟨n, re, o', p, b, hread, htook, hle, hn⟩ :=
    readBytesOf_quiet (c := c.setErr 0) h.good.valid h.quiet rfl hmin (by omega)
  rw [show (c.setErr 0).atHand (min len (req.contentlen - req.consumed)) =
    c.atHand (min len (req.contentlen - req.consumed)) from rfl] at hread htook hle hn
  obtain ⟨raw, hraweq⟩ : ∃ raw, c.atHand (min len (req.contentlen - req.consumed)) = raw :=
    ⟨_, rfl⟩
  rw [hraweq] at hraw hread htook hle hn
  obtain ⟨input', hinput⟩ := htook.begins
  rw [show (c.setErr 0).toRecvBuf.unread ++ (c.setErr 0).pending = input from h.bytes] at hinput
  have hbytes : b.unread ++ p.pending = input' := by
    rw [htook.bytes, show (c.setErr 0).toRecvBuf.unread ++ (c.setErr 0).pending = input
      from h.bytes, ← hinput, List.drop_left]
  have hsized : b.Sized := by
    unfold RecvBuf.Sized
    rw [htook.bufsize]
    exact h.sized
  have htaken : 0 < b.consumed := lt_of_lt_of_le h.taken htook.consumed
  rw [hread, Option.map_some]
  dsimp only
  obtain ⟨rfl, hne⟩ | ⟨rfl, rfl, hunread⟩ := hn
  · have hpos := List.length_pos_iff.mpr hne
    have hsum : o + raw.length ≤ f.payload.length := by omega
    have hmod : (req.consumed + raw.length) % 2 ^ 64 = o + raw.length := by
      rw [hconsumed]
      exact Nat.mod_eq_of_lt (hsum.trans_lt f.parts.lt)
    obtain ⟨req', hreq'⟩ : ∃ req' : HttpReq, { req with consumed := o + raw.length } = req' :=
      ⟨_, rfl⟩
    have hhead : (((c.setErr 0).put o' p b).returned raw.length).req.head? = some req' := by
      show (c.req.modifyHead _).head? = _
      rw [List.head?_modifyHead, hreq, Option.map_some, hmod, hreq']
    have hl' : req'.reqlen ≠ 0 := by
      rw [← hreq']
      exact hl
    rw [if_pos (by omega), Int.toNat_natCast]
    refine ⟨_, rfl, htook.errnum, ⟨req', hhead, by rw [← hreq']; exact hopc⟩, .inr ⟨raw, input',
      hinput.symm, ?_, ?_, ⟨⟨⟨htook.valid, fun hidle => absurd (hidle req' hhead) hl',
        fun r hr => ?_⟩, h.upgrade, htook.quiet, hsized, hbytes⟩, htaken, hsum, req', hhead, hl',
        ?_, ?_, ?_⟩⟩⟩
    · rw [unmask_eq, length_maskFrom]
    · rw [unmask_eq, ← hframe.datamask]
      refine maskFrom_congr fun i hi => ?_
      rw [hraw i hi, hconsumed]
    · obtain rfl := Option.some.inj (hhead.symm.trans hr)
      rw [← hreq']
      exact h.good.undone req hreq
    · rw [← hreq']
      exact ⟨hcontent, rfl, hframe.datamask, hframe.chunked, hframe.header⟩
    · rw [← hreq']
      exact hopc
    · rw [← hreq']
      exact hstatus
  · rw [if_neg (by omega)]
    rw [List.nil_append] at hinput
    refine ⟨_, rfl, htook.errnum, ⟨req, hreq, hopc⟩, .inl ⟨show (-1 : ℤ) < 0 by decide,
      ⟨⟨⟨htook.valid, fun hidle => absurd (hidle req hreq) hl, h.good.undone⟩, h.upgrade,
        htook.quiet, hsized, hbytes.trans hinput⟩, htaken, h.le, req, hreq, hl, hframe, hopc,
        hstatus⟩, fun hnil => ?_⟩⟩
    have hnil' : p.pending = [] := hnil
    rw [← hinput, ← hbytes, hunread, hnil', List.append_nil]

/-! ## What a caller gets -/

/-- What a caller made of the returns : the messages that are complete, and the one that is not. -/
structure Inbox where
  done : List Message
  current : Option Message
  /-- A call ended with an error, or returned something out of order. -/
  fault : Bool
  deriving DecidableEq

/-- One more return. A call that returned a negative value does not count. -/
def Inbox.add (t : Inbox) (r : ReadRet × Conn) : Inbox :=
  if r.2.errnum ≠ 0 then { t with fault := true }
  else if r.1.n < 0 then t
  else
    match r.2.req.head? with
    | none => { t with fault := true }
    | some req =>
      let cur := t.current.getD ⟨req.opcode, []⟩
      if r.1.n ≠ r.1.bytes.length ∨ cur.opcode ≠ req.opcode then { t with fault := true }
      else
        let cur : Message := ⟨cur.opcode, cur.payload ++ r.1.bytes⟩
        if r.2.state = ConnState.Complete then ⟨t.done ++ [cur], none, t.fault⟩
        else ⟨t.done, some cur, t.fault⟩

/-- Nothing yet. -/
def Inbox.empty : Inbox :=
  ⟨[], none, false⟩

/-- What a caller made of all returns. -/
def inbox (rs : List (ReadRet × Conn)) : Inbox :=
  rs.foldl Inbox.add .empty

/-- Where `l` is what was sent of the messages `ms`, each of them as one of `bytes`, the messages
arrive in order and whole; and those whose bytes were all sent have arrived if nothing is pending
and a call had nothing to return. -/
structure Arrive (ms : List Message) (bytes : List (List UInt8)) (l : List UInt8)
    (rs : List (ReadRet × Conn)) : Prop where
  fault : (inbox rs).fault = false
  order : ∃ left, ms = (inbox rs).done ++ left ∧ ∀ cur ∈ (inbox rs).current,
    ∃ m ∈ left.head?, cur.opcode = m.opcode ∧ cur.payload <+: m.payload
  all : ∀ r ∈ rs.getLast?, r.1.n < 0 → r.2.pending = [] →
    ∀ k, (bytes.take k).flatten <+: l → ms.take k <+: (inbox rs).done

/-- The connection goes on where the caller is. -/
def Serves (fs : List WsFrame) (l : List UInt8) (c : Conn) (t : Inbox) : Prop :=
  ∃ done left input, fs = done ++ left ∧
    (t = ⟨done.map WsFrame.message, none, false⟩ ∧ l = wire done ++ input ∧ c.Listens input ∨
      ∃ f rest o, left = f :: rest ∧ o < f.payload.length ∧
        t = ⟨done.map WsFrame.message, some ⟨f.opcode, maskFrom f.mask 0 (f.payload.take o)⟩,
          false⟩ ∧
        l = wire done ++ (f.header ++ (f.payload.take o ++ input)) ∧ c.Holds f o input)

/-- All frames that are whole in `l` were read. -/
def Drained (fs : List WsFrame) (l : List UInt8) (t : Inbox) : Prop :=
  ∀ k, wire (fs.take k) <+: l → (fs.take k).map WsFrame.message <+: t.done

theorem drained_of_cut {done left : List WsFrame} {l : List UInt8} {cur : Option Message}
    (hcut : ∀ f ∈ left.head?, ∀ input, l = wire done ++ input → ¬f.bytes <+: input)
    (hl : wire done <+: l) :
    Drained (done ++ left) l ⟨done.map WsFrame.message, cur, false⟩ := by
  intro k hk
  refine List.IsPrefix.map _ ?_
  rcases Nat.le_total k done.length with hle | hge
  · rw [List.take_append_of_le_length hle]
    exact List.take_prefix _ _
  obtain ⟨j, rfl⟩ := Nat.exists_eq_add_of_le hge
  rw [List.take_append, List.take_of_length_le hge, Nat.add_sub_cancel_left] at hk ⊢
  obtain ⟨input, rfl⟩ := hl
  cases left with
  | nil => rw [List.take_nil, List.append_nil]
  | cons f rest =>
    cases j with
    | zero => rw [List.take_zero, List.append_nil]
    | succ j =>
      rw [List.take_succ_cons, wire_append, wire_cons, List.prefix_append_right_inj] at hk
      exact absurd (.trans (List.prefix_append _ _) hk) (hcut f rfl input rfl)

variable {t : Inbox} {r : ReadRet × Conn} {done : List Message} {req : HttpReq} {m : Message}

theorem Inbox.add_neg (t : Inbox) (he : r.2.errnum = 0) (hn : r.1.n < 0) : t.add r = t := by
  rw [Inbox.add, if_neg (not_not_intro he), if_pos hn]

theorem Inbox.add_eq {cur : Option Message} (he : r.2.errnum = 0) (hn : r.1.n = r.1.bytes.length)
    (hreq : r.2.req.head? = some req) (hcur : cur.getD ⟨req.opcode, []⟩ = m)
    (hopc : m.opcode = req.opcode) :
    Inbox.add ⟨done, cur, false⟩ r =
      if httpState r.2.req.head? = ConnState.Complete then
        ⟨done ++ [⟨m.opcode, m.payload ++ r.1.bytes⟩], none, false⟩
      else ⟨done, some ⟨m.opcode, m.payload ++ r.1.bytes⟩, false⟩ := by
  rw [Inbox.add, if_neg (not_not_intro he), if_neg (by omega), ← Conn.state_eq he, hreq]
  dsimp only
  rw [hcur, if_neg (by simp [hn, hopc])]

/-- The keys of the frames are in phase, or there are none. -/
def Phased (fs : List WsFrame) (c : Conn) (len : ℕ) : Prop :=
  (∀ f ∈ fs, f.key = []) ∨ c.KeyInPhase len

/-- A frame without a key is in phase. -/
theorem Conn.Holds.keyInPhase (h : c.Holds f o input) (hkey : f.key = []) (len : ℕ) :
    c.KeyInPhase len := by
  obtain ⟨req, hreq, -, hframe, -⟩ := h.req
  intro req' hreq' _ n _
  obtain rfl := Option.some.inj (hreq.symm.trans hreq')
  have hmask : req.datamask = [0, 0, 0, 0] := hframe.datamask.trans (if_pos hkey)
  have h0 : ∀ j < 4, [(0 : UInt8), 0, 0, 0].getD j 0 = 0 := by decide
  rw [hmask, h0 _ (Nat.mod_lt _ (by decide)), h0 _ (Nat.mod_lt _ (by decide))]

/-- One more call. -/
theorem serves_step (env : Env) (hfs : ∀ f ∈ fs, f.Single) {l : List UInt8} (hl : l <+: wire fs)
    (h : Serves fs l c t) {len : ℕ} (h1 : 1 ≤ len)
    (h31 : ∀ f ∈ fs, min len f.payload.length < 2 ^ 31) (hphase : Phased fs c len) :
    ∃ r, connHttpread env c len = some r ∧ Serves fs l r.2 (t.add r) ∧
      (r.1.n < 0 → r.2.pending = [] → Drained fs l (t.add r)) := by
  obtain ⟨done, left, input, rfl, ⟨rfl, rfl, hc⟩ | ⟨f, rest, o, rfl, hlt, rfl, rfl, hc⟩⟩ := h
  · -- between frames
    rw [wire_append, List.prefix_append_right_inj] at hl
    have hleft : ∀ f ∈ left, f.Single := fun f hf => hfs f (List.mem_append_right _ hf)
    obtain ⟨r, hr, hbytes, herr, ⟨hneg, hlistens, hnone⟩ | ⟨f, rest, input', rfl, rfl, hn,
      hholds⟩⟩ := listens_step env hc hl hleft len
    · refine ⟨r, hr, ?_, fun _ hpending => ?_⟩
      · rw [Inbox.add_neg _ herr hneg]
        exact ⟨done, left, input, rfl, .inl ⟨rfl, rfl, hlistens⟩⟩
      · rw [Inbox.add_neg _ herr hneg]
        refine drained_of_cut (fun f _ input' heq hf => ?_) (List.prefix_append _ _)
        obtain rfl := List.append_cancel_left heq
        have hheader : f.header <+: input :=
          .trans (List.prefix_append _ _) hf
        have hsome := frameScan_incremental.of_prefix f.frameScan_header hheader
        rw [hnone hpending] at hsome
        cases hsome
    · obtain ⟨req, hreq, -, -, hopc, -⟩ := hholds.req
      refine ⟨r, hr, ?_, fun hneg => by omega⟩
      rw [Inbox.add_eq herr (by rw [hn, hbytes]; rfl) hreq (m := ⟨f.opcode, []⟩) (by
        rw [Option.getD_none, hopc]) hopc.symm, hbytes]
      rcases Nat.eq_zero_or_pos f.payload.length with h0 | hpos
      · have hnil := List.length_eq_zero_iff.mp h0
        rw [← h0] at hholds
        rw [if_pos hholds.complete]
        refine ⟨done ++ [f], rest, input', by simp, .inl ⟨?_, ?_, hholds.listens⟩⟩
        · rw [List.map_append, List.map_singleton, WsFrame.message, hnil]
          rfl
        · rw [wire_append, wire_cons, wire_nil, WsFrame.bytes, hnil]
          simp
      · rw [if_neg (hholds.state_lt hpos)]
        exact ⟨done, f :: rest, input', rfl, .inr ⟨f, rest, 0, rfl, hpos, rfl, rfl, hholds⟩⟩
  · -- in the payload of `f`
    have hmem : f ∈ done ++ f :: rest := by simp
    have hphase' : c.KeyInPhase len :=
      hphase.elim (fun hkeys => hc.keyInPhase (hkeys f hmem) len) id
    obtain ⟨r, hr, herr, ⟨req, hreq, hopc⟩, ⟨hneg, hholds, hnil⟩ | ⟨raw, input', rfl, hn, hbytes,
      hholds⟩⟩ := holds_step env hc hlt h1 (h31 f hmem) hphase'
    · refine ⟨r, hr, ?_, fun _ hpending => ?_⟩
      · rw [Inbox.add_neg _ herr hneg]
        exact ⟨done, f :: rest, input, rfl, .inr ⟨f, rest, o, rfl, hlt, rfl, rfl, hholds⟩⟩
      · rw [Inbox.add_neg _ herr hneg]
        refine drained_of_cut (fun f' hf' input' heq hf => ?_) (List.prefix_append _ _)
        obtain rfl := Option.some.inj hf'
        obtain rfl := List.append_cancel_left heq
        have hlen := hf.length_le
        rw [hnil hpending, WsFrame.bytes, List.append_nil, List.length_append, List.length_append,
          List.length_take] at hlen
        omega
    · have hpayload : f.payload.take o ++ raw = f.payload.take (o + raw.length) := by
        rw [wire_append, List.prefix_append_right_inj, wire_cons, WsFrame.bytes,
          List.append_assoc, List.prefix_append_right_inj, ← List.append_assoc] at hl
        have hle := hholds.le
        have hprefix : f.payload.take o ++ raw <+: f.payload :=
          List.prefix_of_prefix_length_le ((List.prefix_append _ _).trans hl)
            (List.prefix_append _ _) (by
              rw [List.length_append, List.length_take]
              omega)
        rw [List.prefix_iff_eq_take.mp hprefix, List.length_append, List.length_take,
          Nat.min_eq_left hlt.le]
      have hseen : maskFrom f.mask 0 (f.payload.take o) ++ r.1.bytes =
          maskFrom f.mask 0 (f.payload.take (o + raw.length)) := by
        rw [hbytes, ← hpayload, maskFrom_append, List.length_take, Nat.min_eq_left hlt.le,
          Nat.zero_add]
      have hl' : wire done ++ (f.header ++ (f.payload.take o ++ (raw ++ input'))) =
          wire done ++ (f.header ++ (f.payload.take (o + raw.length) ++ input')) := by
        rw [← hpayload, List.append_assoc]
      refine ⟨r, hr, ?_, fun hneg => by omega⟩
      rw [Inbox.add_eq herr hn hreq (Option.getD_some ..) hopc.symm]
      dsimp only
      rw [hseen]
      by_cases hmore : o + raw.length < f.payload.length
      · rw [if_neg (hholds.state_lt hmore)]
        exact ⟨done, f :: rest, input', rfl,
          .inr ⟨f, rest, o + raw.length, rfl, hmore, rfl, hl', hholds⟩⟩
      · have hend : o + raw.length = f.payload.length := Nat.le_antisymm hholds.le (by omega)
        rw [hend] at hholds hl' ⊢
        rw [if_pos hholds.complete, List.take_length]
        refine ⟨done ++ [f], rest, input', by simp, .inl ⟨?_, ?_, hholds.listens⟩⟩
        · rw [List.map_append, List.map_singleton, WsFrame.message]
        · rw [hl', List.take_length, wire_append, wire_cons, wire_nil, WsFrame.bytes]
          simp

theorem Serves.order {l : List UInt8} (h : Serves fs l c t) :
    t.fault = false ∧ ∃ left, fs.map WsFrame.message = t.done ++ left ∧ ∀ cur ∈ t.current,
      ∃ m ∈ left.head?, cur.opcode = m.opcode ∧ cur.payload <+: m.payload := by
  obtain ⟨done, left, input, rfl, ⟨rfl, -⟩ | ⟨f, rest, o, rfl, -, rfl, -⟩⟩ := h
  · exact ⟨rfl, left.map WsFrame.message, List.map_append,
      fun _ hcur => absurd hcur (Option.not_mem_none _)⟩
  · refine ⟨rfl, (f :: rest).map WsFrame.message, List.map_append, fun cur hcur =>
      ⟨f.message, rfl, ?_⟩⟩
    obtain rfl := Option.some.inj hcur
    refine ⟨rfl, ?_⟩
    rw [WsFrame.message, ← take_maskFrom]
    exact List.take_prefix _ _

/-- The calls deliver the messages whose frames, or the first bytes of them, are sent. -/
theorem messages_read (env : Env) (hfs : ∀ f ∈ fs, f.Single) {l : List UInt8} (hl : l <+: wire fs)
    (hc : c.Listens l) {lens : List ℕ}
    (hlens : ∀ len ∈ lens, 1 ≤ len ∧ ∀ f ∈ fs, min len f.payload.length < 2 ^ 31)
    (hphase : Calls.Along (connHttpread env) (Phased fs) c lens) :
    ∃ rs, Calls.run (connHttpread env) c lens = some rs ∧
      Arrive (fs.map WsFrame.message) (fs.map WsFrame.bytes) l rs := by
  obtain ⟨rs, c', hrs, hserves, hall⟩ := Calls.run_foldl
    (P := fun c len => (1 ≤ len ∧ ∀ f ∈ fs, min len f.payload.length < 2 ^ 31) ∧ Phased fs c len)
    (R := fun c (x : Inbox × Bool) => Serves fs l c x.1 ∧ (x.2 = true → Drained fs l x.1))
    (g := fun x r => (x.1.add r, isOver r))
    (fun c x len h hlen => by
      obtain ⟨r, hr, hserves, hall⟩ := serves_step env hfs hl h.1 hlen.1.1 hlen.1.2 hlen.2
      refine ⟨r, hr, hserves, fun hover => ?_⟩
      obtain ⟨hneg, hpending⟩ := of_decide_eq_true hover
      exact hall hneg hpending)
    (t := (.empty, false)) ⟨⟨[], fs, l, rfl, .inl ⟨rfl, rfl, hc⟩⟩, nofun⟩
    (Calls.along_and (Calls.along_of_forall hlens _) hphase)
  rw [Calls.foldl_last] at hserves hall
  dsimp only at hserves hall
  obtain ⟨hfault, horder⟩ := hserves.order
  refine ⟨rs, hrs, hfault, horder, fun r hr hneg hpending k hk => ?_⟩
  rw [← List.map_take] at hk ⊢
  refine hall ?_ k ?_
  · rw [hr, Option.map_some]
    exact decide_eq_true ⟨hneg, hpending⟩
  · rwa [wire, List.flatMap_def]

end Webxs
