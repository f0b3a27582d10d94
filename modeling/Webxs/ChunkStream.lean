import Webxs.ChunkSize
import Webxs.ChunkedOut
import Webxs.PlainReading

/-!
# Chunks on a stream

What `xs_conn_write_chunked` emits for some blocks, and for the call without data, is read as the
body of a message : however `recv` splits the bytes, and whatever lengths are read, the calls of
`xs_conn_httpread` return the blocks one behind the other, the message is complete once, and the
next head is looked for in the bytes behind the last line end (`roundTrip_of_lastChunkWhole`).

That is so as long as no call takes the last size line before the line end behind it is there : it
takes that line end for granted and loses count of the bytes (`not_roundTrip`). Nor may the buffer,
which is doubled when it is full, hold more than a head may have when a call looks for the next one.
-/

namespace Webxs

/-! ## What is sent -/

/-- `s` is what `xs_conn_write_chunked` emits for the blocks, and for the call without data. -/
def Emits (o : Out) (blocks : List (List UInt8)) (s : List UInt8) : Prop :=
  ∃ o', emitChunked o (blocks.map ChunkCall.write) = some o' ∧ o'.sock.sent = o.sock.sent ++ s

/-- The chunks of the blocks, and the last one. -/
def chunksWire (blocks : List (List UInt8)) : List UInt8 :=
  blocks.flatMap (fun block => (ChunkCall.write block).frame) ++ [48, 13, 10, 13, 10]

theorem chunksWire_cons (block : List UInt8) (blocks : List (List UInt8)) :
    chunksWire (block :: blocks) =
      sizeText block.length ++ 13 :: 10 :: (block ++ ([13, 10] ++ chunksWire blocks)) := by
  simp [chunksWire, ChunkCall.frame, ChunkCall.text]

/-- A block that can be sent as a chunk. -/
def IsBlock (block : List UInt8) : Prop :=
  block ≠ [] ∧ block.length < 2 ^ 31

theorem emits_chunksWire {o : Out} (ho : o.AcceptsAll) {blocks : List (List UInt8)}
    (hb : ∀ block ∈ blocks, IsBlock block) : Emits o blocks (chunksWire blocks) := by
  have hproper : ∀ call ∈ blocks.map ChunkCall.write, call.Proper := List.forall_mem_map.mpr hb
  obtain ⟨o', hemit, htook⟩ := emitChunked_took ho hproper
  refine ⟨o', hemit, ?_⟩
  rw [htook.sent, List.flatMap_map, chunksWire]

/-- Nothing else is emitted. -/
theorem Emits.eq_chunksWire {o : Out} {blocks : List (List UInt8)} {s : List UInt8}
    (h : Emits o blocks s) (ho : o.AcceptsAll) (hb : ∀ block ∈ blocks, IsBlock block) :
    s = chunksWire blocks := by
  obtain ⟨o₁, h₁, hs₁⟩ := h
  obtain ⟨o₂, h₂, hs₂⟩ := emits_chunksWire ho hb
  obtain rfl := Option.some.inj (h₁.symm.trans h₂)
  exact List.append_cancel_left (hs₁.symm.trans hs₂)

/-! ## Size lines -/

/-- The offset behind a size line, for the last chunk behind the line end too that follows it. -/
def lineEnd (lead ds : List UInt8) : ℕ :=
  lead.length + ds.length + 2 + if hexValue ds = 0 then 2 else 0

/-- A size line is found, behind the line end of the chunk before it or not. -/
theorem lineScan_line {lead ds : List UInt8} (hlead : lead = [] ∨ lead = [13, 10])
    (hds : IsHex ds) (hlt : hexValue ds < 2 ^ 31) (more : List UInt8) :
    lineScan (lead ++ (ds ++ 13 :: 10 :: more)) = some ((hexValue ds : ℤ), lineEnd lead ds) := by
  have hno : ∀ a ∈ lead, noDigit a = true := by
    obtain rfl | rfl := hlead
    · exact fun _ ha => absurd ha List.not_mem_nil
    · decide +kernel
  obtain ⟨h1, h2, h3⟩ := parts_eq (t := 13 :: 10 :: more) hno hds fun a ha => by
    obtain rfl := Option.some.inj ha
    rfl
  have hsize : toInt32 (hexValue ds : ℤ) = hexValue ds := toInt32_of_lt (by omega) (by omega)
  have hzero : ((hexValue ds : ℤ) = 0) = (hexValue ds = 0) := propext Int.natCast_eq_zero
  rw [lineScan, scanChunk_parts, h1, h2, h3, hsize, crlfIndex, lineFound_some, Option.bind_some,
    Option.map_some, Nat.add_zero, lineEnd]
  simp only [hzero]

/-- Bytes without a size line in front of one are short of it. -/
theorem length_lt_of_lineScan {lead ds l : List UInt8} (hlead : lead = [] ∨ lead = [13, 10])
    (hds : IsHex ds) (hlt : hexValue ds < 2 ^ 31) {more : List UInt8}
    (hl : l <+: lead ++ (ds ++ 13 :: 10 :: more)) (hnone : lineScan l = none) :
    l.length < ds.length + 4 := by
  by_contra hge
  have hleadlen : lead.length ≤ 2 := by
    obtain rfl | rfl := hlead <;> decide
  have hline : lead ++ (ds ++ [13, 10]) <+: lead ++ (ds ++ 13 :: 10 :: more) :=
    ⟨more, by simp⟩
  have hshort : lead ++ (ds ++ [13, 10]) <+: l := by
    refine List.prefix_of_prefix_length_le hline hl ?_
    simp only [List.length_append, List.length_cons, List.length_nil]
    omega
  have hsome := lineScan_incremental.of_prefix (lineScan_line hlead hds hlt []) hshort
  rw [hnone] at hsome
  cases hsome

/-- `xs_conn_chunkready` finds the size line if it is there, and otherwise takes some bytes. -/
theorem connChunkready_line {c : Conn} (hp : c.Plain) (he : c.errnum = 0) {lead ds : List UInt8}
    (hlead : lead = [] ∨ lead = [13, 10]) (hds : IsHex ds) (hshort : ds.length ≤ 64)
    (hlt : hexValue ds < 2 ^ 31) {more : List UInt8}
    (hin : c.toRecvBuf.unread ++ c.pending = lead ++ (ds ++ 13 :: 10 :: more))
    (hw : LastChunkWhole c.toRecvBuf.unread ∧ LastChunkWhole
      (c.toRecvBuf.unread ++ c.toPeer.arrive (connBufresize c.toRecvBuf).room)) :
    ∃ o p b, o.errnum = 0 ∧ p.AlwaysQuiet ∧ b.Valid ∧
      b.unread ++ p.pending = lead ++ (ds ++ 13 :: 10 :: more) ∧
      (connChunkready c = some ((hexValue ds : ℤ),
          (c.put o p b).takeLine (hexValue ds) (lineEnd lead ds)) ∧
          lineEnd lead ds ≤ b.unread.length ∨
        ∃ n < 0, connChunkready c = some (n, c.put o p b) ∧ p.pending ≠ []) := by
  have hv := hp.good.valid
  have hline := lineScan_line hlead hds hlt more
  obtain ⟨hbv, hunread, -⟩ := connBufresize_spec hv
  cases hscan : lineScan c.toRecvBuf.unread with
  | some r =>
    have hwhole := lineScan_incremental.of_prefix hscan ⟨_, hin⟩
    rw [hline] at hwhole
    cases hwhole
    refine ⟨c.toOut, c.toPeer, _, he, hp.quiet, hbv, by rw [hunread]; exact hin,
      .inl ⟨connChunkready_of_some hv hscan (Int.natCast_nonneg _), ?_⟩⟩
    rw [hunread]
    exact hw.1.le hscan
  | none =>
    have hfew := length_lt_of_lineScan hlead hds hlt ⟨_, hin⟩ hscan
    have hroom := connBufresize_room hv (by omega)
    obtain ⟨bytes, hbytes⟩ : ∃ bytes, c.toPeer.arrive (connBufresize c.toRecvBuf).room = bytes :=
      ⟨_, rfl⟩
    rw [hbytes] at hw
    have hin' : c.toRecvBuf.unread ++ bytes ++
        (c.toPeer.next (connBufresize c.toRecvBuf).room).pending =
          lead ++ (ds ++ 13 :: 10 :: more) := by
      rw [List.append_assoc, ← hbytes, Peer.arrive_append_next]
      exact hin
    have hunread' : ((connBufresize c.toRecvBuf).extend bytes.length bytes).unread =
        c.toRecvBuf.unread ++ bytes := by
      rw [hbv.unread_extend, hunread]
    obtain ⟨o, ho, hcase⟩ := connChunkready_of_none hv rfl hbytes fun r hr => by
      rw [hscan] at hr
      cases hr
    refine ⟨o, _, _, ho hp.quiet.quiet (by unfold RecvBuf.room; omega), hp.quiet.next _,
      hbv.extend (hbv.length_arrive_le hbytes), by rw [hunread']; exact hin', ?_⟩
    rw [hunread']
    obtain ⟨n, enc, hfound, -, hready⟩ | ⟨hneg, n, hn, hready⟩ := hcase
    · have hwhole := lineScan_incremental.of_prefix hfound ⟨_, hin'⟩
      rw [hline] at hwhole
      cases hwhole
      exact .inl ⟨hready, hw.2.le hfound⟩
    · refine .inr ⟨n, hn, hready, fun hnil => ?_⟩
      rw [hnil, List.append_nil] at hin'
      have := hneg _ (by rw [hin']; exact hline)
      dsimp only at this
      omega

/-! ## In a chunked message -/

/-- The head of a chunked message : `xs_http_validrequest` finds it, and nothing shorter, it has at
most 131072 bytes and `xs_http_parse` takes it; it tells no length and asks for no upgrade. -/
structure ChunkedHead (env : Env) (head : List UInt8) : Prop where
  framed : headScan head = some (head.length : ℤ)
  length_le : head.length ≤ 131072
  accepted : (parsedHead env head).1 = 0
  upgrade : (parsedHead env head).2.upgrade = 0
  chunked : (parsedHead env head).2.chunked = true
  contentlen : (parsedHead env head).2.contentlen = 0

/-- The fields that do not change while the chunks are read. -/
def HttpReq.messageFields (req : HttpReq) : HttpReq :=
  { req.headFields with contentlen := 0, chunked := false }

/-- `req` is a chunked message with `head`, `size` bytes of which have come in size lines, and
`received` of these were returned. -/
structure HttpReq.Chunking (env : Env) (head : List UInt8) (received size : ℕ) (req : HttpReq) :
    Prop where
  fields : req.messageFields = (parsedHead env head).2.messageFields
  reqlen : req.reqlen ≠ 0
  header : req.header = false
  chunked : req.chunked = true
  consumed : req.consumed = received
  contentlen : req.contentlen = size

section Chunking

variable {env : Env} {head : List UInt8} {received size : ℕ} {req : HttpReq}

theorem HttpReq.Chunking.kept (h : req.Chunking env head received size) :
    req.done = false ∧ req.datamask = [0, 0, 0, 0] ∧
      req.statuscode = (parsedHead env head).2.statuscode := by
  obtain ⟨hdone, hmask, -⟩ := parsedHead_fixed env head
  exact ⟨(congrArg HttpReq.done h.fields).trans hdone,
    (congrArg HttpReq.datamask h.fields).trans hmask, (congrArg HttpReq.statuscode h.fields :)⟩

theorem HttpReq.Chunking.state (h : req.Chunking env head received size) :
    httpState (some req) = if received = 0 then ConnState.Header else ConnState.Response := by
  unfold httpState
  dsimp only
  rw [if_neg h.reqlen, if_neg (by simp [h.chunked]), if_pos (.inr h.chunked), h.consumed, ite_not]

/-- The message after its last chunk. -/
theorem HttpReq.Chunking.complete (h : req.Chunking env head received received)
    (hstatus : received = 0 → ¬(300 ≤ (parsedHead env head).2.statuscode ∧
      (parsedHead env head).2.statuscode ≤ 303)) :
    httpState (some { req with chunked := false }) = ConnState.Complete := by
  unfold httpState
  dsimp only
  rw [if_neg h.reqlen, h.contentlen, h.consumed, h.kept.2.2, h.header]
  by_cases h0 : received = 0
  · simp [h0, hstatus h0]
  · simp [h0]

theorem HttpReq.Chunking.plain (h : req.Chunking env head received size) {c : Conn}
    (hreq : c.req = [req]) (hv : c.toRecvBuf.Valid) (hu : c.upgrade = 0)
    (hq : c.toPeer.AlwaysQuiet) : c.Plain := by
  have hhead : c.req.head? = some req := by rw [hreq, List.head?_cons]
  refine ⟨⟨hv, fun hall => absurd (hall req hhead) h.reqlen, fun r hr => ?_⟩, hu, hq⟩
  obtain rfl := Option.some.inj (hhead.symm.trans hr)
  exact h.kept.1

end Chunking

/-- The connection reads a chunked message with `head`. `received` bytes of data were returned,
`cur` is left of the chunk at hand, and the `blocks` and `rest` follow. -/
structure Conn.InChunks (env : Env) (c : Conn) (head : List UInt8) (received : ℕ)
    (cur : List UInt8) (blocks : List (List UInt8)) (rest : List UInt8) : Prop
    extends c.Plain where
  free : ∀ req ∈ c.freereq, req.header = false
  bytes : ∃ lead, (lead = [] ∨ lead = [13, 10]) ∧
    c.toRecvBuf.unread ++ c.pending = cur ++ (lead ++ (chunksWire blocks ++ rest))
  fits : received + cur.length + blocks.flatten.length < 2 ^ 64
  req : ∃ req : HttpReq, c.req = [req] ∧ req.Chunking env head received (received + cur.length)

variable {env : Env} {head : List UInt8} {received : ℕ} {cur : List UInt8}
  {blocks : List (List UInt8)} {rest : List UInt8} {c : Conn}

theorem Conn.InChunks.setErr (h : c.InChunks env head received cur blocks rest) (e : ℤ) :
    (c.setErr e).InChunks env head received cur blocks rest :=
  ⟨h.toPlain.setErr e, h.free, h.bytes, h.fits, h.req⟩

theorem Conn.InChunks.state (h : c.InChunks env head received cur blocks rest) :
    httpState c.req.head? = if received = 0 then ConnState.Header else ConnState.Response := by
  obtain ⟨req, hreq, hchunking⟩ := h.req
  rw [hreq, List.head?_cons, hchunking.state]

/-- Reading the chunk at hand. -/
theorem readData_chunk (h : c.InChunks env head received cur blocks rest) (he : c.errnum = 0)
    (hcur : cur ≠ []) (hlt : cur.length < 2 ^ 31) {req : HttpReq} (hreq : c.req.head? = some req)
    {len : ℕ} (h1 : 1 ≤ len) :
    ∃ r, readData c req len = some r ∧ r.2.errnum = 0 ∧
      (r.1.n < 0 ∧ r.2.InChunks env head received cur blocks rest ∧ r.2.pending ≠ [] ∨
        ∃ k : ℕ, 0 < k ∧ k ≤ cur.length ∧ r.1.n = k ∧ r.1.bytes = cur.take k ∧
          r.2.InChunks env head (received + k) (cur.drop k) blocks rest) := by
  obtain ⟨req', hreq', hchunking⟩ := h.req
  rw [hreq', List.head?_cons] at hreq
  obtain rfl := Option.some.inj hreq.symm
  obtain ⟨hdone, hmask, -⟩ := hchunking.kept
  obtain ⟨lead, hlead, hbytes⟩ := h.bytes
  have hpos := List.length_pos_iff.mpr hcur
  have hcons := hchunking.consumed
  have hcont := hchunking.contentlen
  have hfits := h.fits
  obtain ⟨n, re, o, p, b, raw, hread, htook, hle, hn⟩ := readData_plain h.toPlain he hmask
    (by omega) h1 (by omega)
  have hin : b.unread ++ p.pending =
      (cur ++ (lead ++ (chunksWire blocks ++ rest))).drop raw.length := by
    rw [htook.bytes, hbytes]
  rw [hread]
  obtain ⟨rfl, hne⟩ | ⟨rfl, rfl, hunread⟩ := hn
  · have hraw := List.length_pos_iff.mpr hne
    have htake : raw = cur.take raw.length := by
      have hprefix : raw <+: cur ++ (lead ++ (chunksWire blocks ++ rest)) := by
        rw [← hbytes]
        exact htook.begins
      conv_lhs => rw [List.prefix_iff_eq_take.mp hprefix]
      rw [List.take_append_of_le_length (by omega)]
    have hmod : (req.consumed + raw.length) % 2 ^ 64 = received + raw.length := by
      rw [hcons, Nat.mod_eq_of_lt (by omega)]
    obtain ⟨req', hreq''⟩ : ∃ req' : HttpReq,
        { req with consumed := received + raw.length } = req' := ⟨_, rfl⟩
    have hreturned : ((c.put o p b).returned raw.length).req = [req'] := by
      show c.req.modifyHead _ = _
      rw [hreq', List.modifyHead_cons, hmod, hreq'']
    have hchunking' : req'.Chunking env head (received + raw.length)
        (received + raw.length + (cur.drop raw.length).length) := by
      rw [← hreq'', List.length_drop]
      refine ⟨hchunking.fields, hchunking.reqlen, hchunking.header, hchunking.chunked, rfl, ?_⟩
      show req.contentlen = _
      omega
    rw [if_neg hne]
    refine ⟨_, rfl, htook.errnum, .inr ⟨raw.length, hraw, by omega, rfl, htake,
      hchunking'.plain hreturned htook.valid h.upgrade htook.quiet, h.free, ⟨lead, hlead, ?_⟩, ?_,
      req', hreturned, hchunking'⟩⟩
    · show b.unread ++ p.pending = _
      rw [hin, List.drop_append_of_le_length (by omega)]
    · rw [List.length_drop]
      omega
  · rw [List.length_nil, List.drop_zero, hunread, List.nil_append] at hin
    have hmore : p.pending ≠ [] := by
      rw [hin]
      exact List.append_ne_nil_of_left_ne_nil hcur _
    rw [if_pos rfl]
    refine ⟨_, rfl, htook.errnum, .inl ⟨show (-1 : ℤ) < 0 by decide,
      ⟨hchunking.plain hreq' htook.valid h.upgrade htook.quiet, h.free, ⟨lead, hlead, ?_⟩, h.fits,
        req, hreq', hchunking⟩, hmore⟩⟩
    show b.unread ++ p.pending = _
    rw [hunread, List.nil_append, hin]

/-! ## Taking a size line -/

/-- What is left behind a size line. -/
theorem drop_lineEnd (lead ds more : List UInt8) :
    (lead ++ (ds ++ 13 :: 10 :: more)).drop (lineEnd lead ds) =
      if hexValue ds = 0 then more.drop 2 else more := by
  have hsplit : lead ++ (ds ++ 13 :: 10 :: more) = (lead ++ (ds ++ [13, 10])) ++ more := by simp
  have hlen : (lead ++ (ds ++ [13, 10])).length = lead.length + ds.length + 2 := by
    simp only [List.length_append, List.length_cons, List.length_nil]
    omega
  rw [lineEnd, hsplit, ← List.drop_drop, List.drop_left' hlen]
  split_ifs <;> rfl

theorem unread_takeLine {b : RecvBuf} {p : Peer} {l : List UInt8} {e : ℕ} (hv : b.Valid)
    (hin : b.unread ++ p.pending = l) (hle : e ≤ b.unread.length) :
    (b.consume e).Valid ∧ (b.consume e).unread ++ p.pending = l.drop e := by
  have hlen := hv.length_unread
  refine ⟨hv.consume (by omega) (by omega), ?_⟩
  rw [hv.unread_consume (by omega), Int.toNat_natCast, ← List.drop_append_of_le_length hle, hin]

/-- The size line of a block is taken, and the block comes next. -/
theorem inChunks_takeLine {block : List UInt8}
    (h : c.InChunks env head received [] (block :: blocks) rest) {o : Out} {p : Peer} {b : RecvBuf}
    {e : ℕ} (hq : p.AlwaysQuiet) (hv : (b.consume e).Valid)
    (hin : (b.consume e).unread ++ p.pending =
      block ++ ([13, 10] ++ (chunksWire blocks ++ rest))) :
    ((c.put o p b).takeLine block.length e).InChunks env head received block blocks rest := by
  obtain ⟨req, hreq, hchunking⟩ := h.req
  have hfits := h.fits
  rw [List.flatten_cons, List.length_append, List.length_nil] at hfits
  have hmod : (req.contentlen + (block.length : ℤ).toNat) % 2 ^ 64 = received + block.length := by
    rw [hchunking.contentlen, List.length_nil, Int.toNat_natCast, Nat.mod_eq_of_lt (by omega),
      Nat.add_zero]
  obtain ⟨req', hreq'⟩ : ∃ req' : HttpReq,
      { req with contentlen := received + block.length } = req' := ⟨_, rfl⟩
  have hreqs : ((c.put o p b).takeLine block.length e).req = [req'] := by
    show c.req.modifyHead _ = _
    rw [hreq, List.modifyHead_cons, hmod, hreq']
  have hchunking' : req'.Chunking env head received (received + block.length) := by
    rw [← hreq']
    exact ⟨hchunking.fields, hchunking.reqlen, hchunking.header, hchunking.chunked,
      hchunking.consumed, rfl⟩
  exact ⟨hchunking'.plain hreqs hv h.upgrade hq, h.free, ⟨[13, 10], .inr rfl, hin⟩, by omega, req',
    hreqs, hchunking'⟩

/-- The connection reads a chunked message : `received` bytes of data were returned, and `data` is
left. -/
def Conn.ReadsChunks (env : Env) (c : Conn) (head : List UInt8) (received : ℕ)
    (data rest : List UInt8) : Prop :=
  ∃ cur blocks, cur ++ blocks.flatten = data ∧ cur.length < 2 ^ 31 ∧
    (∀ block ∈ blocks, IsBlock block) ∧ c.InChunks env head received cur blocks rest

/-- What a call in a chunked message does. -/
def ChunkStep (env : Env) (head : List UInt8) (received : ℕ) (data rest : List UInt8)
    (r : ReadRet × Conn) : Prop :=
  r.1.n < 0 ∧ r.2.pending ≠ [] ∧ r.2.ReadsChunks env head received data rest ∨
    (∃ k : ℕ, 0 < k ∧ r.1.n = k ∧ r.1.bytes = data.take k ∧ k ≤ data.length ∧
      r.2.ReadsChunks env head (received + k) (data.drop k) rest) ∨
    data = [] ∧ r.1.n = 0 ∧ r.1.bytes = [] ∧ r.2.Awaits rest ∧
      httpState r.2.req.head? = ConnState.Complete

/-- A call in a chunk. -/
theorem chunkStep_data (h : c.InChunks env head received cur blocks rest) (he : c.errnum = 0)
    (hcur : cur ≠ []) (hlt : cur.length < 2 ^ 31) (hblocks : ∀ block ∈ blocks, IsBlock block)
    {req : HttpReq} (hreq : c.req.head? = some req) {len : ℕ} (h1 : 1 ≤ len) :
    ∃ r, readData c req len = some r ∧ r.2.errnum = 0 ∧
      ChunkStep env head received (cur ++ blocks.flatten) rest r := by
  obtain ⟨r, hr, herr, ⟨hneg, hin, hmore⟩ | ⟨k, hpos, hle, hn, hbytes, hin⟩⟩ :=
    readData_chunk h he hcur hlt hreq h1
  · exact ⟨r, hr, herr, .inl ⟨hneg, hmore, cur, blocks, rfl, hlt, hblocks, hin⟩⟩
  · refine ⟨r, hr, herr, .inr (.inl ⟨k, hpos, hn, ?_, ?_, cur.drop k, blocks, ?_, ?_, hblocks,
      hin⟩)⟩
    · rw [hbytes, List.take_append_of_le_length hle]
    · rw [List.length_append]
      omega
    · rw [List.drop_append_of_le_length hle]
    · rw [List.length_drop]
      omega

/-- A call that does not find a size line returns nothing. -/
theorem chunkStep_wait (h : c.InChunks env head received [] blocks rest)
    (hblocks : ∀ block ∈ blocks, IsBlock block) {o : Out} {p : Peer} {b : RecvBuf}
    (ho : o.errnum = 0) (hq : p.AlwaysQuiet) (hv : b.Valid)
    (hin : b.unread ++ p.pending = c.toRecvBuf.unread ++ c.pending) (hmore : p.pending ≠ [])
    {n : ℤ} (hn : n < 0) (len : ℕ) :
    ∃ r, readChunk (c.put o p b) (httpState c.req.head?) n len = some r ∧ r.2.errnum = 0 ∧
      ChunkStep env head received blocks.flatten rest r := by
  obtain ⟨lead, hlead, hbytes⟩ := h.bytes
  obtain ⟨req, hreq, hchunking⟩ := h.req
  rw [readChunk, if_pos hn.le, if_neg hn.ne]
  refine ⟨_, rfl, ho, .inl ⟨?_, hmore, [], blocks, rfl, Nat.two_pow_pos 31, hblocks,
    hchunking.plain hreq hv h.upgrade hq, h.free, ⟨lead, hlead, hin.trans hbytes⟩, h.fits, req,
    hreq, hchunking⟩⟩
  dsimp only
  rw [Conn.retvalue_eq ho, Conn.put_req, if_pos rfl]
  decide

/-- A call that finds the last size line completes the message. -/
theorem chunkStep_last (h : c.InChunks env head received [] [] rest)
    (hstatus : received = 0 → ¬(300 ≤ (parsedHead env head).2.statuscode ∧
      (parsedHead env head).2.statuscode ≤ 303)) {o : Out} {p : Peer} {b : RecvBuf} {e : ℕ}
    (ho : o.errnum = 0) (hq : p.AlwaysQuiet) (hv : (b.consume e).Valid)
    (hin : (b.consume e).unread ++ p.pending = rest) (len : ℕ) :
    ∃ r, readChunk ((c.put o p b).takeLine 0 e) (httpState c.req.head?) 0 len = some r ∧
      r.2.errnum = 0 ∧ ChunkStep env head received [] rest r := by
  obtain ⟨req, hreq, hchunking⟩ := h.req
  obtain ⟨req', hreq'⟩ : ∃ req' : HttpReq, { req with chunked := false } = req' := ⟨_, rfl⟩
  have hcomplete : httpState (some req') = ConnState.Complete := by
    rw [← hreq']
    exact hchunking.complete hstatus
  have hmod : (req.contentlen + (0 : ℤ).toNat) % 2 ^ 64 = req.contentlen := by
    have hfits := h.fits
    have hcont := hchunking.contentlen
    rw [List.length_nil] at hcont hfits
    rw [Int.toNat_zero, Nat.add_zero, Nat.mod_eq_of_lt (by omega)]
  obtain ⟨c', hc'⟩ : ∃ c' : Conn, (((c.put o p b).takeLine 0 e).modifyReq fun req =>
      { req with chunked := false }) = c' := ⟨_, rfl⟩
  have hreqs : c'.req = [req'] := by
    rw [← hc']
    show (c.req.modifyHead _).modifyHead _ = _
    rw [hreq, List.modifyHead_cons, List.modifyHead_cons, hmod, hreq']
  have hhead : c'.req.head? = some req' := by rw [hreqs, List.head?_cons]
  have herr : c'.errnum = 0 := by
    rw [← hc']
    exact ho
  have hplain : c'.Plain := by
    refine ⟨⟨by rw [← hc']; exact hv, fun hall => ?_, fun r hr => ?_⟩,
      by rw [← hc']; exact h.upgrade, by rw [← hc']; exact hq⟩
    · refine absurd (hall req' hhead) ?_
      rw [← hreq']
      exact hchunking.reqlen
    · obtain rfl := Option.some.inj (hhead.symm.trans hr)
      rw [← hreq']
      exact hchunking.kept.1
  have hawaits : c'.Awaits rest := by
    refine awaits_of_complete hplain (by rw [← hc']; exact h.free) (by rw [← hc']; exact hin) hreqs
      ?_ hcomplete
    rw [← hreq']
    exact hchunking.header
  have hret : c'.retvalue (httpState c.req.head?) = 0 := by
    rw [Conn.retvalue_eq herr, hhead, hcomplete, h.state]
    split_ifs <;> first | rfl | contradiction
  rw [readChunk, if_pos le_rfl, if_pos rfl, hc']
  refine ⟨_, rfl, herr, .inr (.inr ⟨rfl, hret, rfl, hawaits, ?_⟩)⟩
  rw [hhead]
  exact hcomplete

theorem length_sizeText_le (n : ℕ) : (sizeText n).length ≤ 64 := by
  rw [sizeText, List.length_reverse]
  exact length_convertToBackwardsStr_le _ _ _ _

/-- A call in a chunked message. -/
theorem readsChunks_step {data : List UInt8} (h : c.ReadsChunks env head received data rest)
    (hstatus : received = 0 → data = [] → ¬(300 ≤ (parsedHead env head).2.statuscode ∧
      (parsedHead env head).2.statuscode ≤ 303)) (hw : c.LastChunkWhole) {len : ℕ} (h1 : 1 ≤ len) :
    ∃ r, connHttpread env c len = some r ∧ r.2.errnum = 0 ∧
      ChunkStep env head received data rest r := by
  obtain ⟨cur, blocks, rfl, hlt, hblocks, h⟩ := h
  obtain ⟨req, hreq, hchunking⟩ := h.req
  have hhead : c.req.head? = some req := by rw [hreq, List.head?_cons]
  have hreading : c.Reading req :=
    ⟨⟨h.good.valid, hhead, hchunking.reqlen, hchunking.kept.1⟩, hchunking.header,
      .inl hchunking.chunked⟩
  have hcons := hchunking.consumed
  have hcont := hchunking.contentlen
  rw [connHttpread_of_reading env hreading, readBody]
  by_cases hcur : cur = []
  · subst hcur
    have heq : req.contentlen = req.consumed := by
      rw [hcont, hcons]
      rfl
    have hwhole := hw ⟨req, hhead, hchunking.reqlen, hchunking.chunked, .inr heq⟩
    have h' := h.setErr 0
    obtain ⟨lead, hlead, hbytes⟩ := h'.bytes
    rw [if_pos ⟨hchunking.chunked, .inr heq⟩, ← hhead]
    cases blocks with
    | nil =>
      have hds : IsHex [48] := ⟨by decide, List.forall_mem_singleton.mpr (by decide +kernel)⟩
      have hzero : hexValue [48] = 0 := rfl
      have hin : (c.setErr 0).toRecvBuf.unread ++ (c.setErr 0).pending =
          lead ++ ([48] ++ 13 :: 10 :: ([13, 10] ++ rest)) := hbytes
      obtain ⟨o, p, b, ho, hq, hv, hin', ⟨hready, hle⟩ | ⟨n, hn, hready, hmore⟩⟩ :=
        connChunkready_line h'.toPlain rfl hlead hds (by decide) (by omega) hin hwhole
      · obtain ⟨hv', hleft⟩ := unread_takeLine hv hin' hle
        rw [drop_lineEnd, if_pos hzero] at hleft
        rw [hready, Option.bind_some]
        exact chunkStep_last h' (fun h0 => hstatus h0 rfl) ho hq hv' hleft len
      · rw [hready, Option.bind_some]
        exact chunkStep_wait h' hblocks ho hq hv (hin'.trans hin.symm) hmore hn len
    | cons block blocks =>
      obtain ⟨hblock, hblocks'⟩ := List.forall_mem_cons.mp hblocks
      obtain ⟨hds, hvalue⟩ := isHex_sizeText hblock.2
      have hpos := List.length_pos_iff.mpr hblock.1
      have hin : (c.setErr 0).toRecvBuf.unread ++ (c.setErr 0).pending =
          lead ++ (sizeText block.length ++
            13 :: 10 :: (block ++ ([13, 10] ++ (chunksWire blocks ++ rest)))) := by
        rw [hbytes, chunksWire_cons]
        simp
      obtain ⟨o, p, b, ho, hq, hv, hin', ⟨hready, hle⟩ | ⟨n, hn, hready, hmore⟩⟩ :=
        connChunkready_line h'.toPlain rfl hlead hds (length_sizeText_le _)
          (by rw [hvalue]; exact hblock.2) hin hwhole
      · obtain ⟨hv', hleft⟩ := unread_takeLine hv hin' hle
        rw [drop_lineEnd, if_neg (by omega)] at hleft
        rw [hvalue] at hready
        have hnext := inChunks_takeLine h' hq hv' hleft (o := o)
        obtain ⟨req', hreq', -⟩ := hnext.req
        have hhead' : ((c.setErr 0).put o p b |>.takeLine block.length
            (lineEnd lead (sizeText block.length))).req.head? = some req' := by
          rw [hreq', List.head?_cons]
        rw [hready, Option.bind_some]
        dsimp only
        rw [readChunk, if_neg (by omega), hhead', Option.bind_some]
        exact chunkStep_data hnext ho hblock.1 hblock.2 hblocks' hhead' h1
      · rw [hready, Option.bind_some]
        exact chunkStep_wait h' hblocks ho hq hv (hin'.trans hin.symm) hmore hn len
  · have hpos := List.length_pos_iff.mpr hcur
    rw [if_neg fun hat => by rcases hat.2 with h0 | h0 <;> omega]
    exact chunkStep_data (h.setErr 0) rfl hcur hlt hblocks hhead h1

/-- The head of a chunked message is taken. -/
theorem readFound_chunked (hh : ChunkedHead env head) (hne : head ≠ []) {c₀ : Conn} {s n : ℤ}
    (hf : c₀.Finds (head ++ (chunksWire blocks ++ rest)) n c)
    (hs : s = ConnState.Pending ∨ s = ConnState.LastState)
    (hblocks : ∀ block ∈ blocks, IsBlock block) (hfits : blocks.flatten.length < 2 ^ 64) :
    ∃ r, readFound env c s n = some r ∧ r.2.errnum = 0 ∧ r.1.n = 0 ∧ r.1.bytes = [] ∧
      r.2.ReadsChunks env head 0 blocks.flatten rest := by
  obtain ⟨rfl, hbuf⟩ := head_of_headScan hh.framed ⟨_, hf.bytes⟩ hf.scan
  obtain ⟨c', req, hfound, ht⟩ := readFound_taken s hf.upgrade hf.unmarked hh.accepted hne hbuf
  obtain ⟨hbegun, -⟩ := hf.begun ht hne hbuf
  have hchunked : req.chunked = true := (congrArg HttpReq.chunked ht.fields).trans hh.chunked
  have hupgrade : req.upgrade = 0 := (congrArg HttpReq.upgrade ht.fields).trans hh.upgrade
  have hcont : req.contentlen = 0 := (congrArg HttpReq.contentlen ht.fields).trans hh.contentlen
  have hchunking : req.Chunking env head 0 0 :=
    ⟨congrArg (fun req : HttpReq => { req with contentlen := 0, chunked := false }) ht.fields,
      hbegun.reqlen, ht.header, hchunked, ht.consumed, hcont⟩
  have hmark : c'.markUpgrade = c' := if_neg (not_not_intro ht.upgrade)
  have hstarted : readStarted env c' s = (⟨c'.retvalue s, [], c'.buffered⟩, c') := by
    unfold readStarted
    dsimp only
    rw [hmark, ht.only, List.head?_cons]
    dsimp only
    rw [if_neg (by rw [hupgrade]; decide), if_neg (by rw [hupgrade]; decide),
      if_neg (by simp [hchunked])]
  have hret : c'.retvalue s = 0 := by
    rw [Conn.retvalue_eq hbegun.errnum, ht.only, List.head?_cons, hchunking.state, if_pos rfl]
    obtain rfl | rfl := hs <;> rfl
  rw [hfound, hstarted]
  exact ⟨_, rfl, hbegun.errnum, hret, rfl, [], blocks, rfl, Nat.two_pow_pos 31, hblocks,
    hbegun.toPlain, ht.free, ⟨[], .inl rfl, hbegun.bytes⟩, by simpa using hfits, req, ht.only,
    hchunking⟩

/-! ## What a caller gets -/

/-- What a caller made of the returns. -/
structure Decoding where
  /-- The head was returned. -/
  started : Bool
  body : List UInt8
  complete : Bool
  /-- A call ended with an error, or returned something out of order. -/
  fault : Bool
  deriving DecidableEq

/-- One more return, and the state after it. A call that returned a negative value does not
count. -/
def Decoding.add (t : Decoding) (r : ReadRet × Conn) : Decoding :=
  if r.2.errnum ≠ 0 then { t with fault := true }
  else if r.1.n < 0 then t
  else if r.1.n ≠ r.1.bytes.length ∨ t.complete = true then { t with fault := true }
  else if t.started = false then
    if r.2.state = ConnState.Header ∧ r.1.bytes = [] then { t with started := true }
    else { t with fault := true }
  else if r.2.state = ConnState.Response then { t with body := t.body ++ r.1.bytes }
  else if r.2.state = ConnState.Complete then
    { t with body := t.body ++ r.1.bytes, complete := true }
  else { t with fault := true }

/-- What a caller made of all returns. -/
def decoding (rs : List (ReadRet × Conn)) : Decoding :=
  rs.foldl Decoding.add ⟨false, [], false, false⟩

/-- The calls return the blocks in order, and the message is complete once, with `rest` left. If
nothing is pending and a call had nothing to return, then it is complete. -/
structure Decoded (c : Conn) (blocks : List (List UInt8)) (rest : List UInt8)
    (rs : List (ReadRet × Conn)) : Prop where
  fault : (decoding rs).fault = false
  body : (decoding rs).body <+: blocks.flatten
  complete : (decoding rs).complete = true →
    (decoding rs).body = blocks.flatten ∧ (Calls.last c rs).Between ∧
      (Calls.last c rs).toRecvBuf.Valid ∧
      (Calls.last c rs).toRecvBuf.unread ++ (Calls.last c rs).pending = rest
  all : ∀ r ∈ rs.getLast?, r.1.n < 0 → r.2.pending = [] → (decoding rs).complete = true

/-- The call finds the head in front of `rest`, and makes a message of it. -/
def ParsesNext (env : Env) (c : Conn) (len : ℕ) (rest : List UInt8) : Prop :=
  ∃ head s c', headScan head = some (head.length : ℤ) ∧ head <+: rest ∧
    connHttpread env c len = readFound env c' s head.length ∧ c'.consumed = 0 ∧
    head <+: c'.buf ∧ c'.buf ++ c'.pending = rest

/-- The calls decode the blocks, up to the one that parses the next head, if there is one. -/
def RoundTrip (env : Env) (c : Conn) (blocks : List (List UInt8)) (rest : List UInt8)
    (lens : List ℕ) : Prop :=
  ∃ js ks rs, lens = js ++ ks ∧ Calls.run (connHttpread env) c js = some rs ∧
    Decoded c blocks rest rs ∧
    ∀ len ∈ ks.head?, (decoding rs).complete = true ∧ ParsesNext env (Calls.last c rs) len rest

/-- A call that looks for a head sees no more bytes than a head may have. -/
def Conn.HeadFits (c : Conn) : Prop :=
  c.Between → (c.cleared.offered.length : ℤ) ≤ maxheaderlen

instance (c : Conn) : Decidable c.HeadFits := by
  unfold Conn.HeadFits Conn.Between
  infer_instance

/-- The connection goes on where the caller is. -/
inductive Decodes (env : Env) (head : List UInt8) (data wire rest : List UInt8) (c : Conn) :
    Decoding → Prop
  | head (h : c.Awaits (head ++ wire)) : Decodes env head data wire rest c ⟨false, [], false, false⟩
  | body {got left : List UInt8} (hdata : got ++ left = data)
      (h : c.ReadsChunks env head got.length left rest) :
      Decodes env head data wire rest c ⟨true, got, false, false⟩
  | next (h : c.Awaits rest) : Decodes env head data wire rest c ⟨true, data, true, false⟩

theorem Decoding.add_neg (t : Decoding) {r : ReadRet × Conn} (he : r.2.errnum = 0)
    (hn : r.1.n < 0) : t.add r = t := by
  rw [Decoding.add, if_neg (not_not_intro he), if_pos hn]

theorem Decoding.add_header {r : ReadRet × Conn} (he : r.2.errnum = 0) (hn : r.1.n = 0)
    (hbytes : r.1.bytes = []) (hstate : httpState r.2.req.head? = ConnState.Header) :
    Decoding.add ⟨false, [], false, false⟩ r = ⟨true, [], false, false⟩ := by
  rw [← Conn.state_eq he] at hstate
  rw [Decoding.add, if_neg (not_not_intro he), if_neg (by omega), hbytes, hn, if_neg (by simp),
    if_pos rfl, if_pos ⟨hstate, rfl⟩]

theorem Decoding.add_response {got : List UInt8} {r : ReadRet × Conn} (he : r.2.errnum = 0)
    (hn : r.1.n = r.1.bytes.length) (hstate : httpState r.2.req.head? = ConnState.Response) :
    Decoding.add ⟨true, got, false, false⟩ r = ⟨true, got ++ r.1.bytes, false, false⟩ := by
  rw [← Conn.state_eq he] at hstate
  rw [Decoding.add, if_neg (not_not_intro he), if_neg (by omega), if_neg (by simp [hn]),
    if_neg (by simp), if_pos hstate]

theorem Decoding.add_complete {got : List UInt8} {r : ReadRet × Conn} (he : r.2.errnum = 0)
    (hn : r.1.n = 0) (hbytes : r.1.bytes = [])
    (hstate : httpState r.2.req.head? = ConnState.Complete) :
    Decoding.add ⟨true, got, false, false⟩ r = ⟨true, got, true, false⟩ := by
  rw [← Conn.state_eq he] at hstate
  rw [Decoding.add, if_neg (not_not_intro he), if_neg (by omega), hbytes, hn, if_neg (by simp),
    if_neg (by simp), if_neg (by rw [hstate]; decide), if_pos hstate, List.append_nil]

theorem Conn.ReadsChunks.state {data : List UInt8} (h : c.ReadsChunks env head received data rest) :
    httpState c.req.head? = if received = 0 then ConnState.Header else ConnState.Response := by
  obtain ⟨cur, blocks, -, -, -, h⟩ := h
  exact h.state

/-- A call that finds the next head. -/
theorem parsesNext_of_finds {len : ℕ} {s n : ℤ} {c' : Conn} (hrest : BeginsWithHead rest)
    (hcall : connHttpread env c len = readFound env c' s n) (hf : c.Finds rest n c') :
    ParsesNext env c len rest := by
  obtain rfl | ⟨next, hframed, -, -, more, rfl⟩ := hrest
  · have hscan := hf.scan
    rw [(List.append_eq_nil_iff.mp hf.bytes).1] at hscan
    cases hscan
  · obtain ⟨rfl, hbuf⟩ := head_of_headScan hframed ⟨_, hf.bytes⟩ hf.scan
    exact ⟨next, s, c', hframed, List.prefix_append _ _, hcall, hf.consumed, hbuf, hf.bytes⟩

/-- One more call. -/
theorem decodes_step (hh : ChunkedHead env head) (hne : head ≠ [])
    (hblocks : ∀ block ∈ blocks, IsBlock block) (hfits : blocks.flatten.length < 2 ^ 64)
    (hstatus : blocks = [] → ¬(300 ≤ (parsedHead env head).2.statuscode ∧
      (parsedHead env head).2.statuscode ≤ 303)) (hrest : BeginsWithHead rest) {t : Decoding}
    (h : Decodes env head blocks.flatten (chunksWire blocks ++ rest) rest c t) {len : ℕ}
    (h1 : 1 ≤ len) (hw : c.LastChunkWhole) (hf : c.HeadFits) :
    (∃ r, connHttpread env c len = some r ∧
      Decodes env head blocks.flatten (chunksWire blocks ++ rest) rest r.2 (t.add r) ∧
      (r.1.n < 0 → r.2.pending = [] → (t.add r).complete = true)) ∨
    t.complete = true ∧ ParsesNext env c len rest := by
  cases h with
  | head h =>
    have hbegins : BeginsWithHead (head ++ (chunksWire blocks ++ rest)) :=
      .inr ⟨head, hh.framed, hh.length_le, hne, List.prefix_append _ _⟩
    obtain ⟨r, hr, -, hneg, herr, hawaits, hall, -⟩ | ⟨s, n, c', hs, -, hcall, hfinds⟩ :=
      awaits_head env h hbegins (hf h.between) len
    · refine .inl ⟨r, hr, ?_, fun _ hpending => ?_⟩
      · rw [Decoding.add_neg _ herr hneg]
        exact .head hawaits
      · exact absurd (List.append_eq_nil_iff.mp (hall hpending)).1 hne
    · obtain ⟨r, hr, herr, hn, hbytes, hreads⟩ :=
        readFound_chunked hh hne hfinds hs hblocks hfits
      refine .inl ⟨r, hcall.trans hr, ?_, fun hneg => by omega⟩
      rw [Decoding.add_header herr hn hbytes (by rw [hreads.state, if_pos rfl])]
      exact .body (List.nil_append _) hreads
  | @body got left hdata h =>
    have hstatus' : got.length = 0 → left = [] → ¬(300 ≤ (parsedHead env head).2.statuscode ∧
        (parsedHead env head).2.statuscode ≤ 303) := by
      intro hgot hleft
      refine hstatus (List.eq_nil_iff_forall_not_mem.mpr fun block hmem => ?_)
      rw [List.length_eq_zero_iff.mp hgot, hleft, List.append_nil] at hdata
      exact (hblocks block hmem).1 (List.flatten_eq_nil_iff.mp hdata.symm block hmem)
    obtain ⟨r, hr, herr, ⟨hneg, hmore, hreads⟩ | ⟨k, hpos, hn, hbytes, hle, hreads⟩ |
      ⟨rfl, hn, hbytes, hawaits, hstate⟩⟩ := readsChunks_step h hstatus' hw h1
    · refine .inl ⟨r, hr, ?_, fun _ hpending => absurd hpending hmore⟩
      rw [Decoding.add_neg _ herr hneg]
      exact .body hdata hreads
    · have hlen : r.1.n = r.1.bytes.length := by
        rw [hn, hbytes, List.length_take, Nat.min_eq_left hle]
      have hgot : (got ++ r.1.bytes).length = got.length + k := by
        rw [List.length_append, hbytes, List.length_take, Nat.min_eq_left hle]
      refine .inl ⟨r, hr, ?_, fun hneg => by omega⟩
      rw [Decoding.add_response herr hlen (by rw [hreads.state, if_neg (by omega)])]
      have hdata' : got ++ r.1.bytes ++ left.drop k = blocks.flatten := by
        rw [hbytes, List.append_assoc, List.take_append_drop, hdata]
      exact .body hdata' (by rw [hgot]; exact hreads)
    · rw [List.append_nil] at hdata
      refine .inl ⟨r, hr, ?_, fun hneg => by omega⟩
      rw [Decoding.add_complete herr hn hbytes hstate, hdata]
      exact .next hawaits
  | next h =>
    obtain ⟨r, hr, -, hneg, herr, hawaits, -⟩ | ⟨s, n, c', -, -, hcall, hfinds⟩ :=
      awaits_head env h hrest (hf h.between) len
    · refine .inl ⟨r, hr, ?_, fun _ _ => ?_⟩
      · rw [Decoding.add_neg _ herr hneg]
        exact .next hawaits
      · rw [Decoding.add_neg _ herr hneg]
    · exact .inr ⟨rfl, parsesNext_of_finds hrest hcall hfinds⟩

/-- Where the caller is when the calls end. -/
theorem Decodes.decoded {wire : List UInt8} {t : Decoding}
    (h : Decodes env head blocks.flatten wire rest c t) :
    t.fault = false ∧ t.body <+: blocks.flatten ∧
      (t.complete = true → t.body = blocks.flatten ∧ c.Between ∧ c.toRecvBuf.Valid ∧
        c.toRecvBuf.unread ++ c.pending = rest) := by
  cases h with
  | head h => exact ⟨rfl, List.nil_prefix, fun h => by cases h⟩
  | body hdata h => exact ⟨rfl, ⟨_, hdata⟩, fun h => by cases h⟩
  | next h => exact ⟨rfl, List.prefix_rfl, fun _ => ⟨rfl, h.between, h.good.valid, h.bytes⟩⟩

/-- What `xs_conn_write_chunked` emits for the blocks is decoded to these, however `recv` splits the
bytes, and the next message is parsed behind it, if no call takes the last size line early or looks
for a head in more than a head may have. -/
theorem roundTrip_of_lastChunkWhole (env : Env) {o : Out} (ho : o.AcceptsAll) {head : List UInt8}
    (hh : ChunkedHead env head) {blocks : List (List UInt8)}
    (hblocks : ∀ block ∈ blocks, IsBlock block) (hfits : blocks.flatten.length < 2 ^ 64)
    (hstatus : blocks = [] → ¬(300 ≤ (parsedHead env head).2.statuscode ∧
      (parsedHead env head).2.statuscode ≤ 303))
    {s : List UInt8} (hs : Emits o blocks s) {rest : List UInt8} (hrest : BeginsWithHead rest)
    {recvs : ℕ → RecvAns} (hquiet : ∀ i, recvs i = .fail EAGAIN ∨ ∃ n, recvs i = .data n)
    (sock : Sock) {lens : List ℕ} (hlens : ∀ len ∈ lens, 1 ≤ len)
    (ha : Calls.Along (connHttpread env) (fun c _ => c.LastChunkWhole ∧ c.HeadFits)
      (Conn.init recvs (head ++ (s ++ rest)) sock) lens) :
    RoundTrip env (Conn.init recvs (head ++ (s ++ rest)) sock) blocks rest lens := by
  obtain rfl := hs.eq_chunksWire ho hblocks
  have hne : head ≠ [] := by
    rintro rfl
    exact absurd hh.framed (by decide)
  obtain ⟨js, ks, rs, hlens', hrs, ⟨hdecodes, hall⟩, hnext⟩ := Calls.run_until
    (P := fun c len => (c.LastChunkWhole ∧ c.HeadFits) ∧ 1 ≤ len)
    (R := fun c (x : Decoding × Bool) =>
      Decodes env head blocks.flatten (chunksWire blocks ++ rest) rest c x.1 ∧
        (x.2 = true → x.1.complete = true))
    (Q := fun c x len => x.1.complete = true ∧ ParsesNext env c len rest)
    (g := fun x r => (x.1.add r, isOver r))
    (fun c x len h hp => by
      obtain ⟨r, hr, hdecodes, hall⟩ | hnext :=
        decodes_step hh hne hblocks hfits hstatus hrest h.1 hp.2 hp.1.1 hp.1.2
      · refine .inl ⟨r, hr, hdecodes, fun hover => ?_⟩
        obtain ⟨hneg, hpending⟩ := of_decide_eq_true hover
        exact hall hneg hpending
      · exact .inr hnext)
    (t := (⟨false, [], false, false⟩, false)) ⟨.head (awaits_init _ sock hquiet), nofun⟩
    (Calls.along_and ha (Calls.along_of_forall hlens _))
  rw [Calls.foldl_last] at hdecodes hall hnext
  dsimp only at hdecodes hall hnext
  obtain ⟨hfault, hbody, hcomplete⟩ := hdecodes.decoded
  refine ⟨js, ks, rs, hlens', hrs, ⟨hfault, hbody, hcomplete, fun r hr hneg hpending => hall ?_⟩,
    hnext⟩
  rw [hr, Option.map_some]
  exact decide_eq_true ⟨hneg, hpending⟩

/-- A chunked response. -/
def chunkedResponse : List UInt8 :=
  ascii "HTTP/1.1 200 OK\r\nTransfer-Encoding: chunked\r\n\r\n"

theorem chunkedHead_chunkedResponse : ChunkedHead .plain chunkedResponse :=
  ⟨by decide +kernel, by decide +kernel, by decide +kernel, by decide +kernel, by decide +kernel,
    by decide +kernel⟩

/-- Another response follows. -/
theorem beginsWithHead_chunkedResponse : BeginsWithHead chunkedResponse :=
  .inr ⟨chunkedResponse, chunkedHead_chunkedResponse.framed, by decide +kernel, by decide +kernel,
    List.prefix_rfl⟩

theorem isBlock_hi : ∀ block ∈ [ascii "hi"], IsBlock block :=
  List.forall_mem_singleton.mpr ⟨by decide, by decide +kernel⟩

/-- A chunk, read in small pieces. -/
theorem roundTrip_of_lastChunkWhole_hi :
    RoundTrip .plain (Conn.init (fun i => if i % 3 = 0 then .fail EAGAIN else .data (7 * i))
      (chunkedResponse ++ (chunksWire [ascii "hi"] ++ chunkedResponse)) .idle) [ascii "hi"]
      chunkedResponse (List.replicate 12 1) := by
  refine roundTrip_of_lastChunkWhole .plain Out.acceptsAll_willing chunkedHead_chunkedResponse
    isBlock_hi (by decide +kernel) (fun hnil => absurd hnil (by decide))
    (emits_chunksWire Out.acceptsAll_willing isBlock_hi) beginsWithHead_chunkedResponse
    (fun i => ?_) .idle (fun len hlen => ?_) (by decide +kernel)
  · split_ifs
    · exact .inl rfl
    · exact .inr ⟨_, rfl⟩
  · obtain rfl := List.eq_of_mem_replicate hlen
    decide

/-- A `recv` ends behind the last size line, and the line end that follows is left. -/
theorem not_roundTrip :
    ∃ (o : Out) (head : List UInt8) (blocks : List (List UInt8)) (s rest : List UInt8)
      (recvs : ℕ → RecvAns) (sock : Sock) (lens : List ℕ), o.AcceptsAll ∧ ChunkedHead .plain head ∧
      (∀ block ∈ blocks, IsBlock block) ∧ Emits o blocks s ∧ BeginsWithHead rest ∧
      (∀ i, recvs i = .fail EAGAIN ∨ ∃ n, recvs i = .data n) ∧ (∀ len ∈ lens, 1 ≤ len) ∧
      ¬RoundTrip .plain (Conn.init recvs (head ++ (s ++ rest)) sock) blocks rest lens := by
  refine ⟨.willing, chunkedResponse, [ascii "hi"], chunksWire [ascii "hi"], chunkedResponse,
    fun i => if i = 0 then .data 46 else .data 9, .idle, [8, 8, 8], Out.acceptsAll_willing,
    chunkedHead_chunkedResponse, isBlock_hi, emits_chunksWire Out.acceptsAll_willing isBlock_hi,
    beginsWithHead_chunkedResponse, fun i => ?_, by decide, ?_⟩
  · dsimp only
    split_ifs
    · exact .inr ⟨_, rfl⟩
    · exact .inr ⟨_, rfl⟩
  generalize hc : Conn.init (fun i => if i = 0 then RecvAns.data 46 else .data 9)
    (chunkedResponse ++ (chunksWire [ascii "hi"] ++ chunkedResponse)) .idle = c
  -- the message is complete with the third call, and not before
  have hbefore : ∀ k < 3, (Calls.run (connHttpread .plain) c ([8, 8, 8].take k)).map
      (fun rs => (decoding rs).complete) = some false := by
    rw [← hc]
    decide +kernel
  have hlast : (Calls.run (connHttpread .plain) c [8, 8, 8]).map
      (fun rs => ((decoding rs).complete, decide ((Calls.last c rs).toRecvBuf.unread ++
        (Calls.last c rs).pending = chunkedResponse))) = some (true, false) := by
    rw [← hc]
    decide +kernel
  rintro ⟨js, ks, rs, hlens, hrs, hdecoded, hnext⟩
  cases ks with
  | nil =>
    rw [List.append_nil] at hlens
    rw [hlens, hrs, Option.map_some] at hlast
    obtain ⟨hcomplete, hrest⟩ := Prod.mk.inj (Option.some.inj hlast)
    exact of_decide_eq_false hrest (hdecoded.complete hcomplete).2.2.2
  | cons k ks =>
    have hlen := congrArg List.length hlens
    rw [List.length_append, List.length_cons, List.length_cons, List.length_cons, List.length_cons,
      List.length_nil] at hlen
    have hshort := hbefore js.length (by omega)
    rw [hlens, List.take_left, hrs, Option.map_some, (hnext k rfl).1] at hshort
    cases hshort

end Webxs
