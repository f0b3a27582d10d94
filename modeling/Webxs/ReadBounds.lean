import Webxs.Heads
import Webxs.Interleaving
import Webxs.Receive

/-!
# The receive buffer

Over a run of `xs_conn_httpread` calls the offsets of the receive buffer stay in order,
`0 ≤ consumed ≤ datalen ≤ bufsize`, and the parsers read below `datalen`, whatever the peer sends
and however it is split. The invariant (`Conn.Good`) has one more part : between messages nothing of
the buffer is consumed, since the head of the next one is looked for from its start.

There is an exception. After the size line of the last chunk `xs_scan_chunk` steps over two more
bytes, whether they were received or not, and then `consumed` is larger than `datalen`
(`not_bounds`). `bounds_of_lastChunkWhole` is about the runs where a last size line is not found
before the two bytes behind it are there.
-/

namespace Webxs

/-! ## The invariant -/

/-- The state of a connection between two calls. -/
structure Conn.Good (c : Conn) : Prop where
  valid : c.toRecvBuf.Valid
  /-- Between messages the buffer begins with the next one. -/
  idle : (∀ req, c.req.head? = some req → req.reqlen = 0) → c.consumed = 0
  undone : ∀ req, c.req.head? = some req → req.done = false

/-- The buffer is the same, and the request object as far as the invariant is about it. -/
def Conn.SameBuf (c c' : Conn) : Prop :=
  c'.toRecvBuf = c.toRecvBuf ∧
    c'.req.head?.map (fun req => (req.reqlen, req.done)) =
      c.req.head?.map fun req => (req.reqlen, req.done)

namespace Conn.SameBuf

variable {c c' c'' : Conn}

theorem rfl' : c.SameBuf c :=
  ⟨rfl, rfl⟩

theorem trans (h : c.SameBuf c') (h' : c'.SameBuf c'') : c.SameBuf c'' :=
  ⟨h'.1.trans h.1, h'.2.trans h.2⟩

theorem head {req' : HttpReq} (h : c.SameBuf c') (hr : c'.req.head? = some req') :
    ∃ req, c.req.head? = some req ∧ req.reqlen = req'.reqlen ∧ req.done = req'.done := by
  have h2 := h.2
  rw [hr] at h2
  cases hc : c.req.head? with
  | none => simp [hc] at h2
  | some req =>
    simp only [hc, Option.map_some, Option.some.injEq, Prod.mk.injEq] at h2
    exact ⟨req, rfl, h2.1.symm, h2.2.symm⟩

theorem symm (h : c.SameBuf c') : c'.SameBuf c :=
  ⟨h.1.symm, h.2.symm⟩

theorem good (h : c.SameBuf c') (hg : c.Good) : c'.Good where
  valid := h.1 ▸ hg.valid
  idle := fun hi => by
    rw [h.1]
    refine hg.idle fun req hr => ?_
    obtain ⟨req', hr', hl, -⟩ := h.symm.head hr
    exact hl ▸ hi req' hr'
  undone := fun req' hr' => by
    obtain ⟨req, hr, -, hd⟩ := h.head hr'
    exact hd ▸ hg.undone req hr

theorem modifyReq {f : HttpReq → HttpReq}
    (hf : ∀ req, (f req).reqlen = req.reqlen ∧ (f req).done = req.done) :
    c.SameBuf (c.modifyReq f) := by
  refine ⟨rfl, ?_⟩
  cases h : c.req with
  | nil => simp [Conn.modifyReq, h]
  | cons req rest => simp [Conn.modifyReq, h, hf]

theorem setOut (o : Out) : c.SameBuf (c.setOut o) :=
  rfl'

theorem setErr (e : ℤ) : c.SameBuf (c.setErr e) :=
  rfl'

end Conn.SameBuf

/-! ## Starting a message -/

theorem websocketResponse_sameBuf (env : Env) (c : Conn) :
    c.SameBuf (websocketResponse env c).2 := by
  unfold websocketResponse
  split
  · exact .rfl'
  split
  · exact .rfl'
  split
  · exact .rfl'
  split
  · split_ifs <;> exact ⟨rfl, rfl⟩
  · exact .rfl'

theorem websocketAccept_sameBuf (c : Conn) : c.SameBuf (websocketAccept c).2 := by
  unfold websocketAccept
  split
  · exact .rfl'
  · split_ifs <;> exact ⟨rfl, rfl⟩

theorem startUpgrade_sameBuf (env : Env) (c : Conn) (s : ℤ) (req : HttpReq) :
    c.SameBuf (startUpgrade env c s req).2 := by
  have h : c.SameBuf
      (if req.method.isSome then websocketResponse env c else websocketAccept c).2 := by
    split_ifs
    · exact websocketResponse_sameBuf env c
    · exact websocketAccept_sameBuf c
  unfold startUpgrade
  generalize (if req.method.isSome then websocketResponse env c else websocketAccept c) = r at h ⊢
  dsimp only
  split_ifs
  · exact h
  · exact h

theorem startFrame_sameBuf (c : Conn) (s : ℤ) (req : HttpReq) :
    c.SameBuf (startFrame c s req).2 := by
  unfold startFrame
  dsimp only
  split_ifs <;> exact .rfl'

theorem startEmpty_sameBuf (c : Conn) (s : ℤ) (req : HttpReq) :
    c.SameBuf (startEmpty c s req).2 := by
  unfold startEmpty
  split_ifs <;> exact .modifyReq fun _ => ⟨rfl, rfl⟩

theorem markUpgrade_sameBuf (c : Conn) : c.SameBuf c.markUpgrade := by
  unfold Conn.markUpgrade
  split_ifs
  · exact .modifyReq fun _ => ⟨rfl, rfl⟩
  · exact .rfl'

theorem readStarted_sameBuf (env : Env) (c : Conn) (s : ℤ) : c.SameBuf (readStarted env c s).2 := by
  refine (markUpgrade_sameBuf c).trans ?_
  unfold readStarted
  dsimp only
  split
  · exact .rfl'
  · split_ifs
    · exact startUpgrade_sameBuf ..
    · exact startFrame_sameBuf ..
    · exact startEmpty_sameBuf ..
    · exact .rfl'

theorem httpParse_done (strtod : List UInt8 → ℤ) (req : HttpReq) (head : List UInt8) :
    (httpParse strtod req head).2.done = false :=
  congrArg (fun f => f.2.1) (httpParse_fixed strtod req head)

theorem websocketFrameparse_done (req : HttpReq) (b : UInt8) (datamask : List UInt8)
    (contentlen : ℕ) : (websocketFrameparse req b datamask contentlen).2.done = false := by
  unfold websocketFrameparse
  dsimp only
  split_ifs <;> rfl

/-- A request is taken off a buffer that begins with its head. -/
theorem parseReq_good (env : Env) {c : Conn} (hv : c.toRecvBuf.Valid) (h0 : c.consumed = 0)
    (hreq : c.req = []) (old : Option HttpReq) {parts : ℤ × List UInt8 × ℕ} (hpos : 0 < parts.1)
    (hle : parts.1 ≤ c.datalen) (head : List UInt8) : (c.parseReq env old parts head).2.Good := by
  unfold Conn.parseReq
  generalize allocReq c old parts.1.toNat = r
  dsimp only
  unfold Conn.linkParsed
  generalize hp : (if c.upgrade = 0 then httpParse env.strtod r.1 head
    else websocketFrameparse r.1 (head.headD 0) parts.2.1 parts.2.2) = p
  have hdone : p.2.done = false := by
    rw [← hp]
    split_ifs
    · exact httpParse_done ..
    · exact websocketFrameparse_done ..
  split_ifs with he
  · refine ⟨hv, fun _ => h0, fun req hr => ?_⟩
    simp only [Conn.link, Conn.setErr, hreq, List.nil_append, List.head?_cons,
      Option.some.injEq] at hr
    exact hr ▸ hdone
  · refine ⟨hv.consume (by omega) (by omega), fun hi => ?_, fun req hr => ?_⟩
    · have := hi { p.2 with reqlen := parts.1 } (by simp [Conn.link, Conn.setBuf, hreq])
      simp only at this
      omega
    · simp only [Conn.link, Conn.setBuf, hreq, List.nil_append, List.head?_cons,
        Option.some.injEq] at hr
      exact hr ▸ hdone

theorem httpCreatereq_good (env : Env) {c : Conn} (hv : c.toRecvBuf.Valid) (h0 : c.consumed = 0)
    (hreq : c.req = []) {n : ℤ} (hn : 0 < n) (h : headFound c.upgrade c.buf = some n) :
    ∃ r, httpCreatereq env c n = some r ∧ r.2.Good := by
  have hparts : ∃ parts, c.headParts n = some parts ∧ parts.1 = n := by
    unfold Conn.headParts headFound at *
    by_cases hu : c.upgrade = 0
    · exact ⟨(n, _), by rw [if_neg (by omega), if_neg (by omega)], rfl⟩
    · rw [if_neg hu] at h
      obtain ⟨f, hf, rfl⟩ := Option.map_eq_some_iff.mp h
      exact ⟨f, by rw [if_pos hu, ← hv.length_buf]; exact (frameScan_bound hf).2.2, rfl⟩
  obtain ⟨parts, hparts, rfl⟩ := hparts
  have hle : parts.1 ≤ c.datalen := hv.length_buf ▸ (headFound_bound h).2.1
  have hlen := hv.length_buf
  unfold httpCreatereq
  split_ifs with hu
  · simp only [hparts, Option.bind_some]
    rw [if_neg (by omega), readBytes_of_le (by omega)]
    exact ⟨_, rfl, parseReq_good env hv h0 hreq _ hn hle _⟩
  · have hparts' : Conn.headParts { c with freereq := c.freereq.tail } parts.1 = some parts :=
      hparts
    simp only [hparts', Option.bind_some]
    rw [if_neg (by omega), readBytes_of_le (by omega)]
    exact ⟨_, rfl, parseReq_good env (c := { c with freereq := c.freereq.tail }) hv h0 hreq _ hn
      hle _⟩

theorem readFound_good (env : Env) {c : Conn} (s : ℤ) (hv : c.toRecvBuf.Valid) (h0 : c.consumed = 0)
    {n : ℤ} (hn : 0 < n) (h : headFound c.upgrade c.buf = some n) :
    ∃ r, readFound env c s n = some r ∧ r.2.Good := by
  obtain ⟨⟨err, c'⟩, hr, hg⟩ := httpCreatereq_good env
    (c := c.recycle) hv h0 rfl hn h
  unfold readFound
  simp only [hr, Option.map_some, readCreated]
  by_cases he : err = 0
  · rw [if_neg (not_not_intro he)]
    exact ⟨_, rfl, (readStarted_sameBuf env c' s).good hg⟩
  · rw [if_pos he]
    exact ⟨_, rfl, (Conn.SameBuf.setErr _).good hg⟩

theorem readHead_good (env : Env) {c : Conn} (s : ℤ) (hg : c.Good) (h0 : c.consumed = 0) :
    ∃ r, readHead env c s = some r ∧ r.2.Good := by
  obtain ⟨hbv, hu, hc, -⟩ := connBufresize_spec hg.valid
  have hready : ∃ n o p b, connHeaderready c = some (n, c.put o p b) ∧ b.Valid ∧ b.consumed = 0 ∧
      (0 < n → headFound c.upgrade b.buf = some n) := by
    cases h : headFound c.upgrade c.toRecvBuf.unread with
    | some r =>
      obtain ⟨o, hr, -⟩ := connHeaderready_of_some hg.valid h0 h
      refine ⟨_, o, _, _, hr, hbv, hc h0, ?_⟩
      rw [← RecvBuf.unread_eq_buf (hc h0), hu, h]
      split_ifs with hpos
      · exact fun _ => rfl
      · omega
    | none =>
      obtain ⟨n, o, hr, hn, -⟩ := connHeaderready_of_none hg.valid h0 rfl rfl h
      refine ⟨n, o, _, _, hr, hbv.extend (hbv.length_arrive_le rfl), hc h0, fun hpos => ?_⟩
      rw [← hu, RecvBuf.unread_eq_buf (hc h0)] at hn
      exact hn hpos
  obtain ⟨n, o, p, b, hr, hv, hb0, hn⟩ := hready
  unfold readHead
  rw [hr, Option.bind_some]
  dsimp only
  by_cases hneg : n ≤ 0 ∨ o.errnum ≠ 0
  · rw [Conn.put_toOut, if_pos hneg]
    exact ⟨_, rfl, hv, fun _ => hb0, hg.undone⟩
  · have hpos : 0 < n := by omega
    rw [Conn.put_toOut, if_neg hneg]
    exact readFound_good env (c := c.put o p b) s hv hb0 hpos (hn hpos)

/-! ## Reading a body -/

/-- A message is being read, and `req` is its object. -/
structure Conn.Busy (c : Conn) (req : HttpReq) : Prop where
  valid : c.toRecvBuf.Valid
  head : c.req.head? = some req
  reqlen : req.reqlen ≠ 0
  undone : req.done = false

namespace Conn.Busy

variable {c c' : Conn} {req : HttpReq}

theorem good (h : c.Busy req) : c.Good where
  valid := h.valid
  idle := fun hi => absurd (hi req h.head) h.reqlen
  undone := fun req' hr => by
    have := h.head.symm.trans hr
    cases this
    exact h.undone

theorem modifyReq (h : c.Busy req) {f : HttpReq → HttpReq}
    (hf : (f req).reqlen = req.reqlen ∧ (f req).done = req.done) :
    (c.modifyReq f).Busy (f req) where
  valid := h.valid
  head := by
    have := h.head
    cases hc : c.req with
    | nil => simp [hc] at this
    | cons r rest =>
      simp only [hc, List.head?_cons, Option.some.injEq] at this
      simp [Conn.modifyReq, hc, this]
  reqlen := hf.1 ▸ h.reqlen
  undone := hf.2 ▸ h.undone

theorem put (h : c.Busy req) {b : RecvBuf} (hb : b.Valid) (o : Out) (p : Peer) :
    (c.put o p b).Busy req :=
  ⟨hb, h.head, h.reqlen, h.undone⟩

end Conn.Busy

theorem readBytesOf_busy {c : Conn} {req : HttpReq} (h : c.Busy req) (len : ℕ) :
    ∃ r, readBytesOf c len = some r ∧ r.2.2.2.Busy req := by
  have hv := h.valid
  have := hv.length_buf
  have := hv.consumed_nonneg
  have := hv.consumed_le
  have := hv.datalen_le
  have := hv.bufsize_lt
  unfold readBytesOf
  split_ifs with hd
  · dsimp only
    rw [readBytes_of_le (by omega)]
    exact ⟨_, rfl, h.put (hv.consume (by omega) (by omega)) c.toOut c.toPeer⟩
  · obtain ⟨n, re, o, hr, -⟩ := connRead_spec c (toInt32 len) rfl
    exact ⟨_, rfl, by rw [hr]; exact h.put hv o _⟩

theorem readData_good {c : Conn} {req : HttpReq} (h : c.Busy req) (req' : HttpReq) (len : ℕ) :
    ∃ r, readData c req' len = some r ∧ r.2.Good := by
  unfold readData
  split_ifs with hd
  · obtain ⟨⟨n, bytes, re, c'⟩, hr, hb⟩ :=
      readBytesOf_busy h (min len (req'.contentlen - req'.consumed))
    rw [hr, Option.map_some]
    refine ⟨_, rfl, ?_⟩
    dsimp only
    split_ifs
    · exact (hb.modifyReq ⟨rfl, rfl⟩).good
    · exact hb.good
  · exact ⟨_, rfl, h.good⟩

theorem readChunk_good {c : Conn} {req : HttpReq} (h : c.Busy req) (s n : ℤ) (len : ℕ) :
    ∃ r, readChunk c s n len = some r ∧ r.2.Good := by
  unfold readChunk
  by_cases hn : n ≤ 0
  · rw [if_pos hn]
    refine ⟨_, rfl, ?_⟩
    dsimp only
    split_ifs
    · exact (h.modifyReq ⟨rfl, rfl⟩).good
    · exact h.good
  · rw [if_neg hn, h.head, Option.bind_some]
    exact readData_good h req len

/-- The bytes hold the line end behind the size line of the last chunk, if they hold the line. -/
def LastChunkWhole (l : List UInt8) : Prop :=
  ∀ r ∈ scanChunk l l.length, r.1 = 0 → ∀ enc ∈ r.2, enc ≤ l.length

instance (l : List UInt8) : Decidable (LastChunkWhole l) := by
  unfold LastChunkWhole
  infer_instance

/-- A call would look for a size line. -/
def Conn.atChunk (c : Conn) : Prop :=
  ∃ req ∈ c.req.head?, req.reqlen ≠ 0 ∧ req.chunked = true ∧
    (req.contentlen = 0 ∨ req.contentlen = req.consumed)

instance (c : Conn) : Decidable c.atChunk := by
  unfold Conn.atChunk
  infer_instance

/-- A call that looks for a size line does not find the last one, in the bytes unread or in these
and the ones that arrive, before the line end behind it is there. -/
def Conn.LastChunkWhole (c : Conn) : Prop :=
  c.atChunk → Webxs.LastChunkWhole c.toRecvBuf.unread ∧
    Webxs.LastChunkWhole
      (c.toRecvBuf.unread ++ c.toPeer.arrive (connBufresize c.toRecvBuf).room)

instance (c : Conn) : Decidable c.LastChunkWhole := by
  unfold Conn.LastChunkWhole
  infer_instance

theorem LastChunkWhole.le {l : List UInt8} (h : LastChunkWhole l) {n : ℤ} {enc : ℕ}
    (hl : lineScan l = some (n, enc)) : enc ≤ l.length := by
  have hle := (lineScan_le hl).2
  by_cases hn : n = 0
  · subst hn
    exact h (0, some enc) (by rw [scanChunk_eq, hl]; rfl) rfl enc rfl
  · simpa [hn] using hle

theorem takeLine_busy {c : Conn} {req : HttpReq} (h : c.Busy req) (n : ℤ) {enc : ℕ}
    (hle : enc ≤ c.toRecvBuf.unread.length) : ∃ req', (c.takeLine n enc).Busy req' := by
  have := h.valid.length_unread
  have hb : (c.setBuf (c.toRecvBuf.consume enc)).Busy req :=
    h.put (h.valid.consume (by omega) (by omega)) c.toOut c.toPeer
  exact ⟨_, hb.modifyReq ⟨rfl, rfl⟩⟩

theorem connChunkready_busy {c : Conn} {req : HttpReq} (h : c.Busy req)
    (hw : LastChunkWhole c.toRecvBuf.unread ∧ LastChunkWhole
      (c.toRecvBuf.unread ++ c.toPeer.arrive (connBufresize c.toRecvBuf).room)) :
    ∃ r req', connChunkready c = some r ∧ r.2.Busy req' := by
  obtain ⟨hbv, hu, -⟩ := connBufresize_spec h.valid
  by_cases hs : ∃ n enc, lineScan c.toRecvBuf.unread = some (n, enc) ∧ 0 ≤ n
  · obtain ⟨n, enc, hs, hn⟩ := hs
    have hle : enc ≤ (c.setBuf (connBufresize c.toRecvBuf)).toRecvBuf.unread.length := by
      rw [Conn.setBuf_eq, Conn.put_toRecvBuf, hu]
      exact hw.1.le hs
    obtain ⟨req', hreq'⟩ := takeLine_busy (h.put hbv c.toOut c.toPeer) n hle
    exact ⟨_, req', connChunkready_of_some h.valid hs hn, hreq'⟩
  · have hs' : ∀ r, lineScan c.toRecvBuf.unread = some r → r.1 < 0 := fun r hr => by
      by_contra hn
      exact hs ⟨r.1, r.2, hr, by omega⟩
    have hbx := hbv.extend (hbv.length_arrive_le (p := c.toPeer) rfl)
    obtain ⟨o, -, ⟨n, enc, hl, hn, hr⟩ | ⟨-, n, -, hr⟩⟩ :=
      connChunkready_of_none h.valid rfl rfl hs'
    · have hle : enc ≤ (c.filled o (connBufresize c.toRecvBuf)
          (c.toPeer.arrive (connBufresize c.toRecvBuf).room)).toRecvBuf.unread.length := by
        rw [Conn.filled, Conn.put_toRecvBuf, hbv.unread_extend, hu]
        exact hw.2.le hl
      obtain ⟨req', hreq'⟩ := takeLine_busy (h.put hbx o _) n hle
      exact ⟨_, req', hr, hreq'⟩
    · exact ⟨_, req, hr, h.put hbx o _⟩

theorem readBody_good {c : Conn} {req : HttpReq} (h : c.Busy req) (hw : c.LastChunkWhole) (s : ℤ)
    (len : ℕ) : ∃ r, readBody c s req len = some r ∧ r.2.Good := by
  unfold readBody
  split_ifs with hc
  · obtain ⟨⟨n, c'⟩, req', hr, hb⟩ :=
      connChunkready_busy h (hw ⟨req, h.head, h.reqlen, hc.1, hc.2⟩)
    rw [hr, Option.bind_some]
    exact readChunk_good hb s n len
  · exact readData_good h req len

/-! ## Runs -/

theorem finish_good {c : Conn} (hg : c.Good) : c.finish.Good := by
  obtain ⟨h1, h2, h3, h4, h5⟩ := hg.valid
  refine ⟨⟨le_rfl, ?_, ?_, h4, ?_⟩, fun _ => rfl, fun req hr => ?_⟩
  · simp only [Conn.finish]
    omega
  · simp only [Conn.finish]
    omega
  · simp only [Conn.finish]
    split_ifs
    · simp only [List.length_drop]
      omega
    · simp only [List.length_nil]
      omega
  · cases hc : c.req with
    | nil => simp [Conn.finish, hc] at hr
    | cons req' rest =>
      simp only [Conn.finish, hc, List.modifyHead_cons, List.head?_cons, Option.some.injEq] at hr
      exact hr ▸ hg.undone req' (by simp [hc])

/-- A finished message has no size lines. -/
theorem finish_not_atChunk (c : Conn) : ¬c.finish.atChunk := by
  rintro ⟨req, hr, hl, -⟩
  cases hc : c.req with
  | nil => simp [Conn.finish, hc] at hr
  | cons req' rest =>
    simp only [Conn.finish, hc, List.modifyHead_cons, List.head?_cons, Option.some.injEq,
      Option.mem_def] at hr
    exact hl (by rw [← hr])

theorem readOn_good (env : Env) {c : Conn} (hg : c.Good) (hw : c.LastChunkWhole) (s : ℤ) (len : ℕ) :
    ∃ r, readOn env c s len = some r ∧ r.2.Good := by
  unfold readOn
  cases hr : c.req.head? with
  | none => exact readHead_good env s hg (hg.idle fun req h => by rw [hr] at h; cases h)
  | some req =>
    have hd := hg.undone req hr
    dsimp only
    split_ifs with h
    · have hl : req.reqlen = 0 := by simpa [hd] using h
      refine readHead_good env s hg (hg.idle fun req' h' => ?_)
      rw [hr] at h'
      cases h'
      exact hl
    · exact readBody_good ⟨hg.valid, hr, fun hl => h (.inl hl), hd⟩ hw s len

/-- The fake state of a message with no body does not matter to the size lines. -/
theorem LastChunkWhole.clearHeader {c : Conn} (hw : c.LastChunkWhole) :
    c.clearHeader.LastChunkWhole := by
  rintro ⟨req, hr, hl, hch, hcons⟩
  refine hw ?_
  cases hc : c.req with
  | nil => simp [Conn.clearHeader, Conn.modifyReq, hc] at hr
  | cons req' rest =>
    simp only [Conn.clearHeader, Conn.modifyReq, hc, List.modifyHead_cons, List.head?_cons,
      Option.some.injEq, Option.mem_def] at hr
    subst hr
    exact ⟨req', by simp [hc], hl, hch, hcons⟩

theorem clearHeader_good {c : Conn} (hg : c.Good) :
    c.clearHeader.Good :=
  Conn.SameBuf.good (.modifyReq fun _ => ⟨rfl, rfl⟩) hg

/-- What a call keeps. -/
theorem connHttpread_good (env : Env) {c : Conn} (hg : c.Good) (hw : c.LastChunkWhole) (len : ℕ) :
    ∃ r, connHttpread env c len = some r ∧ r.2.Good := by
  have hg' : (c.setErr 0).Good := (Conn.SameBuf.setErr 0).good hg
  unfold connHttpread
  dsimp only
  split_ifs
  · exact readOn_good env (finish_good hg') (fun h => absurd h (finish_not_atChunk _)) _ len
  · exact ⟨_, rfl, clearHeader_good hg'⟩
  · exact readOn_good env (clearHeader_good hg')
      (LastChunkWhole.clearHeader (c := c.setErr 0) hw) _ len
  · exact readOn_good env hg' hw _ len

theorem init_good (recvs : ℕ → RecvAns) (stream : List UInt8) (sock : Sock) :
    (Conn.init recvs stream sock).Good where
  valid := ⟨le_rfl, le_rfl, le_rfl, by simp [Conn.init], rfl⟩
  idle := fun _ => rfl
  undone := fun req h => by cases h

/-- The state after a call of `xs_conn_httpread` that reads no byte outside the buffer. -/
def readNext (env : Env) (c : Conn) (len : ℕ) : Option Conn :=
  (connHttpread env c len).map Prod.snd

open Interleaving

theorem good_of_runs {env : Env} {recvs : ℕ → RecvAns} {stream : List UInt8} {sock : Sock}
    {c : Conn}
    (h : Runs (readNext env) (fun c _ => c.LastChunkWhole) (Conn.init recvs stream sock) c) :
    c.Good :=
  h.invariant (init_good recvs stream sock) fun c len c' hg hw hn => by
    obtain ⟨r, hr, hg'⟩ := connHttpread_good env hg hw len
    rw [readNext, hr] at hn
    cases hn
    exact hg'

/-- In every run whose calls do not find the size line of a last chunk before the line end behind
it is there, the offsets are in order and the parsers read below `datalen`. -/
theorem bounds_of_lastChunkWhole (env : Env) (recvs : ℕ → RecvAns) (stream : List UInt8)
    (sock : Sock) {c : Conn}
    (h : Runs (readNext env) (fun c _ => c.LastChunkWhole) (Conn.init recvs stream sock) c) :
    (0 ≤ c.consumed ∧ c.consumed ≤ c.datalen ∧ c.datalen ≤ c.bufsize) ∧
      (c.buf.length : ℤ) = c.datalen ∧
      (c.LastChunkWhole → ∀ len, connHttpread env c len ≠ none) := by
  have hv := (good_of_runs h).valid
  refine ⟨⟨hv.consumed_nonneg, hv.consumed_le, hv.datalen_le⟩, hv.length_buf, fun hw len => ?_⟩
  obtain ⟨r, hr, -⟩ := connHttpread_good env (good_of_runs h) hw len
  simp [hr]

/-- A message whose last chunk arrives whole. -/
theorem bounds_of_lastChunkWhole_whole :
    ∃ c : Conn, c.consumed = 5 ∧ c.consumed ≤ c.datalen ∧ c.datalen ≤ c.bufsize := by
  obtain ⟨c, hrun, hc⟩ : ∃ c, Runs (readNext .plain) (fun c _ => c.LastChunkWhole)
      (Conn.init (fun _ => .data 46)
        (ascii "POST / HTTP/1.1\r\nTransfer-Encoding: chunked\r\n\r\n0\r\n\r\n") .idle) c ∧
      c.consumed = 5 :=
    exists_runs_of_runSchedule [1, 1] (by decide)
  exact ⟨c, hc, (bounds_of_lastChunkWhole .plain _ _ .idle hrun).1.2⟩

/-- The last chunk arrives without its last line end. -/
theorem not_bounds :
    ∃ (env : Env) (recvs : ℕ → RecvAns) (stream : List UInt8) (sock : Sock) (c : Conn),
      Reachable (readNext env) (Conn.init recvs stream sock) c ∧ ¬c.consumed ≤ c.datalen :=
  ⟨.plain, fun _ => .data 46,
    ascii "POST / HTTP/1.1\r\nTransfer-Encoding: chunked\r\n\r\n0\r\n", .idle,
    exists_runs_of_runSchedule [1, 1] (by decide)⟩

end Webxs
