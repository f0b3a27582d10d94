import Webxs.Calls
import Webxs.Heads
import Webxs.WebsocketStates

/-!
# Messages on a stream

A connection that is not upgraded, and whose socket has bytes or says that there are none, looks
for heads and reads bodies through one buffer. Between messages it awaits the bytes that are left
(`Conn.Awaits`) : a call waits, or finds the head in front of them (`awaits_head`), if the buffer
then has no more than a head may have. The head goes into an object that is used again, and what is
parsed does not depend on it (`httpParse_inObject`, `readFound_taken`). In a body a call reads some
bytes off what is left, or there are none (`readData_plain`).
-/

namespace Webxs

/-! ## Heads -/

/-- The fields of a head, without those of the object that holds them and of the reading of the
body. -/
def HttpReq.headFields (req : HttpReq) : HttpReq :=
  { req with id := 0, reqmallocsize := 0, header := false, reqlen := 0, consumed := 0 }

/-- What `xs_http_parse` makes of a head, in a new object. -/
def parsedHead (env : Env) (head : List UInt8) : ℤ × HttpReq :=
  httpParse env.strtod (HttpReq.alloc 0 0) head

/-! ## One object for all heads -/

/-- `req` in the object of `base`. -/
def HttpReq.inObject (req base : HttpReq) : HttpReq :=
  { req with
    id := base.id, reqmallocsize := base.reqmallocsize, header := base.header
    reqlen := base.reqlen }

section Object

variable (strtod : List UInt8 → ℤ) (base : HttpReq)

theorem httpHeadersLoop_inObject (o rlen : ℕ) : ∀ (n : ℕ) (req : HttpReq) (c : ℕ),
    httpHeadersLoop strtod o rlen n (req.inObject base) c =
      (httpHeadersLoop strtod o rlen n req c).inObject base := by
  intro n
  induction n with
  | zero => exact fun _ _ => rfl
  | succ n ih =>
    intro req c
    rw [httpHeadersLoop, httpHeadersLoop]
    dsimp only
    rw [apply_ite (HttpReq.inObject · base), apply_ite (HttpReq.inObject · base)]
    refine if_congr Iff.rfl rfl (if_congr Iff.rfl rfl ?_)
    rw [← ih]
    rfl

theorem httpParseheaders_inObject (req : HttpReq) (o rlen : ℕ) :
    httpParseheaders strtod (req.inObject base) o rlen =
      (httpParseheaders strtod req o rlen).inObject base :=
  httpHeadersLoop_inObject strtod base o rlen _ req 0

/-- The part of `xs_http_parse` after the target and the version are found. -/
def parseFound (rlen uri version c : ℕ) (req : HttpReq) : ℤ × HttpReq :=
  if (req.buf.drop version).take 5 = ascii "HTTP/" then
    let req := { req with version := some (version + 5) }.terminate (some 0)
    if httpValidmethod (cstr req.buf 0) = false then (-1, req)
    else if req.buf.getD uri 0 ≠ 47 ∧
        (req.buf.getD uri 0 ≠ 42 ∧ httpOkchar (req.buf.getD (uri + 1) 0) = false) then (-2, req)
    else
      let req := httpParseUri (req.terminate (some (version + 5))) uri
      (0, httpParseheaders strtod req (c + 1) (rlen - c - 1))
  else if req.buf.take 5 = ascii "HTTP/" then
    let req := { req with
      status := some version, statuscode := (strtod (cstr req.buf uri) % 2 ^ 32).toNat
      version := some 5, method := none, uri := none }
    let req := (req.terminate (some version)).terminate (some 5)
    (0, httpParseheaders strtod req (c + 1) (rlen - c - 1))
  else (-3, { req with method := none, uri := none, version := none })

theorem parseFound_inObject (rlen uri version c : ℕ) (req : HttpReq) :
    parseFound strtod rlen uri version c (req.inObject base) =
      ((parseFound strtod rlen uri version c req).1,
        (parseFound strtod rlen uri version c req).2.inObject base) := by
  obtain ⟨f, hf⟩ : ∃ f : ℤ × HttpReq → ℤ × HttpReq, f = fun r => (r.1, r.2.inObject base) :=
    ⟨_, rfl⟩
  suffices h : parseFound strtod rlen uri version c (req.inObject base) =
      f (parseFound strtod rlen uri version c req) by
    rw [h, hf]
  unfold parseFound
  dsimp only
  rw [apply_ite f, apply_ite f, apply_ite f, apply_ite f, hf]
  refine if_congr Iff.rfl (if_congr Iff.rfl rfl (if_congr Iff.rfl rfl ?_))
    (if_congr Iff.rfl ?_ rfl)
  · dsimp only
    rw [← httpParseheaders_inObject]
    rfl
  · dsimp only
    rw [← httpParseheaders_inObject]
    rfl

/-- `xs_http_parse` of a head that is not empty. -/
theorem httpParse_eq_parseFound (req : HttpReq) {head : List UInt8} {c : ℕ}
    (hc : httpSkipspace head head.length 0 = c) (hlt : ¬head.length ≤ c) :
    httpParse strtod req head =
      let buf := head.drop c ++ [0]
      let rlen := head.length - c
      let uri := httpSkiptokenandspace buf rlen 0
      let version := httpSkiptokenandspace buf rlen uri
      parseFound strtod rlen uri version (httpSkiptoEOL buf rlen version)
        { reqClear req with
          buf
          method := some 0, uri := some uri, version := some version
          status := none, hash := none, query := none } := by
  unfold httpParse
  dsimp only
  rw [hc, if_neg hlt]
  rfl

/-- What is parsed does not depend on the object, if the head is taken. -/
theorem httpParse_inObject (req : HttpReq) {head : List UInt8}
    (h : (httpParse strtod req head).1 = 0) :
    httpParse strtod base head = (0, (httpParse strtod req head).2.inObject base) := by
  obtain ⟨c, hc⟩ : ∃ c, httpSkipspace head head.length 0 = c := ⟨_, rfl⟩
  have hlt : ¬head.length ≤ c := by
    intro hle
    unfold httpParse at h
    dsimp only at h
    rw [hc, if_pos hle] at h
    exact absurd h (show (-50 : ℤ) ≠ 0 by decide)
  rw [httpParse_eq_parseFound strtod req hc hlt] at h ⊢
  rw [httpParse_eq_parseFound strtod base hc hlt, ← h]
  dsimp only
  rw [← parseFound_inObject]
  rfl

theorem httpHeadersLoop_start (o rlen : ℕ) : ∀ (n : ℕ) (req : HttpReq) (c : ℕ),
    (httpHeadersLoop strtod o rlen n req c).method = req.method ∧
      (httpHeadersLoop strtod o rlen n req c).statuscode = req.statuscode := by
  intro n
  induction n with
  | zero => exact fun _ _ => ⟨rfl, rfl⟩
  | succ n ih =>
    intro req c
    rw [httpHeadersLoop]
    dsimp only
    split_ifs
    · exact ⟨rfl, rfl⟩
    · exact ⟨rfl, rfl⟩
    · exact ih _ _

theorem parseFound_statuscode {rlen uri version c : ℕ} {req : HttpReq} (hreq : req.statuscode = 0)
    (h : (parseFound strtod rlen uri version c req).2.method ≠ none) :
    (parseFound strtod rlen uri version c req).2.statuscode = 0 := by
  unfold parseFound at h ⊢
  dsimp only at h ⊢
  split_ifs at h ⊢ with hrequest hmethod huri hresponse
  · exact hreq
  · exact hreq
  · exact (httpHeadersLoop_start strtod _ _ _ _ _).2.trans hreq
  · exact absurd (httpHeadersLoop_start strtod _ _ _ _ _).1 h
  · exact absurd rfl h

/-- A request has no status. -/
theorem statuscode_of_method {req : HttpReq} {head : List UInt8}
    (h : (httpParse strtod req head).2.method ≠ none) :
    (httpParse strtod req head).2.statuscode = 0 := by
  by_cases hle : head.length ≤ httpSkipspace head head.length 0
  · unfold httpParse
    dsimp only
    rw [if_pos hle]
    rfl
  · rw [httpParse_eq_parseFound strtod req rfl hle] at h ⊢
    exact parseFound_statuscode strtod rfl h

end Object

variable {env : Env} {head : List UInt8} {req : HttpReq}

/-- What parsing leaves alone. -/
theorem parsedHead_fixed (env : Env) (head : List UInt8) :
    (parsedHead env head).2.done = false ∧ (parsedHead env head).2.datamask = [0, 0, 0, 0] ∧
      (parsedHead env head).2.consumed = 0 := by
  have hfixed := httpParse_fixed env.strtod (HttpReq.alloc 0 0) head
  simp only [HttpReq.fixed, Prod.mk.injEq] at hfixed
  obtain ⟨-, hdone, -, -, -, hmask, hconsumed, -⟩ := hfixed
  exact ⟨hdone, hmask, hconsumed⟩

/-! ## Taking a head -/

/-- No object that may be used again has the mark of a request without a body. -/
def Conn.Unmarked (c : Conn) : Prop :=
  ∀ req ∈ c.req.head?.toList ++ c.freereq, req.header = false

/-- A head that is taken is parsed into an object that is not marked. -/
theorem httpCreatereq_taken {c : Conn} (hu : c.upgrade = 0)
    (hfree : ∀ req ∈ c.freereq, req.header = false) (hacc : (parsedHead env head).1 = 0)
    (hne : head ≠ []) (hbuf : head <+: c.buf) :
    ∃ base nalloc, base.header = false ∧
      httpCreatereq env c head.length =
        some (0, ({ c with freereq := c.freereq.tail }.setBuf
          (c.toRecvBuf.consume head.length)).link nalloc
            { (parsedHead env head).2.inObject base with reqlen := head.length }) := by
  have hpos : 0 < head.length := List.length_pos_iff.mpr hne
  have htake : c.buf.take head.length = head := (List.prefix_iff_eq_take.mp hbuf).symm
  have hle : 0 + head.length ≤ c.buf.length := by
    have := hbuf.length_le
    omega
  have hparts : Conn.headParts { c with freereq := c.freereq.tail } head.length =
      some ((head.length : ℤ), [0, 0, 0, 0], 0) := by
    unfold Conn.headParts
    rw [if_neg (not_not_intro hu), if_neg (by omega)]
  refine ⟨(allocReq c c.freereq.head? head.length).1,
    (allocReq c c.freereq.head? head.length).2, ?_, ?_⟩
  · exact allocReq_header (fun req hmem => hfree req (List.mem_of_mem_head? hmem)) _
  · unfold httpCreatereq
    dsimp only
    rw [if_neg (not_not_intro hu), if_neg (not_not_intro hu), hparts, Option.bind_some]
    dsimp only
    rw [if_neg (by omega), Int.toNat_natCast, readBytes_of_le hle, Option.map_some, List.drop_zero,
      htake]
    unfold Conn.parseReq
    dsimp only
    rw [if_pos hu, Int.toNat_natCast, httpParse_inObject env.strtod _ _ hacc]
    rfl

/-- `c'` is `c` with `head` taken off the buffer, into the object `req`, marked or not. -/
structure Conn.Takes (env : Env) (c : Conn) (head : List UInt8) (req : HttpReq) (mark : Bool)
    (c' : Conn) : Prop where
  toOut : c'.toOut = c.toOut
  toPeer : c'.toPeer = c.toPeer
  toRecvBuf : c'.toRecvBuf = c.toRecvBuf.consume head.length
  upgrade : c'.upgrade = 0
  free : ∀ req ∈ c'.freereq, req.header = false
  only : c'.req = [req]
  fields : req.headFields = (parsedHead env head).2.headFields
  reqlen : req.reqlen = head.length
  consumed : req.consumed = 0
  header : req.header = mark

/-- A message is made of a head that is found, before its kind is looked at. -/
theorem readFound_taken {c : Conn} (s : ℤ) (hu : c.upgrade = 0) (hmark : c.Unmarked)
    (hacc : (parsedHead env head).1 = 0) (hne : head ≠ []) (hbuf : head <+: c.buf) :
    ∃ c' req, readFound env c s head.length = some (readStarted env c' s) ∧
      c.Takes env head req false c' := by
  obtain ⟨base, nalloc, hbase, hcreate⟩ := httpCreatereq_taken (c := c.recycle) hu hmark hacc hne
    hbuf
  obtain ⟨req, hreq⟩ : ∃ req : HttpReq,
      { (parsedHead env head).2.inObject base with reqlen := (head.length : ℤ) } = req := ⟨_, rfl⟩
  rw [hreq] at hcreate
  have hfields : req.headFields = (parsedHead env head).2.headFields := by
    rw [← hreq]
    rfl
  have hheader : req.header = false := by
    rw [← hreq]
    exact hbase
  have hconsumed : req.consumed = 0 := by
    rw [← hreq]
    exact (parsedHead_fixed env head).2.2
  have hreqlen : req.reqlen = head.length := by rw [← hreq]
  have htail : ∀ req ∈ c.recycle.freereq.tail, req.header = false :=
    fun req hmem => hmark req (List.mem_of_mem_tail hmem)
  unfold readFound
  rw [hcreate, Option.map_some, readCreated, if_neg (not_not_intro rfl)]
  exact ⟨_, req, rfl, rfl, rfl, rfl, hu, htail, rfl, hfields, hreqlen, hconsumed, hheader⟩

/-! ## Looking for a head -/

/-- A buffer with few bytes unread has room, once it was resized. -/
theorem connBufresize_room {b : RecvBuf} (hv : b.Valid) (hfew : b.unread.length < 2 ^ 28) :
    (connBufresize b).datalen < (connBufresize b).bufsize := by
  have hlen := hv.length_unread
  obtain ⟨h1, h2, h3, h4, -⟩ := hv
  unfold connBufresize
  split_ifs with hz hd hc hf ho
  · show b.datalen < 1024
    omega
  · show 0 < b.bufsize
    omega
  · show b.datalen - b.consumed < b.bufsize
    omega
  · show b.datalen < b.datalen * 2
    omega
  · omega
  · omega

/-- `recv` has bytes, or says that there are none, for ever. -/
def Peer.AlwaysQuiet (p : Peer) : Prop :=
  ∀ i, p.recvs i = .fail EAGAIN ∨ ∃ n, p.recvs i = .data n

theorem Peer.AlwaysQuiet.quiet {p : Peer} (h : p.AlwaysQuiet) : p.Quiet :=
  h 0

theorem Peer.AlwaysQuiet.next {p : Peer} (h : p.AlwaysQuiet) (room : ℕ) :
    (p.next room).AlwaysQuiet :=
  fun i => h (i + 1)

/-- `p'` is `p` after at most one `recv`. -/
def Peer.Later (p p' : Peer) : Prop :=
  p' = p ∨ ∃ room, p' = p.next room

theorem Peer.AlwaysQuiet.later {p p' : Peer} (h : p.AlwaysQuiet) (hp : p.Later p') :
    p'.AlwaysQuiet := by
  obtain rfl | ⟨room, rfl⟩ := hp
  · exact h
  · exact h.next room

/-- What is sent is nothing, or begins with a head. -/
def BeginsWithHead (input : List UInt8) : Prop :=
  input = [] ∨ ∃ head, headScan head = some (head.length : ℤ) ∧ head.length ≤ 131072 ∧ head ≠ [] ∧
    head <+: input

/-- A head that is found is the one that was sent. -/
theorem BeginsWithHead.headScan_pos {input l : List UInt8} (h : BeginsWithHead input)
    (hl : l <+: input) {r : ℤ} (hr : headScan l = some r) : 0 < r := by
  obtain rfl | ⟨head, hframed, -, hne, hbegin⟩ := h
  · rw [List.prefix_nil.mp hl] at hr
    cases hr
  · have hpos := List.length_pos_iff.mpr hne
    have hwhole := headScan_incremental.of_prefix hr hl
    rw [headScan_incremental.of_prefix hframed hbegin] at hwhole
    cases hwhole
    omega

/-- If all that is sent is there, so is the head. -/
theorem BeginsWithHead.eq_nil {input : List UInt8} (h : BeginsWithHead input)
    (hnone : headScan input = none) : input = [] := by
  obtain rfl | ⟨head, hframed, -, -, hbegin⟩ := h
  · rfl
  · rw [headScan_incremental.of_prefix hframed hbegin] at hnone
    cases hnone

/-- `xs_conn_headerready` finds the head if it is there, and otherwise takes some bytes. -/
theorem connHeaderready_plain {c : Conn} {input : List UInt8} (hv : c.toRecvBuf.Valid)
    (h0 : c.consumed = 0) (hu : c.upgrade = 0) (he : c.errnum = 0) (hq : c.toPeer.AlwaysQuiet)
    (hfits : (c.offered.length : ℤ) ≤ maxheaderlen)
    (hin : c.toRecvBuf.unread ++ c.pending = input) (hhead : BeginsWithHead input) :
    ∃ n o p b, connHeaderready c = some (n, c.put o p b) ∧ o.errnum = 0 ∧ c.toPeer.Later p ∧
      b.Valid ∧ b.consumed = 0 ∧ b.bufsize = (connBufresize c.toRecvBuf).bufsize ∧
      b.buf ++ p.pending = input ∧ b.buf = c.offered ∧
      (0 < n ∧ headScan b.buf = some n ∨
        n < 0 ∧ headScan b.buf = none ∧ (p.pending = [] → input = [])) := by
  have hprefix : c.toRecvBuf.unread <+: input := ⟨_, hin⟩
  obtain ⟨hbv, hunread, hzero, -⟩ := connBufresize_spec hv
  have hbuf := RecvBuf.unread_eq_buf (hzero h0)
  have hblen := hbv.length_buf
  rw [← hbuf, hunread] at hblen
  unfold maxheaderlen at hfits
  cases hscan : headScan c.toRecvBuf.unread with
  | some r =>
    have hr : 0 < r := hhead.headScan_pos hprefix hscan
    have hfound : headFound c.upgrade c.toRecvBuf.unread = some r := by
      rw [headFound, if_pos hu, hscan]
    have hoffered : c.offered = c.toRecvBuf.unread := by
      rw [Conn.offered, hfound]
      rfl
    rw [hoffered] at hfits ⊢
    have hbound := (headScan_bound hscan).2.1
    obtain ⟨o, hready, ho, -⟩ := connHeaderready_of_some hv h0 hfound
    rw [if_pos hr] at hready
    refine ⟨r, o, _, _, hready, ?_, .inl rfl, hbv, hzero h0, rfl, ?_, ?_, .inl ⟨hr, ?_⟩⟩
    · rw [ho hr (by unfold maxheaderlen; omega) (by unfold maxheaderlen; omega)]
      exact he
    · rw [← hbuf, hunread]
      exact hin
    · rw [← hbuf, hunread]
    · rw [← hbuf, hunread]
      exact hscan
  | none =>
    have hfound : headFound c.upgrade c.toRecvBuf.unread = none := by
      rw [headFound, if_pos hu, hscan]
    obtain ⟨bytes, hbytes⟩ : ∃ bytes, c.toPeer.arrive (connBufresize c.toRecvBuf).room = bytes :=
      ⟨_, rfl⟩
    have hoffered : c.offered = c.toRecvBuf.unread ++ bytes := by
      rw [Conn.offered, hfound, ← hbytes]
      rfl
    rw [hoffered] at hfits ⊢
    rw [List.length_append] at hfits
    obtain ⟨n, o, hready, hn, hn', hquiet, -⟩ := connHeaderready_of_none hv h0 rfl hbytes hfound
    have hlt := connBufresize_room hv (by omega)
    obtain ⟨hne, ho⟩ := hquiet hq.quiet (by unfold RecvBuf.room; omega)
      (by unfold maxheaderlen; omega)
    have hbuf' : (connBufresize c.toRecvBuf).buf ++ bytes = c.toRecvBuf.unread ++ bytes := by
      rw [← hbuf, hunread]
    have hin' : c.toRecvBuf.unread ++ bytes ++
        (c.toPeer.next (connBufresize c.toRecvBuf).room).pending = input := by
      rw [List.append_assoc, ← hbytes, Peer.arrive_append_next]
      exact hin
    rw [headFound, if_pos hu] at hn
    refine ⟨n, o, _, _, hready, ho, .inr ⟨_, rfl⟩, hbv.extend (hbv.length_arrive_le hbytes),
      hzero h0, rfl, ?_, hbuf', ?_⟩
    · show (connBufresize c.toRecvBuf).buf ++ bytes ++ _ = input
      rw [hbuf']
      exact hin'
    · show 0 < n ∧ headScan ((connBufresize c.toRecvBuf).buf ++ bytes) = some n ∨
        n < 0 ∧ headScan ((connBufresize c.toRecvBuf).buf ++ bytes) = none ∧ _
      rw [hbuf']
      rcases lt_trichotomy n 0 with hneg | hz | hpos
      · have hnone : headScan (c.toRecvBuf.unread ++ bytes) = none := by
          cases hall : headScan (c.toRecvBuf.unread ++ bytes) with
          | none => rfl
          | some r =>
            have hr := hhead.headScan_pos ⟨_, hin'⟩ hall
            have hnr := hn' r hr (by rw [headFound, if_pos hu, hall])
            omega
        refine .inr ⟨hneg, hnone, fun hpending => hhead.eq_nil ?_⟩
        rw [hpending, List.append_nil] at hin'
        rwa [← hin']
      · exact absurd hz hne
      · exact .inl ⟨hpos, hn hpos⟩

/-- What a connection keeps that is not upgraded. -/
structure Conn.Plain (c : Conn) : Prop where
  good : c.Good
  upgrade : c.upgrade = 0
  quiet : c.toPeer.AlwaysQuiet

theorem Conn.Plain.setErr {c : Conn} (h : c.Plain) (e : ℤ) : (c.setErr e).Plain :=
  ⟨(Conn.SameBuf.setErr e).good h.good, h.upgrade, h.quiet⟩

/-- The next call looks for a head in the bytes `input` that are left. -/
structure Conn.Awaits (c : Conn) (input : List UInt8) : Prop extends c.Plain where
  between : c.Between
  unmarked : c.Unmarked
  bytes : c.toRecvBuf.unread ++ c.pending = input

/-- `c'` is `c` in a call that found a head of `n` bytes, at the start of the buffer. -/
structure Conn.Finds (c : Conn) (input : List UInt8) (n : ℤ) (c' : Conn) : Prop where
  valid : c'.toRecvBuf.Valid
  upgrade : c'.upgrade = 0
  errnum : c'.errnum = 0
  unmarked : c'.Unmarked
  consumed : c'.consumed = 0
  scan : headScan c'.buf = some n
  bytes : c'.buf ++ c'.pending = input
  quiet : c'.toPeer.AlwaysQuiet
  later : c.toPeer.Later c'.toPeer
  bufsize : c'.bufsize = (connBufresize c.cleared.toRecvBuf).bufsize
  offered : c'.buf = c.cleared.offered

/-- A fresh connection waits for the first head. -/
theorem awaits_init {recvs : ℕ → RecvAns} (input : List UInt8) (sock : Sock)
    (hquiet : ∀ i, recvs i = .fail EAGAIN ∨ ∃ n, recvs i = .data n) :
    (Conn.init recvs input sock).Awaits input where
  good := init_good recvs input sock
  upgrade := rfl
  quiet := hquiet
  between := .inl rfl
  unmarked := fun _ hmem => absurd hmem List.not_mem_nil
  bytes := rfl

/-- A call between messages waits, or finds the next head. -/
theorem awaits_head (env : Env) {c : Conn} {input : List UInt8} (h : c.Awaits input)
    (hhead : BeginsWithHead input) (hfits : (c.cleared.offered.length : ℤ) ≤ maxheaderlen)
    (len : ℕ) :
    (∃ r, connHttpread env c len = some r ∧ r.1.bytes = [] ∧ r.1.n < 0 ∧ r.2.errnum = 0 ∧
      r.2.Awaits input ∧ (r.2.pending = [] → input = []) ∧
      r.2.bufsize = (connBufresize c.cleared.toRecvBuf).bufsize ∧
      r.2.toRecvBuf.unread = c.cleared.offered ∧ headScan c.cleared.offered = none) ∨
    ∃ s n c', (s = ConnState.Pending ∨ s = ConnState.LastState) ∧ 0 < n ∧
      connHttpread env c len = readFound env c' s n ∧ c.Finds input n c' := by
  obtain ⟨s, hs, hcall⟩ := connHttpread_cleared env h.good h.between len
  have hready := cleared_ready h.good h.between
  have hunmarked : c.cleared.Unmarked := by
    intro req hmem
    rw [List.mem_append, Option.mem_toList, hready.freereq] at hmem
    obtain hhead | hfree := hmem
    · obtain ⟨req', hreq', hheader⟩ := hready.header req hhead
      rw [hheader]
      exact h.unmarked req' (List.mem_append_left _ (by rw [hreq']; simp))
    · exact h.unmarked req (List.mem_append_right _ hfree)
  have hu : c.cleared.upgrade = 0 := hready.upgrade.trans h.upgrade
  have hquiet : c.cleared.toPeer.AlwaysQuiet := by
    rw [hready.toPeer]
    exact h.quiet
  obtain ⟨n, o, p, b, hheader, herr, hlater, hv, h0, hsize, hin, hoffered, hcase⟩ :=
    connHeaderready_plain hready.good.valid hready.consumed hu hready.errnum hquiet hfits
      (by rw [hready.unread, hready.toPeer]; exact h.bytes) hhead
  rw [hcall, readHead, hheader, Option.bind_some]
  dsimp only
  obtain ⟨hpos, hfound⟩ | ⟨hneg, hnone, hall⟩ := hcase
  · rw [Conn.put_toOut, if_neg (by omega)]
    exact .inr ⟨s, n, _, hs, hpos, rfl, hv, hu, herr, hunmarked, h0, hfound, hin,
      hquiet.later hlater, hready.toPeer ▸ hlater, hsize, hoffered⟩
  · have hbuf := RecvBuf.unread_eq_buf h0
    rw [if_pos (.inl hneg.le), if_pos hneg.ne]
    have hplain : Conn.Plain (c.cleared.put o p b) :=
      ⟨⟨hv, fun _ => h0, hready.good.undone⟩, hu, hquiet.later hlater⟩
    refine .inl ⟨_, rfl, rfl, hneg, herr, ⟨hplain, .inl hready.pending, hunmarked, ?_⟩, hall, hsize,
      ?_, hoffered ▸ hnone⟩
    · rw [Conn.put_toRecvBuf, hbuf]
      exact hin
    · rw [Conn.put_toRecvBuf, hbuf, hoffered]

/-- The head that is found is the one in front of what is left. -/
theorem head_of_headScan {rest l : List UInt8} (hframed : headScan head = some (head.length : ℤ))
    (hl : l <+: head ++ rest) {n : ℤ} (hn : headScan l = some n) :
    n = head.length ∧ head <+: l := by
  have hwhole := headScan_incremental.of_prefix hn hl
  rw [headScan_incremental.of_prefix hframed (List.prefix_append _ _)] at hwhole
  cases hwhole
  have hle := (headScan_bound hn).2.1
  exact ⟨rfl, List.prefix_of_prefix_length_le (List.prefix_append _ _) hl (by omega)⟩

/-- A head is taken off, and what is behind it is left. -/
structure Conn.Begun (c : Conn) (req : HttpReq) (rest : List UInt8) : Prop extends c.Plain where
  errnum : c.errnum = 0
  consumed_pos : 0 < c.consumed
  reqlen : req.reqlen ≠ 0
  bytes : c.toRecvBuf.unread ++ c.pending = rest

theorem Conn.Finds.begun {c₀ c c' : Conn} {rest : List UInt8} {n : ℤ} {mark : Bool}
    (hf : c₀.Finds (head ++ rest) n c) (h : c.Takes env head req mark c') (hne : head ≠ [])
    (hbuf : head <+: c.buf) :
    c'.Begun req rest ∧ c'.toRecvBuf.unread = c.buf.drop head.length ∧
      c'.bufsize = c.bufsize := by
  have hpos := List.length_pos_iff.mpr hne
  have hle := hbuf.length_le
  have hlen := hf.valid.length_buf
  have h0 := hf.consumed
  have hreqlen : req.reqlen ≠ 0 := by
    have := h.reqlen
    omega
  have hvalid : c'.toRecvBuf.Valid := by
    rw [h.toRecvBuf]
    exact hf.valid.consume (by omega) (by omega)
  have hreq : c'.req.head? = some req := by rw [h.only, List.head?_cons]
  have hunread : c'.toRecvBuf.unread = c.buf.drop head.length := by
    rw [h.toRecvBuf, hf.valid.unread_consume (by omega), RecvBuf.unread_eq_buf h0,
      Int.toNat_natCast]
  refine ⟨⟨⟨⟨hvalid, fun hidle => absurd (hidle req hreq) hreqlen, fun req' hreq' => ?_⟩, h.upgrade,
    by rw [h.toPeer]; exact hf.quiet⟩, by rw [h.toOut]; exact hf.errnum, ?_, hreqlen, ?_⟩, hunread,
    by rw [h.toRecvBuf]; rfl⟩
  · obtain rfl := Option.some.inj (hreq.symm.trans hreq')
    exact (congrArg HttpReq.done h.fields).trans (parsedHead_fixed env head).1
  · rw [h.toRecvBuf]
    show 0 < c.consumed + _
    omega
  · rw [hunread, h.toPeer, ← List.drop_append_of_le_length hle, hf.bytes, List.drop_left]

/-- The object after a message was read goes on to the next one. -/
theorem awaits_of_complete {c : Conn} {rest : List UInt8} (hp : c.Plain)
    (hfree : ∀ req ∈ c.freereq, req.header = false)
    (hbytes : c.toRecvBuf.unread ++ c.pending = rest) (hreq : c.req = [req])
    (hheader : req.header = false) (hstate : httpState (some req) = ConnState.Complete) :
    c.Awaits rest := by
  have hhead : c.req.head? = some req := by rw [hreq, List.head?_cons]
  refine ⟨hp, .inr (by rw [hhead]; exact hstate), fun req' hmem => ?_, hbytes⟩
  rw [List.mem_append, Option.mem_toList, hhead] at hmem
  obtain hmem | hmem := hmem
  · obtain rfl := Option.some.inj hmem
    exact hheader
  · exact hfree req' hmem

/-! ## Reading a body -/

/-- The bytes `raw` were taken off the front of what was unread and pending. -/
structure Conn.Took (c : Conn) (raw : List UInt8) (o : Out) (p : Peer) (b : RecvBuf) : Prop where
  errnum : o.errnum = 0
  quiet : p.AlwaysQuiet
  valid : b.Valid
  bufsize : b.bufsize = c.bufsize
  consumed : c.consumed ≤ b.consumed
  bytes : b.unread ++ p.pending = (c.toRecvBuf.unread ++ c.pending).drop raw.length
  begins : raw <+: c.toRecvBuf.unread ++ c.pending

/-- A read takes the bytes at hand, or says that there are none. -/
theorem readBytesOf_quiet {c : Conn} (hv : c.toRecvBuf.Valid) (hq : c.toPeer.AlwaysQuiet)
    (he : c.errnum = 0) {len : ℕ} (h1 : 1 ≤ len) (h31 : len < 2 ^ 31) :
    ∃ n re o p b, readBytesOf c len = some (n, c.atHand len, re, c.put o p b) ∧
      c.Took (c.atHand len) o p b ∧ (c.atHand len).length ≤ len ∧
      (n = (c.atHand len).length ∧ c.atHand len ≠ [] ∨
        n = -1 ∧ c.atHand len = [] ∧ b.unread = []) := by
  have hlen := hv.length_unread
  have hle := c.length_atHand h31
  unfold Conn.atHand at hle ⊢
  obtain ⟨hu, re, hread⟩ | ⟨hu, hread⟩ := readBytesOf_cases hv len
  · have hsub : (c.toRecvBuf.unread.take len).length ≤ c.toRecvBuf.unread.length := by
      rw [List.length_take]
      omega
    rw [if_neg hu] at hle ⊢
    refine ⟨_, re, c.toOut, c.toPeer, _, hread, ⟨he, hq, hv.consume (by omega) (by omega), rfl,
      ?_, ?_, ?_⟩, hle, .inl ⟨rfl, ?_⟩⟩
    · show c.consumed ≤ c.consumed + _
      omega
    · rw [hv.unread_consume (by omega), Int.toNat_natCast, List.drop_append_of_le_length hsub]
    · exact (List.take_prefix _ _).trans (List.prefix_append _ _)
    · rw [Ne, List.take_eq_nil_iff]
      rintro (h0 | hnil)
      · omega
      · exact hu hnil
  · have h32 : toInt32 (len : ℤ) = len := toInt32_of_lt (by omega) (by omega)
    have hroom : (toInt32 (toInt32 (len : ℤ)) % 2 ^ 64).toNat = len := by
      rw [h32, h32]
      omega
    have hroom' : (toInt32 (len : ℤ) % 2 ^ 64).toNat = len := by
      rw [h32]
      omega
    obtain ⟨n, re, o, hr, hn⟩ := connRead_spec c (toInt32 len) hroom
    rw [if_pos hu, hroom'] at hle ⊢
    have htook : o.errnum = 0 → c.Took (c.toPeer.arrive len) o (c.toPeer.next len) c.toRecvBuf :=
      fun herr => ⟨herr, hq.next len, hv, rfl, le_rfl, by
        rw [hu, List.nil_append, List.nil_append, Peer.next], by
        rw [hu, List.nil_append]
        exact c.toPeer.arrive_prefix len⟩
    rw [hread, hr]
    refine ⟨n, re, o, _, _, rfl, ?_⟩
    obtain ⟨hn, herr, hquiet⟩ | ⟨hnil, hn, herr⟩ := hn
    · have hne := hquiet hq.quiet (by omega)
      refine ⟨htook (herr hne), hle, .inl ⟨hn, fun hnil => hne ?_⟩⟩
      rw [hn, hnil]
      rfl
    · exact ⟨htook (herr hq.quiet), hle, .inr ⟨hn, hnil, hu⟩⟩

/-- A read returns some bytes, or says that there are none. -/
theorem readBytesOf_plain {c : Conn} (hp : c.Plain) (he : c.errnum = 0) {len : ℕ} (h1 : 1 ≤ len)
    (h31 : len < 2 ^ 31) :
    ∃ n re o p b raw, readBytesOf c len = some (n, raw, re, c.put o p b) ∧ c.Took raw o p b ∧
      raw.length ≤ len ∧
      (n = raw.length ∧ raw ≠ [] ∨ n = -1 ∧ raw = [] ∧ b.unread = []) := by
  obtain ⟨n, re, o, p, b, h⟩ := readBytesOf_quiet hp.good.valid hp.quiet he h1 h31
  exact ⟨n, re, o, p, b, _, h⟩

/-- A read of the body of a plain message returns what is read. -/
theorem readData_plain {c : Conn} (hp : c.Plain) (he : c.errnum = 0)
    (hmask : req.datamask = [0, 0, 0, 0]) (hlt : req.consumed < req.contentlen) {len : ℕ}
    (h1 : 1 ≤ len) (h31 : min len (req.contentlen - req.consumed) < 2 ^ 31) :
    ∃ n re o p b raw, readData c req len = some (⟨n, raw, re⟩,
        if raw = [] then c.put o p b else (c.put o p b).returned raw.length) ∧
      c.Took raw o p b ∧ raw.length ≤ req.contentlen - req.consumed ∧
      (n = raw.length ∧ raw ≠ [] ∨ n = -1 ∧ raw = [] ∧ b.unread = []) := by
  have hmin : 1 ≤ min len (req.contentlen - req.consumed) := by omega
  obtain ⟨n, re, o, p, b, raw, hread, htook, hle, hn⟩ := readBytesOf_plain hp he hmin h31
  refine ⟨n, re, o, p, b, raw, ?_, htook, hle.trans (Nat.min_le_right _ _), hn⟩
  unfold readData
  rw [if_pos hlt, hread, Option.map_some]
  dsimp only
  rw [unmask, if_pos hmask]
  obtain ⟨rfl, hne⟩ | ⟨rfl, rfl, -⟩ := hn
  · have hpos := List.length_pos_iff.mpr hne
    rw [if_pos (by omega), if_neg hne, Conn.returned, Int.toNat_natCast]
  · rw [if_neg (by omega), if_pos rfl]

/-- A call had nothing to return, and nothing is pending. -/
def isOver (r : ReadRet × Conn) : Bool :=
  decide (r.1.n < 0 ∧ r.2.pending = [])

end Webxs
