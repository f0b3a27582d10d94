import Webxs.PlainReading

/-!
# Requests on a stream

A peer sends requests one after another, each a head and its body. The calls of
`xs_conn_httpread` read them through one buffer that is filled, compacted and doubled, and into
one object that is used again. However `recv` splits the bytes, and whatever lengths are read, a
caller gets the requests as they were sent (`delivered_of_framed`), if `xs_http_validrequest` frames
their heads : it refuses bytes that `xs_http_parse` takes (`not_delivered`).
-/

namespace Webxs

/-! ## Requests -/

/-- A request as it is sent. -/
structure Request where
  head : List UInt8
  body : List UInt8
  deriving DecidableEq

/-- The bytes of the requests, one after another. -/
def stream (qs : List Request) : List UInt8 :=
  qs.flatMap fun q => q.head ++ q.body

/-- What `xs_http_parse` makes of the head, in a new object. -/
def Request.parsed (env : Env) (q : Request) : ℤ × HttpReq :=
  httpParse env.strtod (HttpReq.alloc 0 0) q.head

/-- The fields of the head. -/
def Request.fields (env : Env) (q : Request) : HttpReq :=
  (q.parsed env).2.headFields

/-- A request with a head of at most 131072 bytes that ends with an empty line and that
`xs_http_parse` takes; it asks for no upgrade, is not chunked and tells the length of its body. -/
structure Request.WellFormed (env : Env) (q : Request) : Prop where
  crlf : ascii "\r\n\r\n" <:+ q.head
  length_head : q.head.length ≤ 131072
  accepted : (q.parsed env).1 = 0
  request : (q.parsed env).2.method ≠ none
  upgrade : (q.parsed env).2.upgrade = 0
  chunked : (q.parsed env).2.chunked = false
  contentlen : (q.parsed env).2.contentlen = q.body.length
  length_body : q.body.length < 2 ^ 53

/-- `xs_http_validrequest` finds the head, and nothing shorter. -/
def Request.Framed (q : Request) : Prop :=
  headScan q.head = some (q.head.length : ℤ)

variable {env : Env} {q : Request} {req : HttpReq}

/-- What an object with the fields of a request holds. -/
theorem Request.WellFormed.of_fields (h : q.WellFormed env) (hreq : req.headFields = q.fields env) :
    req.contentlen = q.body.length ∧ req.chunked = false ∧ req.upgrade = 0 ∧ req.method ≠ none ∧
      req.statuscode = 0 ∧ req.datamask = [0, 0, 0, 0] ∧ req.done = false := by
  obtain ⟨hdone, hmask, -⟩ := parsedHead_fixed env q.head
  have hmethod : req.method = (q.parsed env).2.method := (congrArg HttpReq.method hreq :)
  exact ⟨(congrArg HttpReq.contentlen hreq).trans h.contentlen,
    (congrArg HttpReq.chunked hreq).trans h.chunked,
    (congrArg HttpReq.upgrade hreq).trans h.upgrade,
    by rw [hmethod]; exact h.request,
    (congrArg HttpReq.statuscode hreq).trans (statuscode_of_method env.strtod h.request),
    (congrArg HttpReq.datamask hreq).trans hmask,
    (congrArg HttpReq.done hreq).trans hdone⟩

/-- A request is marked if it has no body. -/
theorem readStarted_request {c : Conn} (s : ℤ) (hu : c.upgrade = 0) (hreq : c.req = [req])
    (hheader : req.header = false) (hq : q.WellFormed env)
    (hfields : req.headFields = q.fields env) {c' : Conn}
    (hc' : { c with req := [{ req with header := decide (q.body = []) }] } = c') :
    ∃ re, readStarted env c s = (⟨c'.retvalue s, [], re⟩, c') := by
  obtain ⟨hlen, hchunked, hupgrade, hmethod, -⟩ := hq.of_fields hfields
  have hmarkUpgrade : c.markUpgrade = c := if_neg (not_not_intro hu)
  have hhead : c.req.head? = some req := by
    rw [hreq]
    rfl
  unfold readStarted
  dsimp only
  rw [hmarkUpgrade, hhead]
  dsimp only
  rw [if_neg (by rw [hupgrade]; decide), if_neg (by rw [hupgrade]; decide)]
  by_cases hbody : q.body = []
  · have hmodify : (c.modifyReq fun req => { req with header := true }) = c' := by
      rw [← hc', decide_eq_true hbody, Conn.modifyReq, hreq]
      rfl
    rw [if_pos ⟨by rw [hlen, hbody]; rfl, hchunked⟩, startEmpty, if_neg fun h => hmethod h.1]
    dsimp only
    rw [hmodify]
    exact ⟨_, rfl⟩
  · have hpos : req.contentlen ≠ 0 := by
      rw [hlen]
      exact fun h0 => hbody (List.length_eq_zero_iff.mp h0)
    have hsame : c = c' := by
      rw [← hc', decide_eq_false hbody, ← hheader, ← hreq]
    rw [if_neg fun h => hpos h.1, hsame]
    exact ⟨_, rfl⟩

/-- A request is started of a head that is found. -/
theorem readFound_request {c : Conn} (s : ℤ) (hu : c.upgrade = 0) (hmark : c.Unmarked)
    (hq : q.WellFormed env) (hne : q.head ≠ []) (hbuf : q.head <+: c.buf) :
    ∃ r req, readFound env c s q.head.length = some r ∧ r.1.bytes = [] ∧
      r.1.n = r.2.retvalue s ∧ c.Takes env q.head req (decide (q.body = [])) r.2 := by
  obtain ⟨c', req, hfound, ht⟩ := readFound_taken s hu hmark hq.accepted hne hbuf
  obtain ⟨req', hreq'⟩ : ∃ req' : HttpReq,
      { req with header := decide (q.body = []) } = req' := ⟨_, rfl⟩
  obtain ⟨re, hstarted⟩ := readStarted_request s ht.upgrade ht.only ht.header hq ht.fields rfl
  rw [hstarted, hreq'] at hfound
  exact ⟨_, req', hfound, rfl, rfl, ht.toOut, ht.toPeer, ht.toRecvBuf, ht.upgrade, ht.free, rfl,
    hreq' ▸ ht.fields, hreq' ▸ ht.reqlen, hreq' ▸ ht.consumed, hreq' ▸ rfl⟩

/-! ## The size of the buffer -/

/-- The sizes that a buffer has while the heads are of at most 131072 bytes. -/
def RecvBuf.Sized (b : RecvBuf) : Prop :=
  b.bufsize = 0 ∨ ∃ j ≤ 7, b.bufsize = 2 ^ (10 + j)

theorem RecvBuf.Sized.le {b : RecvBuf} (h : b.Sized) : b.bufsize ≤ 2 ^ 17 := by
  obtain h | ⟨j, hj, h⟩ := h
  · rw [h]
    decide
  · rw [h]
    exact pow_le_pow_right₀ (by decide) (by omega)

/-- A buffer that is full is doubled, unless it is empty or as large as a head may be. -/
theorem connBufresize_sized {b : RecvBuf} (hv : b.Valid) (h0 : b.consumed = 0) (hs : b.Sized)
    (hfull : (b.unread.length : ℤ) < 2 ^ 17) : (connBufresize b).Sized := by
  have hlen := hv.length_unread
  unfold connBufresize
  split_ifs with hz hd hc hf ho
  · exact .inr ⟨0, by omega, rfl⟩
  · exact hs
  · exact hs
  · obtain h | ⟨j, hj, h⟩ := hs
    · exact absurd h hz
    · have hj' : j ≠ 7 := by
        rintro rfl
        norm_num at h
        omega
      refine .inr ⟨j + 1, by omega, ?_⟩
      dsimp only
      rw [hf, h, ← Nat.add_assoc, pow_succ]
  · exact hs
  · exact hs

/-- The buffer of a connection between requests, that has room or no head. -/
def Conn.Roomy (c : Conn) : Prop :=
  c.toRecvBuf.Sized ∧
    ((c.toRecvBuf.unread.length : ℤ) < c.bufsize ∨ headScan c.toRecvBuf.unread = none)

theorem roomy_of_taken {c : Conn} (hv : c.toRecvBuf.Valid) (hs : c.toRecvBuf.Sized)
    (h : 0 < c.consumed) : c.Roomy := by
  have hlen := hv.length_unread
  have hle := hv.datalen_le
  exact ⟨hs, .inl (by omega)⟩

/-- Between requests the buffer has no more than a head may have. -/
theorem Conn.Awaits.fits {c : Conn} {input : List UInt8} (h : c.Awaits input) (hr : c.Roomy)
    (hhead : BeginsWithHead input) :
    (c.cleared.offered.length : ℤ) ≤ maxheaderlen ∧ (connBufresize c.cleared.toRecvBuf).Sized := by
  obtain ⟨hs, hroom⟩ := hr
  have hready := cleared_ready h.good h.between
  have hprefix : c.toRecvBuf.unread <+: input := ⟨_, h.bytes⟩
  have hlen := h.good.valid.length_unread
  have hcons := h.good.valid.consumed_nonneg
  have hle := h.good.valid.datalen_le
  have hmax := hs.le
  -- as long as the head is not there, there is room
  have hfull : (c.toRecvBuf.unread.length : ℤ) < 2 ^ 17 := by
    obtain hlt | hnone := hroom
    · omega
    · obtain hnil | ⟨head, hframed, hlength, -, hbegin⟩ := hhead
      · rw [hnil] at hprefix
        rw [List.prefix_nil.mp hprefix]
        decide
      · by_contra hge
        have hsome := headScan_incremental.of_prefix hframed
          (List.prefix_of_prefix_length_le hbegin hprefix (by omega))
        rw [hnone] at hsome
        cases hsome
  have hsized := connBufresize_sized hready.good.valid hready.consumed
    (by unfold RecvBuf.Sized; rw [hready.bufsize]; exact hs) (by rw [hready.unread]; exact hfull)
  refine ⟨?_, hsized⟩
  obtain ⟨hbv, hunread, hzero, -⟩ := connBufresize_spec hready.good.valid
  have hblen := hbv.length_unread
  have hbmax := hsized.le
  have hble := hbv.datalen_le
  have hb0 := hzero hready.consumed
  have harrive := hbv.length_arrive_le (p := c.cleared.toPeer) rfl
  rw [hunread] at hblen
  unfold Conn.offered maxheaderlen
  split_ifs
  · omega
  · rw [List.length_append]
    push_cast
    omega

/-! ## Between requests -/

/-- The request `q` is being read, `o` bytes of its body were returned, and `rest` follows. -/
structure Conn.Reads (env : Env) (c : Conn) (q : Request) (rest : List UInt8) (o : ℕ) : Prop
    extends c.Plain where
  free : ∀ req ∈ c.freereq, req.header = false
  taken : 0 < c.consumed
  bytes : c.toRecvBuf.unread ++ c.pending = q.body.drop o ++ rest
  left : o < q.body.length ∨ q.body = [] ∧ o = 0
  req : ∃ req, c.req = [req] ∧ req.headFields = q.fields env ∧ req.reqlen ≠ 0 ∧ req.consumed = o ∧
    req.header = decide (q.body = [])

theorem Request.WellFormed.head_ne_nil (h : q.WellFormed env) : q.head ≠ [] := by
  intro hnil
  have := h.crlf.length_le
  rw [hnil] at this
  exact absurd this (by decide)

theorem stream_cons (q : Request) (qs : List Request) :
    stream (q :: qs) = q.head ++ (q.body ++ stream qs) := by
  simp [stream]

theorem beginsWithHead_stream {qs : List Request} (h : ∀ q ∈ qs, q.WellFormed env ∧ q.Framed) :
    BeginsWithHead (stream qs) := by
  cases qs with
  | nil => exact .inl rfl
  | cons q qs =>
    obtain ⟨hq, hframed⟩ := h q List.mem_cons_self
    exact .inr ⟨q.head, hframed, hq.length_head, hq.head_ne_nil, _, (stream_cons q qs).symm⟩

/-- The state of a request that is being read. -/
theorem httpState_request (hq : q.WellFormed env) (hfields : req.headFields = q.fields env)
    (hlen : req.reqlen ≠ 0) :
    httpState (some req) =
      if q.body = [] then if req.header = true then ConnState.Header else ConnState.Complete
      else if q.body.length ≤ req.consumed then ConnState.Complete
      else if req.consumed = 0 then ConnState.Header else ConnState.Response := by
  obtain ⟨hcontent, hchunked, -, -, hstatus, -, -⟩ := hq.of_fields hfields
  unfold httpState
  dsimp only
  rw [if_neg hlen, hcontent, hchunked, hstatus]
  have hnil : q.body = [] ↔ q.body.length = 0 := List.length_eq_zero_iff.symm
  by_cases hbody : q.body = []
  · simp [hbody]
  · have hpos : q.body.length ≠ 0 := fun h => hbody (hnil.mpr h)
    simp [hbody, hpos]

theorem Conn.Reads.state {c : Conn} {rest : List UInt8} {o : ℕ} (h : c.Reads env q rest o)
    (hq : q.WellFormed env) :
    httpState c.req.head? = if o = 0 then ConnState.Header else ConnState.Response := by
  obtain ⟨req, hreq, hfields, hlen, hconsumed, hheader⟩ := h.req
  have hleft := h.left
  rw [hreq, List.head?_cons, httpState_request hq hfields hlen, hconsumed, hheader]
  by_cases hbody : q.body = []
  · have ho : o = 0 := by
      rw [hbody, List.length_nil] at hleft
      omega
    rw [if_pos hbody, decide_eq_true hbody, if_pos rfl, if_pos ho]
  · have hlt : o < q.body.length := hleft.resolve_right fun h => hbody h.1
    rw [if_neg hbody, if_neg (by omega)]

/-- A head is taken off, and its body comes next. -/
theorem Conn.Begun.reads {c₀ c : Conn} {rest : List UInt8} (h : c.Begun req (q.body ++ rest))
    (ht : c₀.Takes env q.head req (decide (q.body = [])) c) : c.Reads env q rest 0 := by
  refine ⟨h.toPlain, ht.free, h.consumed_pos, by rw [h.bytes, List.drop_zero], ?_, req, ht.only,
    ht.fields, h.reqlen, ht.consumed, ht.header⟩
  by_cases hbody : q.body = []
  · exact .inr ⟨hbody, rfl⟩
  · exact .inl (List.length_pos_iff.mpr hbody)

/-- A call between requests waits, or takes the head of the next one. -/
theorem awaits_step {c : Conn} {qs : List Request} (h : c.Awaits (stream qs)) (hroomy : c.Roomy)
    (hqs : ∀ q ∈ qs, q.WellFormed env ∧ q.Framed) (len : ℕ) :
    ∃ r, connHttpread env c len = some r ∧ r.1.bytes = [] ∧ r.2.errnum = 0 ∧
      (r.1.n < 0 ∧ r.2.Awaits (stream qs) ∧ r.2.Roomy ∧ (r.2.pending = [] → stream qs = []) ∧
          headScan c.cleared.offered = none ∨
        ∃ q qs', qs = q :: qs' ∧ r.1.n = 0 ∧ r.2.Reads env q (stream qs') 0 ∧
          r.2.toRecvBuf.Sized ∧ r.2.toRecvBuf.unread = c.cleared.offered.drop q.head.length ∧
          c.toPeer.Later r.2.toPeer) := by
  have hhead := beginsWithHead_stream hqs
  obtain ⟨hfits, hsized⟩ := h.fits hroomy hhead
  obtain ⟨r, hr, hbytes, hneg, herr, hawaits, hall, hsize, hunread, hnone⟩ |
      ⟨s, n, c', hs, hpos, hcall, hf⟩ := awaits_head env h hhead hfits len
  · refine ⟨r, hr, hbytes, herr, .inl ⟨hneg, hawaits, ⟨?_, .inr ?_⟩, hall, hnone⟩⟩
    · unfold RecvBuf.Sized
      rw [hsize]
      exact hsized
    · rw [hunread]
      exact hnone
  · cases qs with
    | nil =>
      have hscan := hf.scan
      rw [List.prefix_nil.mp ⟨_, hf.bytes⟩] at hscan
      cases hscan
    | cons q qs =>
      obtain ⟨hq, hframed⟩ := hqs q List.mem_cons_self
      have hne := hq.head_ne_nil
      rw [stream_cons] at hf
      obtain ⟨rfl, hbuf⟩ := head_of_headScan hframed ⟨_, hf.bytes⟩ hf.scan
      obtain ⟨r, req, hr, hbytes, hn, htakes⟩ :=
        readFound_request s hf.upgrade hf.unmarked hq hne hbuf
      obtain ⟨hbegun, hunread, hsize⟩ := hf.begun htakes hne hbuf
      have hreads := hbegun.reads htakes
      rw [hcall, hr]
      refine ⟨r, rfl, hbytes, hbegun.errnum, .inr ⟨q, qs, rfl, ?_, hreads, ?_, ?_, ?_⟩⟩
      · rw [hn, Conn.retvalue_eq hbegun.errnum, hreads.state hq, if_pos rfl]
        obtain rfl | rfl := hs <;> rfl
      · unfold RecvBuf.Sized
        rw [hsize, hf.bufsize]
        exact hsized
      · rw [hunread, hf.offered]
      · rw [htakes.toPeer]
        exact hf.later

/-! ## The body -/

/-- A request without a body is complete in the call after its head. -/
theorem reads_empty {c : Conn} {rest : List UInt8} (h : c.Reads env q rest 0)
    (hq : q.WellFormed env) (hbody : q.body = []) (len : ℕ) :
    ∃ r, connHttpread env c len = some r ∧ r.2.errnum = 0 ∧ r.1.n = 0 ∧ r.1.bytes = [] ∧
      (∃ req, r.2.req.head? = some req ∧ req.headFields = q.fields env) ∧ r.2.Awaits rest ∧
      httpState r.2.req.head? = ConnState.Complete ∧ r.2.bufsize = c.bufsize ∧
      0 < r.2.consumed := by
  obtain ⟨req, hreq, hfields, hlen, hconsumed, hheader⟩ := h.req
  rw [decide_eq_true hbody] at hheader
  have hstate : httpState c.req.head? = ConnState.Header := by rw [h.state hq, if_pos rfl]
  obtain ⟨req', hreq'⟩ : ∃ req' : HttpReq, { req with header := false } = req' := ⟨_, rfl⟩
  have hclear : (c.setErr 0).clearHeader.req = [req'] := by
    show c.req.modifyHead _ = _
    rw [hreq, List.modifyHead_cons, hreq']
  have hfields' : req'.headFields = q.fields env := by
    rw [← hreq']
    exact hfields
  have hheader' : req'.header = false := by rw [← hreq']
  have hcomplete : httpState (some req') = ConnState.Complete := by
    have hlen' : req'.reqlen ≠ 0 := by
      rw [← hreq']
      exact hlen
    rw [httpState_request hq hfields' hlen', if_pos hbody, hheader', if_neg (by decide)]
  have hawaits : (c.setErr 0).clearHeader.Awaits rest := by
    refine awaits_of_complete ⟨clearHeader_good (h.toPlain.setErr 0).good, h.upgrade, h.quiet⟩
      h.free ?_ hclear hheader' hcomplete
    have hbytes := h.bytes
    rwa [hbody, List.drop_nil, List.nil_append] at hbytes
  have hmark : c.req.head?.any (fun req => req.header) = true := by
    rw [hreq, List.head?_cons, Option.any_some]
    exact hheader
  have hret : (c.setErr 0).clearHeader.retvalue ConnState.Header = 0 := by
    rw [Conn.retvalue_eq rfl, hclear, List.head?_cons, hcomplete]
    rfl
  rw [connHttpread_eq]
  dsimp only
  rw [hstate, if_neg (by decide), if_pos ⟨rfl, hmark⟩, if_pos hret]
  refine ⟨_, rfl, rfl, rfl, rfl, ⟨req', by rw [hclear]; rfl, hfields'⟩, hawaits, ?_, rfl, h.taken⟩
  rw [hclear]
  exact hcomplete

/-- A call in a request returns some bytes of its body, or none if none are there. -/
theorem reads_body {c : Conn} {rest : List UInt8} {o : ℕ} (h : c.Reads env q rest o)
    (hq : q.WellFormed env) (hlt : o < q.body.length) {len : ℕ} (h1 : 1 ≤ len)
    (h31 : min len q.body.length < 2 ^ 31) :
    ∃ r, connHttpread env c len = some r ∧ r.2.errnum = 0 ∧ r.2.bufsize = c.bufsize ∧
      0 < r.2.consumed ∧
      (r.1.n < 0 ∧ r.2.Reads env q rest o ∧ r.2.pending ≠ [] ∨
        ∃ k : ℕ, 0 < k ∧ r.1.n = k ∧ r.1.bytes = (q.body.drop o).take k ∧ o + k ≤ q.body.length ∧
          (∃ req, r.2.req.head? = some req ∧ req.headFields = q.fields env) ∧
          (r.2.Reads env q rest (o + k) ∨ o + k = q.body.length ∧ r.2.Awaits rest ∧
            httpState r.2.req.head? = ConnState.Complete)) := by
  obtain ⟨req, hreq, hfields, hlen, hconsumed, hheader⟩ := h.req
  obtain ⟨hcontent, hchunked, -, -, -, hmask, hdone⟩ := hq.of_fields hfields
  have hbody : q.body ≠ [] := List.ne_nil_of_length_pos (by omega)
  rw [decide_eq_false hbody] at hheader
  have hhead : c.req.head? = some req := by rw [hreq, List.head?_cons]
  have hreading : c.Reading req :=
    ⟨⟨h.good.valid, hhead, hlen, hdone⟩, hheader, .inr (by omega)⟩
  rw [connHttpread_of_reading env hreading, readBody, if_neg (by simp [hchunked])]
  obtain ⟨n, re, out, p, b, raw, hread, htook, hle, hn⟩ := readData_plain (h.toPlain.setErr 0) rfl
    hmask (by omega) h1 (by omega)
  have htaken : 0 < b.consumed := lt_of_lt_of_le h.taken htook.consumed
  have hin : b.unread ++ p.pending = (q.body.drop o ++ rest).drop raw.length := by
    rw [htook.bytes]
    exact congrArg (List.drop raw.length) h.bytes
  rw [hread]
  obtain ⟨rfl, hne⟩ | ⟨rfl, rfl, hunread⟩ := hn
  · have hpos := List.length_pos_iff.mpr hne
    have hraw : raw = (q.body.drop o).take raw.length := by
      have hprefix : raw <+: q.body.drop o ++ rest := by
        rw [← h.bytes]
        exact htook.begins
      conv_lhs => rw [List.prefix_iff_eq_take.mp hprefix]
      rw [List.take_append_of_le_length (by rw [List.length_drop]; omega)]
    have hmod : (req.consumed + raw.length) % 2 ^ 64 = o + raw.length := by
      have := hq.length_body
      rw [hconsumed, Nat.mod_eq_of_lt (by omega)]
    obtain ⟨req', hreq'⟩ : ∃ req' : HttpReq, { req with consumed := o + raw.length } = req' :=
      ⟨_, rfl⟩
    have hfields' : req'.headFields = q.fields env := by
      rw [← hreq']
      exact hfields
    have hlen' : req'.reqlen ≠ 0 := by
      rw [← hreq']
      exact hlen
    have hheader' : req'.header = false := by
      rw [← hreq']
      exact hheader
    have hconsumed' : req'.consumed = o + raw.length := by rw [← hreq']
    have hreturned : (((c.setErr 0).put out p b).returned raw.length).req = [req'] := by
      show c.req.modifyHead _ = _
      rw [hreq, List.modifyHead_cons, hmod, hreq']
    have hhead' : (((c.setErr 0).put out p b).returned raw.length).req.head? = some req' := by
      rw [hreturned, List.head?_cons]
    have hplain : (((c.setErr 0).put out p b).returned raw.length).Plain := by
      refine ⟨⟨htook.valid, fun hidle => absurd (hidle req' hhead') hlen', fun r hr => ?_⟩,
        h.upgrade, htook.quiet⟩
      obtain rfl := Option.some.inj (hhead'.symm.trans hr)
      rw [← hreq']
      exact hdone
    have hin' : b.unread ++ p.pending = q.body.drop (o + raw.length) ++ rest := by
      rw [hin, List.drop_append_of_le_length (by rw [List.length_drop]; omega), List.drop_drop]
    rw [if_neg hne]
    refine ⟨_, rfl, htook.errnum, htook.bufsize, htaken, .inr ⟨raw.length, hpos, rfl, hraw,
      by omega, ⟨req', hhead', hfields'⟩, ?_⟩⟩
    by_cases hmore : o + raw.length < q.body.length
    · exact .inl ⟨hplain, h.free, htaken, hin', .inl hmore, req', hreturned, hfields', hlen',
        hconsumed', by rw [hheader', decide_eq_false hbody]⟩
    · have hstate : httpState (some req') = ConnState.Complete := by
        rw [httpState_request hq hfields' hlen', if_neg hbody, if_pos (by omega)]
      rw [List.drop_eq_nil_of_le (by omega), List.nil_append] at hin'
      refine .inr ⟨by omega, awaits_of_complete hplain h.free hin' hreturned hheader' hstate, ?_⟩
      rw [hhead']
      exact hstate
  · rw [if_pos rfl]
    rw [List.length_nil, List.drop_zero, hunread, List.nil_append] at hin
    have hnil : p.pending ≠ [] := by
      intro hnil
      rw [hnil] at hin
      have := congrArg List.length hin
      rw [List.length_append, List.length_drop, List.length_nil] at this
      omega
    refine ⟨_, rfl, htook.errnum, htook.bufsize, htaken, .inl ⟨show (-1 : ℤ) < 0 by decide,
      ⟨⟨⟨htook.valid, fun hidle => ?_, ?_⟩, h.upgrade, htook.quiet⟩, h.free, htaken, ?_, h.left,
        h.req⟩, hnil⟩⟩
    · exact absurd (hidle req hhead) hlen
    · exact h.good.undone
    · show b.unread ++ p.pending = _
      rw [hunread, List.nil_append, hin]

/-! ## What a caller gets -/

/-- What a caller made of the returns : the requests that are complete, with the fields of their
heads, and the one that is not. -/
structure Received where
  done : List (HttpReq × List UInt8)
  current : Option (HttpReq × List UInt8)
  /-- A call ended with an error, or returned something out of order. -/
  fault : Bool
  deriving DecidableEq

/-- One more return, `n` and the state after it. A call that returned a negative value does not
count. -/
def Received.add (t : Received) (r : ReadRet × Conn) : Received :=
  if r.2.errnum ≠ 0 then { t with fault := true }
  else if r.1.n < 0 then t
  else if r.1.n ≠ r.1.bytes.length then { t with fault := true }
  else
    match t.current, r.2.req.head? with
    | none, some req =>
      if r.2.state = ConnState.Header ∧ r.1.bytes = [] then
        { t with current := some (req.headFields, []) }
      else { t with fault := true }
    | some (fields, body), some req =>
      if req.headFields ≠ fields then { t with fault := true }
      else if r.2.state = ConnState.Response then
        { t with current := some (fields, body ++ r.1.bytes) }
      else if r.2.state = ConnState.Complete then
        { t with done := t.done ++ [(fields, body ++ r.1.bytes)], current := none }
      else { t with fault := true }
    | _, none => { t with fault := true }

/-- Nothing yet. -/
def Received.nothing : Received :=
  ⟨[], none, false⟩

/-- What a caller made of all returns. -/
def received (rs : List (ReadRet × Conn)) : Received :=
  rs.foldl Received.add .nothing

/-- A request as a caller gets it. -/
def Request.asReceived (env : Env) (q : Request) : HttpReq × List UInt8 :=
  (q.fields env, q.body)

/-- The requests arrive in order and whole, and all of them if nothing is pending and a call had
nothing to return. -/
structure Delivered (env : Env) (qs : List Request) (rs : List (ReadRet × Conn)) : Prop where
  fault : (received rs).fault = false
  order : ∃ done left, qs = done ++ left ∧ (received rs).done = done.map (Request.asReceived env) ∧
    ∀ cur ∈ (received rs).current, ∃ q ∈ left.head?, cur.1 = q.fields env ∧ cur.2 <+: q.body
  all : ∀ r ∈ rs.getLast?, r.1.n < 0 → r.2.pending = [] →
    received rs = ⟨qs.map (Request.asReceived env), none, false⟩

/-- The connection goes on where the caller is. -/
def Goes (env : Env) (qs : List Request) (c : Conn) (t : Received) : Prop :=
  ∃ done left, qs = done ++ left ∧
    (t = ⟨done.map (Request.asReceived env), none, false⟩ ∧ c.Awaits (stream left) ∧ c.Roomy ∨
      ∃ q rest o, left = q :: rest ∧ c.Reads env q (stream rest) o ∧ c.toRecvBuf.Sized ∧
        t = ⟨done.map (Request.asReceived env), some (q.fields env, q.body.take o), false⟩)

section Add

variable {done : List (HttpReq × List UInt8)} {fields : HttpReq} {body : List UInt8}
  {r : ReadRet × Conn}

theorem Received.add_neg (t : Received) (he : r.2.errnum = 0) (hn : r.1.n < 0) : t.add r = t := by
  rw [Received.add, if_neg (not_not_intro he), if_pos hn]

theorem Received.add_head (he : r.2.errnum = 0) (hn : r.1.n = 0) (hbytes : r.1.bytes = [])
    (hreq : r.2.req.head? = some req) (hstate : httpState r.2.req.head? = ConnState.Header) :
    Received.add ⟨done, none, false⟩ r = ⟨done, some (req.headFields, []), false⟩ := by
  rw [Received.add, if_neg (not_not_intro he), if_neg (by omega), hbytes, hn, if_neg (by simp)]
  rw [← Conn.state_eq he] at hstate
  rw [hreq]
  dsimp only
  rw [if_pos ⟨hstate, rfl⟩]

theorem Received.add_response (he : r.2.errnum = 0) (hn : r.1.n = r.1.bytes.length)
    (hreq : r.2.req.head? = some req) (hfields : req.headFields = fields)
    (hstate : httpState r.2.req.head? = ConnState.Response) :
    Received.add ⟨done, some (fields, body), false⟩ r =
      ⟨done, some (fields, body ++ r.1.bytes), false⟩ := by
  rw [Received.add, if_neg (not_not_intro he), if_neg (by omega), if_neg (not_not_intro hn)]
  rw [← Conn.state_eq he] at hstate
  rw [hreq]
  dsimp only
  rw [if_neg (not_not_intro hfields), if_pos hstate]

theorem Received.add_complete (he : r.2.errnum = 0) (hn : r.1.n = r.1.bytes.length)
    (hreq : r.2.req.head? = some req) (hfields : req.headFields = fields)
    (hstate : httpState r.2.req.head? = ConnState.Complete) :
    Received.add ⟨done, some (fields, body), false⟩ r =
      ⟨done ++ [(fields, body ++ r.1.bytes)], none, false⟩ := by
  rw [Received.add, if_neg (not_not_intro he), if_neg (by omega), if_neg (not_not_intro hn)]
  rw [← Conn.state_eq he] at hstate
  rw [hreq]
  dsimp only
  rw [if_neg (not_not_intro hfields), if_neg (by rw [hstate]; decide), if_pos hstate]

end Add

theorem Request.WellFormed.stream_ne_nil (hq : q.WellFormed env) (qs : List Request) :
    stream (q :: qs) ≠ [] := by
  rw [stream_cons]
  exact List.append_ne_nil_of_left_ne_nil hq.head_ne_nil _

/-- One more call. -/
theorem goes_step {qs : List Request} (hqs : ∀ q ∈ qs, q.WellFormed env ∧ q.Framed) {c : Conn}
    {t : Received} (h : Goes env qs c t) {len : ℕ} (h1 : 1 ≤ len)
    (h31 : ∀ q ∈ qs, min len q.body.length < 2 ^ 31) :
    ∃ r, connHttpread env c len = some r ∧ Goes env qs r.2 (t.add r) ∧
      (r.1.n < 0 → r.2.pending = [] →
        t.add r = ⟨qs.map (Request.asReceived env), none, false⟩) := by
  obtain ⟨done, left, rfl, ⟨rfl, hc, hroomy⟩ | ⟨q, rest, o, rfl, hc, hsized, rfl⟩⟩ := h
  · -- between requests
    have hleft : ∀ q ∈ left, q.WellFormed env ∧ q.Framed :=
      fun q hq => hqs q (List.mem_append_right _ hq)
    obtain ⟨r, hr, hbytes, herr, ⟨hneg, hawaits, hroomy', hall, -⟩ |
        ⟨q, rest, rfl, hn, hreads, hsized, -⟩⟩ := awaits_step hc hroomy hleft len
    · refine ⟨r, hr, ?_, fun _ hpending => ?_⟩
      · rw [Received.add_neg _ herr hneg]
        exact ⟨done, left, rfl, .inl ⟨rfl, hawaits, hroomy'⟩⟩
      · rw [Received.add_neg _ herr hneg]
        cases left with
        | nil => rw [List.append_nil]
        | cons q rest =>
          exact absurd (hall hpending) ((hleft q List.mem_cons_self).1.stream_ne_nil rest)
    · obtain ⟨hq, -⟩ := hleft q List.mem_cons_self
      obtain ⟨req, hreq, hfields, -⟩ := hreads.req
      refine ⟨r, hr, ⟨done, q :: rest, rfl, .inr ⟨q, rest, 0, rfl, hreads, hsized, ?_⟩⟩,
        fun hneg => by omega⟩
      rw [Received.add_head herr hn hbytes (by rw [hreq]; rfl)
        (by rw [hreads.state hq, if_pos rfl]), hfields, List.take_zero]
  · -- in the request `q`
    obtain ⟨hq, -⟩ := hqs q (List.mem_append_right _ List.mem_cons_self)
    have hdone : done ++ q :: rest = done ++ [q] ++ rest := by simp
    have hmap : (done ++ [q]).map (Request.asReceived env) =
        done.map (Request.asReceived env) ++ [(q.fields env, q.body)] := by
      rw [List.map_append, List.map_singleton, Request.asReceived]
    have hkeep : ∀ c' : Conn, c'.bufsize = c.bufsize → c'.toRecvBuf.Sized := by
      intro c' hsize
      unfold RecvBuf.Sized
      rw [hsize]
      exact hsized
    by_cases hbody : q.body = []
    · have ho : o = 0 := by
        have hleft := hc.left
        rw [hbody, List.length_nil] at hleft
        omega
      subst ho
      obtain ⟨r, hr, herr, hn, hbytes, ⟨req, hreq, hfields⟩, hawaits, hstate, hsize,
        htaken⟩ := reads_empty hc hq hbody len
      have hroomy := roomy_of_taken hawaits.good.valid (hkeep _ hsize) htaken
      refine ⟨r, hr, ⟨done ++ [q], rest, hdone, .inl ⟨?_, hawaits, hroomy⟩⟩, fun hneg => by omega⟩
      rw [Received.add_complete herr (by rw [hn, hbytes]; rfl) hreq hfields hstate, hbytes, hmap,
        hbody]
      rfl
    · have hlt : o < q.body.length := hc.left.resolve_right fun h => hbody h.1
      obtain ⟨r, hr, herr, hsize, htaken, ⟨hneg, hreads, hpending⟩ | ⟨k, hpos, hn, hbytes, hle,
        ⟨req, hreq, hfields⟩, hnext⟩⟩ := reads_body hc hq hlt h1
          (h31 q (List.mem_append_right _ List.mem_cons_self))
      · refine ⟨r, hr, ?_, fun _ hnil => absurd hnil hpending⟩
        rw [Received.add_neg _ herr hneg]
        exact ⟨done, q :: rest, rfl, .inr ⟨q, rest, o, rfl, hreads, hkeep _ hsize, rfl⟩⟩
      · have hlen : r.1.n = r.1.bytes.length := by
          rw [hn, hbytes, List.length_take, List.length_drop]
          omega
        have htake : q.body.take o ++ r.1.bytes = q.body.take (o + k) := by
          rw [hbytes, List.take_add]
        obtain hreads | ⟨hend, hawaits, hstate⟩ := hnext
        · refine ⟨r, hr, ⟨done, q :: rest, rfl,
            .inr ⟨q, rest, o + k, rfl, hreads, hkeep _ hsize, ?_⟩⟩, fun hneg => by omega⟩
          rw [Received.add_response herr hlen hreq hfields
            (by rw [hreads.state hq, if_neg (by omega)]), htake]
        · have hroomy := roomy_of_taken hawaits.good.valid (hkeep _ hsize) htaken
          refine ⟨r, hr, ⟨done ++ [q], rest, hdone, .inl ⟨?_, hawaits, hroomy⟩⟩,
            fun hneg => by omega⟩
          rw [Received.add_complete herr hlen hreq hfields hstate, htake, hmap, hend,
            List.take_length]

theorem roomy_init (recvs : ℕ → RecvAns) (input : List UInt8) (sock : Sock) :
    (Conn.init recvs input sock).Roomy :=
  ⟨.inl rfl, .inr rfl⟩

theorem Goes.order {qs : List Request} {c : Conn} {t : Received} (h : Goes env qs c t) :
    t.fault = false ∧ ∃ done left, qs = done ++ left ∧
      t.done = done.map (Request.asReceived env) ∧
      ∀ cur ∈ t.current, ∃ q ∈ left.head?, cur.1 = q.fields env ∧ cur.2 <+: q.body := by
  obtain ⟨done, left, rfl, ⟨rfl, -⟩ | ⟨q, rest, o, rfl, -, -, rfl⟩⟩ := h
  · exact ⟨rfl, done, left, rfl, rfl, fun _ hcur => absurd hcur (Option.not_mem_none _)⟩
  · refine ⟨rfl, done, q :: rest, rfl, rfl, fun cur hcur => ⟨q, rfl, ?_⟩⟩
    obtain rfl := Option.some.inj hcur
    exact ⟨rfl, List.take_prefix _ _⟩

/-- However the bytes of some requests are split, and whatever lengths are read, the calls deliver
the requests. -/
theorem delivered_of_framed (env : Env) (recvs : ℕ → RecvAns)
    (hquiet : ∀ i, recvs i = .fail EAGAIN ∨ ∃ n, recvs i = .data n) (sock : Sock)
    (qs : List Request) (hqs : ∀ q ∈ qs, q.WellFormed env ∧ q.Framed) (lens : List ℕ)
    (hlens : ∀ len ∈ lens, 1 ≤ len ∧ ∀ q ∈ qs, min len q.body.length < 2 ^ 31) :
    ∃ rs, Calls.run (connHttpread env) (Conn.init recvs (stream qs) sock) lens = some rs ∧
      Delivered env qs rs := by
  obtain ⟨rs, c, hrs, hgoes, hall⟩ := Calls.run_foldl
    (P := fun _ len => 1 ≤ len ∧ ∀ q ∈ qs, min len q.body.length < 2 ^ 31)
    (R := fun c (x : Received × Bool) => Goes env qs c x.1 ∧
      (x.2 = true → x.1 = ⟨qs.map (Request.asReceived env), none, false⟩))
    (g := fun x r => (x.1.add r, isOver r))
    (fun c x len h hlen => by
      obtain ⟨r, hr, hgoes, hall⟩ := goes_step hqs h.1 hlen.1 hlen.2
      refine ⟨r, hr, hgoes, fun hover => ?_⟩
      obtain ⟨hneg, hpending⟩ := of_decide_eq_true hover
      exact hall hneg hpending)
    (t := (.nothing, false))
    ⟨⟨[], qs, rfl, .inl ⟨rfl, awaits_init _ sock hquiet, roomy_init _ _ _⟩⟩, nofun⟩
    (Calls.along_of_forall hlens _)
  rw [Calls.foldl_last] at hgoes hall
  dsimp only at hgoes hall
  obtain ⟨hfault, horder⟩ := hgoes.order
  refine ⟨rs, hrs, hfault, horder, fun r hr hneg hpending => hall ?_⟩
  rw [hr, Option.map_some]
  exact decide_eq_true ⟨hneg, hpending⟩

/-- A request with a body, and one without. -/
def twoRequests : List Request :=
  [⟨ascii "POST /a HTTP/1.1\r\nContent-Length: 3\r\n\r\n", ascii "abc"⟩,
    ⟨ascii "GET /b HTTP/1.1\r\nHost: c\r\n\r\n", []⟩]

theorem wellFormed_twoRequests : ∀ q ∈ twoRequests, q.WellFormed .plain ∧ q.Framed := by
  have hpost : Request.WellFormed .plain
      ⟨ascii "POST /a HTTP/1.1\r\nContent-Length: 3\r\n\r\n", ascii "abc"⟩ :=
    ⟨by decide +kernel, by decide +kernel, by decide +kernel, by decide +kernel, by decide +kernel,
      by decide +kernel, by decide +kernel, by decide +kernel⟩
  have hget : Request.WellFormed .plain ⟨ascii "GET /b HTTP/1.1\r\nHost: c\r\n\r\n", []⟩ :=
    ⟨by decide +kernel, by decide +kernel, by decide +kernel, by decide +kernel, by decide +kernel,
      by decide +kernel, by decide +kernel, by decide +kernel⟩
  refine List.forall_mem_cons.mpr ⟨⟨hpost, ?_⟩, List.forall_mem_singleton.mpr ⟨hget, ?_⟩⟩ <;>
    unfold Request.Framed <;> decide +kernel

/-- The two requests, read in small pieces. -/
theorem delivered_of_framed_two : ∃ rs, Calls.run (connHttpread .plain)
    (Conn.init (fun i => if i % 3 = 0 then .fail EAGAIN else .data (7 * i)) (stream twoRequests)
      .idle) (List.replicate 20 2) = some rs ∧ Delivered .plain twoRequests rs := by
  refine delivered_of_framed .plain _ (fun i => ?_) .idle twoRequests wellFormed_twoRequests _ ?_
  · split_ifs
    · exact .inl rfl
    · exact .inr ⟨_, rfl⟩
  · intro len hlen
    obtain rfl := List.eq_of_mem_replicate hlen
    exact ⟨by decide, fun q _ => by omega⟩

/-- A header with a byte that is no ASCII. -/
def latin : Request :=
  ⟨ascii "GET / HTTP/1.1\r\nA: " ++ 128 :: ascii "\r\n\r\n", []⟩

/-- A request with a body of 4 GiB. -/
def huge : Request :=
  ⟨ascii "PUT / HTTP/1.1\r\nContent-Length: 4294967296\r\n\r\n", List.replicate (2 ^ 32) 0⟩

theorem wellFormed_huge : huge.WellFormed .plain where
  crlf := by decide +kernel
  length_head := by decide +kernel
  accepted := by decide +kernel
  request := by decide +kernel
  upgrade := by decide +kernel
  chunked := by decide +kernel
  contentlen := by
    rw [huge, List.length_replicate]
    decide +kernel
  length_body := by
    rw [huge, List.length_replicate]
    decide

theorem framed_huge : huge.Framed := by
  unfold Request.Framed
  decide +kernel

/-- `recv` of no bytes looks like the end of the connection. -/
theorem connRead_zero {c : Conn} {n : ℕ} (hrecv : c.recvs 0 = .data n) :
    ∃ re c', connRead c 0 = (0, [], re, c') ∧ c'.errnum = Error.Close := by
  obtain ⟨c₁, hc₁⟩ : ∃ c₁, (if c.wcache.aCount ≠ 0 ∧ c.isWblocked = false then
      c.setOut (connCachepurge c.toOut).2 else c) = c₁ := ⟨_, rfl⟩
  have hrecv₁ : c₁.recvs 0 = .data n := by
    rw [← hc₁]
    split_ifs <;> exact hrecv
  have hzero : c₁.recv (toInt32 0) = (0, [], { c₁ with recvs := fun i => c₁.recvs (i + 1) }) := by
    unfold Conn.recv
    rw [hrecv₁]
    rfl
  unfold connRead
  rw [hc₁]
  dsimp only
  rw [hzero]
  exact ⟨_, _, rfl, rfl⟩

/-- A read of 2 ^ 32 bytes from the socket asks `recv` for none. -/
theorem reads_huge {c : Conn} {rest : List UInt8} (h : c.Reads .plain huge rest 0)
    (hunread : c.toRecvBuf.unread = []) {n : ℕ} (hrecv : c.recvs 0 = .data n)
    {r : ReadRet × Conn} (hr : connHttpread .plain c (2 ^ 32) = some r) :
    r.2.errnum = Error.Close := by
  obtain ⟨req, hreq, hfields, hlen, hconsumed, hheader⟩ := h.req
  obtain ⟨hcontent, hchunked, -, -, -, hmask, hdone⟩ := wellFormed_huge.of_fields hfields
  rw [huge, List.length_replicate] at hcontent
  rw [decide_eq_false (by rw [huge, List.replicate_eq_nil_iff]; decide)] at hheader
  have hreading : c.Reading req := ⟨⟨h.good.valid, by rw [hreq, List.head?_cons], hlen, hdone⟩,
    hheader, .inr (by omega)⟩
  obtain ⟨hu, -⟩ | ⟨-, hread⟩ := readBytesOf_cases (c := c.setErr 0) h.good.valid
    (min (2 ^ 32) (req.contentlen - req.consumed))
  · exact absurd hunread hu
  obtain ⟨re, c', hzero, herr⟩ := connRead_zero (c := c.setErr 0) hrecv
  have hint : toInt32 ((min (2 ^ 32) (req.contentlen - req.consumed) : ℕ) : ℤ) = 0 := by
    rw [hcontent, hconsumed]
    decide
  rw [hint, hzero] at hread
  rw [connHttpread_of_reading .plain hreading, readBody, if_neg (by simp [hchunked]), readData,
    if_pos (by omega), hread] at hr
  cases hr
  exact herr

/-- The first answer of `recv` is the head. -/
theorem offered_huge :
    (Conn.init (fun _ => .data 45) (stream [huge]) .idle).cleared.offered = huge.head := by
  have hlen : huge.head.length = 46 := by decide +kernel
  show List.take 46 (stream [huge]) = huge.head
  rw [stream_cons, ← hlen, List.take_left]

/-- A head that `xs_http_validrequest` refuses; and a read of 4 GiB. -/
theorem not_delivered :
    (latin.WellFormed .plain ∧ ∀ rs, Calls.run (connHttpread .plain)
      (Conn.init (fun _ => .data 99) (stream [latin]) .idle) [1, 1] = some rs →
        ¬Delivered .plain [latin] rs) ∧
    (huge.WellFormed .plain ∧ huge.Framed ∧ ∀ rs, Calls.run (connHttpread .plain)
      (Conn.init (fun _ => .data 45) (stream [huge]) .idle) [1, 2 ^ 32] = some rs →
        ¬Delivered .plain [huge] rs) := by
  refine ⟨⟨⟨by decide +kernel, by decide +kernel, by decide +kernel, by decide +kernel,
    by decide +kernel, by decide +kernel, by decide +kernel, by decide +kernel⟩,
    fun rs hrs hdelivered => ?_⟩, wellFormed_huge, framed_huge, fun rs hrs hdelivered => ?_⟩
  · have hrun : (Calls.run (connHttpread .plain)
        (Conn.init (fun _ => .data 99) (stream [latin]) .idle) [1, 1]).map
        (fun rs => (received rs).fault) = some true := by decide +kernel
    rw [hrs, Option.map_some, hdelivered.fault] at hrun
    cases hrun
  · have hqs : ∀ q ∈ [huge], q.WellFormed .plain ∧ q.Framed :=
      List.forall_mem_singleton.mpr ⟨wellFormed_huge, framed_huge⟩
    have hquiet : ∀ i, (fun _ : ℕ => RecvAns.data 45) i = .fail EAGAIN ∨
        ∃ n, (fun _ : ℕ => RecvAns.data 45) i = .data n := fun _ => .inr ⟨45, rfl⟩
    obtain ⟨r, hr, -, herr, hcase⟩ :=
      awaits_step (awaits_init (stream [huge]) .idle hquiet) (roomy_init _ _ _) hqs 1
    rw [offered_huge] at hcase
    obtain ⟨-, -, -, -, hnone⟩ | ⟨q, qs', hq, -, hreads, -, hunread, hlater⟩ := hcase
    · rw [framed_huge] at hnone
      cases hnone
    · obtain ⟨rfl, rfl⟩ := List.cons.inj hq
      rw [List.drop_length] at hunread
      have hrecv : r.2.recvs 0 = .data 45 := by
        obtain hsame | ⟨room, hnext⟩ := hlater
        · rw [hsame]
          rfl
        · rw [hnext]
          rfl
      rw [Calls.run, hr, Option.bind_some, Calls.run] at hrs
      cases hsecond : connHttpread .plain r.2 (2 ^ 32) with
      | none =>
        rw [hsecond] at hrs
        cases hrs
      | some r₂ =>
        rw [hsecond] at hrs
        have hclose := reads_huge hreads hunread hrecv hsecond
        obtain rfl := Option.some.inj hrs
        have hfault : (received [r, r₂]).fault = true := by
          show ((Received.nothing.add r).add r₂).fault = true
          rw [Received.add, if_pos (by rw [hclose]; decide)]
        rw [hdelivered.fault] at hfault
        cases hfault

end Webxs
