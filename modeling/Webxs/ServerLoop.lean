import Webxs.RequestStream
import Webxs.Server
import Webxs.WebsocketStates

/-!
# The server's loop

`server_handler` (`webxs.c`) is called when there is something to read. It calls
`xs_conn_httpread` until there is nothing more to read or the connection is to end, and looks at
the state after each call : it answers a request that is complete, greets a peer that has upgraded,
and sends back what comes in frames. Every request is answered once, and in order, up to the one
after whose answer the connection ends, however the bytes of the requests are split
(`replies_in_order`).

How a reply is written is a parameter, which changes the writing side of the connection only, and
tells whether a part of the file could not be written : then `xs_conn_write_filedata` takes back
the request's `keepalive`. The calls of one loop and those of the next follow one another, so it
does not matter where a loop ends.
-/

namespace Webxs

/-! ## The source -/

/-- What the server writes for a request. -/
inductive Reply
  /-- `302 Moved`, to one of the urls of `redirect.json`. -/
  | moved (url : List UInt8)
  | answer (a : Answer)
  deriving DecidableEq

/-- The server, as its handler sees it. -/
structure Site where
  crypt : List UInt8 → List UInt8 → List UInt8
  authFile : Option (List UInt8)
  documentRoot : List UInt8
  /-- The urls in `gurlarr`. -/
  urls : List (List UInt8)
  /-- What `xs_atomic_inc(gredir)` returns. -/
  redir : ℕ
  /-- The writing of a reply, and whether it took back the request's `keepalive`. -/
  write : Reply → Out → Out × Bool

/-- The reply to a request that is complete, and the `err` it leaves. -/
def Site.reply (site : Site) (req : HttpReq) : Option (Reply × ℤ) :=
  if site.urls = [] then
    (serverHandlerequest site.crypt site.authFile site.documentRoot req).map fun r =>
      (.answer r.1, r.2)
  else some (.moved (site.urls.getD (site.redir % site.urls.length) []), Error.Close)

/-- A connection, with what its handler has done. -/
structure Handler where
  conn : Conn
  /-- History : the replies, each with the request. -/
  replies : List (HttpReq × Reply)
  /-- The handler returned `exs_Conn_Close`. -/
  closed : Bool

/-- `exs_WS_TEXT`. -/
def WS.TEXT : ℕ := 1

/-- What is sent for some bytes of a frame. -/
def echo (o : Out) (bytes : List UInt8) : Out :=
  let o := if bytes = [] then o else (connWriteWebsocket o WS.TEXT bytes none).2
  if ascii "exit" <+: bytes then (connWriteWebsocket o WS.CONNECTION_CLOSE [] none).2 else o

/-- One turn of the loop of `server_handler`. -/
def serverTurn (env : Env) (site : Site) (h : Handler) : Option Handler :=
  (connHttpread env h.conn 1023).bind fun (r, c) =>
    if c.errnum ≠ 0 then some { h with conn := c, closed := true }
    else if r.n < 0 then some { h with conn := c }
    else if connState c = ConnState.Complete then
      (connGetreq c).bind fun req => (site.reply req).map fun (reply, err) =>
        let (o, cleared) := site.write reply c.toOut
        { conn := c.setOut o
          replies := h.replies ++ [(req.headFields, reply)]
          closed := decide (err ≠ 0) || cleared }
    else if connState c = ConnState.WSNew then
      some { h with
        conn := c.setOut (connWriteWebsocket c.toOut WS.TEXT (ascii "server ready") none).2 }
    else if connState c = ConnState.WSFrameEnd ∨ connState c = ConnState.WSFrameRead then
      some { h with conn := c.setOut (echo c.toOut r.bytes) }
    else some { h with conn := c }

/-- `n` turns, or fewer if the connection is closed before. -/
def serverTurns (env : Env) (site : Site) : ℕ → Handler → Option Handler
  | 0, h => some h
  | n + 1, h => if h.closed then some h else (serverTurn env site h).bind (serverTurns env site n)

/-- A new connection. -/
def Handler.init (recvs : ℕ → RecvAns) (stream : List UInt8) (sock : Sock) : Handler :=
  ⟨Conn.init recvs stream sock, [], false⟩

/-! ## What the loop does with the requests -/

variable {env : Env} {site : Site} {qs : List Request}

/-- The connection ends after the reply to a request, however it is written. -/
def Site.closes (site : Site) (req : HttpReq) : Prop :=
  ∃ r err, site.reply req = some (r, err) ∧ err ≠ 0

/-- The replies belong to the requests `done`, one to each, and only the last of them may end the
connection. -/
structure Answered (env : Env) (site : Site) (done : List Request) (h : Handler) : Prop where
  replies : List.Forall₂ (fun q r => r.1 = q.fields env ∧
    ∃ err, site.reply (q.fields env) = some (r.2, err)) done h.replies
  going : h.closed = false → ∀ q ∈ done, ¬ site.closes (q.fields env)
  closed : h.closed = true → ∃ before q r, done = before ++ [q] ∧
    h.replies.getLast? = some r ∧ (∀ q' ∈ before, ¬ site.closes (q'.fields env)) ∧
      (site.closes (q.fields env) ∨ ∃ o, (site.write r.2 o).2 = true)

/-- The reply is a matter of the fields of the head. -/
theorem Site.reply_headFields (site : Site) (req : HttpReq) :
    site.reply req.headFields = site.reply req :=
  rfl

/-- A return that is in order is nothing, or a part of a request, or its end. -/
theorem Received.add_cases {t : Received} {r : ReadRet × Conn} (h : (t.add r).fault = false) :
    r.2.errnum = 0 ∧ (r.1.n < 0 ∧ t.add r = t ∨
      0 ≤ r.1.n ∧ (r.2.state = ConnState.Header ∨ r.2.state = ConnState.Response) ∧
        (t.add r).done = t.done ∨
      0 ≤ r.1.n ∧ r.2.state = ConnState.Complete ∧ ∃ req body, r.2.req.head? = some req ∧
        (t.add r).done = t.done ++ [(req.headFields, body)]) := by
  unfold Received.add at h ⊢
  by_cases herr : r.2.errnum ≠ 0
  · simp [herr] at h
  refine ⟨not_not.mp herr, ?_⟩
  rw [if_neg herr] at h ⊢
  by_cases hneg : r.1.n < 0
  · exact .inl ⟨hneg, if_pos hneg⟩
  rw [if_neg hneg] at h ⊢
  have hn : 0 ≤ r.1.n := by omega
  by_cases hlen : r.1.n ≠ r.1.bytes.length
  · simp [hlen] at h
  rw [if_neg hlen] at h ⊢
  refine .inr ?_
  cases hcur : t.current with
  | none =>
    cases hreq : r.2.req.head? with
    | none => simp [hcur, hreq] at h
    | some req =>
      simp only [hcur, hreq] at h ⊢
      by_cases hheader : r.2.state = ConnState.Header ∧ r.1.bytes = []
      · rw [if_pos hheader]
        exact .inl ⟨hn, .inl hheader.1, rfl⟩
      · simp [hheader] at h
  | some cur =>
    obtain ⟨fields, body⟩ := cur
    cases hreq : r.2.req.head? with
    | none => simp [hcur, hreq] at h
    | some req =>
      simp only [hcur, hreq] at h ⊢
      by_cases hfields : req.headFields = fields
      · rw [if_neg (not_not_intro hfields)] at h ⊢
        by_cases hresponse : r.2.state = ConnState.Response
        · rw [if_pos hresponse]
          exact .inl ⟨hn, .inr hresponse, rfl⟩
        rw [if_neg hresponse] at h ⊢
        by_cases hcomplete : r.2.state = ConnState.Complete
        · rw [if_pos hcomplete]
          exact .inr ⟨hn, hcomplete, req, body ++ r.1.bytes, rfl, by rw [hfields]⟩
        · simp [hcomplete] at h
      · simp [hfields] at h

/-- The reading side does not see what is written. -/
theorem Goes.setOut {c : Conn} {t : Received} (h : Goes env qs c t) (o : Out) :
    Goes env qs (c.setOut o) t := by
  obtain ⟨done, left, rfl, ⟨rfl, hc, hroomy⟩ | ⟨q, rest, k, rfl, hc, hsized, rfl⟩⟩ := h
  · refine ⟨done, left, rfl, .inl ⟨rfl, ⟨⟨?_, hc.upgrade, hc.quiet⟩, hc.between, hc.unmarked,
      hc.bytes⟩, hroomy⟩⟩
    exact (Conn.SameBuf.setOut o).good hc.good
  · refine ⟨done, q :: rest, rfl, .inr ⟨q, rest, k, rfl, ⟨⟨?_, hc.upgrade, hc.quiet⟩, hc.free,
      hc.taken, hc.bytes, hc.left, hc.req⟩, hsized, rfl⟩⟩
    exact (Conn.SameBuf.setOut o).good hc.good

theorem Goes.plain {c : Conn} {t : Received} (h : Goes env qs c t) : c.Plain := by
  obtain ⟨done, left, rfl, ⟨rfl, hc, hroomy⟩ | ⟨q, rest, k, rfl, hc, hsized, rfl⟩⟩ := h
  · exact hc.toPlain
  · exact hc.toPlain

/-- The states of a connection that is not upgraded. -/
theorem Conn.Plain.connState {c : Conn} (h : c.Plain) (he : c.errnum = 0) :
    connState c = c.state := by
  rw [Conn.state_eq he, Webxs.connState, if_neg (not_not_intro he), h.upgrade]
  rfl

/-- The object of a request that is read is the one at `conn->req`. -/
theorem Conn.Plain.connGetreq {c : Conn} (h : c.Plain) {req : HttpReq}
    (hreq : c.req.head? = some req) : connGetreq c = some req := by
  have hdone := h.good.undone req hreq
  unfold Webxs.connGetreq
  cases hc : c.req with
  | nil => simp [hc] at hreq
  | cons first rest =>
    obtain rfl : first = req := by simpa [hc] using hreq
    simp [hdone]

/-- The handler goes on, where the caller that puts the requests together is. -/
structure Answering (env : Env) (site : Site) (qs : List Request) (h : Handler) (t : Received) :
    Prop where
  goes : Goes env qs h.conn t
  closed : h.closed = false
  replies : List.Forall₂ (fun d r => r.1 = d.1 ∧ ∃ err, site.reply d.1 = some (r.2, err)) t.done
    h.replies
  going : ∀ d ∈ t.done, ¬ site.closes d.1

/-- The requests that are complete are those that were answered. -/
theorem Answering.answered {h : Handler} {t : Received} (hs : Answering env site qs h t) :
    ∃ done left, qs = done ++ left ∧ t.done = done.map (Request.asReceived env) ∧
      Answered env site done h := by
  obtain ⟨-, done, left, hqs, hdone, -⟩ := hs.goes.order
  have hreplies := hs.replies
  rw [hdone, List.forall₂_map_left_iff] at hreplies
  refine ⟨done, left, hqs, hdone, hreplies, fun _ q hq => ?_, fun hclosed => ?_⟩
  · exact hs.going (q.asReceived env) (by rw [hdone]; exact List.mem_map_of_mem hq)
  · rw [hs.closed] at hclosed
    cases hclosed

/-- A call after which no more requests are complete is not answered. -/
theorem Answering.silent {h : Handler} {t t' : Received} {c : Conn}
    (hs : Answering env site qs h t) (hgoes : Goes env qs c t') (hdone : t'.done = t.done) :
    Answering env site qs { h with conn := c } t' where
  goes := hgoes
  closed := hs.closed
  replies := hdone ▸ hs.replies
  going := hdone ▸ hs.going

/-- The request that was completed last. -/
theorem exists_last {ds : List (HttpReq × List UInt8)} {done : List Request} {req : HttpReq}
    {body : List UInt8} (h : ds ++ [(req, body)] = done.map (Request.asReceived env)) :
    ∃ before q, done = before ++ [q] ∧ ds = before.map (Request.asReceived env) ∧
      req = q.fields env := by
  obtain rfl | ⟨before, q, rfl⟩ := List.eq_nil_or_concat' done
  · simp at h
  · rw [List.map_append, List.map_singleton] at h
    obtain ⟨hbefore, hq⟩ := List.append_inj' h rfl
    exact ⟨before, q, rfl, hbefore, (congrArg Prod.fst (List.singleton_inj.mp hq) :)⟩

/-- A turn goes on, or ends the connection with the reply to a request. -/
theorem Answering.turn (hqs : ∀ q ∈ qs, q.WellFormed env ∧ q.Framed)
    (hsite : ∀ q ∈ qs, (site.reply (q.fields env)).isSome) {h : Handler} {t : Received}
    (hs : Answering env site qs h t) : ∃ h', serverTurn env site h = some h' ∧
      ((∃ t', Answering env site qs h' t') ∨
        h'.closed = true ∧ ∃ done left, qs = done ++ left ∧ Answered env site done h') := by
  obtain ⟨r, hr, hgoes, -⟩ := goes_step hqs hs.goes (by decide : 1 ≤ 1023)
    (fun q _ => lt_of_le_of_lt (min_le_left _ _) (by decide))
  obtain ⟨hfault, done, left, hsplit, hdone, -⟩ := hgoes.order
  obtain ⟨herr, hcase⟩ := Received.add_cases hfault
  have hstate := hgoes.plain.connState herr
  unfold serverTurn
  rw [hr, Option.bind_some]
  dsimp only
  rw [if_neg (not_not_intro herr)]
  obtain ⟨hneg, ht⟩ | ⟨hn, hpart, ht⟩ | ⟨hn, hcomplete, req, body, hreq, ht⟩ := hcase
  · -- nothing came
    rw [if_pos hneg]
    exact ⟨_, rfl, .inl ⟨t.add r, hs.silent hgoes (by rw [ht])⟩⟩
  · -- a head, or a part of a body
    rw [if_neg (by omega), hstate]
    refine ⟨{ h with conn := r.2 }, ?_, .inl ⟨t.add r, hs.silent hgoes ht⟩⟩
    obtain hpart | hpart := hpart <;> rw [hpart] <;> rfl
  -- the request is complete
  obtain ⟨before, q, rfl, hbefore, hfields⟩ := exists_last (ht.symm.trans hdone)
  obtain ⟨⟨reply, err⟩, hreply⟩ := Option.isSome_iff_exists.mp (hsite q (by simp [hsplit]))
  have hreply' : site.reply req = some (reply, err) := by
    rw [← site.reply_headFields, hfields, hreply]
  have hreplies : List.Forall₂ (fun d r => r.1 = d.1 ∧ ∃ err, site.reply d.1 = some (r.2, err))
      (t.add r).done (h.replies ++ [(req.headFields, reply)]) := by
    rw [ht]
    exact List.rel_append hs.replies (.cons ⟨rfl, err, by rw [hfields, hreply]⟩ .nil)
  have hgoing : ∀ q' ∈ before, ¬ site.closes (q'.fields env) := fun q' hq' =>
    hs.going (q'.asReceived env) (by rw [hbefore]; exact List.mem_map_of_mem hq')
  have hcloses : site.closes (q.fields env) ↔ err ≠ 0 := by
    simp [Site.closes, hreply]
  rw [if_neg (by omega), hstate, if_pos hcomplete, hgoes.plain.connGetreq hreq,
    Option.bind_some, hreply', Option.map_some]
  refine ⟨_, rfl, ?_⟩
  cases hend : (decide (err ≠ 0) || (site.write reply r.2.toOut).2) with
  | false =>
    obtain ⟨herr', -⟩ := Bool.or_eq_false_iff.mp hend
    refine .inl ⟨t.add r, hgoes.setOut _, rfl, hreplies, fun d hd => ?_⟩
    rw [ht] at hd
    obtain hd | hd := List.mem_append.mp hd
    · exact hs.going d hd
    · obtain rfl := List.mem_singleton.mp hd
      dsimp only
      rw [hfields, hcloses]
      exact of_decide_eq_false herr'
  | true =>
    refine .inr ⟨rfl, before ++ [q], left, hsplit, ?_, nofun, fun _ => ?_⟩
    · rw [hdone, List.forall₂_map_left_iff] at hreplies
      exact hreplies
    · refine ⟨before, q, (req.headFields, reply), rfl, by simp, hgoing, ?_⟩
      obtain herr' | hcleared := (Bool.or_eq_true ..).mp hend
      · exact .inl (hcloses.mpr (of_decide_eq_true herr'))
      · exact .inr ⟨_, hcleared⟩

theorem Answering.turns (hqs : ∀ q ∈ qs, q.WellFormed env ∧ q.Framed)
    (hsite : ∀ q ∈ qs, (site.reply (q.fields env)).isSome) (m : ℕ) {h : Handler} {t : Received}
    (hs : Answering env site qs h t) : ∃ h', serverTurns env site m h = some h' ∧
      ((∃ t', Answering env site qs h' t') ∨
        h'.closed = true ∧ ∃ done left, qs = done ++ left ∧ Answered env site done h') := by
  induction m generalizing h t with
  | zero => exact ⟨h, rfl, .inl ⟨t, hs⟩⟩
  | succ m ih =>
    obtain ⟨h₁, hturn, ⟨t₁, hs₁⟩ | ⟨hclosed, hanswered⟩⟩ := hs.turn hqs hsite
    · obtain ⟨h', hturns, hend⟩ := ih hs₁
      refine ⟨h', ?_, hend⟩
      rw [serverTurns, if_neg (by simp [hs.closed]), hturn, Option.bind_some, hturns]
    · refine ⟨h₁, ?_, .inr ⟨hclosed, hanswered⟩⟩
      rw [serverTurns, if_neg (by simp [hs.closed]), hturn, Option.bind_some]
      cases m with
      | zero => rfl
      | succ m => rw [serverTurns, if_pos hclosed]

/-- When a call returns nothing and nothing is pending, all requests are complete. -/
theorem Answering.done_eq (hqs : ∀ q ∈ qs, q.WellFormed env ∧ q.Framed) {h : Handler} {t : Received}
    (hs : Answering env site qs h t) {r : ReadRet × Conn}
    (hr : connHttpread env h.conn 1023 = some r) (hneg : r.1.n < 0) (hpending : r.2.pending = []) :
    t.done = qs.map (Request.asReceived env) := by
  obtain ⟨r', hr', -, hall⟩ := goes_step hqs hs.goes (by decide : 1 ≤ 1023)
    (fun q _ => lt_of_le_of_lt (min_le_left _ _) (by decide))
  obtain rfl := Option.some.inj (hr.symm.trans hr')
  have hadd := hall hneg hpending
  obtain ⟨-, ⟨-, ht⟩ | ⟨hn, -⟩ | ⟨hn, -⟩⟩ := Received.add_cases (t := t) (r := r) (by rw [hadd])
  · rw [ht] at hadd
    rw [hadd]
  · omega
  · omega

/-- The requests that were answered are the first ones, and they are all of them when there is
nothing more to read. -/
theorem Answering.answers (hqs : ∀ q ∈ qs, q.WellFormed env ∧ q.Framed)
    (hsite : ∀ q ∈ qs, (site.reply (q.fields env)).isSome) (m : ℕ) {h : Handler} {t : Received}
    (hs : Answering env site qs h t) :
    ∃ h' done left, serverTurns env site m h = some h' ∧ qs = done ++ left ∧
      Answered env site done h' ∧
      (h'.closed = false → ∀ r, connHttpread env h'.conn 1023 = some r → r.1.n < 0 →
        r.2.pending = [] → left = []) := by
  obtain ⟨h', hturns, ⟨t', hs'⟩ | ⟨hclosed, done, left, hsplit, hanswered⟩⟩ :=
    hs.turns hqs hsite m
  · obtain ⟨done, left, hsplit, hdone, hanswered⟩ := hs'.answered
    refine ⟨h', done, left, hturns, hsplit, hanswered, fun _ r hr hneg hpending => ?_⟩
    have hlen := congrArg List.length (hdone.symm.trans (hs'.done_eq hqs hr hneg hpending))
    rw [hsplit, List.length_map, List.length_map, List.length_append] at hlen
    exact List.length_eq_zero_iff.mp (by omega)
  · refine ⟨h', done, left, hturns, hsplit, hanswered, fun hopen => ?_⟩
    rw [hclosed] at hopen
    cases hopen

theorem answering_init (env : Env) (site : Site) {recvs : ℕ → RecvAns}
    (hquiet : ∀ i, recvs i = .fail EAGAIN ∨ ∃ n, recvs i = .data n) (sock : Sock)
    (qs : List Request) :
    Answering env site qs (Handler.init recvs (stream qs) sock) .nothing where
  goes := ⟨[], qs, rfl, .inl ⟨rfl, awaits_init _ sock hquiet, roomy_init _ _ _⟩⟩
  closed := rfl
  replies := .nil
  going := List.forall_mem_nil _

/-- However the bytes of some requests are split, each is answered once and in order, up to the
first after whose answer the connection ends; and if it does not end, all of them once there is
nothing more to read. -/
theorem replies_in_order (env : Env) (site : Site) (recvs : ℕ → RecvAns)
    (hquiet : ∀ i, recvs i = .fail EAGAIN ∨ ∃ n, recvs i = .data n) (sock : Sock)
    (qs : List Request) (hqs : ∀ q ∈ qs, q.WellFormed env ∧ q.Framed)
    (hsite : ∀ q ∈ qs, (site.reply (q.fields env)).isSome) (m : ℕ) :
    ∃ h done left, serverTurns env site m (Handler.init recvs (stream qs) sock) = some h ∧
      qs = done ++ left ∧ Answered env site done h ∧
      (h.closed = false → ∀ r, connHttpread env h.conn 1023 = some r → r.1.n < 0 →
        r.2.pending = [] → left = []) :=
  (answering_init env site hquiet sock qs).answers hqs hsite m

/-- A server of the files under `/srv` to everybody. -/
def openSite : Site where
  crypt _ _ := []
  authFile := none
  documentRoot := ascii "/srv"
  urls := []
  redir := 0
  write _ o := (o, false)

theorem replies_in_order_two : ∃ h done left, serverTurns .plain openSite 40
    (Handler.init (fun i => if i % 3 = 0 then .fail EAGAIN else .data (7 * i)) (stream twoRequests)
      .idle) = some h ∧ twoRequests = done ++ left ∧ Answered .plain openSite done h ∧
      (h.closed = false → ∀ r, connHttpread .plain h.conn 1023 = some r → r.1.n < 0 →
        r.2.pending = [] → left = []) := by
  refine replies_in_order .plain openSite _ (fun i => ?_) .idle twoRequests wellFormed_twoRequests
    ?_ 40
  · split_ifs
    · exact .inl rfl
    · exact .inr ⟨_, rfl⟩
  · refine List.forall_mem_cons.mpr ⟨?_, List.forall_mem_singleton.mpr ?_⟩ <;> decide +kernel

end Webxs
