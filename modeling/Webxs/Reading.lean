import Webxs.ReadBounds

/-!
# A call of `xs_conn_httpread`

What one call does, in the terms of the bytes unread and pending. Between messages
(`Conn.Between`) a call looks for a head, at the start of what is unread
(`connHttpread_of_between`, `readHead_cases`). Inside a message it returns some of the bytes at hand
(`Conn.atHand`) : of the bytes unread, or, where there are none, of those that `recv` returns
(`readBytesOf_spec`).
-/

namespace Webxs

/-! ## States -/

theorem httpState_cases (req : Option HttpReq) :
    httpState req = ConnState.Pending ∨ httpState req = ConnState.Header ∨
      httpState req = ConnState.Response ∨ httpState req = ConnState.Redirect ∨
      httpState req = ConnState.Complete := by
  unfold httpState
  cases req with
  | none => exact .inl rfl
  | some req =>
    dsimp only
    split_ifs <;> simp

/-- Without an error the state is the one of the request, on an upgraded connection too. -/
theorem Conn.state_eq {c : Conn} (h : c.errnum = 0) : c.state = httpState c.req.head? := by
  unfold Conn.state connState
  rw [if_neg (not_not_intro h)]
  dsimp only
  have hs := httpState_cases c.req.head?
  generalize httpState c.req.head? = s at hs ⊢
  obtain rfl | rfl | rfl | rfl | rfl := hs <;> split_ifs <;> first
    | rfl
    | simp_all [ConnState.Pending, ConnState.Header, ConnState.Response, ConnState.Redirect,
        ConnState.Complete]

theorem Conn.retvalue_eq {c : Conn} (h : c.errnum = 0) (s : ℤ) :
    c.retvalue s = if s = httpState c.req.head? then -1 else 0 := by
  rw [Conn.retvalue, Conn.state_eq h]

/-- A call, by the state of the current message. -/
theorem connHttpread_eq (env : Env) (c : Conn) (len : ℕ) :
    connHttpread env c len =
      let s := httpState c.req.head?
      if s = ConnState.Complete then readOn env (c.setErr 0).finish ConnState.LastState len
      else if s = ConnState.Header ∧ c.req.head?.any (fun req => req.header) = true then
        if (c.setErr 0).clearHeader.retvalue s = 0 then
          some (⟨0, [], (c.setErr 0).clearHeader.buffered⟩, (c.setErr 0).clearHeader)
        else readOn env (c.setErr 0).clearHeader s len
      else readOn env (c.setErr 0) s len := by
  have hs : (c.setErr 0).state = httpState c.req.head? := Conn.state_eq rfl
  have he : httpState c.req.head? ≠ ConnState.Error := by
    obtain h | h | h | h | h := httpState_cases c.req.head? <;> rw [h] <;> decide
  unfold connHttpread
  simp only [hs, he, false_or]
  rfl

/-- The next call looks for a new message. -/
def Conn.Between (c : Conn) : Prop :=
  httpState c.req.head? = ConnState.Pending ∨ httpState c.req.head? = ConnState.Complete

/-- `c'` is `c` with the finished message gone. -/
structure Conn.Ready (c c' : Conn) : Prop where
  good : c'.Good
  consumed : c'.consumed = 0
  unread : c'.toRecvBuf.unread = c.toRecvBuf.unread
  bufsize : c'.bufsize = c.bufsize
  toPeer : c'.toPeer = c.toPeer
  upgrade : c'.upgrade = c.upgrade
  errnum : c'.errnum = 0
  pending : httpState c'.req.head? = ConnState.Pending
  freereq : c'.freereq = c.freereq
  header : ∀ req', c'.req.head? = some req' →
    ∃ req, c.req.head? = some req ∧ req'.header = req.header

theorem finish_unread {c : Conn} (hv : c.toRecvBuf.Valid) :
    c.finish.toRecvBuf.unread = c.toRecvBuf.unread := by
  have := hv.length_unread
  simp only [RecvBuf.unread, Conn.finish, Int.toNat_zero, List.drop_zero]
  split_ifs with h
  · rfl
  · refine (List.drop_eq_nil_of_le ?_).symm
    simp only [RecvBuf.unread, List.length_drop] at this
    omega

theorem httpState_eq_pending {req : HttpReq} :
    httpState (some req) = ConnState.Pending ↔ req.reqlen = 0 := by
  unfold httpState
  dsimp only
  split_ifs with h <;> simp [h, ConnState.Pending, ConnState.Complete, ConnState.Response,
    ConnState.Header, ConnState.Redirect]

/-- The connection in which a call between messages looks for a head. -/
def Conn.cleared (c : Conn) : Conn :=
  if httpState c.req.head? = ConnState.Complete then (c.setErr 0).finish else c.setErr 0

theorem cleared_ready {c : Conn} (hg : c.Good) (hb : c.Between) : c.Ready c.cleared := by
  have hg' : (c.setErr 0).Good := (Conn.SameBuf.setErr 0).good hg
  unfold Conn.cleared
  obtain hp | hc := hb
  · have hl : ∀ req, c.req.head? = some req → req.reqlen = 0 := fun req hr => by
      rw [hr] at hp
      exact httpState_eq_pending.mp hp
    rw [hp, if_neg (by decide)]
    exact ⟨hg', hg.idle hl, rfl, rfl, rfl, rfl, rfl, hp, rfl, fun req hr => ⟨req, hr, rfl⟩⟩
  · rw [if_pos hc]
    refine ⟨finish_good hg', rfl, finish_unread hg.valid, rfl, rfl, rfl, rfl, ?_, rfl,
      fun req hr => ?_⟩
    · cases h : c.req <;> simp [Conn.finish, Conn.setErr, h, httpState]
    · cases h : c.req with
      | nil => simp [Conn.finish, Conn.setErr, h] at hr
      | cons req' rest =>
        simp only [Conn.finish, Conn.setErr, h, List.modifyHead_cons, List.head?_cons,
          Option.some.injEq] at hr
        exact ⟨req', rfl, hr ▸ rfl⟩

theorem Conn.Ready.readOn_eq {c c' : Conn} (h : c.Ready c') (env : Env) (s : ℤ) (len : ℕ) :
    readOn env c' s len = readHead env c' s := by
  have hpending := h.pending
  unfold readOn
  cases hr : c'.req.head? with
  | none => rfl
  | some req =>
    rw [hr] at hpending
    exact if_pos (.inl (httpState_eq_pending.mp hpending))

/-- Between messages a call looks for a head in what is unread. -/
theorem connHttpread_cleared (env : Env) {c : Conn} (hg : c.Good) (hb : c.Between) (len : ℕ) :
    ∃ s, (s = ConnState.Pending ∨ s = ConnState.LastState) ∧
      connHttpread env c len = readHead env c.cleared s := by
  have hready := cleared_ready hg hb
  rw [connHttpread_eq]
  dsimp only
  unfold Conn.cleared at hready ⊢
  obtain hp | hc := hb
  · rw [hp, if_neg (by decide), if_neg fun h => absurd h.1 (by decide)]
    rw [hp, if_neg (by decide)] at hready
    exact ⟨_, .inl rfl, hready.readOn_eq env _ len⟩
  · rw [if_pos hc, if_pos hc]
    rw [if_pos hc] at hready
    exact ⟨_, .inr rfl, hready.readOn_eq env _ len⟩

theorem connHttpread_of_between (env : Env) {c : Conn} (hg : c.Good) (hb : c.Between) (len : ℕ) :
    ∃ c' s, c.Ready c' ∧ (s = ConnState.Pending ∨ s = ConnState.LastState) ∧
      connHttpread env c len = readHead env c' s := by
  obtain ⟨s, hs, hcall⟩ := connHttpread_cleared env hg hb len
  exact ⟨c.cleared, s, cleared_ready hg hb, hs, hcall⟩

/-- The bytes in which a head is looked for : those unread, or, where these have none, these and the
bytes that arrive. -/
def Conn.offered (c : Conn) : List UInt8 :=
  if (headFound c.upgrade c.toRecvBuf.unread).isSome then c.toRecvBuf.unread
  else c.toRecvBuf.unread ++ c.toPeer.arrive (connBufresize c.toRecvBuf).room

/-- `xs_conn_headerready` finds the head of what is offered, and says so unless there is more than
a head may have. -/
theorem connHeaderready_offered {c : Conn} (hv : c.toRecvBuf.Valid) (h0 : c.consumed = 0) :
    ∃ n o p b, connHeaderready c = some (n, c.put o p b) ∧ b.Valid ∧ b.consumed = 0 ∧
      b.buf = c.offered ∧ b.buf ++ p.pending = c.toRecvBuf.unread ++ c.pending ∧
      (0 < n → headFound c.upgrade c.offered = some n) ∧
      (∀ r, 0 < r → headFound c.upgrade c.offered = some r → n = r ∧
        (c.errnum = 0 → c.offered.length ≤ maxheaderlen → o.errnum = 0)) ∧
      (maxheaderlen < c.offered.length → o.errnum = Error.HeaderTooLarge) := by
  obtain ⟨hbv, hu, hc, -⟩ := connBufresize_spec hv
  have hbuf := RecvBuf.unread_eq_buf (hc h0)
  have hlen := hbv.length_buf
  rw [← hbuf, hu] at hlen
  unfold Conn.offered
  cases h : headFound c.upgrade c.toRecvBuf.unread with
  | some r =>
    obtain ⟨o, hr, herr, hlarge⟩ := connHeaderready_of_some hv h0 h
    rw [Option.isSome_some, if_pos rfl, h]
    refine ⟨_, o, _, _, hr, hbv, hc h0, by rw [← hbuf, hu], by rw [← hbuf, hu], ?_, ?_,
      fun hmax => hlarge (by omega)⟩
    · split_ifs with hpos
      · exact fun _ => rfl
      · omega
    · intro r' hpos hr'
      cases hr'
      refine ⟨if_pos hpos, fun he hle => ?_⟩
      have hrle := (headFound_bound h).2.1
      rw [herr hpos (by omega) (by omega)]
      exact he
  | none =>
    obtain ⟨n, o, hr, hn, hn', -, herr, hlarge⟩ := connHeaderready_of_none hv h0 rfl rfl h
    rw [Option.isSome_none, if_neg (by simp)]
    refine ⟨n, o, _, _, hr, hbv.extend (hbv.length_arrive_le rfl), hc h0, ?_, ?_, hn, ?_, ?_⟩
    · simp only [RecvBuf.extend]
      rw [← hbuf, hu]
    · simp only [RecvBuf.extend]
      rw [← hbuf, hu, List.append_assoc, Peer.arrive_append_next]
    · refine fun r hpos hr' => ⟨hn' r hpos hr', fun _ hle => herr ?_ ?_⟩
      · intro hnil
        rw [hnil, List.append_nil, h] at hr'
        cases hr'
      · rw [List.length_append] at hle
        omega
    · intro hmax
      rw [List.length_append] at hmax
      exact hlarge (by omega)

/-- Looking for a head : nothing is returned and the bytes stay, or there is a head. -/
theorem readHead_cases (env : Env) {c : Conn} (s : ℤ) (hv : c.toRecvBuf.Valid)
    (h0 : c.consumed = 0) :
    ∃ o p b, b.Valid ∧ b.consumed = 0 ∧ b.buf = c.offered ∧
      b.buf ++ p.pending = c.toRecvBuf.unread ++ c.pending ∧
      ((∃ n, readHead env c s = some (⟨n, [], false⟩, c.put o p b)) ∧
          (∀ r, 0 < r → headFound c.upgrade c.offered = some r → c.errnum = 0 →
            maxheaderlen < c.offered.length ∧ o.errnum = Error.HeaderTooLarge) ∨
        ∃ n, 0 < n ∧ headFound c.upgrade b.buf = some n ∧ c.offered.length ≤ maxheaderlen ∧
          readHead env c s = readFound env (c.put o p b) s n) := by
  obtain ⟨n, o, p, b, hr, hbv, hb0, hbuf, hin, hn, hfound, hlarge⟩ :=
    connHeaderready_offered hv h0
  refine ⟨o, p, b, hbv, hb0, hbuf, hin, ?_⟩
  unfold readHead
  rw [hr, Option.bind_some]
  dsimp only
  by_cases hneg : n ≤ 0 ∨ o.errnum ≠ 0
  · rw [Conn.put_toOut, if_pos hneg]
    refine .inl ⟨⟨_, rfl⟩, fun r hpos hr' he => ?_⟩
    obtain ⟨rfl, herr⟩ := hfound r hpos hr'
    have hmax : maxheaderlen < (c.offered.length : ℤ) := by
      by_contra hle
      rcases hneg with h | h
      · omega
      · exact h (herr he (by omega))
    exact ⟨hmax, hlarge hmax⟩
  · rw [Conn.put_toOut, if_neg hneg]
    refine .inr ⟨n, by omega, by rw [hbuf]; exact hn (by omega), ?_, rfl⟩
    by_contra hle
    refine hneg (.inr ?_)
    rw [hlarge (by omega)]
    decide

/-! ## Data -/

/-- The bytes that a read of up to `len` returns : of those unread, or of those that `recv`
returns. -/
def Conn.atHand (c : Conn) (len : ℕ) : List UInt8 :=
  if c.toRecvBuf.unread = [] then c.toPeer.arrive (toInt32 len % 2 ^ 64).toNat
  else c.toRecvBuf.unread.take len

theorem Conn.atHand_prefix (c : Conn) (len : ℕ) :
    c.atHand len <+: c.toRecvBuf.unread ++ c.pending := by
  unfold Conn.atHand
  split_ifs with h
  · rw [h]
    exact c.toPeer.arrive_prefix _
  · exact (List.take_prefix _ _).trans (List.prefix_append _ _)

/-- An `int` is enough for the length, so that `recv` is asked for no more than that. -/
theorem Conn.length_atHand (c : Conn) {len : ℕ} (hlen : len < 2 ^ 31) :
    (c.atHand len).length ≤ len := by
  unfold Conn.atHand
  split_ifs with h
  · refine (c.toPeer.length_arrive_le _).trans ?_
    have h32 : toInt32 len = len := by
      unfold toInt32
      rw [Int.bmod_def]
      omega
    rw [h32]
    omega
  · rw [List.length_take]
    exact Nat.min_le_left _ _

/-- A read takes bytes out of the buffer, or, if that has none, off the socket. -/
theorem readBytesOf_cases {c : Conn} (hv : c.toRecvBuf.Valid) (len : ℕ) :
    c.toRecvBuf.unread ≠ [] ∧ (∃ re, readBytesOf c len =
        some (((c.toRecvBuf.unread.take len).length : ℤ), c.toRecvBuf.unread.take len, re,
          c.setBuf (c.toRecvBuf.consume (c.toRecvBuf.unread.take len).length))) ∨
      c.toRecvBuf.unread = [] ∧ readBytesOf c len = some (connRead c (toInt32 len)) := by
  have hlen := hv.length_unread
  have := hv.length_buf
  have := hv.consumed_nonneg
  have := hv.consumed_le
  have := hv.datalen_le
  have := hv.bufsize_lt
  unfold readBytesOf
  by_cases hd : c.datalen - c.consumed = 0
  · rw [if_neg (not_not_intro hd)]
    exact .inr ⟨List.length_eq_zero_iff.mp (by omega), rfl⟩
  · have hu : c.toRecvBuf.unread ≠ [] := fun hu => by
      rw [hu, List.length_nil] at hlen
      omega
    have hmin : min ((c.datalen - c.consumed) % 2 ^ 64).toNat len =
        (c.toRecvBuf.unread.take len).length := by
      rw [List.length_take]
      omega
    have htake : (c.buf.drop c.consumed.toNat).take (c.toRecvBuf.unread.take len).length =
        c.toRecvBuf.unread.take len := by
      rw [List.length_take, ← RecvBuf.unread, ← List.take_eq_take_min]
    have hle : (c.toRecvBuf.unread.take len).length ≤ c.toRecvBuf.unread.length := by
      rw [List.length_take]
      omega
    rw [if_pos hd]
    dsimp only
    rw [hmin, readBytes_of_le (by omega), htake, Option.map_some]
    exact .inl ⟨hu, _, rfl⟩

/-- Data is taken off the front of what is unread and pending. -/
theorem readBytesOf_spec {c : Conn} (hv : c.toRecvBuf.Valid) (len : ℕ) :
    ∃ n re o p b, readBytesOf c len = some (n, c.atHand len, re, c.put o p b) ∧ b.Valid ∧
      b.unread ++ p.pending =
        (c.toRecvBuf.unread ++ c.pending).drop (c.atHand len).length ∧
      (n = (c.atHand len).length ∧ (n ≠ 0 → c.errnum = 0 → o.errnum = 0) ∨
        c.atHand len = [] ∧ n = -1) := by
  have hlen := hv.length_unread
  unfold Conn.atHand
  obtain ⟨hu, re, hread⟩ | ⟨hu, hread⟩ := readBytesOf_cases hv len
  · have hle : (c.toRecvBuf.unread.take len).length ≤ c.toRecvBuf.unread.length := by
      rw [List.length_take]
      omega
    rw [if_neg hu]
    refine ⟨_, re, c.toOut, c.toPeer, _, hread, hv.consume (by omega) (by omega), ?_,
      .inl ⟨rfl, fun _ h => h⟩⟩
    rw [hv.unread_consume (by omega), Int.toNat_natCast, List.drop_append_of_le_length hle]
  · obtain ⟨n, re, o, hr, hn⟩ := connRead_spec c (toInt32 len) rfl
    have h32 : toInt32 (toInt32 len) = toInt32 len := Int.bmod_bmod
    rw [h32] at hr hn
    rw [if_pos hu, hread, hr]
    refine ⟨n, re, o, _, _, rfl, hv, ?_, ?_⟩
    · rw [hu, List.nil_append, List.nil_append, Peer.next]
    · obtain ⟨hn, he, -⟩ | ⟨ha, hn, -⟩ := hn
      · exact .inl ⟨hn, fun h _ => he h⟩
      · exact .inr ⟨ha, hn⟩

/-- `req` is the message being read, and its body is not complete. -/
structure Conn.Reading (c : Conn) (req : HttpReq) : Prop where
  busy : c.Busy req
  header : req.header = false
  more : req.chunked = true ∨ req.consumed < req.contentlen

/-- Inside a message a call goes on with its body. -/
theorem connHttpread_of_reading (env : Env) {c : Conn} {req : HttpReq} (h : c.Reading req)
    (len : ℕ) :
    connHttpread env c len = readBody (c.setErr 0) (httpState (some req)) req len := by
  have hr := h.busy.head
  have hl := h.busy.reqlen
  have hcomplete : httpState (some req) ≠ ConnState.Complete := by
    unfold httpState
    dsimp only
    rw [if_neg hl]
    obtain hch | hlt := h.more
    · rw [if_neg (by simp [hch]), if_pos (.inr hch)]
      split_ifs <;> decide
    · rw [if_neg (by omega), if_pos (.inl (by omega))]
      split_ifs <;> decide
  rw [connHttpread_eq]
  dsimp only
  rw [hr, if_neg hcomplete, if_neg (by simp [h.header])]
  unfold readOn
  rw [show (c.setErr 0).req.head? = some req from hr]
  dsimp only
  rw [if_neg (by simp [hl, h.busy.undone])]

/-- The state after `k` bytes of the body were returned. -/
def Conn.returned (c : Conn) (k : ℕ) : Conn :=
  c.modifyReq fun req => { req with consumed := (req.consumed + k) % 2 ^ 64 }

/-- A read of the body returns the bytes at hand, unmasked. -/
theorem readData_spec {c : Conn} (hv : c.toRecvBuf.Valid) {req : HttpReq}
    (hlt : req.consumed < req.contentlen) (len : ℕ) {raw : List UInt8}
    (hraw : c.atHand (min len (req.contentlen - req.consumed)) = raw) :
    ∃ n re o p b, readData c req len = some (⟨n, unmask req.datamask raw, re⟩,
        if raw = [] then c.put o p b else (c.put o p b).returned raw.length) ∧
      b.Valid ∧ b.unread ++ p.pending = (c.toRecvBuf.unread ++ c.pending).drop raw.length ∧
      (n = raw.length ∧ (n ≠ 0 → c.errnum = 0 → o.errnum = 0) ∨ raw = [] ∧ n = -1) := by
  obtain ⟨n, re, o, p, b, hr, hb, hin, hn⟩ :=
    readBytesOf_spec hv (min len (req.contentlen - req.consumed))
  rw [hraw] at hr hin hn
  refine ⟨n, re, o, p, b, ?_, hb, hin, hn⟩
  unfold readData
  rw [if_pos hlt, hr, Option.map_some]
  dsimp only
  have hpos : 0 < n ↔ raw ≠ [] := by
    rw [← List.length_pos_iff]
    obtain ⟨hn, -⟩ | ⟨hnil, hn⟩ := hn
    · omega
    · rw [hnil, List.length_nil]
      omega
  by_cases hnil : raw = []
  · rw [if_neg (by rw [hpos]; exact not_not_intro hnil), if_pos hnil]
  · obtain ⟨hn, -⟩ | ⟨h, -⟩ := hn
    · rw [if_pos (hpos.mpr hnil), if_neg hnil, Conn.returned, hn, Int.toNat_natCast]
    · exact absurd h hnil

end Webxs
