import Webxs.Scanning

/-!
# Receiving into the buffer

What the functions that move bytes from the socket to the receive buffer do, one lemma each. In a
valid buffer (`RecvBuf.Valid`) the bytes `unread` are those received and not yet consumed.
`xs_conn_bufresize` keeps them and makes room; `xs_conn_read` takes what `recv` returns
(`Peer.arrive`) off the bytes pending; `xs_conn_headerready` looks for a head in the bytes unread,
or, where there is none, in these and the bytes that arrive.
-/

namespace Webxs

/-! ## The buffer -/

namespace RecvBuf

/-- The bytes received and not yet consumed. -/
def unread (b : RecvBuf) : List UInt8 :=
  b.buf.drop b.consumed.toNat

/-- The offsets are in order and `buf` has the bytes below `datalen`. -/
structure Valid (b : RecvBuf) : Prop where
  consumed_nonneg : 0 ≤ b.consumed
  consumed_le : b.consumed ≤ b.datalen
  datalen_le : b.datalen ≤ b.bufsize
  bufsize_lt : b.bufsize < 2 ^ 31
  length_buf : (b.buf.length : ℤ) = b.datalen

variable {b : RecvBuf}

theorem unread_eq_buf (h : b.consumed = 0) : b.unread = b.buf := by
  simp [unread, h]

theorem Valid.length_unread (h : b.Valid) : (b.unread.length : ℤ) = b.datalen - b.consumed := by
  have := h.length_buf
  have := h.consumed_nonneg
  have := h.consumed_le
  simp only [unread, List.length_drop]
  omega

theorem Valid.extend (h : b.Valid) {bytes : List UInt8}
    (hr : (bytes.length : ℤ) ≤ b.bufsize - b.datalen) : (b.extend bytes.length bytes).Valid where
  consumed_nonneg := h.consumed_nonneg
  consumed_le := by
    have := h.consumed_le
    simp only [RecvBuf.extend]
    omega
  datalen_le := by
    simp only [RecvBuf.extend]
    omega
  bufsize_lt := h.bufsize_lt
  length_buf := by
    have := h.length_buf
    simp only [RecvBuf.extend, List.length_append]
    omega

theorem Valid.unread_extend (h : b.Valid) (n : ℤ) (bytes : List UInt8) :
    (b.extend n bytes).unread = b.unread ++ bytes := by
  have := h.length_buf
  have := h.consumed_nonneg
  have := h.consumed_le
  simp only [unread, RecvBuf.extend]
  rw [List.drop_append_of_le_length (by omega)]

/-- Consume `n` bytes. -/
theorem Valid.consume (h : b.Valid) {n : ℤ} (h0 : 0 ≤ n) (hn : n ≤ b.datalen - b.consumed) :
    (b.consume n).Valid where
  consumed_nonneg := by
    have := h.consumed_nonneg
    simp only [RecvBuf.consume]
    omega
  consumed_le := by
    simp only [RecvBuf.consume]
    omega
  datalen_le := h.datalen_le
  bufsize_lt := h.bufsize_lt
  length_buf := h.length_buf

theorem Valid.unread_consume (h : b.Valid) {n : ℤ} (h0 : 0 ≤ n) :
    (b.consume n).unread = b.unread.drop n.toNat := by
  have := h.consumed_nonneg
  simp only [unread, RecvBuf.consume, List.drop_drop]
  congr 1
  omega

end RecvBuf

/-- `xs_conn_bufresize` keeps the bytes unread, and there is room behind them unless the buffer is
as large as an `int` allows. -/
theorem connBufresize_spec {b : RecvBuf} (h : b.Valid) :
    (connBufresize b).Valid ∧ (connBufresize b).unread = b.unread ∧
      (b.consumed = 0 → (connBufresize b).consumed = 0) ∧
      ((connBufresize b).datalen < (connBufresize b).bufsize ∨ 2 ^ 30 ≤ b.datalen) := by
  obtain ⟨h1, h2, h3, h4, h5⟩ := h
  unfold connBufresize
  split_ifs with hz hd hc hf ho
  · exact ⟨⟨h1, h2, by simp only; omega, by simp only; omega, h5⟩, rfl, id,
      .inl (by simp only; omega)⟩
  · refine ⟨⟨le_rfl, le_rfl, by simp only; omega, h4, rfl⟩, ?_, fun _ => rfl,
      .inl (by simp only; omega)⟩
    simp only [RecvBuf.unread, List.drop_nil]
    exact (List.drop_eq_nil_of_le (by omega)).symm
  · refine ⟨⟨le_rfl, by simp only; omega, by simp only; omega, h4, ?_⟩, ?_, fun _ => rfl,
      .inl (by simp only; omega)⟩
    · simp only [List.length_drop]
      omega
    · simp [RecvBuf.unread]
  · exact ⟨⟨h1, h2, by simp only; omega, by simp only; omega, h5⟩, rfl, id,
      .inl (by simp only; omega)⟩
  · exact ⟨⟨h1, h2, h3, h4, h5⟩, rfl, id, .inr (by omega)⟩
  · exact ⟨⟨h1, h2, h3, h4, h5⟩, rfl, id, .inl (by omega)⟩

/-! ## The socket -/

namespace Peer

/-- The bytes that the next `recv` of up to `room` returns. -/
def arrive (p : Peer) (room : ℕ) : List UInt8 :=
  match p.recvs 0 with
  | .data n => p.pending.take (min (n + 1) room)
  | _ => []

/-- The socket after the next `recv` of up to `room`. -/
def next (p : Peer) (room : ℕ) : Peer where
  recvs := fun i => p.recvs (i + 1)
  pending := p.pending.drop (p.arrive room).length

theorem arrive_prefix (p : Peer) (room : ℕ) : p.arrive room <+: p.pending := by
  unfold arrive
  split
  · exact List.take_prefix _ _
  · exact List.nil_prefix

theorem arrive_append_next (p : Peer) (room : ℕ) :
    p.arrive room ++ (p.next room).pending = p.pending := by
  obtain ⟨x, hx⟩ := p.arrive_prefix room
  have : (p.next room).pending = x := by
    simp only [next]
    conv_lhs => rw [← hx]
    exact List.drop_left
  rw [this, hx]

theorem length_arrive_le (p : Peer) (room : ℕ) : (p.arrive room).length ≤ room := by
  unfold arrive
  split
  · simp only [List.length_take]
    omega
  · simp

/-- The next `recv` has bytes or says that there are none. -/
def Quiet (p : Peer) : Prop :=
  p.recvs 0 = .fail EAGAIN ∨ ∃ n, p.recvs 0 = .data n

end Peer

theorem toInt32_of_lt {n : ℤ} (h : -2 ^ 31 ≤ n) (h' : n < 2 ^ 31) : toInt32 n = n :=
  Int.bmod_eq_of_le_mul_two (by omega) (by omega)

/-- The connection with its writing side, its socket and its buffer replaced. -/
def Conn.put (c : Conn) (o : Out) (p : Peer) (b : RecvBuf) : Conn :=
  { c with toOut := o, toPeer := p, toRecvBuf := b }

section Put

variable (c : Conn) (o o' : Out) (p p' : Peer) (b b' : RecvBuf) (e : ℤ)

theorem Conn.setErr_eq : c.setErr e = c.put { c.toOut with errnum := e } c.toPeer c.toRecvBuf := rfl
theorem Conn.setBuf_eq : c.setBuf b = c.put c.toOut c.toPeer b := rfl
theorem Conn.setOut_eq : c.setOut o = c.put o c.toPeer c.toRecvBuf := rfl

@[simp] theorem Conn.put_toOut : (c.put o p b).toOut = o := rfl
@[simp] theorem Conn.put_toPeer : (c.put o p b).toPeer = p := rfl
@[simp] theorem Conn.put_toRecvBuf : (c.put o p b).toRecvBuf = b := rfl
@[simp] theorem Conn.put_req : (c.put o p b).req = c.req := rfl
@[simp] theorem Conn.put_freereq : (c.put o p b).freereq = c.freereq := rfl
@[simp] theorem Conn.put_upgrade : (c.put o p b).upgrade = c.upgrade := rfl
@[simp] theorem Conn.put_put : (c.put o p b).put o' p' b' = c.put o' p' b' := rfl

end Put

/-- What `recv` returns are the bytes that arrive, and it changes `errno` and the socket only. -/
theorem recv_spec (c : Conn) (len : ℤ) {room : ℕ} (hr : (len % 2 ^ 64).toNat = room) :
    ∃ n o, c.recv len = (n, c.toPeer.arrive room, c.put o (c.toPeer.next room) c.toRecvBuf) ∧
      (n = (c.toPeer.arrive room).length ∧ (c.toPeer.Quiet → 0 < room → n ≠ 0) ∨
        c.toPeer.arrive room = [] ∧ n = -1 ∧ (c.toPeer.Quiet → o.sock.errno = EAGAIN)) := by
  unfold Conn.recv Peer.next Peer.arrive Peer.Quiet
  rw [hr]
  cases hd : c.recvs 0 with
  | data n =>
    simp only
    split_ifs with h0 hp
    · have : room = 0 := by omega
      exact ⟨0, c.toOut, by simp [this, Conn.put], .inl ⟨by simp [this], fun _ _ => by omega⟩⟩
    · exact ⟨-1, { c.toOut with sock.errno := EAGAIN }, by simp [hp, Conn.put],
        .inr ⟨by simp [hp], rfl, fun _ => rfl⟩⟩
    · have hp := List.length_pos_iff.mpr hp
      refine ⟨_, c.toOut, ?_, .inl ⟨rfl, fun _ _ => by simp only [List.length_take]; omega⟩⟩
      have hk : c.pending.take (min (n + 1) (min room c.pending.length)) =
          c.pending.take (min (n + 1) room) := by
        rw [List.take_eq_take_iff]
        omega
      have hl : (c.pending.take (min (n + 1) room)).length =
          min (n + 1) (min room c.pending.length) := by
        simp only [List.length_take]
        omega
      rw [hk, hl]
      rfl
  | fail e => exact ⟨-1, _, rfl, .inr ⟨rfl, rfl, by simp⟩⟩
  | closed => exact ⟨0, _, rfl, .inl ⟨rfl, by simp⟩⟩

/-- What `xs_conn_read` returns are the bytes that arrive, and it changes the writing side and the
socket only. -/
theorem connRead_spec (c : Conn) (len : ℤ) {room : ℕ} (hr : (toInt32 len % 2 ^ 64).toNat = room) :
    ∃ n re o, connRead c len =
        (n, c.toPeer.arrive room, re, c.put o (c.toPeer.next room) c.toRecvBuf) ∧
      (n = (c.toPeer.arrive room).length ∧ (n ≠ 0 → o.errnum = 0) ∧
          (c.toPeer.Quiet → 0 < room → n ≠ 0) ∨
        c.toPeer.arrive room = [] ∧ n = -1 ∧ (c.toPeer.Quiet → o.errnum = 0)) := by
  have hc : ∃ o, (if c.wcache.aCount ≠ 0 ∧ c.isWblocked = false then
      c.setOut (connCachepurge c.toOut).2 else c) =
      c.put o c.toPeer c.toRecvBuf := by
    split_ifs
    · exact ⟨_, rfl⟩
    · exact ⟨c.toOut, rfl⟩
  obtain ⟨o₁, hc⟩ := hc
  obtain ⟨n, o, hrecv, hn⟩ := recv_spec (c.put o₁ c.toPeer c.toRecvBuf) (toInt32 len) hr
  unfold connRead
  rw [hc]
  dsimp only
  rw [hrecv]
  dsimp only
  rcases lt_trichotomy n 0 with h | h | h
  · rw [if_pos h]
    refine ⟨n, _, _, rfl, .inr ?_⟩
    obtain ⟨hn, -⟩ | ⟨ha, hn, he⟩ := hn
    · omega
    · exact ⟨ha, hn, fun hq => if_pos (he hq)⟩
  · rw [if_neg (by omega), if_pos h]
    obtain ⟨hn, hq⟩ | ⟨-, hn, -⟩ := hn
    · exact ⟨n, _, _, rfl, .inl ⟨hn, fun h' => absurd h h', hq⟩⟩
    · omega
  · rw [if_neg (by omega), if_neg (by omega)]
    obtain ⟨hn, hq⟩ | ⟨-, hn, -⟩ := hn
    · exact ⟨n, _, _, rfl, .inl ⟨hn, fun _ => rfl, hq⟩⟩
    · omega

/-- The room behind the bytes of the buffer. -/
def RecvBuf.room (b : RecvBuf) : ℕ :=
  (b.bufsize - b.datalen).toNat

@[simp] theorem RecvBuf.extend_nil (b : RecvBuf) : b.extend 0 [] = b := by
  simp [RecvBuf.extend]

theorem RecvBuf.Valid.room_eq {b : RecvBuf} (h : b.Valid) :
    (toInt32 (b.bufsize - b.datalen) % 2 ^ 64).toNat = b.room := by
  have := h.consumed_nonneg
  have := h.consumed_le
  have := h.datalen_le
  have := h.bufsize_lt
  rw [toInt32_of_lt (by omega) (by omega), RecvBuf.room]
  omega

theorem RecvBuf.Valid.length_arrive_le {b : RecvBuf} (h : b.Valid) {p : Peer} {bytes : List UInt8}
    (ha : p.arrive b.room = bytes) : (bytes.length : ℤ) ≤ b.bufsize - b.datalen := by
  have hle := ha ▸ p.length_arrive_le b.room
  have := h.datalen_le
  unfold RecvBuf.room at hle
  omega

/-- A connection with the bytes `bytes` taken into its buffer from the socket. -/
def Conn.filled (c : Conn) (o : Out) (b : RecvBuf) (bytes : List UInt8) : Conn :=
  c.put o (c.toPeer.next b.room) (b.extend bytes.length bytes)

/-! ## Looking for a head -/

/-- The length of the head at the start of the bytes : of a message, or of a frame after an
upgrade. -/
def headFound (upgrade : ℕ) (l : List UInt8) : Option ℤ :=
  if upgrade = 0 then headScan l else (frameScan l).map Prod.fst

theorem headFound_nil (upgrade : ℕ) : headFound upgrade [] = none := by
  unfold headFound
  split_ifs <;> rfl

theorem headFound_bound {upgrade : ℕ} {l : List UInt8} {r : ℤ} (h : headFound upgrade l = some r) :
    -1 ≤ r ∧ r ≤ l.length ∧ r ≠ 0 := by
  unfold headFound at h
  split_ifs at h with hu
  · exact headScan_bound h
  · obtain ⟨f, hf, rfl⟩ := Option.map_eq_some_iff.mp h
    have := frameScan_bound hf
    omega

theorem Conn.headlen_eq (c : Conn) (h : (c.buf.length : ℤ) = c.datalen) :
    c.headlen = some ((headFound c.upgrade c.buf).getD 0) := by
  unfold Conn.headlen headFound
  rw [← h]
  split_ifs
  · exact httpValidrequest_eq c.buf
  · exact websocketFramevalid_eq_getD c.buf

/-- What `xs_conn_headerready` sees before it receives. -/
theorem connHeaderready_eq {c : Conn} (hv : c.toRecvBuf.Valid) (h0 : c.consumed = 0) {r : ℤ}
    (hr : (headFound c.upgrade c.toRecvBuf.unread).getD 0 = r) :
    connHeaderready c =
      (headerFill (if r < 0 then (c.setBuf (connBufresize c.toRecvBuf)).setErr Error.InvalidRequest
        else c.setBuf (connBufresize c.toRecvBuf)) r).map fun r => headerEnd r.1 r.2.1 r.2.2 := by
  obtain ⟨hb, hu, hc, -⟩ := connBufresize_spec hv
  rw [← hu, RecvBuf.unread_eq_buf (hc h0)] at hr
  have hl : (if (c.setBuf (connBufresize c.toRecvBuf)).datalen ≠ 0 then
      (c.setBuf (connBufresize c.toRecvBuf)).headlen else some 0) = some r := by
    split_ifs with hd
    · rw [Conn.headlen_eq _ hb.length_buf]
      exact congrArg some hr
    · have hl := hb.length_buf
      rw [Conn.setBuf_eq, Conn.put_toRecvBuf] at hd
      rw [List.length_eq_zero_iff.mp (by omega : (connBufresize c.toRecvBuf).buf.length = 0),
        headFound_nil] at hr
      exact congrArg some hr
  unfold connHeaderready
  dsimp only
  rw [hl, Option.bind_some]

theorem headerEnd_spec (n r : ℤ) (c : Conn) (o : Out) (p : Peer) (b : RecvBuf) :
    ∃ o', headerEnd n r (c.put o p b) =
        (if 0 < r then r else if n = 0 then 0 else -1, c.put o' p b) ∧
      (r ≤ maxheaderlen → b.datalen ≤ maxheaderlen → o' = o) ∧
      (maxheaderlen < b.datalen → o'.errnum = Error.HeaderTooLarge) := by
  by_cases h : maxheaderlen < r ∨ maxheaderlen < b.datalen
  · exact ⟨{ o with errnum := Error.HeaderTooLarge },
      by rw [headerEnd, Conn.put_toRecvBuf, if_pos h]; rfl, by omega, fun _ => rfl⟩
  · exact ⟨o, by rw [headerEnd, Conn.put_toRecvBuf, if_neg h], fun _ _ => rfl, by omega⟩

/-- With a head in the bytes unread, nothing is received. -/
theorem connHeaderready_of_some {c : Conn} (hv : c.toRecvBuf.Valid) (h0 : c.consumed = 0) {r : ℤ}
    (h : headFound c.upgrade c.toRecvBuf.unread = some r) :
    ∃ o, connHeaderready c = some (if 0 < r then r else -1,
        c.put o c.toPeer (connBufresize c.toRecvBuf)) ∧
      (0 < r → r ≤ maxheaderlen → (connBufresize c.toRecvBuf).datalen ≤ maxheaderlen →
        o = c.toOut) ∧
      (maxheaderlen < (connBufresize c.toRecvBuf).datalen → o.errnum = Error.HeaderTooLarge) := by
  have hr : (headFound c.upgrade c.toRecvBuf.unread).getD 0 = r := by rw [h]; rfl
  rw [connHeaderready_eq hv h0 hr, headerFill, if_pos (headFound_bound h).2.2, Option.map_some]
  by_cases h1 : r < 0
  · obtain ⟨o, ho, -, hlarge⟩ := headerEnd_spec (-1) r c
      { c.toOut with errnum := Error.InvalidRequest } c.toPeer (connBufresize c.toRecvBuf)
    exact ⟨o, by rw [if_pos h1]; exact congrArg some ho, by omega, hlarge⟩
  · obtain ⟨o, ho, he, hlarge⟩ := headerEnd_spec (-1) r c c.toOut c.toPeer
      (connBufresize c.toRecvBuf)
    exact ⟨o, by rw [if_neg h1]; exact congrArg some ho, fun _ => he, hlarge⟩

/-- `xs_conn_read` into a valid buffer. -/
theorem connFill_spec {c : Conn} (hv : c.toRecvBuf.Valid) :
    ∃ n o, connFill c = (n, c.toPeer.arrive c.toRecvBuf.room,
        c.put o (c.toPeer.next c.toRecvBuf.room) c.toRecvBuf) ∧
      (n = (c.toPeer.arrive c.toRecvBuf.room).length ∧ (n ≠ 0 → o.errnum = 0) ∧
          (c.toPeer.Quiet → 0 < c.toRecvBuf.room → n ≠ 0) ∨
        c.toPeer.arrive c.toRecvBuf.room = [] ∧ n = -1 ∧ (c.toPeer.Quiet → o.errnum = 0)) := by
  obtain ⟨n, re, o, h, hn⟩ := connRead_spec c (c.bufsize - c.datalen) hv.room_eq
  exact ⟨n, o, by rw [connFill, h], hn⟩

/-- Without a head in the bytes unread, the next bytes are received, and the head is looked for in
these too. -/
theorem connHeaderready_of_none {c : Conn} (hv : c.toRecvBuf.Valid) (h0 : c.consumed = 0)
    {b : RecvBuf} (hb : connBufresize c.toRecvBuf = b) {bytes : List UInt8}
    (ha : c.toPeer.arrive b.room = bytes)
    (h : headFound c.upgrade c.toRecvBuf.unread = none) :
    ∃ n o, connHeaderready c = some (n, c.filled o b bytes) ∧
      (0 < n → headFound c.upgrade (c.toRecvBuf.unread ++ bytes) = some n) ∧
      (∀ r, 0 < r → headFound c.upgrade (c.toRecvBuf.unread ++ bytes) = some r → n = r) ∧
      (c.toPeer.Quiet → 0 < b.room → b.datalen + bytes.length ≤ maxheaderlen →
        n ≠ 0 ∧ o.errnum = 0) ∧
      (bytes ≠ [] → b.datalen + bytes.length ≤ maxheaderlen → o.errnum = 0) ∧
      (maxheaderlen < b.datalen + bytes.length → o.errnum = Error.HeaderTooLarge) := by
  obtain ⟨hbv, hu, hc, -⟩ := connBufresize_spec hv
  rw [hb] at hbv hu hc
  rw [← hu, RecvBuf.unread_eq_buf (hc h0)] at h ⊢
  have hr : (headFound c.upgrade c.toRecvBuf.unread).getD 0 = 0 := by
    rw [← hu, RecvBuf.unread_eq_buf (hc h0), h]
    rfl
  rw [connHeaderready_eq hv h0 hr, if_neg (lt_irrefl 0), hb]
  obtain ⟨n, o, hf, hn⟩ := connFill_spec (c := c.put c.toOut c.toPeer b) hbv
  simp only [Conn.put_toPeer, Conn.put_toRecvBuf, ha, Conn.put_put] at hf hn
  rw [headerFill, if_neg (by omega), Conn.setBuf_eq, hf]
  dsimp only
  by_cases hpos : 0 < n
  · obtain ⟨rfl, herr, -⟩ | ⟨-, hlen, -⟩ := hn
    · rw [if_pos hpos, Conn.setBuf_eq, Conn.put_put, Conn.put_toRecvBuf, Conn.put_toOut,
        Conn.put_toPeer, Conn.headlen_eq _ (hbv.extend (hbv.length_arrive_le ha)).length_buf,
        Option.map_some, Option.map_some]
      dsimp only
      obtain ⟨o', ho, he, hlarge⟩ := headerEnd_spec bytes.length
        ((headFound c.upgrade (b.buf ++ bytes)).getD 0) c o (c.toPeer.next b.room)
        (b.extend bytes.length bytes)
      have hsize : b.datalen + bytes.length ≤ maxheaderlen →
          (headFound c.upgrade (b.buf ++ bytes)).getD 0 ≤ maxheaderlen := by
        intro hd
        cases hf : headFound c.upgrade (b.buf ++ bytes) with
        | none => simp [maxheaderlen]
        | some r =>
          have := (headFound_bound hf).2.1
          have := hbv.length_buf
          simp only [Option.getD_some, List.length_append] at *
          omega
      refine ⟨_, o', congrArg some ho, ?_, ?_, ?_, ?_, hlarge⟩
      · cases hf : headFound c.upgrade (b.buf ++ bytes) with
        | none =>
          simp only [Option.getD_none, lt_irrefl, if_false]
          split_ifs <;> omega
        | some r =>
          simp only [Option.getD_some]
          by_cases h' : 0 < r
          · rw [if_pos h']
            exact fun _ => rfl
          · rw [if_neg h']
            split_ifs <;> omega
      · intro r hr hf
        rw [hf, Option.getD_some, if_pos hr]
      · intro hq hroom hd
        rw [he (hsize hd) hd]
        refine ⟨?_, herr (by omega)⟩
        split_ifs <;> omega
      · intro _ hd
        rw [he (hsize hd) hd]
        exact herr (by omega)
    · omega
  · have hbytes : bytes = [] := by
      obtain ⟨hlen, -⟩ | ⟨hlen, -⟩ := hn
      · exact List.length_eq_zero_iff.mp (by omega)
      · exact hlen
    subst hbytes
    obtain ⟨o', ho, he, hlarge⟩ := headerEnd_spec n 0 c o (c.toPeer.next b.room) b
    rw [if_neg hpos, Option.map_some, ho, if_neg (lt_irrefl 0), List.append_nil, h]
    refine ⟨if n = 0 then 0 else -1, o', by simp [Conn.filled], ?_, by simp, ?_,
      fun hne => absurd rfl hne, fun hd => hlarge (by simpa using hd)⟩
    · split_ifs <;> omega
    · intro hq hroom hd
      obtain ⟨hlen, -, hne⟩ | ⟨-, hlen, herr⟩ := hn
      · exact absurd hlen (hne hq hroom)
      · rw [he (by unfold maxheaderlen; omega) (by simpa using hd), if_neg (by omega)]
        exact ⟨by omega, herr hq⟩

/-! ## Looking for a size line -/

theorem RecvBuf.Valid.scan_eq {b : RecvBuf} (h : b.Valid) :
    b.scan = some ((lineScan b.unread).elim (-1, none) fun r => (r.1, some r.2)) := by
  rw [RecvBuf.scan, ← h.length_unread]
  exact scanChunk_eq b.unread

/-- With a size line in the bytes unread, nothing is received. -/
theorem connChunkready_of_some {c : Conn} (hv : c.toRecvBuf.Valid) {n : ℤ} {enc : ℕ}
    (h : lineScan c.toRecvBuf.unread = some (n, enc)) (hn : 0 ≤ n) :
    connChunkready c = some (n, (c.setBuf (connBufresize c.toRecvBuf)).takeLine n enc) := by
  obtain ⟨hb, hu, -⟩ := connBufresize_spec hv
  unfold connChunkready
  simp only [Conn.setBuf_eq, Conn.put_toRecvBuf, hb.scan_eq, hu, h, Option.elim_some, chunkFill, hn,
    if_true, Option.bind_eq_bind, Option.bind_some, Option.map_some]

/-- Without a size line in the bytes unread, the next bytes are received, and the size line is
looked for in these too. -/
theorem connChunkready_of_none {c : Conn} (hv : c.toRecvBuf.Valid) {b : RecvBuf}
    (hb : connBufresize c.toRecvBuf = b) {bytes : List UInt8} (ha : c.toPeer.arrive b.room = bytes)
    (h : ∀ r, lineScan c.toRecvBuf.unread = some r → r.1 < 0) :
    ∃ o, (c.toPeer.Quiet → 0 < b.room → o.errnum = 0) ∧
      ((∃ n enc, lineScan (c.toRecvBuf.unread ++ bytes) = some (n, enc) ∧ 0 ≤ n ∧
          connChunkready c = some (n, (c.filled o b bytes).takeLine n enc)) ∨
        (∀ r, lineScan (c.toRecvBuf.unread ++ bytes) = some r → r.1 < 0) ∧
          ∃ n < 0, connChunkready c = some (n, c.filled o b bytes)) := by
  obtain ⟨hbv, hu, -⟩ := connBufresize_spec hv
  rw [hb] at hbv hu
  obtain ⟨n, o, hf, hn⟩ := connFill_spec (c := c.put c.toOut c.toPeer b) hbv
  simp only [Conn.put_toPeer, Conn.put_toRecvBuf, ha, Conn.put_put] at hf hn
  refine ⟨o, fun hq hroom => ?_, ?_⟩
  · obtain ⟨hlen, herr, hne⟩ | ⟨-, -, herr⟩ := hn
    · exact herr (hne hq hroom)
    · exact herr hq
  have hscan : ∃ r, b.scan = some r ∧ ¬0 ≤ r.1 := by
    refine ⟨_, hbv.scan_eq, ?_⟩
    rw [hu]
    cases hl : lineScan c.toRecvBuf.unread with
    | none => simp
    | some r => simpa using h r hl
  obtain ⟨r₀, hscan, hr₀⟩ := hscan
  have hready : connChunkready c = (chunkFill (c.put c.toOut c.toPeer b) r₀).bind fun r =>
      if 0 ≤ r.1.1 then r.1.2.map fun enc => (r.1.1, r.2.takeLine r.1.1 enc)
      else some (r.1.1, r.2) := by
    unfold connChunkready
    simp only [hb, Conn.setBuf_eq, Conn.put_toRecvBuf, hscan, Option.bind_eq_bind, Option.bind_some]
  rw [hready, chunkFill, if_neg hr₀, hf]
  dsimp only
  by_cases hpos : 0 ≤ n
  · obtain ⟨rfl, -, -⟩ | ⟨-, hlen, -⟩ := hn
    · rw [if_pos hpos, Conn.setBuf_eq, Conn.put_put, Conn.put_toRecvBuf, Conn.put_toOut,
        Conn.put_toPeer, Conn.put_toRecvBuf, (hbv.extend (hbv.length_arrive_le ha)).scan_eq,
        hbv.unread_extend, hu]
      cases hl : lineScan (c.toRecvBuf.unread ++ bytes) with
      | none => exact .inr ⟨by simp, -1, by omega, rfl⟩
      | some r =>
        by_cases hr : 0 ≤ r.1
        · exact .inl ⟨r.1, r.2, rfl, hr, by simp [hr, Conn.filled]⟩
        · exact .inr ⟨by simpa using hr, r.1, by omega, by simp [hr, Conn.filled]⟩
    · omega
  · obtain ⟨hlen, -⟩ | ⟨rfl, hlen, -⟩ := hn
    · omega
    · rw [if_neg hpos, List.append_nil]
      exact .inr ⟨h, n, by omega, by simp [hpos, Conn.filled]⟩

end Webxs
