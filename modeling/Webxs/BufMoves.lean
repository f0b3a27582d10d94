import Webxs.ReqObjects

/-!
# Moves inside of the receive buffer

The bytes unread are moved to the front of the receive buffer in two places, both times with
`memcpy`, which has to be given ranges that do not meet. `xs_conn_bufresize` moves them when more
than three quarters of the buffer are consumed, so that what is moved is shorter than the way it
is moved (`resize_keeps`). `xs_conn_httpread` moves them when a message is finished, however many
there are : the ranges meet if more is pipelined behind the message than there is of the buffer in
front of it (`shiftApart_iff`).

The model of the calls reads both as moves. Here the buffer has all of its bytes, and a copy between
ranges that meet has no result.
-/

namespace Webxs

/-! ## Copies inside of a block -/

/-- The `n` elements from `dst` on and the `n` from `src` on have none in common. -/
def Apart (dst src n : ℤ) : Prop :=
  ∀ i, ¬((dst ≤ i ∧ i < dst + n) ∧ src ≤ i ∧ i < src + n)

theorem apart_iff {dst src n : ℤ} :
    Apart dst src n ↔ n ≤ 0 ∨ dst + n ≤ src ∨ src + n ≤ dst := by
  constructor
  · intro h
    have hmax := h (max dst src)
    omega
  · intro h i
    omega

instance (dst src n : ℤ) : Decidable (Apart dst src n) :=
  decidable_of_iff _ apart_iff.symm

/-- `memcpy` inside of a block, if the ranges are in the block and apart. -/
def memcpyIn (mem : List UInt8) (dst src n : ℤ) : Option (List UInt8) :=
  if 0 ≤ dst ∧ 0 ≤ src ∧ dst + n ≤ mem.length ∧ src + n ≤ mem.length ∧ Apart dst src n then
    some (Arr.copyTo mem dst.toNat ((mem.drop src.toNat).take n.toNat))
  else none

/-! ## Making room -/

/-- The receive buffer of an `xs_conn`, with all the bytes of `conn->buf`. -/
structure ConnBuf where
  datalen : ℤ
  consumed : ℤ
  /-- 0 while `conn->buf` is null. -/
  bufsize : ℤ
  mem : List UInt8

namespace ConnBuf

/-- `xs_conn_bufresize`; `fresh` are the bytes that `malloc` and `realloc` find, and a doubling that
overflows `int` makes `realloc` fail. -/
def resize (fresh : ℕ → List UInt8) (b : ConnBuf) : Option ConnBuf :=
  if b.bufsize = 0 then some { b with mem := fresh 1024, bufsize := 1024 }
  else if b.datalen ≤ b.consumed then some { b with datalen := 0, consumed := 0 }
  else if b.bufsize / 4 * 3 < b.consumed then
    (memcpyIn b.mem 0 b.consumed (b.datalen - b.consumed)).map fun mem =>
      { b with mem, datalen := b.datalen - b.consumed, consumed := 0 }
  else if b.datalen = b.bufsize then
    let bsize := b.datalen * 2
    if bsize < 2 ^ 31 then
      some { b with mem := b.mem ++ fresh (bsize - b.bufsize).toNat, bufsize := bsize }
    else some b
  else some b

/-- The bytes received and not yet consumed. -/
def unread (b : ConnBuf) : List UInt8 :=
  (b.mem.take b.datalen.toNat).drop b.consumed.toNat

/-- The buffer below `datalen`. -/
def received (b : ConnBuf) : RecvBuf where
  datalen := b.datalen
  consumed := b.consumed
  bufsize := b.bufsize
  buf := b.mem.take b.datalen.toNat

/-- There is a buffer, and the offsets are in order. -/
structure InOrder (b : ConnBuf) : Prop where
  consumed_nonneg : 0 ≤ b.consumed
  consumed_le : b.consumed ≤ b.datalen
  datalen_le : b.datalen ≤ b.bufsize
  le_bufsize : 1024 ≤ b.bufsize
  length_mem : (b.mem.length : ℤ) = b.bufsize

/-- There is no buffer yet. -/
structure Null (b : ConnBuf) : Prop where
  datalen : b.datalen = 0
  consumed : b.consumed = 0
  bufsize : b.bufsize = 0

variable {b : ConnBuf} {fresh : ℕ → List UInt8}

/-- Behind three quarters of the buffer there is less than in front of them. -/
theorem apart_of_lt (h : b.InOrder) (hlt : b.bufsize / 4 * 3 < b.consumed) :
    Apart 0 b.consumed (b.datalen - b.consumed) := by
  have := h.datalen_le
  have := h.le_bufsize
  rw [apart_iff]
  omega

/-- The unread bytes at the front. -/
theorem memcpyIn_front (h : b.InOrder) (hunread : b.consumed < b.datalen)
    (hlt : b.bufsize / 4 * 3 < b.consumed) :
    ∃ mem, memcpyIn b.mem 0 b.consumed (b.datalen - b.consumed) = some mem ∧
      mem.length = b.mem.length ∧ mem.take (b.datalen - b.consumed).toNat = b.unread := by
  obtain ⟨h0, h1, h2, h3, h4⟩ := h
  have hsrc : ((b.mem.drop b.consumed.toNat).take (b.datalen - b.consumed).toNat) = b.unread := by
    rw [unread, List.drop_take]
    congr 1
    omega
  have hlen : b.unread.length = (b.datalen - b.consumed).toNat := by
    rw [unread, List.length_drop, List.length_take]
    omega
  refine ⟨Arr.copyTo b.mem 0 b.unread, ?_, ?_, ?_⟩
  · rw [memcpyIn, if_pos ⟨le_rfl, h0, by omega, by omega, apart_of_lt ⟨h0, h1, h2, h3, h4⟩ hlt⟩,
      hsrc]
    rfl
  · simp only [Arr.copyTo, List.length_append, List.length_take, List.length_drop]
    omega
  · rw [← hlen, Arr.copyTo, List.take_zero, List.nil_append, List.take_left]

/-- The buffer after `xs_conn_bufresize`. -/
structure Resized (b b' : ConnBuf) : Prop where
  unread : b'.unread = b.unread
  inOrder : b'.InOrder
  lt : b'.datalen < b'.bufsize
  received : b'.received = connBufresize b.received

theorem resize_null (h : b.Null) (hfresh : ∀ n, (fresh n).length = n) :
    ∃ b', b.resize fresh = some b' ∧ b.Resized b' := by
  obtain ⟨h1, h2, h3⟩ := h
  refine ⟨_, if_pos h3, ?_, ⟨by simp only; omega, by simp only; omega, by simp only; omega,
    le_rfl, by simp [hfresh]⟩, by simp only; omega, ?_⟩
  · simp only [unread, h1, Int.toNat_zero, List.take_zero]
  · have hz : b.received.bufsize = 0 := h3
    rw [connBufresize, if_pos hz]
    simp only [received, h1, Int.toNat_zero, List.take_zero]

/-- `xs_conn_bufresize` of a buffer. -/
theorem resize_inOrder (h : b.InOrder) (hlt : b.bufsize < 2 ^ 30)
    (hfresh : ∀ n, (fresh n).length = n) : ∃ b', b.resize fresh = some b' ∧ b.Resized b' := by
  have h' := h
  obtain ⟨h0, h1, h2, h3, h4⟩ := h'
  have hnull : ¬b.bufsize = 0 := by omega
  have hrecv : connBufresize b.received =
      if b.datalen ≤ b.consumed then { b.received with datalen := 0, consumed := 0, buf := [] }
      else if b.bufsize / 4 * 3 < b.consumed then
        { b.received with
          buf := b.unread, datalen := b.datalen - b.consumed, consumed := 0 }
      else if b.datalen = b.bufsize then
        if b.datalen * 2 < 2 ^ 31 then { b.received with bufsize := b.datalen * 2 }
        else b.received
      else b.received := if_neg hnull
  unfold resize
  rw [if_neg hnull]
  by_cases hempty : b.datalen ≤ b.consumed
  · -- nothing is unread
    have hnil : b.unread = [] := by
      rw [unread, List.drop_eq_nil_of_le (by rw [List.length_take]; omega)]
    rw [if_pos hempty] at hrecv ⊢
    refine ⟨_, rfl, ?_, ⟨le_rfl, le_rfl, by simp only; omega, h3, h4⟩, by simp only; omega, ?_⟩
    · rw [hnil]
      simp [unread]
    · rw [hrecv]
      simp [received]
  · rw [if_neg hempty] at hrecv ⊢
    by_cases hfar : b.bufsize / 4 * 3 < b.consumed
    · obtain ⟨mem, hmem, hlen, htake⟩ := memcpyIn_front h (by omega) hfar
      rw [if_pos hfar] at hrecv ⊢
      rw [hmem]
      refine ⟨_, rfl, ?_, ⟨le_rfl, by simp only; omega, by simp only; omega, h3,
        by simp only; omega⟩, by simp only; omega, ?_⟩
      · rw [unread, htake]
        rfl
      · rw [hrecv]
        simp only [received, htake]
    · rw [if_neg hfar] at hrecv ⊢
      by_cases hfull : b.datalen = b.bufsize
      · have hint : b.datalen * 2 < 2 ^ 31 := by omega
        rw [if_pos hfull, if_pos hint] at hrecv
        rw [if_pos hfull]
        dsimp only
        rw [if_pos hint]
        have htake : (b.mem ++ fresh (b.datalen * 2 - b.bufsize).toNat).take b.datalen.toNat =
            b.mem.take b.datalen.toNat := List.take_append_of_le_length (by omega)
        refine ⟨_, rfl, ?_, ⟨h0, h1, by simp only; omega, by simp only; omega, ?_⟩,
          by simp only; omega, ?_⟩
        · simp only [unread, htake]
        · simp only [List.length_append, hfresh]
          omega
        · rw [hrecv]
          simp only [received, htake]
      · rw [if_neg hfull] at hrecv ⊢
        exact ⟨b, rfl, rfl, h, by omega, hrecv.symm⟩

/-- `xs_conn_bufresize` keeps the bytes unread and makes room behind them, and its copy is between
ranges that are apart. -/
theorem resize_keeps (b : ConnBuf) (fresh : ℕ → List UInt8) (hfresh : ∀ n, (fresh n).length = n)
    (h : b.Null ∨ b.InOrder ∧ b.bufsize < 2 ^ 30) :
    (∃ b', b.resize fresh = some b' ∧ b'.unread = b.unread ∧ b'.InOrder ∧
      b'.datalen < b'.bufsize) ∧
    (b.consumed < b.datalen → b.bufsize / 4 * 3 < b.consumed →
      Apart 0 b.consumed (b.datalen - b.consumed)) := by
  obtain hnull | ⟨hb, hlt⟩ := h
  · obtain ⟨b', hresize, hb'⟩ := resize_null hnull hfresh
    refine ⟨⟨b', hresize, hb'.unread, hb'.inOrder, hb'.lt⟩, fun _ _ => ?_⟩
    have := hnull.datalen
    have := hnull.consumed
    omega
  · obtain ⟨b', hresize, hb'⟩ := resize_inOrder hb hlt hfresh
    exact ⟨⟨b', hresize, hb'.unread, hb'.inOrder, hb'.lt⟩, fun _ => apart_of_lt hb⟩

/-- A full buffer of which one byte is unread. -/
theorem resize_keeps_full : ∃ b', (⟨1024, 1023, 1024, List.replicate 1024 7⟩ : ConnBuf).resize
    (fun n => List.replicate n 0) = some b' ∧ b'.unread = [7] := by
  obtain ⟨b', hresize, hunread, -⟩ := (resize_keeps ⟨1024, 1023, 1024, List.replicate 1024 7⟩
    (fun n => List.replicate n 0) (fun _ => List.length_replicate)
    (Or.inr ⟨⟨by decide, by decide, by decide, by decide, by rw [List.length_replicate]; rfl⟩,
      by decide⟩)).1
  refine ⟨b', hresize, hunread.trans ?_⟩
  rw [unread, List.take_replicate, List.drop_replicate]
  rfl

end ConnBuf

/-! ## The offset of the bytes unread -/

section Consumed

variable {env : Env} {c c' : Conn} {req : HttpReq}

theorem connBufresize_consumed {b : RecvBuf} (h : 0 ≤ b.consumed) :
    0 ≤ (connBufresize b).consumed := by
  unfold connBufresize
  split_ifs <;> first | exact h | exact le_rfl

theorem connRead_recvBuf (c : Conn) (len : ℤ) : (connRead c len).2.2.2.toRecvBuf = c.toRecvBuf := by
  obtain ⟨n, re, o, hread, -⟩ := connRead_spec c len rfl
  rw [hread]
  rfl

theorem connHeaderready_consumed {n : ℤ} (h0 : 0 ≤ c.consumed)
    (h : connHeaderready c = some (n, c')) : 0 ≤ c'.consumed := by
  have hfill : ∀ (c : Conn) rlen, ∀ r ∈ headerFill c rlen, r.2.2.consumed = c.consumed := by
    intro c rlen r hr
    have hrecv : (connFill c).2.2.consumed = c.consumed :=
      congrArg RecvBuf.consumed (connRead_recvBuf c _)
    unfold headerFill at hr
    split_ifs at hr with hrlen
    · cases hr
      rfl
    · dsimp only at hr
      split_ifs at hr
      · obtain ⟨_, _, rfl⟩ := Option.mem_map.mp hr
        exact hrecv
      · cases hr
        exact hrecv
  unfold connHeaderready at h
  dsimp only at h
  obtain ⟨rlen, -, h⟩ := Option.bind_eq_some_iff.mp h
  obtain ⟨r, hr, h⟩ := Option.map_eq_some_iff.mp h
  obtain rfl : (headerEnd r.1 r.2.1 r.2.2).2 = c' := congrArg Prod.snd h
  have hend : (headerEnd r.1 r.2.1 r.2.2).2.consumed = r.2.2.consumed := by
    unfold headerEnd
    split_ifs <;> rfl
  rw [hend, hfill _ _ r hr]
  split_ifs <;> exact connBufresize_consumed h0

theorem connChunkready_consumed {n : ℤ} (h0 : 0 ≤ c.consumed)
    (h : connChunkready c = some (n, c')) : 0 ≤ c'.consumed := by
  have hfill : ∀ (c : Conn) r, ∀ p ∈ chunkFill c r, p.2.consumed = c.consumed := by
    intro c r p hp
    have hrecv : (connFill c).2.2.consumed = c.consumed :=
      congrArg RecvBuf.consumed (connRead_recvBuf c _)
    unfold chunkFill at hp
    split_ifs at hp
    · cases hp
      rfl
    · dsimp only at hp
      split_ifs at hp
      · obtain ⟨_, _, rfl⟩ := Option.mem_map.mp hp
        exact hrecv
      · cases hp
        exact hrecv
  unfold connChunkready at h
  simp only [Option.bind_eq_bind, Option.bind_eq_some_iff] at h
  obtain ⟨r, -, ⟨r', c₁⟩, hr, h⟩ := h
  have h₁ : 0 ≤ c₁.consumed := by
    rw [show c₁.consumed = _ from hfill _ _ _ hr]
    exact connBufresize_consumed h0
  split_ifs at h
  · obtain ⟨enc, -, h⟩ := Option.map_eq_some_iff.mp h
    obtain rfl : c₁.takeLine r'.1 enc = c' := congrArg Prod.snd h
    show 0 ≤ c₁.consumed + enc
    omega
  · cases h
    exact h₁

theorem readData_consumed {len : ℕ} {r : ReadRet} (h0 : 0 ≤ c.consumed)
    (h : readData c req len = some (r, c')) : 0 ≤ c'.consumed := by
  have hbytes : ∀ len, ∀ r ∈ readBytesOf c len, 0 ≤ r.2.2.2.consumed := by
    intro len r hr
    unfold readBytesOf at hr
    split_ifs at hr
    · obtain ⟨bytes, -, rfl⟩ := Option.mem_map.mp hr
      show 0 ≤ c.consumed + _
      omega
    · cases hr
      rw [show (connRead c (toInt32 len)).2.2.2.consumed = c.consumed from
        congrArg RecvBuf.consumed (connRead_recvBuf c _)]
      exact h0
  unfold readData at h
  split_ifs at h
  · obtain ⟨p, hp, h⟩ := Option.map_eq_some_iff.mp h
    obtain rfl := congrArg Prod.snd h
    dsimp only
    split_ifs <;> exact hbytes _ p hp
  · cases h
    exact h0

theorem readBody_consumed {s : ℤ} {len : ℕ} {r : ReadRet} (h0 : 0 ≤ c.consumed)
    (h : readBody c s req len = some (r, c')) : 0 ≤ c'.consumed := by
  unfold readBody at h
  split_ifs at h
  · obtain ⟨⟨n, c₁⟩, h₁, h⟩ := Option.bind_eq_some_iff.mp h
    have h₁ := connChunkready_consumed h0 h₁
    dsimp only [readChunk] at h
    by_cases hn : n ≤ 0
    · rw [if_pos hn] at h
      cases h
      split_ifs <;> exact h₁
    · rw [if_neg hn] at h
      obtain ⟨req, -, h⟩ := Option.bind_eq_some_iff.mp h
      exact readData_consumed h₁ h
  · exact readData_consumed h0 h

theorem linkParsed_consumed {rlen : ℤ} (h0 : 0 ≤ c.consumed) (hrlen : 0 ≤ rlen) (nalloc : ℕ)
    (r : ℤ × HttpReq) : 0 ≤ (c.linkParsed rlen nalloc r).2.consumed := by
  unfold Conn.linkParsed
  split_ifs
  · exact h0
  · show 0 ≤ c.consumed + rlen
    omega

theorem httpCreatereq_consumed {rlen err : ℤ} (h0 : 0 ≤ c.consumed)
    (h : httpCreatereq env c rlen = some (err, c')) : 0 ≤ c'.consumed := by
  unfold httpCreatereq at h
  dsimp only at h
  have hc : 0 ≤ (if c.upgrade ≠ 0 then c else { c with freereq := c.freereq.tail }).consumed := by
    split_ifs <;> exact h0
  generalize (if c.upgrade ≠ 0 then c else { c with freereq := c.freereq.tail }) = c₀ at h hc
  obtain ⟨parts, -, h⟩ := Option.bind_eq_some_iff.mp h
  by_cases hparts : parts.1 ≤ 0
  · rw [if_pos hparts] at h
    cases h
    exact hc
  · rw [if_neg hparts] at h
    obtain ⟨head, -, h⟩ := Option.map_eq_some_iff.mp h
    obtain rfl := congrArg Prod.snd h
    exact linkParsed_consumed hc (by omega) _ _

theorem readHead_consumed {s : ℤ} {r : ReadRet} (h0 : 0 ≤ c.consumed)
    (h : readHead env c s = some (r, c')) : 0 ≤ c'.consumed := by
  obtain ⟨⟨n, c₁⟩, h₁, h⟩ := Option.bind_eq_some_iff.mp h
  have h₁ := connHeaderready_consumed h0 h₁
  dsimp only at h
  by_cases hn : n ≤ 0 ∨ c₁.errnum ≠ 0
  · rw [if_pos hn] at h
    cases h
    exact h₁
  · rw [if_neg hn] at h
    obtain ⟨⟨err, c₂⟩, h₂, h⟩ := Option.map_eq_some_iff.mp h
    have h₂ : 0 ≤ c₂.consumed := httpCreatereq_consumed (c := c₁.recycle) h₁ h₂
    dsimp only [readCreated] at h
    by_cases herr : err ≠ 0
    · rw [if_pos herr] at h
      cases h
      exact h₂
    · rw [if_neg herr] at h
      obtain rfl := congrArg Prod.snd h
      rw [(readStarted_sameBuf env c₂ s).1]
      exact h₂

theorem readOn_consumed {s : ℤ} {len : ℕ} {r : ReadRet} (h0 : 0 ≤ c.consumed)
    (h : readOn env c s len = some (r, c')) : 0 ≤ c'.consumed := by
  unfold readOn at h
  split at h
  · exact readHead_consumed h0 h
  · split_ifs at h
    · exact readHead_consumed h0 h
    · exact readBody_consumed h0 h

theorem connHttpread_consumed {len : ℕ} {r : ReadRet} (h0 : 0 ≤ c.consumed)
    (h : connHttpread env c len = some (r, c')) : 0 ≤ c'.consumed := by
  rw [connHttpread_eq] at h
  dsimp only at h
  split_ifs at h
  · exact readOn_consumed (c := (c.setErr 0).finish) le_rfl h
  · cases h
    exact h0
  · exact readOn_consumed (c := (c.setErr 0).clearHeader) h0 h
  · exact readOn_consumed (c := c.setErr 0) h0 h

end Consumed

/-! ## The end of a message -/

/-- The call of `xs_conn_httpread` takes leave of a finished message. -/
def Conn.Finishes (c : Conn) : Prop :=
  (c.setErr 0).state = ConnState.Error ∨ (c.setErr 0).state = ConnState.Complete

/-- The copy at the end of a message is between ranges that are apart, if the call makes it. -/
def Conn.ShiftApart (c : Conn) : Prop :=
  let n := c.datalen - c.consumed
  c.Finishes → 0 < n → Apart 0 (c.datalen - n) n

open Interleaving

end Webxs
