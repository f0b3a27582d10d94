import Webxs.FramePayload
import Webxs.MessageRead

/-!
# Messages from one end to the other

One end writes messages with `xs_conn_write_websocket`, on a socket that takes a part of a buffer or
none of it, and the cache of the connection keeps the rest. The other end reads what the socket took
with `xs_conn_httpread`. As long as the calls that write find room and say that they took all,
messages arrive in order and whole, and none arrives that was not written (`messages_arrive`). With
a key, `xs_conn_write_websocket` takes each block of 4096 bytes from the start of the payload, so a
masked payload is one block here.
-/

open Interleaving

namespace Webxs

/-! ## A message that is written -/

/-- The arguments of `xs_conn_write_websocket`; `mask` is what `xs_ws_genmask` made, if
`do_mask`. -/
structure Outgoing where
  opcode : ℕ
  payload : List UInt8
  mask : Option (List UInt8)

namespace Outgoing

variable (m : Outgoing)

def header : List UInt8 :=
  websocketHeader m.opcode m.payload.length m.mask

/-- The payload as it is sent. -/
def body : List UInt8 :=
  m.mask.elim m.payload fun key => maskFrom key 0 m.payload

def bytes : List UInt8 :=
  m.header ++ m.body

def message : Message :=
  ⟨m.opcode, m.payload⟩

/-- A text, some binary data, or the last message. A payload that is masked fits one block. -/
structure Sendable : Prop where
  opcode : m.opcode = 1 ∨ m.opcode = 2 ∨ m.opcode = WS.CONNECTION_CLOSE
  size : m.payload.length < 2 ^ 64
  mask : ∀ key ∈ m.mask, key.length = 4 ∧ m.payload.length ≤ 4096

end Outgoing

theorem maskFrom_zero (l : List UInt8) : maskFrom [0, 0, 0, 0] 0 l = l := by
  rw [← unmask_eq, unmask, if_pos rfl]

theorem maskFrom_maskFrom (key l : List UInt8) : maskFrom key 0 (maskFrom key 0 l) = l :=
  List.ext_getElem (by simp) fun i _ _ => by simp [maskFrom, UInt8.xor_assoc]

variable {m : Outgoing}

/-- What is written is a frame of the message. -/
theorem Outgoing.Sendable.frame (h : m.Sendable) :
    ∃ f : WsFrame, f.bytes = m.bytes ∧ f.message = m.message ∧ f.Single ∧
      f.payload.length = m.payload.length ∧ (m.mask = none → f.key = []) := by
  have hlength : m.body.length = m.payload.length := by
    unfold Outgoing.body
    cases m.mask with
    | none => rfl
    | some key => exact length_maskFrom key 0 m.payload
  obtain ⟨b, b', ext, hheader, hparts⟩ := websocketHeader_parts m.opcode h.size
    fun key hkey => (h.mask key hkey).1
  obtain ⟨key, hkey⟩ : ∃ key, headerKey m.payload.length m.mask = key := ⟨_, rfl⟩
  rw [hkey] at hheader hparts
  have hb : b.toNat % 16 = m.opcode := by
    have hfirst : b = UInt8.ofNat (0x80 + m.opcode % 16) := by
      rw [websocketHeader] at hheader
      exact (List.cons.inj hheader).1.symm
    rw [hfirst, UInt8.toNat_ofNat']
    rcases h.opcode with hop | hop | hop <;> simp [hop, WS.CONNECTION_CLOSE]
  refine ⟨⟨b, b', ext, key, m.body, hlength ▸ hparts⟩, ?_, ?_, ?_, hlength, fun hnone => ?_⟩
  · rw [WsFrame.bytes, WsFrame.header, ← hheader]
    rfl
  · have hmask : maskFrom (if key = [] then [0, 0, 0, 0] else key) 0 m.body = m.payload := by
      rw [← hkey, headerKey, Outgoing.body]
      cases hmask : m.mask with
      | none => simp [maskFrom_zero]
      | some key' =>
        have hne : key' ≠ [] := List.ne_nil_of_length_pos (by
          rw [(h.mask key' hmask).1]
          decide)
        by_cases h0 : m.payload = []
        · simp [h0, maskFrom]
        · simp [h0, hne, maskFrom_maskFrom]
    rw [WsFrame.message, Outgoing.message, WsFrame.opcode]
    exact congrArg₂ Message.mk hb hmask
  · rw [WsFrame.Single, WsFrame.opcode, hb]
    exact h.opcode
  · show key = []
    rw [← hkey, headerKey, hnone]
    simp

/-- The frames of some messages. -/
theorem exists_frames {ms : List Outgoing} (h : ∀ m ∈ ms, m.Sendable) :
    ∃ fs : List WsFrame, fs.map WsFrame.bytes = ms.map Outgoing.bytes ∧
      fs.map WsFrame.message = ms.map Outgoing.message ∧ (∀ f ∈ fs, f.Single) ∧
      (∀ f ∈ fs, ∃ m ∈ ms, f.payload.length = m.payload.length ∧ (m.mask = none → f.key = [])) := by
  induction ms with
  | nil => exact ⟨[], rfl, rfl, by simp, by simp⟩
  | cons m ms ih =>
    obtain ⟨hm, hms⟩ := List.forall_mem_cons.mp h
    obtain ⟨fs, hbytes, hmessages, hsingle, hkeys⟩ := ih hms
    obtain ⟨f, hfbytes, hfmessage, hfsingle, hlength, hkey⟩ := hm.frame
    refine ⟨f :: fs, ?_, ?_, List.forall_mem_cons.mpr ⟨hfsingle, hsingle⟩,
      List.forall_mem_cons.mpr ⟨⟨m, List.mem_cons_self, hlength, hkey⟩, fun f' hf' => ?_⟩⟩
    · rw [List.map_cons, List.map_cons, hfbytes, hbytes]
    · rw [List.map_cons, List.map_cons, hfmessage, hmessages]
    · obtain ⟨m', hm', hrest⟩ := hkeys f' hf'
      exact ⟨m', List.mem_cons_of_mem _ hm', hrest⟩

/-- It is written in two calls. -/
theorem Outgoing.Sendable.write_eq (h : m.Sendable) (o : Out) :
    connWriteWebsocket o m.opcode m.payload m.mask =
      let r := connWrite false o m.header (decide (m.payload ≠ []))
      let r' := connWrite false r.2 m.body false
      (r.1 + r'.1, r'.2) := by
  unfold connWriteWebsocket Outgoing.header Outgoing.body
  dsimp only
  cases hmask : m.mask with
  | none => rw [if_neg (by simp)]; rfl
  | some key =>
    obtain ⟨hkey, hblock⟩ := h.mask key hmask
    by_cases hnil : m.payload = []
    · rw [if_neg (by simp [hnil])]
      simp [hnil, maskFrom]
    · have hpos := List.length_pos_iff.mpr hnil
      rw [if_pos ⟨rfl, hnil⟩, websocketLoop, if_neg (by omega)]
      dsimp only
      have hbody : (m.payload.take (min m.payload.length 4096)).mapIdx
          (fun i a => a ^^^ ((some key).getD []).getD (i % 4) 0) = maskFrom key 0 m.payload := by
        rw [List.take_of_length_le (by omega)]
        simp [maskFrom]
      rw [hbody, websocketLoop, if_pos (by omega), decide_eq_true hnil,
        decide_eq_false (by omega : ¬min m.payload.length 4096 < m.payload.length)]
      rfl

/-! ## Writing -/

theorem send_le (s : Sock) (offer : List UInt8) : (s.send offer).1 ≤ offer.length := by
  unfold Sock.send
  cases s.sends 0 with
  | accept n => exact Int.ofNat_le.mpr (Nat.min_le_right _ _)
  | fail e => exact (by decide : (-1 : ℤ) ≤ 0).trans (Int.natCast_nonneg _)
  | closed => exact Int.natCast_nonneg _

/-- No more bytes are accepted than there are. -/
theorem writeLoop_le (fill : Out → List UInt8 → Bool → ℤ × Out) (rest : List UInt8) {o : Out}
    {tot v : ℕ} (h : (writeLoop fill o rest tot).1 = some v) : v ≤ tot + rest.length := by
  induction hn : rest.length using Nat.strong_induction_on generalizing rest o tot with
  | _ n ih =>
  subst hn
  have hsend := send_le o.sock (rest.take (min rest.length INT_MAX))
  have hmax : 0 < INT_MAX := by decide
  rw [List.length_take] at hsend
  unfold writeLoop at h
  dsimp only at h
  split_ifs at h with hnil h0 hall hfill hpos
  all_goals try cases h
  · omega
  · have hpos := List.length_pos_iff.mpr hnil
    have := ih (rest.drop (min rest.length INT_MAX)).length (by rw [List.length_drop]; omega) _ h
      rfl
    rw [List.length_drop] at this
    omega
  all_goals omega

theorem connWrite_le (o : Out) (buf : List UInt8) (more : Bool) :
    (connWrite false o buf more).1 ≤ buf.length := by
  unfold connWrite connWriteWith
  dsimp only
  split_ifs with hfill
  · exact le_rfl
  all_goals
    split
    · exact Nat.zero_le _
    · rename_i hloop
      exact (writeLoop_le _ buf (congrArg Prod.fst hloop)).trans_eq (Nat.zero_add _)

/-- The calls that write find an empty cache, or room, and say that they took all. -/
structure Outgoing.Taken (m : Outgoing) (o : Out) : Prop where
  header : WriteFits o m.header
  body : WriteFits (connWrite false o m.header (decide (m.payload ≠ []))).2 m.body
  whole : (connWriteWebsocket o m.opcode m.payload m.mask).1 = m.bytes.length

/-- A message that is taken comes behind those before it. -/
theorem Outgoing.Taken.stream {o : Out} (h : m.Taken o) (hm : m.Sendable) (hopen : o.Open)
    (hb : o.Bounded) :
    (connWriteWebsocket o m.opcode m.payload m.mask).2.stream = o.stream ++ m.bytes ∧
      (connWriteWebsocket o m.opcode m.payload m.mask).2.Open ∧
      (connWriteWebsocket o m.opcode m.payload m.mask).2.Bounded := by
  have hwhole := h.whole
  obtain ⟨hstream₁, hopen₁, hb₁⟩ :=
    stream_connWrite (decide (m.payload ≠ [])) hopen hb h.header
  obtain ⟨hstream₂, hopen₂, hb₂⟩ := stream_connWrite false hopen₁ hb₁ h.body
  have hle₁ := connWrite_le o m.header (decide (m.payload ≠ []))
  have hle₂ := connWrite_le (connWrite false o m.header (decide (m.payload ≠ []))).2 m.body false
  rw [hm.write_eq] at hwhole ⊢
  rw [Outgoing.bytes, List.length_append] at hwhole
  dsimp only at hwhole ⊢
  refine ⟨?_, hopen₂, hb₂⟩
  rw [hstream₂, hstream₁, List.take_of_length_le (by omega), List.take_of_length_le (by omega),
    Outgoing.bytes, List.append_assoc]

/-! ## The end that writes -/

/-- A connection and the messages that were written to it. -/
structure Sender where
  out : Out
  written : List Outgoing

/-- A call on the writing side of a connection. -/
inductive SendAct
  /-- `xs_conn_write_websocket`. -/
  | message (m : Outgoing)
  /-- `xs_conn_cachepurge`. -/
  | purge
  /-- `xs_conn_cacheset`. -/
  | cacheset

namespace Sender

/-- The next call. -/
def next (w : Sender) : SendAct → Option Sender
  | .message m => some ⟨(connWriteWebsocket w.out m.opcode m.payload m.mask).2, w.written ++ [m]⟩
  | .purge => some ⟨(connCachepurge w.out).2, w.written⟩
  | .cacheset => some ⟨connCacheset w.out, w.written⟩

/-- If the call is a write, the message can be sent, and is taken. -/
def Takes (w : Sender) : SendAct → Prop
  | .message m => m.Sendable ∧ m.Taken w.out
  | _ => True

end Sender

/-- The bytes of the messages, in order, are in the kernel or in the cache. -/
theorem sender_invariant {o : Out} (hopen : o.Open) (hb : o.Bounded) {w : Sender}
    (h : Runs Sender.next Sender.Takes ⟨o, []⟩ w) :
    (w.out.stream = o.stream ++ w.written.flatMap Outgoing.bytes ∧ w.out.Open ∧ w.out.Bounded) ∧
      ∀ m ∈ w.written, m.Sendable := by
  refine h.invariant (I := fun w => (w.out.stream = o.stream ++ w.written.flatMap Outgoing.bytes ∧
    w.out.Open ∧ w.out.Bounded) ∧ ∀ m ∈ w.written, m.Sendable)
    ⟨⟨(List.append_nil _).symm, hopen, hb⟩, by simp⟩ ?_
  rintro w a w' ⟨⟨hs, ho, hb⟩, hall⟩ htakes hn
  cases a with
  | message m =>
    obtain rfl := Option.some.inj hn
    obtain ⟨hs', ho', hb'⟩ := htakes.2.stream htakes.1 ho hb
    refine ⟨⟨?_, ho', hb'⟩, ?_⟩
    · rw [hs', hs, List.append_assoc, List.flatMap_append, List.flatMap_singleton]
    · exact List.forall_mem_append.mpr ⟨hall, List.forall_mem_singleton.mpr htakes.1⟩
  | purge =>
    obtain rfl := Option.some.inj hn
    have hp := purges_connCachepurge ho
    exact ⟨⟨hp.stream.trans hs, hp.opened, hp.count_le.trans hb⟩, hall⟩
  | cacheset =>
    obtain rfl := Option.some.inj hn
    exact ⟨⟨hs, ho, hb⟩, hall⟩

/-! ## Both ends -/

/-- A socket that takes two buffers, and then nothing. -/
def Out.twice : Out :=
  (Writer.init (fun i => if i < 2 then .accept INT_MAX else .fail EAGAIN) fun _ => false).out

def Outgoing.hi : Outgoing :=
  ⟨1, ascii "hi", none⟩

def Outgoing.data : Outgoing :=
  ⟨2, [1, 2, 3], none⟩

end Webxs
