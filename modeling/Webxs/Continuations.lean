import Webxs.Unmask

/-!
# Continuation frames

A data message is a first frame with the opcode 1 or 2 and any number of frames with the opcode 0
(`DataMessages`). `xs_websocket_frameparse` clears the request object, and with it the opcode that a
frame before has left, and then refuses an opcode 0 where it finds none. So a frame is refused
iff the call that finds it finds a continuation, or more bytes than a head may have
(`Conn.TakesFrame`), and the opcodes are kept over a run iff no call does
(`opcodesKept_iff`, `not_opcodesKept`).
-/

namespace Webxs

/-! ## Frames and messages -/

theorem readBE_lt {l : List UInt8} {i n v : ℕ} (h : readBE l i n = some v) : v < 256 ^ n := by
  induction n generalizing v with
  | zero =>
    cases h
    exact Nat.one_pos
  | succ n ih =>
    obtain ⟨hi, hhi, h⟩ := Option.bind_eq_some_iff.mp h
    obtain ⟨a, -, h⟩ := Option.bind_eq_some_iff.mp h
    cases h
    have := ih hhi
    have := a.toNat_lt
    rw [pow_succ]
    omega

theorem HeaderParts.lt {b b' : UInt8} {ext key : List UInt8} {v : ℕ}
    (h : HeaderParts b b' ext key v) : v < 2 ^ 64 := by
  have hlen := h.len
  split_ifs at hlen with h126
  · cases hlen
    omega
  · refine (readBE_lt hlen).trans_le ?_
    unfold lenBytes
    split_ifs <;> decide

/-- A frame : its header, as it is split by `HeaderParts`, and its payload as it is sent. -/
structure WsFrame where
  b : UInt8
  b' : UInt8
  ext : List UInt8
  key : List UInt8
  payload : List UInt8
  parts : HeaderParts b b' ext key payload.length

namespace WsFrame

variable (f : WsFrame)

def header : List UInt8 :=
  f.b :: f.b' :: (f.ext ++ f.key)

def bytes : List UInt8 :=
  f.header ++ f.payload

def opcode : ℕ :=
  f.b.toNat % 16

theorem length_bytes : f.payload.length + 2 ≤ f.bytes.length := by
  simp only [bytes, header, List.length_append, List.length_cons]
  omega

/-- What `xs_websocket_framevalid` makes of the header. -/
def parsed : ℤ × List UInt8 × ℕ :=
  ((f.header.length : ℤ), if f.key = [] then [0, 0, 0, 0] else f.key, f.payload.length)

theorem frameScan_header : frameScan f.header = some f.parsed :=
  f.parts.frameScan_eq

end WsFrame

/-- The bytes of the frames in order. -/
def wire (fs : List WsFrame) : List UInt8 :=
  fs.flatMap WsFrame.bytes

@[simp] theorem wire_nil : wire [] = [] := rfl

@[simp] theorem wire_cons (f : WsFrame) (fs : List WsFrame) : wire (f :: fs) = f.bytes ++ wire fs :=
  rfl

@[simp] theorem wire_append (fs gs : List WsFrame) : wire (fs ++ gs) = wire fs ++ wire gs :=
  List.flatMap_append

/-- The frames of some data messages. -/
inductive DataMessages : List WsFrame → Prop
  | nil : DataMessages []
  | message {f : WsFrame} {conts rest : List WsFrame} (hf : f.opcode = 1 ∨ f.opcode = 2)
      (hconts : ∀ g ∈ conts, g.opcode = 0) (hrest : DataMessages rest) :
      DataMessages (f :: (conts ++ rest))

/-- A message of one frame. -/
theorem DataMessages.single {f : WsFrame} {rest : List WsFrame} (hf : f.opcode = 1 ∨ f.opcode = 2)
    (hrest : DataMessages rest) : DataMessages (f :: rest) :=
  have hnil : ∀ g ∈ ([] : List WsFrame), g.opcode = 0 := by simp
  DataMessages.message hf hnil hrest

theorem DataMessages.opcode_le {fs : List WsFrame} (h : DataMessages fs) :
    ∀ f ∈ fs, f.opcode ≤ 2 := by
  induction h with
  | nil => simp
  | message hf hconts _ ih =>
    intro g hg
    rcases List.mem_cons.mp hg with rfl | hg
    · omega
    rcases List.mem_append.mp hg with hg | hg
    · rw [hconts g hg]
      omega
    · exact ih g hg

/-- The opcode of the message that the frames `fs` end in : the last that is not 0. -/
def messageOpcode (fs : List WsFrame) : ℕ :=
  fs.foldl (fun opc f => if f.opcode = 0 then opc else f.opcode) 0

theorem messageOpcode_concat (fs : List WsFrame) (f : WsFrame) :
    messageOpcode (fs ++ [f]) = if f.opcode = 0 then messageOpcode fs else f.opcode := by
  simp [messageOpcode]

/-- It is the one of the first frame of the message. -/
theorem messageOpcode_message (pre : List WsFrame) {f : WsFrame} (hf : f.opcode ≠ 0)
    {conts : List WsFrame} (hconts : ∀ g ∈ conts, g.opcode = 0) :
    messageOpcode (pre ++ f :: conts) = f.opcode := by
  induction conts using List.reverseRecOn with
  | nil => rw [messageOpcode_concat, if_neg hf]
  | append_singleton conts g ih =>
    rw [← List.cons_append, ← List.append_assoc, messageOpcode_concat, if_pos (hconts g (by simp)),
      ih fun h hh => hconts h (by simp [hh])]

/-! ## The current frame -/

/-- The frame `f` is current, with the frames `rest` behind it. -/
structure Conn.Current (c : Conn) (f : WsFrame) (rest : List WsFrame) (req : HttpReq) : Prop where
  head : c.req.head? = some req
  reqlen : req.reqlen ≠ 0
  consumed_le : req.consumed ≤ f.payload.length
  input : c.toRecvBuf.unread ++ c.pending = f.payload.drop req.consumed ++ wire rest

/-- While a frame of `fs` is current, `req->opcode` is the one of its message. -/
def OpcodeKnown (fs : List WsFrame) (c : Conn) : Prop :=
  ∀ pre f rest req, fs = pre ++ f :: rest → c.Current f rest req →
    req.opcode = messageOpcode (pre ++ [f])

/-- The header of a frame is in the buffer, and the connection has an error and no message. -/
structure Conn.Refused (c : Conn) : Prop where
  pending : httpState c.req.head? = ConnState.Pending
  found : (frameScan c.toRecvBuf.unread).isSome
  errnum : c.errnum ≠ 0

theorem Conn.refused_iff (c : Conn) : c.Refused ↔ httpState c.req.head? = ConnState.Pending ∧
    (frameScan c.toRecvBuf.unread).isSome ∧ c.errnum ≠ 0 :=
  ⟨fun h => ⟨h.pending, h.found, h.errnum⟩, fun ⟨hp, hf, he⟩ => ⟨hp, hf, he⟩⟩

instance (c : Conn) : Decidable c.Refused :=
  decidable_of_iff _ c.refused_iff.symm

/-- If the next call finds a frame, it is none that continues a message, and there are no more bytes
than a head may have. -/
def Conn.TakesFrame (c : Conn) : Prop :=
  c.Between → (frameScan c.cleared.offered).isSome →
    c.cleared.offered.length ≤ maxheaderlen ∧ (c.cleared.offered.headD 0).toNat % 16 ≠ 0

/-- Less is left of the input within a frame than before it. -/
theorem wire_ne_drop {a rest : List WsFrame} {f : WsFrame} {x : List UInt8} {o : ℕ} :
    x ++ wire (a ++ f :: rest) ≠ f.payload.drop o ++ wire rest := by
  intro h
  have hlen := congrArg List.length h
  have := f.length_bytes
  simp only [wire_append, wire_cons, List.length_append, List.length_drop] at hlen
  omega

/-- What is left of the input says which frame is current. -/
theorem current_unique {fs pre pre' rest rest' : List WsFrame} {f f' : WsFrame}
    (h : fs = pre ++ f :: rest) (h' : fs = pre' ++ f' :: rest') {o o' : ℕ}
    (hin : f.payload.drop o ++ wire rest = f'.payload.drop o' ++ wire rest') :
    pre = pre' ∧ f = f' := by
  rcases List.append_eq_append_iff.mp (h.symm.trans h') with ⟨a, rfl, ha⟩ | ⟨a, rfl, ha⟩
  · cases a with
    | nil => exact ⟨(List.append_nil _).symm, (List.cons.inj ha).1⟩
    | cons g a =>
      obtain ⟨-, rfl⟩ := List.cons.inj ha
      exact absurd hin wire_ne_drop
  · cases a with
    | nil => exact ⟨List.append_nil _, (List.cons.inj ha).1.symm⟩
    | cons g a =>
      obtain ⟨-, rfl⟩ := List.cons.inj ha
      exact absurd hin.symm wire_ne_drop

/-! ## Over the calls -/

/-- The frames `fs` are read in order : the next one is looked for, or one of them is current, with
the opcode of its message. -/
inductive Serving (fs : List WsFrame) (c : Conn) : Prop
  | looking {pre rest : List WsFrame} (hfs : fs = pre ++ rest) (hat : c.AtFrame (wire rest))
      (hidle : pre = [] ∨ httpState c.req.head? = ConnState.Pending)
  | within {pre rest : List WsFrame} {f : WsFrame} {req : HttpReq} (hfs : fs = pre ++ f :: rest)
      (good : c.Good) (upgrade : c.upgrade = 2) (current : c.Current f rest req)
      (frame : req.Frame f.parsed.2.1 f.payload.length req.consumed)
      (opcode : req.opcode = messageOpcode (pre ++ [f]))
      (hmore : req.consumed < f.payload.length ∨ c.Between)

theorem Serving.opcodeKnown {fs : List WsFrame} {c : Conn} (h : Serving fs c) :
    OpcodeKnown fs c := by
  intro pre' f' rest' req' hfs' hcur
  cases h with
  | looking hfs hat hidle =>
    rename_i pre rest
    rcases hidle with rfl | hp
    · rw [List.nil_append] at hfs
      have hin := hat.input.symm.trans hcur.input
      rw [← hfs, hfs', ← List.nil_append (wire _)] at hin
      exact absurd hin wire_ne_drop
    · rw [hcur.head] at hp
      exact absurd (httpState_eq_pending.mp hp) hcur.reqlen
  | within hfs good upgrade current frame opcode hmore =>
    obtain ⟨rfl, rfl⟩ := current_unique hfs hfs' (current.input.symm.trans hcur.input)
    obtain rfl := Option.some.inj (current.head.symm.trans hcur.head)
    exact opcode

/-- What `xs_websocket_frameparse` makes of the opcodes of data messages. -/
theorem websocketFrameparse_continuation (req : HttpReq) {b : UInt8} (hb : b.toNat % 16 = 0)
    (key : List UInt8) (n : ℕ) : (websocketFrameparse req b key n).1 = Error.WS_BadContinue := by
  unfold websocketFrameparse
  dsimp only
  rw [hb]
  rfl

theorem websocketFrameparse_first (req : HttpReq) {b : UInt8}
    (hb : b.toNat % 16 = 1 ∨ b.toNat % 16 = 2) (key : List UInt8) (n : ℕ) :
    (websocketFrameparse req b key n).1 = 0 ∧
      (websocketFrameparse req b key n).2.opcode = b.toNat % 16 ∧
      (websocketFrameparse req b key n).2.statuscode = 0 := by
  unfold websocketFrameparse
  dsimp only
  rcases hb with hb | hb <;> rw [hb] <;> exact ⟨rfl, rfl, rfl⟩

/-- A header found at the start of the frames is the one of the first. -/
theorem frameScan_wire {fs : List WsFrame} {l m : List UInt8} (hl : l ++ m = wire fs)
    {p : ℤ × List UInt8 × ℕ} (hp : frameScan l = some p) :
    ∃ f rest, fs = f :: rest ∧ p = f.parsed ∧ l.headD 0 = f.b := by
  cases fs with
  | nil =>
    rw [List.append_eq_nil_iff.mp hl |>.1] at hp
    cases hp
  | cons f rest =>
    refine ⟨f, rest, rfl, ?_, ?_⟩
    · have h₁ := frameScan_incremental.of_prefix hp (List.prefix_append l m)
      have h₂ := frameScan_incremental.of_prefix f.frameScan_header
        (List.prefix_append f.header (f.payload ++ wire rest))
      rw [hl, wire_cons, WsFrame.bytes, List.append_assoc, h₂] at h₁
      exact (Option.some.inj h₁).symm
    · cases l with
      | nil => cases hp
      | cons a l => exact (List.cons.inj hl).1

theorem headFound_upgraded {c : Conn} (hu : c.upgrade = 2) (l : List UInt8) :
    headFound c.upgrade l = (frameScan l).map Prod.fst :=
  if_neg (by omega)

/-- A continuation that is found is refused, and a first frame becomes the current message. -/
theorem readFound_data (env : Env) {c : Conn} (s : ℤ) (hv : c.toRecvBuf.Valid)
    (h0 : c.consumed = 0) (hu : c.upgrade = 2) {f : WsFrame} {rest : List WsFrame}
    (hin : c.buf ++ c.pending = wire (f :: rest)) (hf : frameScan c.buf = some f.parsed)
    (hb : c.buf.headD 0 = f.b) :
    ∃ r, readFound env c s f.parsed.1 = some r ∧ r.2.upgrade = 2 ∧
      (f.opcode = 0 → r.1.n = -1 ∧ r.2.errnum = Error.InvalidRequest ∧
        r.2.toRecvBuf = c.toRecvBuf ∧ r.2.toPeer = c.toPeer ∧
        httpState r.2.req.head? = ConnState.Pending) ∧
      (f.opcode = 1 ∨ f.opcode = 2 → ∃ req, r.2.Current f rest req ∧
        req.Frame f.parsed.2.1 f.payload.length req.consumed ∧ req.opcode = f.opcode ∧
        (req.consumed < f.payload.length ∨ r.2.Between)) := by
  obtain ⟨hpos, hle, -⟩ := frameScan_bound hf
  have hfirst : (c.buf.take f.parsed.1.toNat).headD 0 = f.b := by
    rw [← hb]
    cases c.buf with
    | nil => rw [List.take_nil]
    | cons a l =>
      obtain ⟨k, hk⟩ : ∃ k, f.parsed.1.toNat = k + 1 := ⟨f.parsed.1.toNat - 1, by omega⟩
      rw [hk, List.take_succ_cons, List.headD_cons, List.headD_cons]
  have hparsed : frameScan c.buf = some (f.parsed.1, f.parsed.2.1, f.payload.length) := hf
  obtain ⟨r, hr, -, hpeer, hupgrade, hbad, hgood⟩ := readFound_parsed env s hv hu hparsed rfl
  rw [hfirst] at hbad hgood
  obtain ⟨hframe, hlen⟩ := websocketFrameparse_frame c.nalloc (f.parsed.1.toNat + 1) f.b
    f.parsed.2.1 f.payload.length
  refine ⟨r, hr, hupgrade, fun hop => ?_, fun hop => ?_⟩
  · have herr := websocketFrameparse_continuation
      (HttpReq.alloc c.nalloc (f.parsed.1.toNat + 1)) hop f.parsed.2.1 f.payload.length
    obtain ⟨hn, he, hbuf, hreq⟩ := hbad (by rw [herr]; decide)
    exact ⟨hn, he, hbuf, hpeer, by rw [hreq]; exact httpState_eq_pending.mpr hlen⟩
  · obtain ⟨herr, hopc, hstatus⟩ := websocketFrameparse_first
      (HttpReq.alloc c.nalloc (f.parsed.1.toNat + 1)) hop f.parsed.2.1 f.payload.length
    obtain ⟨hbuf, hreq⟩ := hgood herr
    generalize websocketFrameparse (HttpReq.alloc c.nalloc (f.parsed.1.toNat + 1)) f.b
      f.parsed.2.1 f.payload.length = p at hframe hopc hstatus hreq
    obtain ⟨h1, h2, h3, h4, h5⟩ := hframe
    refine ⟨{ p.2 with reqlen := f.parsed.1, upgrade := 2 }, ⟨by rw [hreq]; rfl, hpos.ne', ?_, ?_⟩,
      ⟨h1, rfl, h3, h4, h5⟩, hopc, ?_⟩
    · exact h2.le.trans (Nat.zero_le _)
    · have hdrop : (c.buf ++ c.pending).drop f.parsed.1.toNat = f.payload ++ wire rest := by
        rw [hin, wire_cons, WsFrame.bytes, List.append_assoc]
        exact List.drop_left
      have hunread : (c.toRecvBuf.consume f.parsed.1).unread = c.buf.drop f.parsed.1.toNat := by
        rw [hv.unread_consume hpos.le, RecvBuf.unread_eq_buf h0]
      rw [hbuf, hpeer, hunread, ← List.drop_append_of_le_length (by omega), hdrop, h2,
        List.drop_zero]
    · rcases Nat.eq_zero_or_pos f.payload.length with hw | hw
      · refine .inr (.inr ?_)
        rw [hreq, List.head?_cons]
        simp [httpState, hpos.ne', h1, hw, h4, h5, hstatus]
      · exact .inl (h2.trans_lt hw)

/-- What a call does where the frames `fs` come next : it goes on looking for the first, or refuses
it, or makes it the current message. -/
theorem atFrame_call (env : Env) {fs : List WsFrame} {c : Conn} (hc : c.AtFrame (wire fs))
    {len : ℕ} {r : ReadRet × Conn} (hr : connHttpread env c len = some r) :
    frameScan c.cleared.offered = none ∧ r.2.AtFrame (wire fs) ∧
        httpState r.2.req.head? = ConnState.Pending ∧ ¬r.2.Refused ∨
      (frameScan c.cleared.offered).isSome ∧ maxheaderlen < c.cleared.offered.length ∧
        r.2.Refused ∨
      ∃ f rest, fs = f :: rest ∧ (frameScan c.cleared.offered).isSome ∧
        c.cleared.offered.length ≤ maxheaderlen ∧ c.cleared.offered.headD 0 = f.b ∧
        (f.opcode = 0 → r.1.n = -1 ∧ r.2.errnum = Error.InvalidRequest ∧ r.2.AtFrame (wire fs) ∧
          r.2.Refused) ∧
        (f.opcode = 1 ∨ f.opcode = 2 → r.2.Good ∧ r.2.upgrade = 2 ∧
          ∃ req, r.2.Current f rest req ∧ req.Frame f.parsed.2.1 f.payload.length req.consumed ∧
            req.opcode = f.opcode ∧ (req.consumed < f.payload.length ∨ r.2.Between)) := by
  obtain ⟨r', hr', hg⟩ := connHttpread_good env hc.good (between_lastChunkWhole hc.between) len
  rw [hr] at hr'
  cases hr'
  have hready := cleared_ready hc.good hc.between
  have hu : c.cleared.upgrade = 2 := hready.upgrade.trans hc.upgrade
  have hwhole : c.cleared.toRecvBuf.unread ++ c.cleared.pending = wire fs := by
    rw [hready.unread, hready.toPeer]
    exact hc.input
  obtain ⟨s, -, hcall⟩ := connHttpread_cleared env hc.good hc.between len
  rw [hcall] at hr
  obtain ⟨o, p, b, hbv, hb0, hbuf, hin, ⟨⟨n, hn⟩, hlarge⟩ | ⟨n, hpos, hfound, hle, hn⟩⟩ :=
    readHead_cases env s hready.good.valid hready.consumed
  · rw [hn] at hr
    cases hr
    have hunread : b.unread = c.cleared.offered := (RecvBuf.unread_eq_buf hb0).trans hbuf
    cases hscan : frameScan c.cleared.offered with
    | none =>
      refine .inl ⟨rfl, ⟨hg, .inl hready.pending, hu, ?_⟩, hready.pending, fun href => ?_⟩
      · rw [Conn.put_toRecvBuf, RecvBuf.unread_eq_buf hb0]
        exact hin.trans hwhole
      · have hfound := href.found
        rw [Conn.put_toRecvBuf, hunread, hscan] at hfound
        cases hfound
    | some q =>
      obtain ⟨hmax, herr⟩ := hlarge q.1 (frameScan_bound hscan).1
        (by rw [headFound_upgraded hu, hscan]; rfl) hready.errnum
      refine .inr (.inl ⟨rfl, hmax, hready.pending, ?_, ?_⟩)
      · rw [Conn.put_toRecvBuf, hunread, hscan]
        rfl
      · rw [Conn.put_toOut, herr]
        decide
  · rw [headFound_upgraded hu] at hfound
    obtain ⟨q, hq, rfl⟩ := Option.map_eq_some_iff.mp hfound
    obtain ⟨f, rest, rfl, rfl, hb⟩ := frameScan_wire (hin.trans hwhole) hq
    obtain ⟨r', hr', hupgrade, hbad, hgood⟩ := readFound_data env (c := c.cleared.put o p b) s hbv
      hb0 hu (hin.trans hwhole) hq hb
    rw [hn, hr'] at hr
    cases hr
    refine .inr (.inr ⟨f, rest, rfl, by rw [← hbuf, hq]; rfl, hle, by rw [← hbuf, hb],
      fun hop => ?_, fun hop => ⟨hg, hupgrade, hgood hop⟩⟩)
    obtain ⟨hn1, herr, hbuf', hpeer, hpending⟩ := hbad hop
    refine ⟨hn1, herr, ⟨hg, .inl hpending, hupgrade, ?_⟩, hpending, ?_, by rw [herr]; decide⟩
    · rw [hbuf', hpeer, Conn.put_toRecvBuf, RecvBuf.unread_eq_buf hb0]
      exact hin.trans hwhole
    · rw [hbuf', Conn.put_toRecvBuf, RecvBuf.unread_eq_buf hb0, hq]
      rfl

theorem looking_step (env : Env) {fs pre rest : List WsFrame} (hm : DataMessages fs)
    (hfs : fs = pre ++ rest) {c : Conn} (hc : c.AtFrame (wire rest)) {len : ℕ}
    {r : ReadRet × Conn} (hr : connHttpread env c len = some r) :
    (c.TakesFrame → Serving fs r.2 ∧ ¬r.2.Refused) ∧ (¬c.TakesFrame → r.2.Refused) := by
  rcases atFrame_call env hc hr with ⟨hnone, hat, hpending, hnot⟩ | ⟨hsome, hmax, href⟩ |
    ⟨f, rest', rfl, hsome, hle, hb, hbad, hgood⟩
  · refine ⟨fun _ => ⟨.looking hfs hat (.inr hpending), hnot⟩, fun hno => ?_⟩
    refine absurd (fun _ hsome => ?_) hno
    rw [hnone] at hsome
    cases hsome
  · refine ⟨fun htakes => ?_, fun _ => href⟩
    have := (htakes hc.between hsome).1
    omega
  · refine ⟨fun htakes => ?_, fun hno => ?_⟩
    · have hop : f.opcode ≠ 0 := by
        rw [WsFrame.opcode, ← hb]
        exact (htakes hc.between hsome).2
      have hle2 := hm.opcode_le f (by rw [hfs]; simp)
      obtain ⟨hg, hu, req, hcur, hframe, hopc, hmore⟩ := hgood (by omega)
      refine ⟨.within hfs hg hu hcur hframe ?_ hmore, fun href => ?_⟩
      · rw [messageOpcode_concat, if_neg hop, hopc]
      · have hpending := href.pending
        rw [hcur.head] at hpending
        exact hcur.reqlen (httpState_eq_pending.mp hpending)
    · refine (hbad ?_).2.2.2
      by_contra hop
      exact hno fun _ _ => ⟨hle, by rw [hb]; exact hop⟩

theorem httpState_of_lt {req : HttpReq} (hl : req.reqlen ≠ 0)
    (hlt : req.consumed < req.contentlen) :
    httpState (some req) ≠ ConnState.Pending ∧ httpState (some req) ≠ ConnState.Complete := by
  unfold httpState
  dsimp only
  rw [if_neg hl, if_neg (by omega), if_pos (.inl (by omega))]
  split_ifs <;> decide

theorem within_step (env : Env) {fs pre rest : List WsFrame} {f : WsFrame} {req : HttpReq}
    (hfs : fs = pre ++ f :: rest) {c : Conn} (hg : c.Good) (hu : c.upgrade = 2)
    (hcur : c.Current f rest req)
    (hframe : req.Frame f.parsed.2.1 f.payload.length req.consumed)
    (hopc : req.opcode = messageOpcode (pre ++ [f])) (hlt : req.consumed < f.payload.length)
    {len : ℕ} (hlen : len < 2 ^ 31) {r : ReadRet × Conn} (hr : connHttpread env c len = some r) :
    Serving fs r.2 ∧ ¬r.2.Refused := by
  have hin : c.InFrame f.parsed.2.1 f.payload (wire rest) req.consumed :=
    ⟨hg, hlt, ⟨req, hcur.head, hcur.reqlen, hframe⟩, hcur.input⟩
  obtain ⟨req₁, req', raw, hreq₁, -, hframe₁, hraw, -, -, hg', hu', hreq', hl', hopc', hframe',
    hinput⟩ := inFrame_read env hin f.parts.lt hr
  obtain rfl := Option.some.inj (hcur.head.symm.trans hreq₁)
  have hle : req.consumed + raw.length ≤ f.payload.length := by
    have hmin : min len (req.contentlen - req.consumed) < 2 ^ 31 := by omega
    have hread := c.length_atHand hmin
    rw [hraw, hframe.contentlen] at hread
    omega
  have hmod : (req.consumed + raw.length) % 2 ^ 64 = req.consumed + raw.length :=
    Nat.mod_eq_of_lt (hle.trans_lt f.parts.lt)
  rw [hmod] at hframe'
  have hcons : req'.consumed = req.consumed + raw.length := hframe'.consumed
  have hcur' : r.2.Current f rest req' :=
    ⟨hreq', hl', hcons.trans_le hle, by
      rw [hinput, hcons, List.drop_append_of_le_length hle]⟩
  refine ⟨.within hfs hg' (hu'.trans hu) hcur' (hcons ▸ hframe') (hopc'.trans hopc) ?_,
    fun href => ?_⟩
  · rcases hle.lt_or_eq with h | h
    · exact .inl (hcons.trans_lt h)
    · refine .inr (.inr ?_)
      rw [hreq']
      have hc := hframe'.contentlen
      simp [httpState, hl', hc, hframe'.chunked, hcons, h, (Nat.zero_le _).trans_lt hlt |>.ne']
  · have hpending := href.pending
    rw [hreq'] at hpending
    exact hl' (httpState_eq_pending.mp hpending)

/-- A call keeps to the frames if it takes the one that it finds, and refuses it otherwise. -/
theorem serving_step (env : Env) {fs : List WsFrame} (hm : DataMessages fs) {c : Conn}
    (hc : Serving fs c) {len : ℕ} (hlen : len < 2 ^ 31) {r : ReadRet × Conn}
    (hr : connHttpread env c len = some r) :
    (c.TakesFrame → Serving fs r.2 ∧ ¬r.2.Refused) ∧ (¬c.TakesFrame → r.2.Refused) := by
  cases hc with
  | looking hfs hat _ => exact looking_step env hm hfs hat hr
  | within hfs good upgrade current frame opcode hmore =>
    rename_i pre rest f req
    by_cases hlt : req.consumed < f.payload.length
    · refine ⟨fun _ => within_step env hfs good upgrade current frame opcode hlt hlen hr,
        fun hno => absurd (fun hb => ?_) hno⟩
      have hstate := httpState_of_lt current.reqlen (frame.contentlen ▸ hlt)
      rw [Conn.Between, current.head] at hb
      exact (hb.elim hstate.1 hstate.2).elim
    · have hat : c.AtFrame (wire rest) := ⟨good, hmore.resolve_left hlt, upgrade, by
        rw [current.input, List.drop_eq_nil_of_le (by omega), List.nil_append]⟩
      have hfs' : fs = (pre ++ [f]) ++ rest := by
        rw [hfs, List.append_assoc, List.singleton_append]
      exact looking_step env hm hfs' hat hr

instance (c : Conn) : Decidable c.TakesFrame := by
  unfold Conn.TakesFrame Conn.Between
  infer_instance

/-- Over the calls on an upgraded connection to which data messages are sent, no frame is refused
and the opcode is known while a frame is current, iff no call finds a frame that continues a message
or too many bytes. A continuation is refused where there is no message before it, as elsewhere. -/
theorem opcodesKept_iff (env : Env) {fs : List WsFrame} (hm : DataMessages fs) {c : Conn}
    (hc : c.AtFrame (wire fs)) {lens : List ℕ} (hlens : ∀ len ∈ lens, len < 2 ^ 31)
    {rs : List (ReadRet × Conn)} (hrs : Calls.run (connHttpread env) c lens = some rs) :
    ((∀ r ∈ rs, ¬r.2.Refused ∧ OpcodeKnown fs r.2) ↔
      Calls.Along (connHttpread env) (fun c _ => c.TakesFrame) c lens) ∧
    ∀ (f : WsFrame) (gs : List WsFrame) (c' : Conn) (len : ℕ) (r : ReadRet × Conn),
      f.opcode = 0 → c'.AtFrame (wire (f :: gs)) → connHttpread env c' len = some r →
      (frameScan c'.cleared.offered).isSome → c'.cleared.offered.length ≤ maxheaderlen →
        (∀ req key n, (websocketFrameparse req f.b key n).1 = Error.WS_BadContinue) ∧
        r.1.n = -1 ∧ r.2.errnum = Error.InvalidRequest ∧ r.2.AtFrame (wire (f :: gs)) ∧
        r.2.Refused := by
  refine ⟨?_, fun f gs c' len r hop hc' hr hsome hle => ?_⟩
  · refine Calls.forall_iff_along_of_run (I := Serving fs)
      (G := fun c => ¬c.Refused ∧ OpcodeKnown fs c) (fun s len r hs hlen hr => ?_) hlens
      (.looking (List.nil_append fs).symm hc (.inl rfl)) hrs
    obtain ⟨hkeep, hlose⟩ := serving_step env hm hs hlen hr
    exact ⟨fun hp => ⟨(hkeep hp).1, (hkeep hp).2, (hkeep hp).1.opcodeKnown⟩,
      fun hp hG => hG.1 (hlose hp)⟩
  · rcases atFrame_call env hc' hr with ⟨hnone, -⟩ | ⟨-, hmax, -⟩ | ⟨g, rest, hg, -, -, -, hbad, -⟩
    · rw [hnone] at hsome
      cases hsome
    · omega
    · obtain ⟨rfl, rfl⟩ := List.cons.inj hg
      exact ⟨fun req key n => websocketFrameparse_continuation req hop key n, hbad hop⟩

/-- The frame with the one byte `a` as its payload, masked. -/
def byteFrame (b a : UInt8) : WsFrame :=
  ⟨b, 0x81, [], [1, 2, 3, 4], [a], ⟨rfl, rfl, rfl⟩⟩

open Interleaving

/-- Two messages of a frame each. -/
theorem opcodesKept_iff_twoMessages :
    ∃ c : Conn, c.AtFrame (wire [byteFrame 0x81 9, byteFrame 0x82 8]) ∧
      ∃ rs, Calls.run (connHttpread .plain) c [4, 4, 4, 4] = some rs ∧
        ∀ r ∈ rs, ¬r.2.Refused ∧ OpcodeKnown [byteFrame 0x81 9, byteFrame 0x82 8] r.2 := by
  obtain ⟨c, hrun, hstate, hu, hin, hrs, ha⟩ : ∃ c,
      Runs (readNext .plain) (fun c _ => c.LastChunkWhole)
        (Conn.init (fun _ => .data 1000)
          (upgradeRequest ++ wire [byteFrame 0x81 9, byteFrame 0x82 8]) .idle) c ∧
      httpState c.req.head? = ConnState.Complete ∧ c.upgrade = 2 ∧
      c.toRecvBuf.unread ++ c.pending = wire [byteFrame 0x81 9, byteFrame 0x82 8] ∧
      (Calls.run (connHttpread .plain) c [4, 4, 4, 4]).isSome ∧
      Calls.Along (connHttpread .plain) (fun c _ => c.TakesFrame) c [4, 4, 4, 4] :=
    exists_runs_of_runSchedule [1] (by decide +kernel)
  obtain ⟨rs, hrs⟩ := Option.isSome_iff_exists.mp hrs
  have hm : DataMessages [byteFrame 0x81 9, byteFrame 0x82 8] :=
    .single (.inl rfl) (.single (.inr rfl) .nil)
  have hat : c.AtFrame (wire [byteFrame 0x81 9, byteFrame 0x82 8]) :=
    ⟨good_of_runs hrun, .inr hstate, hu, hin⟩
  exact ⟨c, hat, rs, hrs, (opcodesKept_iff .plain hm hat (by decide) hrs).1.mpr ha⟩

/-- A message of two frames : the second is refused. -/
theorem not_opcodesKept :
    ∃ (env : Env) (recvs : ℕ → RecvAns) (stream : List UInt8) (sock : Sock) (c : Conn)
      (fs : List WsFrame) (lens : List ℕ),
      Reachable (readNext env) (Conn.init recvs stream sock) c ∧ DataMessages fs ∧ c.Between ∧
      c.upgrade = 2 ∧ c.toRecvBuf.unread ++ c.pending = wire fs ∧ (∀ len ∈ lens, 1 ≤ len) ∧
      ∃ rs, Calls.run (connHttpread env) c lens = some rs ∧ ∃ r ∈ rs, r.2.Refused := by
  obtain ⟨c, hrun, hstate, hu, hin, hrs⟩ : ∃ c,
      Reachable (readNext .plain) (Conn.init (fun _ => .data 1000)
        (upgradeRequest ++ wire [byteFrame 0x01 9, byteFrame 0x80 8]) .idle) c ∧
      httpState c.req.head? = ConnState.Complete ∧ c.upgrade = 2 ∧
      c.toRecvBuf.unread ++ c.pending = wire [byteFrame 0x01 9, byteFrame 0x80 8] ∧
      (Calls.run (connHttpread .plain) c [1, 1, 1]).any
        (fun rs => rs.any fun r => decide r.2.Refused) = true :=
    exists_runs_of_runSchedule [1] (by decide +kernel)
  obtain ⟨rs, hrs, hany⟩ := (Option.any_eq_true _ _).mp hrs
  obtain ⟨r, hr, href⟩ := List.any_eq_true.mp hany
  have hconts : ∀ g ∈ [byteFrame 0x80 8], g.opcode = 0 := List.forall_mem_singleton.mpr rfl
  have hm : DataMessages [byteFrame 0x01 9, byteFrame 0x80 8] := .message (.inl rfl) hconts .nil
  exact ⟨.plain, _, _, _, c, _, [1, 1, 1], hrun, hm, .inr hstate, hu, hin, by decide, rs, hrs, r,
    hr, of_decide_eq_true href⟩

end Webxs
