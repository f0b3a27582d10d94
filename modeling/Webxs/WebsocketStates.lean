import Webxs.Calls
import Webxs.Reading

/-!
# The states of a WebSocket

An application learns of a new WebSocket from the state `exs_Conn_WSNew` (`server_handler` in
`webxs.c`), which `xs_conn_state` gives while the request that was upgraded is in the state
`exs_Conn_Header`. A request without body is in that state only while its fake state is set, and
`xs_conn_httpread` does not set it for an upgrade request.

So no such connection ever reports `exs_Conn_WSNew`, and the states it reports never are those of
a WebSocket (`not_wsSequence`). Before the upgrade the invariant is that no object which a new
message can take carries the fake state (`Conn.Fresh`), after it that the request which was upgraded
is complete, and the others are marked (`Conn.Upgraded`).
-/

namespace Webxs

/-! ## Reported states -/

namespace ConnState

/-- `exs_Conn_WSFrameBegin`. -/
def WSFrameBegin : ℤ := Header + WSMask
/-- `exs_Conn_WSFrameRead`. -/
def WSFrameRead : ℤ := Response + WSMask
/-- `exs_Conn_WSFrameEnd`. -/
def WSFrameEnd : ℤ := Complete + WSMask

end ConnState

/-- The states after the calls that return `n ≥ 0` without error. -/
def reported (rs : List (ReadRet × Conn)) : List ℤ :=
  (rs.filter fun r => decide (0 ≤ r.1.n ∧ r.2.errnum = 0)).map fun r => connState r.2

/-- The states of a frame : with or without its begin, and the number of its reads. -/
def frameStates (f : Bool × ℕ) : List ℤ :=
  (if f.1 then [ConnState.WSFrameBegin] else []) ++
    (List.replicate f.2 ConnState.WSFrameRead ++ [ConnState.WSFrameEnd])

/-- The states of a WebSocket : it is new, then those of frames, the last of which may not be
complete yet. -/
def WSSequence (states : List ℤ) : Prop :=
  ∃ (frames : List (Bool × ℕ)) (f : Bool × ℕ) (rest : List ℤ), rest <+: frameStates f ∧
    states = ConnState.WSNew :: (frames.flatMap frameStates ++ rest)

/-- A call that ends in `c'` has accepted an upgrade request without body. -/
structure AcceptsUpgrade (c c' : Conn) : Prop where
  plain : c.upgrade = 0
  upgraded : c'.upgrade = 2
  request : ∃ req, c'.req.head? = some req ∧ req.method.isSome = true ∧ req.contentlen = 0 ∧
    req.chunked = false

/-! ## The request objects -/

/-- What the states depend on, besides `errnum`. -/
def Conn.reqs (c : Conn) : List HttpReq × List HttpReq × ℕ :=
  (c.req, c.freereq, c.upgrade)

variable {env : Env} {c c' : Conn} {q q' : HttpReq}

theorem reqs_eq (h : c'.reqs = c.reqs) :
    c'.req = c.req ∧ c'.freereq = c.freereq ∧ c'.upgrade = c.upgrade := by
  simpa [Conn.reqs] using h

theorem connRead_reqs (c : Conn) (len : ℤ) : (connRead c len).2.2.2.reqs = c.reqs := by
  have hrecv : ∀ (c : Conn) (len : ℤ), (c.recv len).2.2.reqs = c.reqs := by
    intro c len
    unfold Conn.recv
    cases c.recvs 0 with
    | data n =>
      dsimp only
      split_ifs <;> rfl
    | fail => rfl
    | closed => rfl
  unfold connRead
  dsimp only
  split_ifs <;> exact hrecv _ _

theorem connFill_reqs (c : Conn) : (connFill c).2.2.reqs = c.reqs :=
  connRead_reqs c _

theorem connHeaderready_reqs {n : ℤ} (h : connHeaderready c = some (n, c')) :
    c'.reqs = c.reqs := by
  have hfill : ∀ (c : Conn) rlen, ∀ r ∈ headerFill c rlen, r.2.2.reqs = c.reqs := by
    intro c rlen r hr
    unfold headerFill at hr
    split_ifs at hr with h0
    · cases hr
      rfl
    · dsimp only at hr
      split_ifs at hr
      · obtain ⟨_, _, rfl⟩ := Option.mem_map.mp hr
        exact connFill_reqs c
      · cases hr
        exact connFill_reqs c
  unfold connHeaderready at h
  dsimp only at h
  obtain ⟨rlen, -, h⟩ := Option.bind_eq_some_iff.mp h
  obtain ⟨r, hr, h⟩ := Option.map_eq_some_iff.mp h
  obtain rfl : (headerEnd r.1 r.2.1 r.2.2).2 = c' := congrArg Prod.snd h
  have hend : (headerEnd r.1 r.2.1 r.2.2).2.reqs = r.2.2.reqs := by
    unfold headerEnd
    split_ifs <;> rfl
  rw [hend, hfill _ _ r hr]
  split_ifs <;> rfl

/-- What a call inside a message does to its object : the fake state is not set, and where it is
set nothing changes. -/
structure HttpReq.Keeps (q q' : HttpReq) : Prop where
  upgrade : q'.upgrade = q.upgrade
  reqlen : q.reqlen = 0 → q'.reqlen = 0
  header : q'.header = true → q' = q
  bare : q.contentlen = 0 → q.chunked = false → q'.contentlen = 0 ∧ q'.chunked = false

/-- The current object is kept. -/
structure Conn.Keeps (c c' : Conn) : Prop where
  upgrade : c'.upgrade = c.upgrade
  freereq : c'.freereq = c.freereq
  head : ∀ q', c'.req.head? = some q' → ∃ q, c.req.head? = some q ∧ q.Keeps q'

theorem HttpReq.Keeps.rfl' (q : HttpReq) : q.Keeps q :=
  ⟨rfl, fun h => h, fun _ => rfl, fun h h' => ⟨h, h'⟩⟩

theorem Conn.Keeps.of_reqs (h : c'.reqs = c.reqs) : c.Keeps c' := by
  obtain ⟨hreq, hfree, hup⟩ := reqs_eq h
  exact ⟨hup, hfree, fun q hq => ⟨q, hreq ▸ hq, .rfl' q⟩⟩

theorem modifyReq_head {f : HttpReq → HttpReq} (h : (c.modifyReq f).req.head? = some q') :
    ∃ q, c.req.head? = some q ∧ f q = q' := by
  cases hc : c.req with
  | nil => simp [Conn.modifyReq, hc] at h
  | cons q rest =>
    simp only [Conn.modifyReq, hc, List.modifyHead_cons, List.head?_cons, Option.some.injEq] at h
    exact ⟨q, rfl, h⟩

/-- Changing the object keeps it if the change does. -/
theorem Conn.Keeps.modifyReq {f : HttpReq → HttpReq} {c₁ : Conn} (h : c₁.reqs = c.reqs)
    (hf : ∀ q, c.req.head? = some q → q.Keeps (f q)) : c.Keeps (c₁.modifyReq f) := by
  obtain ⟨hreq, hfree, hup⟩ := reqs_eq h
  refine ⟨hup, hfree, fun q' hq' => ?_⟩
  obtain ⟨q, hq, rfl⟩ := modifyReq_head hq'
  exact ⟨q, hreq ▸ hq, hf q (hreq ▸ hq)⟩

/-- What reading the body of a message does not change. -/
def Conn.marks (c : Conn) : List HttpReq × ℕ × Option (Bool × ℤ × ℕ) :=
  (c.freereq, c.upgrade, c.req.head?.map fun q => (q.header, q.reqlen, q.upgrade))

theorem marks_of_reqs (h : c'.reqs = c.reqs) : c'.marks = c.marks := by
  obtain ⟨hreq, hfree, hup⟩ := reqs_eq h
  rw [Conn.marks, hreq, hfree, hup, Conn.marks]

theorem modifyReq_marks {f : HttpReq → HttpReq}
    (hf : ∀ q, ((f q).header, (f q).reqlen, (f q).upgrade) = (q.header, q.reqlen, q.upgrade)) :
    (c.modifyReq f).marks = c.marks := by
  unfold Conn.marks Conn.modifyReq
  cases c.req with
  | nil => rfl
  | cons q rest =>
    simp only [List.modifyHead_cons, List.head?_cons, Option.map_some]
    rw [hf]

/-- A message with chunks or a length, outside its fake state, is kept. -/
theorem Conn.Keeps.of_marks (h : c'.marks = c.marks) (hq : c.req.head? = some q)
    (hh : q.header = false) (hbody : ¬(q.contentlen = 0 ∧ q.chunked = false)) : c.Keeps c' := by
  simp only [Conn.marks, Prod.mk.injEq, hq, Option.map_some] at h
  refine ⟨h.2.1, h.1, fun q' hq' => ⟨q, hq, ?_⟩⟩
  simp only [hq', Option.map_some, Option.some.injEq, Prod.mk.injEq] at h
  obtain ⟨-, -, hh', hl, hu⟩ := h
  exact ⟨hu, fun h0 => hl.trans h0, fun ht => absurd (hh'.symm.trans ht) (by simp [hh]),
    fun hc hch => absurd ⟨hc, hch⟩ hbody⟩

/-! ## Reading a body -/

theorem connChunkready_marks {n : ℤ} (h : connChunkready c = some (n, c')) :
    c'.marks = c.marks := by
  have hfill : ∀ (c : Conn) r, ∀ p ∈ chunkFill c r, p.2.reqs = c.reqs := by
    intro c r p hp
    unfold chunkFill at hp
    split_ifs at hp
    · cases hp
      rfl
    · dsimp only at hp
      split_ifs at hp
      · obtain ⟨_, _, rfl⟩ := Option.mem_map.mp hp
        exact connFill_reqs c
      · cases hp
        exact connFill_reqs c
  unfold connChunkready at h
  simp only [Option.bind_eq_bind, Option.bind_eq_some_iff] at h
  obtain ⟨r, -, ⟨r', c₁⟩, hr, h⟩ := h
  have h₁ : c₁.marks = c.marks := marks_of_reqs (hfill _ _ _ hr)
  split_ifs at h
  · obtain ⟨enc, -, h⟩ := Option.map_eq_some_iff.mp h
    obtain rfl : c₁.takeLine r'.1 enc = c' := congrArg Prod.snd h
    refine (modifyReq_marks ?_).trans h₁
    exact fun _ => rfl
  · cases h
    exact h₁

theorem readBytesOf_reqs {len : ℕ} : ∀ r ∈ readBytesOf c len, r.2.2.2.reqs = c.reqs := by
  intro r hr
  unfold readBytesOf at hr
  split_ifs at hr
  · obtain ⟨_, _, rfl⟩ := Option.mem_map.mp hr
    rfl
  · cases hr
    exact connRead_reqs c _

theorem readData_marks {len : ℕ} {r : ReadRet} (h : readData c q len = some (r, c')) :
    c'.marks = c.marks := by
  unfold readData at h
  split_ifs at h
  · obtain ⟨p, hp, h⟩ := Option.map_eq_some_iff.mp h
    obtain rfl := congrArg Prod.snd h
    have hm := marks_of_reqs (readBytesOf_reqs p hp)
    dsimp only
    split_ifs
    · refine (modifyReq_marks ?_).trans hm
      exact fun _ => rfl
    · exact hm
  · cases h
    rfl

theorem readChunk_marks {s n : ℤ} {len : ℕ} {r : ReadRet}
    (h : readChunk c s n len = some (r, c')) : c'.marks = c.marks := by
  unfold readChunk at h
  by_cases hn : n ≤ 0
  · rw [if_pos hn] at h
    cases h
    split_ifs
    · exact modifyReq_marks fun _ => rfl
    · rfl
  · rw [if_neg hn] at h
    obtain ⟨req, -, h⟩ := Option.bind_eq_some_iff.mp h
    exact readData_marks h

/-- Reading a body keeps the message. -/
theorem readBody_keeps {s : ℤ} {len : ℕ} {r : ReadRet} (hq : c.req.head? = some q)
    (hh : q.header = true → q.contentlen = 0 ∧ q.chunked = false)
    (h : readBody c s q len = some (r, c')) : c.Keeps c' := by
  unfold readBody at h
  by_cases hbare : q.contentlen = 0 ∧ q.chunked = false
  · rw [if_neg (by simp [hbare.2]), readData, if_neg (by omega)] at h
    cases h
    exact .of_reqs rfl
  · have hfalse : q.header = false := by
      rw [← Bool.not_eq_true]
      exact fun ht => hbare (hh ht)
    refine .of_marks ?_ hq hfalse hbare
    split_ifs at h
    · obtain ⟨⟨n, c₁⟩, h₁, h⟩ := Option.bind_eq_some_iff.mp h
      exact (readChunk_marks h).trans (connChunkready_marks h₁)
    · exact readData_marks h

/-! ## Starting a message -/

/-- A new object, whose head was parsed with the result `err`. -/
structure HttpReq.Created (upgrade : ℕ) (err : ℤ) (q : HttpReq) : Prop where
  header : q.header = false
  done : q.done = false
  reqlen : err = 0 → q.reqlen ≠ 0
  failed : err ≠ 0 → upgrade ≠ 0 → q.reqlen = 0

theorem allocReq_header {old : Option HttpReq} (h : ∀ q ∈ old, q.header = false) (n : ℕ) :
    (allocReq c old n).1.header = false := by
  unfold allocReq
  cases old with
  | none => rfl
  | some q =>
    dsimp only
    split_ifs
    · rfl
    · exact h q rfl

theorem websocketFrameparse_fixed (q : HttpReq) (b : UInt8) (mask : List UInt8) (len : ℕ) :
    (websocketFrameparse q b mask len).2.header = q.header ∧
      (websocketFrameparse q b mask len).2.reqlen = q.reqlen := by
  unfold websocketFrameparse
  dsimp only
  split_ifs <;> exact ⟨rfl, rfl⟩

theorem parseReq_created {old : Option HttpReq} (hold : ∀ q ∈ old, q.header = false)
    (hfresh : c.upgrade ≠ 0 → old = none) {parts : ℤ × List UInt8 × ℕ} (hpos : 0 < parts.1)
    {head : List UInt8} {err : ℤ} (hreq : c.req = [])
    (h : c.parseReq env old parts head = (err, c')) :
    c'.upgrade = c.upgrade ∧ c'.freereq = c.freereq ∧
      ∃ q, c'.req = [q] ∧ q.Created c.upgrade err := by
  have hheader := allocReq_header (c := c) hold parts.1.toNat
  have hlen : c.upgrade ≠ 0 → (allocReq c old parts.1.toNat).1.reqlen = 0 := fun hu => by
    rw [hfresh hu]
    rfl
  unfold Conn.parseReq at h
  generalize allocReq c old parts.1.toNat = r at h hheader hlen
  obtain ⟨p, hp⟩ : ∃ p, (if c.upgrade = 0 then httpParse env.strtod r.1 head
      else websocketFrameparse r.1 (head.headD 0) parts.2.1 parts.2.2) = p := ⟨_, rfl⟩
  have hkept : p.2.header = false ∧ p.2.done = false ∧ (c.upgrade ≠ 0 → p.2.reqlen = 0) := by
    rw [← hp]
    split_ifs with hu
    · have hfixed := httpParse_fixed env.strtod r.1 head
      simp only [HttpReq.fixed, Prod.mk.injEq] at hfixed
      exact ⟨hfixed.2.2.1.trans hheader, hfixed.2.1, fun hne => absurd hu hne⟩
    · obtain ⟨hh, hl⟩ := websocketFrameparse_fixed r.1 (head.headD 0) parts.2.1 parts.2.2
      exact ⟨hh.trans hheader, websocketFrameparse_done .., fun hne => hl.trans (hlen hne)⟩
  dsimp only at h
  rw [hp] at h
  unfold Conn.linkParsed at h
  split_ifs at h with he
  · cases h
    refine ⟨rfl, rfl, p.2, by simp [Conn.link, Conn.setErr, hreq], hkept.1, hkept.2.1,
      fun h0 => absurd h0 (by decide), fun _ => hkept.2.2⟩
  · cases h
    refine ⟨rfl, rfl, { p.2 with reqlen := parts.1 }, by simp [Conn.link, Conn.setBuf, hreq],
      hkept.1, hkept.2.1, fun _ => ?_, fun h0 => absurd rfl h0⟩
    dsimp only
    omega

theorem httpCreatereq_created {n err : ℤ} (hreq : c.req = [])
    (hfree : ∀ q ∈ c.freereq, q.header = false) (h : httpCreatereq env c n = some (err, c')) :
    c'.upgrade = c.upgrade ∧ (∀ q ∈ c'.freereq, q.header = false) ∧
      ((err ≠ 0 ∧ c'.req = []) ∨ ∃ q, c'.req = [q] ∧ q.Created c.upgrade err) := by
  unfold httpCreatereq at h
  obtain ⟨c₁, hc₁⟩ : ∃ c₁, (if c.upgrade ≠ 0 then c else { c with freereq := c.freereq.tail }) =
      c₁ := ⟨_, rfl⟩
  have h₁ : c₁.req = [] ∧ c₁.upgrade = c.upgrade ∧ ∀ q ∈ c₁.freereq, q.header = false := by
    rw [← hc₁]
    split_ifs
    · exact ⟨hreq, rfl, hfree⟩
    · exact ⟨hreq, rfl, fun q hq => hfree q (List.mem_of_mem_tail hq)⟩
  obtain ⟨hreq₁, hup, hfree₁⟩ := h₁
  dsimp only at h
  rw [hc₁] at h
  obtain ⟨parts, -, h⟩ := Option.bind_eq_some_iff.mp h
  by_cases hpos : parts.1 ≤ 0
  · rw [if_pos hpos] at h
    cases h
    refine ⟨hup, hfree₁, .inl ⟨?_, hreq₁⟩⟩
    split_ifs <;> decide
  · rw [if_neg hpos] at h
    obtain ⟨head, -, h⟩ := Option.map_eq_some_iff.mp h
    have hold : ∀ q ∈ (if c.upgrade ≠ 0 then c.req.getLast? else c.freereq.head?),
        q.header = false := by
      split_ifs
      · simp [hreq]
      · exact fun q hq => hfree q (List.mem_of_mem_head? hq)
    have hfresh : c₁.upgrade ≠ 0 →
        (if c.upgrade ≠ 0 then c.req.getLast? else c.freereq.head?) = none := fun hu => by
      rw [if_pos (hup ▸ hu), hreq]
      rfl
    obtain ⟨hup', hfree', q, hq, hcr⟩ :=
      parseReq_created hold hfresh (not_le.mp hpos) hreq₁ h
    exact ⟨hup'.trans hup, hfree' ▸ hfree₁, .inr ⟨q, hq, hup ▸ hcr⟩⟩

/-- The fake state is set only on the current message, which then has no body and is not over. -/
structure Conn.Fresh (c : Conn) : Prop where
  free : ∀ q ∈ c.freereq, q.header = false
  head : ∀ q, c.req.head? = some q → q.header = true →
    q.reqlen ≠ 0 ∧ q.done = false ∧ q.contentlen = 0 ∧ q.chunked = false

/-- The connection was upgraded by a request without body, or is in a frame. -/
structure Conn.Upgraded (c : Conn) : Prop where
  upgrade : c.upgrade = 2
  head : ∀ q, c.req.head? = some q → q.reqlen = 0 ∨ q.upgrade = 2 ∨
    q.header = false ∧ q.contentlen = 0 ∧ q.chunked = false

theorem websocketResponse_req (env : Env) (c : Conn) :
    (websocketResponse env c).2.req = c.req ∧ (websocketResponse env c).2.freereq = c.freereq := by
  unfold websocketResponse
  repeat' split
  all_goals exact ⟨rfl, rfl⟩

theorem websocketAccept_req (c : Conn) :
    (websocketAccept c).2.req = c.req ∧ (websocketAccept c).2.freereq = c.freereq := by
  unfold websocketAccept
  repeat' split
  all_goals exact ⟨rfl, rfl⟩

theorem startUpgrade_req (env : Env) (c : Conn) (s : ℤ) (q : HttpReq) :
    (startUpgrade env c s q).2.req = c.req ∧ (startUpgrade env c s q).2.freereq = c.freereq := by
  have h : (if q.method.isSome then websocketResponse env c else websocketAccept c).2.req =
      c.req ∧ (if q.method.isSome then websocketResponse env c else websocketAccept c).2.freereq =
      c.freereq := by
    split_ifs
    · exact websocketResponse_req env c
    · exact websocketAccept_req c
  unfold startUpgrade
  generalize (if q.method.isSome then websocketResponse env c else websocketAccept c) = r at h ⊢
  dsimp only
  split_ifs <;> exact h

theorem startFrame_reqs (c : Conn) (s : ℤ) (q : HttpReq) : (startFrame c s q).2.reqs = c.reqs := by
  unfold startFrame
  dsimp only
  split_ifs <;> rfl

/-- `q` is the object of the message that was started between `c` and `c'`. -/
structure Conn.Started (c c' : Conn) (q : HttpReq) : Prop where
  req : c'.req = [q]
  freereq : c'.freereq = c.freereq
  reqlen : q.reqlen ≠ 0
  done : q.done = false
  marked : c.upgrade ≠ 0 → q.upgrade = c.upgrade
  fake : q.header = true → c'.upgrade = c.upgrade ∧ q.contentlen = 0 ∧ q.chunked = false
  upgrade : c.upgrade = 2 → c'.upgrade = 2

/-- Starting a message without the fake state. -/
theorem Conn.Started.of_req (hreq : c'.req = [q]) (hfree : c'.freereq = c.freereq)
    (hcr : q.Created c.upgrade 0) (hm : c.upgrade ≠ 0 → q.upgrade = c.upgrade)
    (hup : c.upgrade = 2 → c'.upgrade = 2) : c.Started c' q where
  req := hreq
  freereq := hfree
  reqlen := hcr.reqlen rfl
  done := hcr.done
  marked := hm
  fake := fun h => absurd h (by simp [hcr.header])
  upgrade := hup

theorem startEmpty_started (hreq : c.req = [q]) (hcr : q.Created c.upgrade 0)
    (hm : c.upgrade ≠ 0 → q.upgrade = c.upgrade) (h0 : q.contentlen = 0 ∧ q.chunked = false)
    (s : ℤ) : ∃ q', c.Started (startEmpty c s q).2 q' := by
  unfold startEmpty
  split_ifs
  · refine ⟨{ q with contentlen := 2 ^ 63 - 1 }, .of_req ?_ rfl ?_ hm fun h => h⟩
    · simp [Conn.modifyReq, hreq]
    · exact ⟨hcr.header, hcr.done, hcr.reqlen, hcr.failed⟩
  · refine ⟨{ q with header := true }, ?_, rfl, hcr.reqlen rfl, hcr.done, hm,
      fun _ => ⟨rfl, h0⟩, fun h => h⟩
    simp [Conn.modifyReq, hreq]

theorem markUpgrade_created (hreq : c.req = [q]) (hcr : q.Created c.upgrade 0) :
    ∃ q₁, c.markUpgrade.req = [q₁] ∧ q₁.Created c.upgrade 0 ∧
      (c.upgrade ≠ 0 → q₁.upgrade = c.upgrade) ∧ c.markUpgrade.freereq = c.freereq ∧
      c.markUpgrade.upgrade = c.upgrade := by
  unfold Conn.markUpgrade
  split_ifs with hu
  · refine ⟨{ q with upgrade := c.upgrade }, ?_, ?_, fun _ => rfl, rfl, rfl⟩
    · simp [Conn.modifyReq, hreq]
    · exact ⟨hcr.header, hcr.done, hcr.reqlen, hcr.failed⟩
  · exact ⟨q, hreq, hcr, fun h => absurd h hu, rfl, rfl⟩

theorem readStarted_started (env : Env) (hreq : c.req = [q]) (hcr : q.Created c.upgrade 0)
    (s : ℤ) : ∃ q', c.Started (readStarted env c s).2 q' := by
  obtain ⟨q₁, hreq₁, hcr₁, hm, hfree₁, hup₁⟩ := markUpgrade_created hreq hcr
  unfold readStarted
  generalize c.markUpgrade = c₁ at hreq₁ hfree₁ hup₁ ⊢
  dsimp only
  rw [hreq₁]
  dsimp only [List.head?_cons]
  split_ifs with h1 h2 h0
  · obtain ⟨hreq', hfree'⟩ := startUpgrade_req env c₁ s q₁
    refine ⟨q₁, .of_req (hreq'.trans hreq₁) (hfree'.trans hfree₁) hcr₁ hm fun h => ?_⟩
    have := hm (by omega)
    omega
  · obtain ⟨hreq', hfree', hup'⟩ := reqs_eq (startFrame_reqs c₁ s q₁)
    exact ⟨q₁, .of_req (hreq'.trans hreq₁) (hfree'.trans hfree₁) hcr₁ hm
      fun h => hup'.trans (hup₁.trans h)⟩
  · obtain ⟨q', h⟩ := startEmpty_started hreq₁ (hup₁ ▸ hcr₁) (hup₁ ▸ hm) h0 s
    exact ⟨q', h.req, h.freereq.trans hfree₁, h.reqlen, h.done, hup₁ ▸ h.marked, hup₁ ▸ h.fake,
      hup₁ ▸ h.upgrade⟩
  · exact ⟨q₁, .of_req hreq₁ hfree₁ hcr₁ hm fun h => hup₁.trans h⟩

/-- What becomes of a head that was found : an object that was not started, or a message. -/
theorem readFound_cases {s n : ℤ} {r : ReadRet} (hfree : ∀ q ∈ c.recycle.freereq, q.header = false)
    (h : readFound env c s n = some (r, c')) :
    (∀ q ∈ c'.freereq, q.header = false) ∧
      ((c'.upgrade = c.upgrade ∧
        ∀ q, c'.req.head? = some q → q.header = false ∧ (c.upgrade ≠ 0 → q.reqlen = 0)) ∨
        ∃ (c₁ : Conn) (q : HttpReq), c₁.upgrade = c.upgrade ∧ c₁.Started c' q) := by
  obtain ⟨⟨err, c₁⟩, h₁, h⟩ := Option.map_eq_some_iff.mp h
  obtain ⟨hup, hfree₁, hcr⟩ := httpCreatereq_created rfl hfree h₁
  unfold readCreated at h
  dsimp only at h
  by_cases he : err ≠ 0
  · rw [if_pos he] at h
    obtain rfl := congrArg Prod.snd h
    refine ⟨hfree₁, .inl ⟨hup, fun q hq => ?_⟩⟩
    obtain ⟨-, hnil⟩ | ⟨q₁, hq₁, hcr⟩ := hcr
    · simp [Conn.setErr, hnil] at hq
    · simp only [Conn.setErr, hq₁, List.head?_cons, Option.some.injEq] at hq
      exact hq ▸ ⟨hcr.header, hcr.failed he⟩
  · rw [if_neg he] at h
    obtain rfl := not_not.mp he
    obtain ⟨habs, -⟩ | ⟨q₁, hq₁, hcr⟩ := hcr
    · exact absurd rfl habs
    · obtain ⟨q', hst⟩ := readStarted_started env hq₁ (hup ▸ hcr) s
      rw [h] at hst
      exact ⟨hst.freereq ▸ hfree₁, .inr ⟨c₁, q', hup, hst⟩⟩

/-! ## A call -/

/-- A new message was found in a connection whose objects are all without the fake state. -/
def Conn.Found (env : Env) (c : Conn) (r : ReadRet × Conn) : Prop :=
  ∃ (c₁ : Conn) (s n : ℤ), c₁.upgrade = c.upgrade ∧
    (∀ q ∈ c₁.recycle.freereq, q.header = false) ∧ readFound env c₁ s n = some r

theorem Conn.Keeps.trans {c'' : Conn} (h : c.Keeps c') (h' : c'.Keeps c'') : c.Keeps c'' where
  upgrade := h'.upgrade.trans h.upgrade
  freereq := h'.freereq.trans h.freereq
  head := fun q'' hq'' => by
    obtain ⟨q', hq', hk'⟩ := h'.head q'' hq''
    obtain ⟨q, hq, hk⟩ := h.head q' hq'
    refine ⟨q, hq, hk'.upgrade.trans hk.upgrade, fun hl => hk'.reqlen (hk.reqlen hl), fun ht => ?_,
      fun hc hch => ?_⟩
    · obtain rfl := hk'.header ht
      exact hk.header ht
    · obtain ⟨hc, hch⟩ := hk.bare hc hch
      exact hk'.bare hc hch

/-- Objects are kept free of the fake state. -/
theorem Conn.Keeps.fresh (h : c.Keeps c') (hf : c.Fresh) : c'.Fresh where
  free := h.freereq ▸ hf.free
  head := fun q' hq' ht => by
    obtain ⟨q, hq, hk⟩ := h.head q' hq'
    obtain rfl := hk.header ht
    exact hf.head _ hq ht

theorem readHead_keeps {s : ℤ} {r : ReadRet} (hclean : ∀ q ∈ c.recycle.freereq, q.header = false)
    (h : readHead env c s = some (r, c')) : c.Keeps c' ∨ c.Found env (r, c') := by
  obtain ⟨⟨n, c₁⟩, h₁, h⟩ := Option.bind_eq_some_iff.mp h
  have hreqs := connHeaderready_reqs h₁
  dsimp only at h
  by_cases hn : n ≤ 0 ∨ c₁.errnum ≠ 0
  · rw [if_pos hn] at h
    cases h
    exact .inl (.of_reqs hreqs)
  · rw [if_neg hn] at h
    obtain ⟨hreq, hfree, hup⟩ := reqs_eq hreqs
    refine .inr ⟨c₁, s, n, hup, ?_, h⟩
    rwa [Conn.recycle, hreq, hfree]

theorem readOn_cases {s : ℤ} {len : ℕ} {r : ReadRet} (hf : c.Fresh)
    (h : readOn env c s len = some (r, c')) : c.Keeps c' ∨ c.Found env (r, c') := by
  unfold readOn at h
  cases hq : c.req.head? with
  | none =>
    rw [hq] at h
    refine readHead_keeps (fun q hmem => hf.free q ?_) h
    simpa [Conn.recycle, hq] using hmem
  | some q =>
    simp only [hq] at h
    split_ifs at h with hover
    · refine readHead_keeps (fun q' hmem => ?_) h
      have hmem' : q' = q ∨ q' ∈ c.freereq := by simpa [Conn.recycle, hq] using hmem
      obtain rfl | hmem' := hmem'
      · -- an object in the fake state is not over
        rw [← Bool.not_eq_true]
        intro ht
        obtain ⟨hl, hd, -⟩ := hf.head q' hq ht
        simp [hl, hd] at hover
      · exact hf.free q' hmem'
    · exact .inl (readBody_keeps hq (fun ht => (hf.head q hq ht).2.2) h)

/-- A finished message is without the fake state. -/
theorem Conn.Keeps.finish (hf : c.Fresh) (hc : httpState c.req.head? = ConnState.Complete) :
    c.Keeps c.finish := by
  refine ⟨rfl, rfl, fun q' hq' => ?_⟩
  obtain ⟨q, hq, rfl⟩ := modifyReq_head (f := fun req => { req with reqlen := 0 }) hq'
  refine ⟨q, hq, rfl, fun _ => rfl, fun ht => ?_, fun h h' => ⟨h, h'⟩⟩
  have ht : q.header = true := ht
  obtain ⟨hl, -, hlen, hch⟩ := hf.head q hq ht
  simp only [hq, httpState, hl, hlen, hch, ht, ne_eq, not_true_eq_false, false_and, or_self,
    if_false, if_true, Bool.false_eq_true] at hc
  split_ifs at hc <;> exact absurd hc (by decide)

theorem Conn.Keeps.clearHeader (c : Conn) : c.Keeps c.clearHeader :=
  .modifyReq rfl fun _ _ => ⟨rfl, fun h => h, fun h => absurd h (by simp), fun h h' => ⟨h, h'⟩⟩

/-- A call keeps the message, or finds a new one. -/
theorem connHttpread_cases {len : ℕ} {r : ReadRet} (hf : c.Fresh)
    (h : connHttpread env c len = some (r, c')) : c.Keeps c' ∨ c.Found env (r, c') := by
  have hon : ∀ {c₁ : Conn} {s : ℤ}, c.Keeps c₁ → readOn env c₁ s len = some (r, c') →
      c.Keeps c' ∨ c.Found env (r, c') := by
    intro c₁ s hk h
    obtain hk' | ⟨c₂, s, n, hup, hrest⟩ := readOn_cases (hk.fresh hf) h
    · exact .inl (hk.trans hk')
    · exact .inr ⟨c₂, s, n, hup.trans hk.upgrade, hrest⟩
  have herr : c.Keeps (c.setErr 0) := .of_reqs rfl
  rw [connHttpread_eq] at h
  dsimp only at h
  split_ifs at h with hc hh hr
  · exact hon (herr.trans (.finish (herr.fresh hf) hc)) h
  · cases h
    exact .inl (herr.trans (.clearHeader _))
  · exact hon (herr.trans (.clearHeader _)) h
  · exact hon herr h

theorem connHttpread_fresh {len : ℕ} {r : ReadRet} (hf : c.Fresh)
    (h : connHttpread env c len = some (r, c')) : c'.Fresh := by
  obtain hk | ⟨c₁, s, n, -, hclean, hfound⟩ := connHttpread_cases hf h
  · exact hk.fresh hf
  · obtain ⟨hfree, ⟨-, hq⟩ | ⟨c₂, q, -, hst⟩⟩ := readFound_cases hclean hfound
    · exact ⟨hfree, fun q' hq' ht => absurd ht (by simp [(hq q' hq').1])⟩
    · refine ⟨hfree, fun q' hq' ht => ?_⟩
      obtain rfl : q = q' := by simpa [hst.req] using hq'
      exact ⟨hst.reqlen, hst.done, (hst.fake ht).2⟩

theorem connHttpread_upgraded {len : ℕ} {r : ReadRet} (hf : c.Fresh) (hu : c.Upgraded)
    (h : connHttpread env c len = some (r, c')) : c'.Upgraded := by
  obtain hk | ⟨c₁, s, n, hup, hclean, hfound⟩ := connHttpread_cases hf h
  · refine ⟨hk.upgrade.trans hu.upgrade, fun q' hq' => ?_⟩
    obtain ⟨q, hq, hkq⟩ := hk.head q' hq'
    obtain hl | hup | ⟨hh, hlen, hch⟩ := hu.head q hq
    · exact .inl (hkq.reqlen hl)
    · exact .inr (.inl (hkq.upgrade.trans hup))
    · refine .inr (.inr ⟨?_, hkq.bare hlen hch⟩)
      rw [← Bool.not_eq_true]
      intro ht
      exact absurd (hkq.header ht ▸ ht) (by simp [hh])
  · rw [hu.upgrade] at hup
    obtain ⟨-, ⟨hup', hq⟩ | ⟨c₂, q, hup₂, hst⟩⟩ := readFound_cases hclean hfound
    · exact ⟨hup'.trans hup, fun q' hq' => .inl ((hq q' hq').2 (by omega))⟩
    · rw [hup] at hup₂
      refine ⟨hst.upgrade hup₂, fun q' hq' => ?_⟩
      obtain rfl : q = q' := by simpa [hst.req] using hq'
      exact .inr (.inl ((hst.marked (by omega)).trans hup₂))

/-- The request that was upgraded is not in the fake state. -/
theorem AcceptsUpgrade.upgraded_of_call {len : ℕ} {r : ReadRet} (ha : AcceptsUpgrade c c')
    (hf : c.Fresh) (h : connHttpread env c len = some (r, c')) : c'.Upgraded := by
  obtain ⟨h0, h2, req, hreq, -, hlen, hch⟩ := ha
  obtain hk | ⟨c₁, s, n, hup, hclean, hfound⟩ := connHttpread_cases hf h
  · have := hk.upgrade
    omega
  · obtain ⟨-, ⟨hup', -⟩ | ⟨c₂, q, hup₂, hst⟩⟩ := readFound_cases hclean hfound
    · omega
    · refine ⟨h2, fun q' hq' => ?_⟩
      obtain rfl : q = q' := by simpa [hst.req] using hq'
      obtain rfl : q = req := by simpa [hst.req] using hreq
      refine .inr (.inr ⟨?_, hlen, hch⟩)
      rw [← Bool.not_eq_true]
      intro ht
      have := (hst.fake ht).1
      omega

/-! ## Runs -/

open Interleaving

theorem fresh_of_reachable {recvs : ℕ → RecvAns} {stream : List UInt8} {sock : Sock}
    (h : Reachable (readNext env) (Conn.init recvs stream sock) c) : c.Fresh := by
  refine h.invariant ⟨by simp [Conn.init], fun q hq => by cases hq⟩ fun c len c' hf _ hn => ?_
  obtain ⟨r, hr, rfl⟩ := Option.map_eq_some_iff.mp hn
  exact connHttpread_fresh hf hr

/-- A request without body that is not in the fake state is not reported as new. -/
theorem Conn.Upgraded.state_ne (hu : c.Upgraded) : connState c ≠ ConnState.WSNew := by
  have hnew : ¬(httpState c.req.head? = ConnState.Header ∧ c.isNew) := by
    rintro ⟨hs, q, hq, hne⟩
    rw [hu.upgrade] at hne
    rw [hq] at hs
    obtain hl | hup | ⟨hh, hlen, hch⟩ := hu.head q hq
    · exact absurd ((httpState_eq_pending.mpr hl).symm.trans hs) (by decide)
    · exact hne hup
    · simp only [httpState, hh, hlen, hch, ne_eq, not_true_eq_false, false_and, or_self, if_false,
        Bool.false_eq_true] at hs
      split_ifs at hs <;> exact absurd hs (by decide)
  unfold connState
  dsimp only
  rw [if_neg hnew]
  have hs := httpState_cases c.req.head?
  generalize httpState c.req.head? = s at hs ⊢
  obtain rfl | rfl | rfl | rfl | rfl := hs <;> split_ifs <;> decide

theorem new_not_mem_reported {rs : List (ReadRet × Conn)} (h : ∀ r ∈ rs, r.2.Upgraded) :
    ConnState.WSNew ∉ reported rs := by
  intro hmem
  obtain ⟨r, hr, hs⟩ := List.mem_map.mp hmem
  exact (h r (List.mem_of_mem_filter hr)).state_ne hs

/-- After a call that accepts an upgrade request without body no state is `exs_Conn_WSNew`. -/
theorem AcceptsUpgrade.new_not_mem (ha : AcceptsUpgrade c c') (hf : c.Fresh) {len : ℕ}
    {r : ReadRet} (h : connHttpread env c len = some (r, c')) {lens : List ℕ}
    {rs : List (ReadRet × Conn)} (hrs : Calls.run (connHttpread env) c' lens = some rs) :
    ConnState.WSNew ∉ reported ((r, c') :: rs) := by
  have hkeep : ∀ (c : Conn) (len : ℕ) (p : ReadRet × Conn), c.Fresh ∧ c.Upgraded →
      connHttpread env c len = some p → p.2.Fresh ∧ p.2.Upgraded :=
    fun c len p hc hp => ⟨connHttpread_fresh hc.1 hp, connHttpread_upgraded hc.1 hc.2 hp⟩
  have hc' : c'.Fresh ∧ c'.Upgraded := ⟨connHttpread_fresh hf h, ha.upgraded_of_call hf h⟩
  have hall := Calls.forall_of_run hkeep hc' hrs
  exact new_not_mem_reported (List.forall_mem_cons.mpr ⟨hc'.2, fun p hp => (hall p hp).2⟩)

/-- The states reported after an upgrade request without body was accepted are never those of a
WebSocket. -/
theorem not_wsSequence (env : Env) (recvs : ℕ → RecvAns) (stream : List UInt8) (sock : Sock)
    {c c' : Conn} {len : ℕ} {r : ReadRet}
    (hc : Reachable (readNext env) (Conn.init recvs stream sock) c)
    (h : connHttpread env c len = some (r, c')) (ha : AcceptsUpgrade c c') (lens : List ℕ) :
    ¬∃ rs, Calls.run (connHttpread env) c' lens = some rs ∧
      WSSequence (reported ((r, c') :: rs)) := by
  rintro ⟨rs, hrs, frames, f, rest, -, hstates⟩
  refine ha.new_not_mem (fresh_of_reachable hc) h hrs ?_
  rw [hstates]
  exact List.mem_cons_self

/-- A client that opens a WebSocket and sends one frame. -/
def oneFrame : Conn :=
  .init (fun _ => .data 4096)
    (ascii "GET / HTTP/1.1\r\nHost: h\r\nUpgrade: websocket\r\nConnection: Upgrade\r\n" ++
      ascii "Sec-WebSocket-Key: k\r\nSec-WebSocket-Version: 13\r\n\r\n" ++ [129, 1, 65]) .idle

/-- The first call accepts its request. The states reported then begin with the end of a frame. -/
theorem oneFrame_reported :
    ∃ p, connHttpread .plain oneFrame 1 = some p ∧ AcceptsUpgrade oneFrame p.2 ∧
      ∃ rs, Calls.run (connHttpread .plain) p.2 [1, 1] = some rs ∧
        reported (p :: rs) =
          [ConnState.WSFrameEnd, ConnState.WSFrameBegin, ConnState.WSFrameEnd] := by
  have hcall : (connHttpread .plain oneFrame 1).any (fun p =>
      decide (p.2.upgrade = 2 ∧ ∃ req ∈ p.2.req.head?, req.method.isSome = true ∧
        req.contentlen = 0 ∧ req.chunked = false) &&
      (Calls.run (connHttpread .plain) p.2 [1, 1]).any fun rs =>
        decide (reported (p :: rs) =
          [ConnState.WSFrameEnd, ConnState.WSFrameBegin, ConnState.WSFrameEnd])) = true := by
    decide +kernel
  obtain ⟨p, hp, hP⟩ := (Option.any_eq_true _ _).mp hcall
  rw [Bool.and_eq_true] at hP
  obtain ⟨hup, hreq⟩ := of_decide_eq_true hP.1
  obtain ⟨rs, hrs, hstates⟩ := (Option.any_eq_true _ _).mp hP.2
  exact ⟨p, hp, ⟨rfl, hup, hreq⟩, rs, hrs, of_decide_eq_true hstates⟩

theorem not_wsSequence_oneFrame :
    ∃ p, connHttpread .plain oneFrame 1 = some p ∧
      ¬∃ rs, Calls.run (connHttpread .plain) p.2 [1, 1] = some rs ∧
        WSSequence (reported (p :: rs)) := by
  obtain ⟨p, hp, ha, -⟩ := oneFrame_reported
  exact ⟨p, hp, not_wsSequence .plain _ _ .idle .start hp ha [1, 1]⟩

/-- The states of this run are not those of a WebSocket. -/
theorem oneFrame_not_wsSequence :
    ∃ p rs, connHttpread .plain oneFrame 1 = some p ∧ AcceptsUpgrade oneFrame p.2 ∧
      Calls.run (connHttpread .plain) p.2 [1, 1] = some rs ∧
      ¬WSSequence (reported (p :: rs)) := by
  obtain ⟨p, hp, ha, rs, hrs, hstates⟩ := oneFrame_reported
  refine ⟨p, rs, hp, ha, hrs, ?_⟩
  rintro ⟨frames, f, rest, -, heq⟩
  rw [hstates, List.cons.injEq] at heq
  exact absurd heq.1 (by decide)

end Webxs
