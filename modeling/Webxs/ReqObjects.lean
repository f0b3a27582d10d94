import Webxs.WebsocketStates

/-!
# The request objects of a connection

A connection has one request object at a time. When the head of the next message is there,
`xs_conn_httpread` puts it on the list `freereq`, and `xs_http_createreq` takes it from there again.
Two things go wrong. An object that is too small is taken off the list, but `xs_recalloc` is given
`conn->req`, which is null, and allocates a new one : the old one is on no list any more. And on an
upgraded connection `xs_http_createreq` does not look at the list, so every frame leaves an object
there, and `xs_conn_close` frees only those of `conn->req`.

`objectsKept_iff` says that nothing else does : in a run every object is on one list, and is freed
at the end, exactly if no call takes a further head on an upgraded connection or one that is too
large for the object.
-/

namespace Webxs

/-! ## Objects -/

/-- An object : which allocation it is, and its size. -/
def HttpReq.object (q : HttpReq) : ℕ × ℕ :=
  (q.id, q.reqmallocsize)

/-- The objects of the two lists, and how many were allocated. -/
def Conn.objects (c : Conn) : List (ℕ × ℕ) × List (ℕ × ℕ) × ℕ :=
  (c.req.map HttpReq.object, c.freereq.map HttpReq.object, c.nalloc)

/-- The objects that `xs_conn_close` frees : its loop goes along `conn->req`. -/
def connClose (c : Conn) : List ℕ :=
  c.req.map HttpReq.id

/-- Every object that was allocated is on one of the lists, and is freed at the end. -/
structure ObjectsKept (c : Conn) : Prop where
  lists : ((c.req ++ c.freereq).map HttpReq.id).Perm (List.range c.nalloc)
  close : (connClose c).Perm (List.range c.nalloc)

/-- The connection, if its message is over. -/
def Conn.idle (c : Conn) : Option Conn :=
  if (c.req.head?.all fun req => decide (req.reqlen = 0 ∨ req.done = true)) = true then some c
  else none

/-- The connection in which a call looks for the head of a message, if it does. -/
def Conn.looking (c : Conn) : Option Conn :=
  let c := c.setErr 0
  if httpState c.req.head? = ConnState.Complete then c.finish.idle
  else if httpState c.req.head? = ConnState.Header ∧
      c.req.head?.any (fun req => req.header) = true then
    if c.clearHeader.retvalue ConnState.Header = 0 then none else c.clearHeader.idle
  else c.idle

/-- The length of the head that a call takes. -/
def Conn.takes (c : Conn) : Option ℤ :=
  (c.looking.bind connHeaderready).bind fun r => if r.1 ≤ 0 ∨ r.2.errnum ≠ 0 then none else some r.1

/-- A call takes a further head on an upgraded connection, or one for which the object is too
small. -/
def Conn.LosesObject (c : Conn) : Prop :=
  ∃ n ∈ c.takes, ∃ q ∈ c.req.head?, c.upgrade ≠ 0 ∨ q.reqmallocsize < n.toNat + 1

variable {env : Env} {c c' : Conn} {q : HttpReq}

/-! ## What keeps the objects -/

theorem modifyReq_objects {f : HttpReq → HttpReq} (hf : ∀ q, (f q).object = q.object) :
    (c.modifyReq f).objects = c.objects := by
  unfold Conn.objects Conn.modifyReq
  cases c.req with
  | nil => rfl
  | cons q rest => simp only [List.modifyHead_cons, List.map_cons, hf]

theorem connRead_objects (c : Conn) (len : ℤ) : (connRead c len).2.2.2.objects = c.objects := by
  have hrecv : ∀ (c : Conn) (len : ℤ), (c.recv len).2.2.objects = c.objects := by
    intro c len
    unfold Conn.recv
    cases c.recvs 0 with
    | data n =>
      dsimp only
      split_ifs <;> rfl
    | fail => rfl
    | closed => rfl
  unfold connRead
  dsimp only
  split_ifs <;> exact hrecv _ _

theorem connFill_objects (c : Conn) : (connFill c).2.2.objects = c.objects :=
  connRead_objects c _

theorem connHeaderready_objects {n : ℤ} (h : connHeaderready c = some (n, c')) :
    c'.objects = c.objects := by
  have hfill : ∀ (c : Conn) rlen, ∀ r ∈ headerFill c rlen, r.2.2.objects = c.objects := by
    intro c rlen r hr
    unfold headerFill at hr
    split_ifs at hr with h0
    · cases hr
      rfl
    · dsimp only at hr
      split_ifs at hr
      · obtain ⟨_, _, rfl⟩ := Option.mem_map.mp hr
        exact connFill_objects c
      · cases hr
        exact connFill_objects c
  unfold connHeaderready at h
  dsimp only at h
  obtain ⟨rlen, -, h⟩ := Option.bind_eq_some_iff.mp h
  obtain ⟨r, hr, h⟩ := Option.map_eq_some_iff.mp h
  obtain rfl : (headerEnd r.1 r.2.1 r.2.2).2 = c' := congrArg Prod.snd h
  have hend : (headerEnd r.1 r.2.1 r.2.2).2.objects = r.2.2.objects := by
    unfold headerEnd
    split_ifs <;> rfl
  rw [hend, hfill _ _ r hr]
  split_ifs <;> rfl

theorem connChunkready_objects {n : ℤ} (h : connChunkready c = some (n, c')) :
    c'.objects = c.objects := by
  have hfill : ∀ (c : Conn) r, ∀ p ∈ chunkFill c r, p.2.objects = c.objects := by
    intro c r p hp
    unfold chunkFill at hp
    split_ifs at hp
    · cases hp
      rfl
    · dsimp only at hp
      split_ifs at hp
      · obtain ⟨_, _, rfl⟩ := Option.mem_map.mp hp
        exact connFill_objects c
      · cases hp
        exact connFill_objects c
  unfold connChunkready at h
  simp only [Option.bind_eq_bind, Option.bind_eq_some_iff] at h
  obtain ⟨r, -, ⟨r', c₁⟩, hr, h⟩ := h
  have h₁ : c₁.objects = c.objects := hfill _ _ _ hr
  split_ifs at h
  · obtain ⟨enc, -, h⟩ := Option.map_eq_some_iff.mp h
    obtain rfl : c₁.takeLine r'.1 enc = c' := congrArg Prod.snd h
    refine (modifyReq_objects ?_).trans h₁
    exact fun _ => rfl
  · cases h
    exact h₁

theorem readBytesOf_objects {len : ℕ} : ∀ r ∈ readBytesOf c len, r.2.2.2.objects = c.objects := by
  intro r hr
  unfold readBytesOf at hr
  split_ifs at hr
  · obtain ⟨_, _, rfl⟩ := Option.mem_map.mp hr
    rfl
  · cases hr
    exact connRead_objects c _

theorem readData_objects {len : ℕ} {r : ReadRet} (h : readData c q len = some (r, c')) :
    c'.objects = c.objects := by
  unfold readData at h
  split_ifs at h
  · obtain ⟨p, hp, h⟩ := Option.map_eq_some_iff.mp h
    obtain rfl := congrArg Prod.snd h
    dsimp only
    split_ifs
    · refine (modifyReq_objects ?_).trans (readBytesOf_objects p hp)
      exact fun _ => rfl
    · exact readBytesOf_objects p hp
  · cases h
    rfl

theorem readBody_objects {s : ℤ} {len : ℕ} {r : ReadRet}
    (h : readBody c s q len = some (r, c')) : c'.objects = c.objects := by
  have hchunk : ∀ {c : Conn} {n : ℤ}, readChunk c s n len = some (r, c') →
      c'.objects = c.objects := by
    intro c n h
    unfold readChunk at h
    by_cases hn : n ≤ 0
    · rw [if_pos hn] at h
      cases h
      split_ifs
      · exact modifyReq_objects fun _ => rfl
      · rfl
    · rw [if_neg hn] at h
      obtain ⟨req, -, h⟩ := Option.bind_eq_some_iff.mp h
      exact readData_objects h
  unfold readBody at h
  split_ifs at h
  · obtain ⟨⟨n, c₁⟩, h₁, h⟩ := Option.bind_eq_some_iff.mp h
    exact (hchunk h).trans (connChunkready_objects h₁)
  · exact readData_objects h

theorem readStarted_objects (env : Env) (c : Conn) (s : ℤ) :
    (readStarted env c s).2.objects = c.objects := by
  have hmark : c.markUpgrade.objects = c.objects := by
    unfold Conn.markUpgrade
    split_ifs
    · exact modifyReq_objects fun _ => rfl
    · rfl
  have hresponse : ∀ c : Conn, (websocketResponse env c).2.objects = c.objects := by
    intro c
    unfold websocketResponse
    repeat' split
    all_goals rfl
  have haccept : ∀ c : Conn, (websocketAccept c).2.objects = c.objects := by
    intro c
    unfold websocketAccept
    repeat' split
    all_goals rfl
  rw [← hmark]
  unfold readStarted
  generalize c.markUpgrade = c₁
  dsimp only
  cases c₁.req.head? with
  | none => rfl
  | some q =>
    dsimp only
    split_ifs
    · have hreply : (if q.method.isSome then websocketResponse env c₁
          else websocketAccept c₁).2.objects = c₁.objects := by
        split_ifs
        · exact hresponse c₁
        · exact haccept c₁
      unfold startUpgrade
      generalize (if q.method.isSome then websocketResponse env c₁ else websocketAccept c₁) = r
        at hreply ⊢
      dsimp only
      split_ifs <;> exact hreply
    · unfold startFrame
      dsimp only
      split_ifs <;> rfl
    · unfold startEmpty
      split_ifs <;> exact modifyReq_objects fun _ => rfl
    · rfl

/-! ## A new head -/

theorem parseReq_objects {old : Option HttpReq} {parts : ℤ × List UInt8 × ℕ} {head : List UInt8} :
    (c.parseReq env old parts head).2.objects =
      (c.req.map HttpReq.object ++ [(allocReq c old parts.1.toNat).1.object],
        c.freereq.map HttpReq.object, (allocReq c old parts.1.toNat).2) := by
  unfold Conn.parseReq
  generalize allocReq c old parts.1.toNat = r
  obtain ⟨p, hp⟩ : ∃ p, (if c.upgrade = 0 then httpParse env.strtod r.1 head
      else websocketFrameparse r.1 (head.headD 0) parts.2.1 parts.2.2) = p := ⟨_, rfl⟩
  have hobject : p.2.object = r.1.object := by
    rw [← hp]
    split_ifs
    · have hfixed := httpParse_fixed env.strtod r.1 head
      simp only [HttpReq.fixed, Prod.mk.injEq] at hfixed
      exact Prod.ext hfixed.1 hfixed.2.2.2.2.1
    · unfold websocketFrameparse
      dsimp only
      split_ifs <;> rfl
  dsimp only
  rw [hp, ← hobject]
  unfold Conn.linkParsed
  split_ifs
  · simp only [Conn.objects, Conn.link, Conn.setErr, List.map_append, List.map_cons, List.map_nil]
  · simp only [Conn.objects, Conn.link, Conn.setBuf, List.map_append, List.map_cons, List.map_nil]
    rfl

theorem readCreated_objects (env : Env) (s err : ℤ) (c : Conn) :
    (readCreated env s err c).2.objects = c.objects := by
  unfold readCreated
  by_cases he : err ≠ 0
  · rw [if_pos he]
    rfl
  · rw [if_neg he]
    exact readStarted_objects env c s

/-- An upgraded connection does not use its free objects. -/
theorem readFound_upgraded {s n : ℤ} {r : ReadRet} (hu : c.upgrade ≠ 0)
    (h : readFound env c s n = some (r, c')) :
    c'.objects = c.recycle.objects ∨
      ∃ k, c'.objects = ([(c.nalloc, k)], c.recycle.freereq.map HttpReq.object, c.nalloc + 1) := by
  obtain ⟨⟨err, c₁⟩, h₁, h⟩ := Option.map_eq_some_iff.mp h
  have hcreated := readCreated_objects env s err c₁
  dsimp only at h
  rw [h] at hcreated
  rw [hcreated]
  unfold httpCreatereq at h₁
  have hu' : c.recycle.upgrade ≠ 0 := hu
  rw [if_pos hu', if_pos hu'] at h₁
  obtain ⟨parts, -, h₁⟩ := Option.bind_eq_some_iff.mp h₁
  by_cases hpos : parts.1 ≤ 0
  · rw [if_pos hpos] at h₁
    cases h₁
    exact .inl rfl
  · rw [if_neg hpos] at h₁
    obtain ⟨head, -, h₁⟩ := Option.map_eq_some_iff.mp h₁
    obtain rfl := congrArg Prod.snd h₁
    exact .inr ⟨_, parseReq_objects⟩

/-- A plain connection takes its first free object, if it is large enough. -/
theorem readFound_plain {s n : ℤ} {r : ReadRet} (hu : c.upgrade = 0) (hn : 0 < n)
    (h : readFound env c s n = some (r, c')) :
    c'.objects = ([(allocReq c c.recycle.freereq.head? n.toNat).1.object],
      c.recycle.freereq.tail.map HttpReq.object,
      (allocReq c c.recycle.freereq.head? n.toNat).2) := by
  obtain ⟨⟨err, c₁⟩, h₁, h⟩ := Option.map_eq_some_iff.mp h
  have hcreated := readCreated_objects env s err c₁
  dsimp only at h
  rw [h] at hcreated
  rw [hcreated]
  unfold httpCreatereq at h₁
  rw [if_neg (not_not.mpr hu : ¬c.recycle.upgrade ≠ 0),
    if_neg (not_not.mpr hu : ¬c.recycle.upgrade ≠ 0)] at h₁
  obtain ⟨parts, hparts, h₁⟩ := Option.bind_eq_some_iff.mp h₁
  have hpart : parts.1 = n := by
    unfold Conn.headParts at hparts
    dsimp only at hparts
    rw [if_neg (not_not.mpr hu : ¬c.recycle.upgrade ≠ 0), if_neg (by omega)] at hparts
    cases hparts
    rfl
  rw [if_neg (by omega)] at h₁
  obtain ⟨head, -, h₁⟩ := Option.map_eq_some_iff.mp h₁
  obtain rfl := congrArg Prod.snd h₁
  rw [← hpart]
  exact parseReq_objects

/-! ## A call -/

theorem idle_eq_some (env : Env) (h : c.idle = some c') (s : ℤ) (len : ℕ) :
    c' = c ∧ readOn env c s len = readHead env c s := by
  unfold Conn.idle at h
  split_ifs at h with hall
  refine ⟨(Option.some.inj h).symm, ?_⟩
  unfold readOn
  cases hq : c.req.head? with
  | none => rfl
  | some q =>
    rw [hq] at hall
    exact if_pos (of_decide_eq_true hall)

theorem idle_eq_none (env : Env) (h : c.idle = none) (s : ℤ) (len : ℕ) :
    ∃ q, readOn env c s len = readBody c s q len := by
  unfold Conn.idle at h
  split_ifs at h with hall
  unfold readOn
  cases hq : c.req.head? with
  | none => exact absurd (by rw [hq]; rfl) hall
  | some q =>
    rw [hq] at hall
    exact ⟨q, if_neg fun hover => hall (decide_eq_true hover)⟩

/-- A call takes the head it finds, and keeps the objects otherwise. -/
theorem connHttpread_objects {len : ℕ} {r : ReadRet}
    (h : connHttpread env c len = some (r, c')) :
    (c.takes = none ∧ c'.objects = c.objects) ∨
      ∃ n c₁ s, c.takes = some n ∧ 0 < n ∧ c₁.objects = c.objects ∧ c₁.upgrade = c.upgrade ∧
        readFound env c₁ s n = some (r, c') := by
  -- the call goes on in `c₀`
  have hon : ∀ (c₀ : Conn) (s : ℤ), c₀.objects = c.objects → c₀.upgrade = c.upgrade →
      c.looking = c₀.idle → readOn env c₀ s len = some (r, c') →
      (c.takes = none ∧ c'.objects = c.objects) ∨
        ∃ n c₁ s, c.takes = some n ∧ 0 < n ∧ c₁.objects = c.objects ∧ c₁.upgrade = c.upgrade ∧
          readFound env c₁ s n = some (r, c') := by
    intro c₀ s hobjects hup hlooking h
    unfold Conn.takes
    rw [hlooking]
    cases hidle : c₀.idle with
    | none =>
      obtain ⟨q, hbody⟩ := idle_eq_none env hidle s len
      rw [hbody] at h
      exact .inl ⟨rfl, (readBody_objects h).trans hobjects⟩
    | some c₁ =>
      obtain ⟨rfl, hhead⟩ := idle_eq_some env hidle s len
      rw [hhead] at h
      obtain ⟨⟨n, c₂⟩, hready, h⟩ := Option.bind_eq_some_iff.mp h
      have hobjects₂ := (connHeaderready_objects hready).trans hobjects
      have hup₂ := (reqs_eq (connHeaderready_reqs hready)).2.2.trans hup
      rw [Option.bind_some, hready, Option.bind_some]
      dsimp only at h ⊢
      by_cases hn : n ≤ 0 ∨ c₂.errnum ≠ 0
      · rw [if_pos hn] at h ⊢
        cases h
        exact .inl ⟨rfl, hobjects₂⟩
      · rw [if_neg hn] at h ⊢
        exact .inr ⟨n, c₂, s, rfl, by omega, hobjects₂, hup₂, h⟩
  rw [connHttpread_eq] at h
  dsimp only at h
  have hhead : (c.setErr 0).req.head? = c.req.head? := rfl
  have hfinish : (c.setErr 0).finish.objects = c.objects :=
    modifyReq_objects (c := c.setErr 0) fun _ => rfl
  have hclear : (c.setErr 0).clearHeader.objects = c.objects :=
    modifyReq_objects (c := c.setErr 0) fun _ => rfl
  split_ifs at h with hc hh hr
  · refine hon _ _ hfinish rfl ?_ h
    unfold Conn.looking
    dsimp only
    rw [hhead, if_pos hc]
  · left
    cases h
    refine ⟨?_, hclear⟩
    unfold Conn.takes Conn.looking
    rw [hh.1] at hr
    dsimp only
    rw [hhead, if_neg hc, if_pos hh, if_pos hr]
    rfl
  · refine hon _ _ hclear rfl ?_ h
    unfold Conn.looking
    rw [hh.1] at hr
    dsimp only
    rw [hhead, if_neg hc, if_pos hh, if_neg hr]
  · refine hon (c.setErr 0) _ rfl rfl ?_ h
    unfold Conn.looking
    dsimp only
    rw [hhead, if_neg hc, if_neg hh]

/-! ## Runs -/

/-- There is one object at most, and it is the current one. -/
def Conn.OneObject (c : Conn) : Prop :=
  c.objects = ([], [], 0) ∨ ∃ k, c.objects = ([(0, k)], [], 1)

theorem ids_eq (c : Conn) : (c.req ++ c.freereq).map HttpReq.id =
      (c.objects.1 ++ c.objects.2.1).map Prod.fst ∧ connClose c = c.objects.1.map Prod.fst := by
  simp only [Conn.objects, connClose, List.map_append, List.map_map]
  exact ⟨rfl, rfl⟩

theorem Conn.OneObject.kept (h : c.OneObject) : ObjectsKept c := by
  obtain ⟨hids, hclose⟩ := ids_eq c
  obtain h | ⟨k, h⟩ := h
  · have hn : c.nalloc = 0 := congrArg (fun o => o.2.2) h
    refine ⟨?_, ?_⟩
    · rw [hids, h, hn]
      exact .refl _
    · rw [hclose, h, hn]
      exact .refl _
  · have hn : c.nalloc = 1 := congrArg (fun o => o.2.2) h
    refine ⟨?_, ?_⟩
    · rw [hids, h, hn]
      exact .refl _
    · rw [hclose, h, hn]
      exact .refl _

/-- An object that is on the list of the free ones, or on none, is not freed. -/
theorem not_objectsKept (h : c.objects.1.length ≠ c.objects.2.2) : ¬ObjectsKept c := by
  intro hkept
  have hlen := hkept.close.length_eq
  rw [(ids_eq c).2, List.length_map, List.length_range] at hlen
  exact h hlen

/-- One call. -/
theorem connHttpread_oneObject {len : ℕ} {r : ReadRet × Conn} (hone : c.OneObject)
    (h : connHttpread env c len = some r) :
    (¬c.LosesObject → r.2.OneObject) ∧ (¬¬c.LosesObject → ¬ObjectsKept r.2) := by
  obtain ⟨r, c'⟩ := r
  dsimp only
  obtain ⟨hnone, hobjects⟩ | ⟨n, c₁, s, htakes, hn, hobjects, hup, hfound⟩ :=
    connHttpread_objects h
  · have hno : ¬c.LosesObject := by
      rintro ⟨n, hn, -⟩
      rw [hnone] at hn
      cases hn
    refine ⟨fun _ => ?_, fun hl => absurd hno hl⟩
    unfold Conn.OneObject
    rwa [hobjects]
  have hlose : c.LosesObject ↔
      ∃ q ∈ c.req.head?, c.upgrade ≠ 0 ∨ q.reqmallocsize < n.toNat + 1 := by
    unfold Conn.LosesObject
    rw [htakes]
    exact ⟨fun ⟨_, hm, h⟩ => Option.some.inj hm ▸ h, fun h => ⟨n, rfl, h⟩⟩
  obtain ⟨hreq, hfree, hnalloc⟩ : c₁.req.map HttpReq.object = c.objects.1 ∧
      c₁.freereq.map HttpReq.object = c.objects.2.1 ∧ c₁.nalloc = c.objects.2.2 := by
    rw [← hobjects]
    exact ⟨rfl, rfl, rfl⟩
  obtain hc | ⟨k, hc⟩ := hone
  · -- the first object
    have hnil : c.req = [] := List.map_eq_nil_iff.mp (congrArg Prod.fst hc)
    have hno : ¬c.LosesObject := by
      rw [hlose, hnil]
      rintro ⟨q, hq, -⟩
      cases hq
    refine ⟨fun _ => ?_, fun hl => absurd hno hl⟩
    rw [hc] at hreq hfree hnalloc
    have hrecycle : c₁.recycle.freereq = [] := by
      unfold Conn.recycle
      dsimp only
      rw [List.map_eq_nil_iff.mp hreq, List.map_eq_nil_iff.mp hfree]
      rfl
    by_cases hu : c₁.upgrade = 0
    · right
      refine ⟨n.toNat + 1, ?_⟩
      rw [readFound_plain hu hn hfound, hrecycle]
      unfold allocReq HttpReq.object HttpReq.alloc
      dsimp only [List.head?_nil]
      rw [hnalloc]
      rfl
    · obtain h | ⟨k, h⟩ := readFound_upgraded hu hfound
      · left
        rw [h]
        unfold Conn.objects
        rw [hrecycle]
        exact congrArg (Prod.mk [] ∘ Prod.mk []) hnalloc
      · right
        refine ⟨k, ?_⟩
        rw [h, hrecycle, hnalloc]
        rfl
  · -- a further object
    rw [hc] at hreq hfree hnalloc
    obtain ⟨q, hq, hqk⟩ : ∃ q, c₁.req = [q] ∧ q.object = (0, k) := by
      obtain ⟨q, hq, hqk⟩ := List.map_eq_singleton_iff.mp hreq
      exact ⟨q, hq, hqk⟩
    have hrecycle : c₁.recycle.freereq = [q] := by
      unfold Conn.recycle
      dsimp only
      rw [hq, List.map_eq_nil_iff.mp hfree]
      rfl
    have hlose' : c.LosesObject ↔ c.upgrade ≠ 0 ∨ k < n.toNat + 1 := by
      obtain ⟨q', hq', hqk'⟩ := List.map_eq_singleton_iff.mp (congrArg Prod.fst hc)
      have hsize : q'.reqmallocsize = k := congrArg Prod.snd hqk'
      rw [hlose, hq', ← hsize]
      exact ⟨fun ⟨_, hm, h⟩ => Option.some.inj hm ▸ h, fun h => ⟨q', rfl, h⟩⟩
    rw [not_not, hlose', ← hup]
    by_cases hu : c₁.upgrade = 0
    · have hafter := readFound_plain hu hn hfound
      rw [hrecycle] at hafter
      unfold allocReq at hafter
      have hsize : q.reqmallocsize = k := congrArg Prod.snd hqk
      dsimp only [List.head?_cons] at hafter
      rw [hsize, hnalloc] at hafter
      by_cases hk : k < n.toNat + 1
      · rw [if_pos hk] at hafter
        refine ⟨fun h => absurd (.inr hk) h, fun _ => not_objectsKept ?_⟩
        rw [hafter]
        exact (by decide : 1 ≠ 2)
      · rw [if_neg hk] at hafter
        refine ⟨fun _ => .inr ⟨k, ?_⟩, fun h => absurd h (not_or.mpr ⟨not_not.mpr hu, hk⟩)⟩
        rw [hafter, hqk]
        rfl
    · refine ⟨fun h => absurd (.inl hu) h, fun _ => not_objectsKept ?_⟩
      obtain h | ⟨k, h⟩ := readFound_upgraded hu hfound
      · have hnil : c'.objects.1 = [] := congrArg Prod.fst h
        have hone : c'.objects.2.2 = 1 := (congrArg (fun o => o.2.2) h).trans hnalloc
        rw [hnil, hone]
        exact (by decide : 0 ≠ 1)
      · rw [h, hnalloc]
        exact (by decide : 1 ≠ 2)

/-- In a run every object is kept exactly if no call takes a head that loses one. -/
theorem objectsKept_iff (env : Env) (recvs : ℕ → RecvAns) (stream : List UInt8) (sock : Sock)
    (lens : List ℕ) (rs : List (ReadRet × Conn))
    (hrs : Calls.run (connHttpread env) (.init recvs stream sock) lens = some rs) :
    (∀ r ∈ rs, ObjectsKept r.2) ↔
      Calls.Along (connHttpread env) (fun c _ => ¬c.LosesObject) (.init recvs stream sock) lens :=
  Calls.forall_iff_along_of_run (Q := fun _ => True)
    (fun _ _ _ hone _ h =>
      have hcall := connHttpread_oneObject hone h
      ⟨fun hp => ⟨hcall.1 hp, (hcall.1 hp).kept⟩, hcall.2⟩)
    (by simp) (.inl rfl) hrs

/-- Two requests, of which the second has the longer head. -/
def twoHeads : Conn :=
  .init (fun _ => .data 4096)
    (ascii "GET / HTTP/1.1\r\n\r\n" ++ ascii "GET / HTTP/1.1\r\nHost: h\r\n\r\n") .idle

/-- The third call takes the second head. The object of the first is on no list after it. -/
theorem twoHeads_objects :
    ∃ rs, Calls.run (connHttpread .plain) twoHeads [1, 1, 1] = some rs ∧
      rs.map (fun r => r.2.objects) =
        [([(0, 19)], [], 1), ([(0, 19)], [], 1), ([(1, 28)], [], 2)] := by
  have hrun : (Calls.run (connHttpread .plain) twoHeads [1, 1, 1]).any (fun rs =>
      decide (rs.map (fun r => r.2.objects) =
        [([(0, 19)], [], 1), ([(0, 19)], [], 1), ([(1, 28)], [], 2)])) = true := by
    decide +kernel
  obtain ⟨rs, hrs, h⟩ := (Option.any_eq_true _ _).mp hrun
  exact ⟨rs, hrs, of_decide_eq_true h⟩

theorem objectsKept_iff_twoHeads :
    ∃ rs, Calls.run (connHttpread .plain) twoHeads [1] = some rs ∧
      ((∀ r ∈ rs, ObjectsKept r.2) ↔
        Calls.Along (connHttpread .plain) (fun c _ => ¬c.LosesObject) twoHeads [1]) := by
  have hrun : (Calls.run (connHttpread .plain) twoHeads [1]).isSome = true := by
    decide +kernel
  obtain ⟨rs, hrs⟩ := Option.isSome_iff_exists.mp hrun
  exact ⟨rs, hrs, objectsKept_iff .plain _ _ _ [1] rs hrs⟩

/-- An object of this run is never freed. -/
theorem not_objectsKept_twoHeads :
    ∃ rs, Calls.run (connHttpread .plain) twoHeads [1, 1, 1] = some rs ∧
      ∃ r ∈ rs, ¬ObjectsKept r.2 := by
  obtain ⟨rs, hrs, hobjects⟩ := twoHeads_objects
  obtain ⟨r, hr, h⟩ : ∃ r ∈ rs, r.2.objects = ([(1, 28)], [], 2) := by
    rw [← List.mem_map (f := fun r : ReadRet × Conn => r.2.objects), hobjects]
    simp only [List.mem_cons, or_true, true_or]
  refine ⟨rs, hrs, r, hr, not_objectsKept ?_⟩
  rw [h]
  exact (by decide : 1 ≠ 2)

end Webxs
