import Mathlib.Data.List.Basic
import Webxs.Interleaving
import Webxs.Write

/-!
# The order of the bytes written

What the kernel took, followed by what the cache holds, is what the calls of
`xs_conn_write_` accepted, in order : every write that sends does so with an empty cache.
That fails in one place. When the cache holds bytes and one more buffer would take it over
`maxcache`, `xs_conn_cachefill` returns 0 as it does when there is nothing to cache, and
`xs_conn_write_` sends the buffer ahead of the cache (`not_stream_eq_accepted`). In runs that
stay clear of it the order holds (`stream_eq_accepted_of_writeFits`).
-/

open Interleaving

namespace Webxs

namespace Out

/-- The bytes the connection has taken : those in the kernel, then those in the cache. -/
def stream (o : Out) : List UInt8 :=
  o.sock.sent ++ o.wcache.toList

/-- No `send` to come returns 0. -/
def Open (o : Out) : Prop :=
  ∀ i, o.sock.sends i ≠ .closed

/-- The cache is within its limit. -/
def Bounded (o : Out) : Prop :=
  o.wcache.aCount ≤ maxcache

end Out

/-! ## One `send` -/

theorem send_spec (s : Sock) (offer : List UInt8) (hopen : s.sends 0 ≠ .closed)
    (hne : offer ≠ []) : ∃ k, k ≤ offer.length ∧ (s.send offer).2.sent = s.sent ++ offer.take k ∧
      ((s.send offer).1 = k ∧ 0 < k ∨ (s.send offer).1 = -1 ∧ k = 0) := by
  have hlen : 0 < offer.length := List.length_pos_iff.mpr hne
  unfold Sock.send
  cases h : s.sends 0 with
  | accept n => exact ⟨min (n + 1) offer.length, by omega, by simp, .inl ⟨by simp, by omega⟩⟩
  | fail e => exact ⟨0, Nat.zero_le _, by simp, .inr ⟨rfl, rfl⟩⟩
  | closed => exact (hopen h).elim

theorem sends_send (s : Sock) (offer : List UInt8) (i : ℕ) :
    (s.send offer).2.sends i = s.sends (i + 1) := by
  unfold Sock.send
  cases s.sends 0 <;> rfl

/-! ## The cache -/

/-- A forced fill puts the bytes at the end of the cache, or does nothing. -/
structure Fills (o : Out) (bs : List UInt8) (r : ℤ × Out) : Prop where
  sock : r.2.sock = o.sock
  bounded : o.Bounded → r.2.Bounded
  wcache : r.1 = 0 ∧ r.2.wcache = o.wcache ∨
    r.1 ≠ 0 ∧ r.2.wcache.toList = o.wcache.toList ++ bs

theorem fills_cacheAdd (o : Out) (bs : List UInt8) : Fills o bs (cacheAdd o bs) := by
  unfold cacheAdd
  by_cases h : maxcache < bs.length + o.wcache.aCount
  · rw [if_pos h]
    exact ⟨rfl, id, .inl ⟨rfl, rfl⟩⟩
  · rw [if_neg h]
    cases hadd : o.wcache.add bs with
    | none => exact ⟨rfl, id, .inl ⟨rfl, rfl⟩⟩
    | some ar =>
      have hlist := Arr.toList_add hadd
      have hcount : ar.aCount = o.wcache.aCount + bs.length := by
        rw [← ar.length_toList, hlist, List.length_append, Arr.length_toList]
      refine ⟨rfl, fun _ => ?_, .inr ⟨by simp, hlist⟩⟩
      simp only [Out.Bounded, hcount]
      omega

/-- With room in the cache the bytes are put there, if there are any in it. -/
theorem cacheAdd_ne_zero {o : Out} {bs : List UInt8} (hne : o.wcache.aCount ≠ 0)
    (hfit : bs.length + o.wcache.aCount ≤ maxcache) : (cacheAdd o bs).1 ≠ 0 := by
  unfold cacheAdd
  rw [if_neg (by omega)]
  cases hadd : o.wcache.add bs with
  | none =>
    have := (Arr.add_eq_none hadd).2
    rw [← List.length_eq_zero_iff, Arr.length_toList] at this
    exact (hne this).elim
  | some ar => simp

theorem fills_connCachefillWith (purge : Out → ℤ × Out) (inCache : Bool) (o : Out)
    (bs : List UInt8) : Fills o bs (connCachefillWith purge inCache o bs true) := by
  cases inCache with
  | false => simpa [connCachefillWith] using fills_cacheAdd o bs
  | true =>
    rw [connCachefillWith_cached]
    exact ⟨rfl, id, .inl ⟨rfl, rfl⟩⟩

/-! ## The loop of `xs_conn_write_` -/

/-- The loop sends a first part of the bytes, caches a second, and counts both. -/
structure Loops (o : Out) (rest : List UInt8) (k a : ℕ) (o' : Out) : Prop where
  le : k + a ≤ rest.length
  sent : o'.sock.sent = o.sock.sent ++ rest.take k
  wcache : o'.wcache.toList = o.wcache.toList ++ (rest.drop k).take a
  opened : o'.Open
  bounded : o.Bounded → o'.Bounded

variable {fill : Out → List UInt8 → Bool → ℤ × Out}

theorem writeLoop_all {rest : List UInt8} {o : Out} (tot : ℕ) (hne : rest ≠ []) {amt : ℕ}
    (hamt : amt = min rest.length INT_MAX) (h0 : 0 < amt) {sock : Sock}
    (hsend : o.sock.send (rest.take amt) = ((amt : ℤ), sock)) :
    writeLoop fill o rest tot =
      writeLoop fill { o with sock := sock } (rest.drop amt) (tot + amt) := by
  subst hamt
  rw [writeLoop, if_neg hne]
  simp only [hsend, if_true]
  rw [if_neg (by omega)]

/-- After the fill, only `errnum` is set, to an error. -/
theorem writeLoop_part {rest : List UInt8} {o : Out} (tot : ℕ) (hne : rest ≠ []) {amt : ℕ}
    (hamt : amt = min rest.length INT_MAX) {n : ℤ} {sock : Sock}
    (hsend : o.sock.send (rest.take amt) = (n, sock)) (h0 : n ≠ 0) (hlt : n ≠ amt)
    {f : ℤ × Out} (hf : fill { o with sock := sock } ((rest.take amt).drop n.toNat) true = f) :
    ∃ e, e ≠ 0 ∧ writeLoop fill o rest tot =
      (some (if f.1 ≠ 0 then tot + n.toNat + (amt - n.toNat) else tot + n.toNat),
        { f.2 with errnum := e }) := by
  subst hamt
  rw [writeLoop, if_neg hne]
  simp only [hsend, hf, if_neg h0, if_neg hlt]
  have hbusy : Error.WriteBusy ≠ 0 := by decide
  by_cases hpos : 0 < n
  · rw [if_pos hpos]
    exact ⟨_, hbusy, rfl⟩
  rw [if_neg hpos]
  by_cases he : (connSeterr f.2).1 = 0
  · rw [if_pos he]
    exact ⟨_, hbusy, rfl⟩
  · rw [if_neg he]
    exact ⟨_, he, rfl⟩

theorem writeLoop_spec (hfill : ∀ o bs, Fills o bs (fill o bs true)) (rest : List UInt8)
    (o : Out) (tot : ℕ) (hopen : o.Open) :
    ∃ k a o', writeLoop fill o rest tot = (some (tot + k + a), o') ∧ Loops o rest k a o' ∧
      ((∀ o bs, (fill o bs true).1 = 0) → a = 0 ∧ o'.wcache = o.wcache) := by
  induction hn : rest.length using Nat.strong_induction_on generalizing rest o tot with
  | _ n ih =>
  by_cases hne : rest = []
  · subst hne
    refine ⟨0, 0, o, by rw [writeLoop, if_pos rfl]; rfl, ?_, fun _ => ⟨rfl, rfl⟩⟩
    exact ⟨le_rfl, by simp, by simp, hopen, id⟩
  obtain ⟨amt, hamt⟩ : ∃ amt, amt = min rest.length INT_MAX := ⟨_, rfl⟩
  have hpos : 0 < rest.length := List.length_pos_iff.mpr hne
  have hamt0 : 0 < amt := by
    simp only [hamt, INT_MAX]
    omega
  have hlen : (rest.take amt).length = amt := by
    rw [List.length_take]
    omega
  obtain ⟨k, hk, hsent, hret⟩ := send_spec o.sock (rest.take amt) (hopen 0)
    (List.ne_nil_of_length_pos (by omega))
  have hsends := sends_send o.sock (rest.take amt)
  obtain ⟨n, sock, hsend⟩ : ∃ n sock, o.sock.send (rest.take amt) = (n, sock) := ⟨_, _, rfl⟩
  rw [hlen] at hk
  rw [hsend, List.take_take, min_eq_left hk] at hsent
  simp only [hsend] at hret hsends
  by_cases hall : n = amt
  · -- all of them were taken, and the loop goes on
    have hkamt : k = amt := by omega
    subst hall hkamt
    obtain ⟨k', a, o', hw, hl, hcached⟩ := ih (rest.drop k).length (by rw [List.length_drop]; omega)
      (rest.drop k) { o with sock := sock } (tot + k)
      (fun i => (hsends i).trans_ne (hopen (i + 1))) rfl
    refine ⟨k + k', a, o', ?_, ⟨?_, ?_, ?_, hl.opened, hl.bounded⟩, hcached⟩
    · rw [writeLoop_all tot hne hamt hamt0 hsend, hw, ← Nat.add_assoc]
    · have := hl.le
      rw [List.length_drop] at this
      omega
    · rw [hl.sent, List.take_add, ← List.append_assoc, ← hsent]
    · rw [hl.wcache, List.drop_drop]
  · have hnat : n.toNat = k := by omega
    have hf := hfill { o with sock := sock } ((rest.take amt).drop n.toNat)
    obtain ⟨f, hfeq⟩ : ∃ f, fill { o with sock := sock } ((rest.take amt).drop n.toNat) true = f :=
      ⟨_, rfl⟩
    obtain ⟨e, -, he⟩ := writeLoop_part tot hne hamt hsend (by omega) hall hfeq
    rw [hnat] at he
    rw [hfeq, hnat, List.drop_take] at hf
    have hsent' : f.2.sock.sent = o.sock.sent ++ rest.take k :=
      (congrArg Sock.sent hf.sock).trans hsent
    have hopen' : f.2.Open := by
      intro i
      rw [hf.sock]
      exact (hsends i).trans_ne (hopen (i + 1))
    rcases hf.wcache with ⟨h0, hw⟩ | ⟨h1, hw⟩
    · refine ⟨k, 0, { f.2 with errnum := e }, by rw [he, if_neg (not_not.mpr h0), Nat.add_zero],
        ?_, fun _ => ⟨rfl, hw⟩⟩
      exact ⟨by omega, hsent', by simpa using congrArg Arr.toList hw, hopen', hf.bounded⟩
    · refine ⟨k, amt - k, { f.2 with errnum := e }, by rw [he, if_pos h1], ?_,
        fun h => (h1 (hfeq ▸ h _ _)).elim⟩
      exact ⟨by omega, hsent', hw, hopen', hf.bounded⟩

/-! ## Purging and filling the cache -/

/-- A purge moves bytes from the front of the cache to the kernel. -/
structure Purges (o : Out) (r : ℤ × Out) : Prop where
  stream : r.2.stream = o.stream
  wcache : r.1 = 0 → r.2.wcache.toList = []
  opened : r.2.Open
  count_le : r.2.wcache.aCount ≤ o.wcache.aCount

/-- A write of the cache's own bytes leaves the cache alone. -/
theorem connWriteCached_spec {o : Out} (buf : List UInt8) (more : Bool) (hopen : o.Open) :
    ∃ k o', connWrite true o buf more = (k, o') ∧ k ≤ buf.length ∧
      o'.sock.sent = o.sock.sent ++ buf.take k ∧ o'.wcache = o.wcache ∧ o'.Open := by
  obtain ⟨k, a, o', hw, hl, hcached⟩ := writeLoop_spec
    (fun o bs => fills_connCachefillWith connCachepurge true o bs) buf
    (if more = true then { o with errnum := 0, corked := true } else { o with errnum := 0 }) 0
    (by split_ifs <;> exact hopen)
  obtain ⟨rfl, hcache⟩ := hcached fun o bs => by rw [connCachefillWith_cached]
  have hsent := hl.sent
  refine ⟨k, if more = true then o' else { o' with corked := false }, ?_, hl.le, ?_⟩
  · rw [connWrite, connWriteWith]
    simp only [connCachefill, connCachefillWith_cached, ne_eq, not_true_eq_false, if_false]
    rw [hw]
    simp
  · cases more <;> exact ⟨hsent, hcache, hl.opened⟩

theorem purges_connCachepurge {o : Out} (hopen : o.Open) : Purges o (connCachepurge o) := by
  rw [connCachepurge_eq, connCachepurgeWith]
  by_cases h0 : o.wcache.aCount = 0
  · rw [if_pos h0]
    exact ⟨rfl, fun _ => List.length_eq_zero_iff.mp (by rwa [Arr.length_toList]), hopen, le_rfl⟩
  · obtain ⟨k, o', hw, hk, hsent, hcache, hopen'⟩ :=
      connWriteCached_spec o.wcache.toList true hopen
    rw [Arr.length_toList] at hk
    simp only [if_neg h0, hw]
    split_ifs with hall
    · refine ⟨?_, fun _ => Arr.toList_reset _, hopen', Nat.zero_le _⟩
      simp only [Out.stream, hsent, hall, Arr.toList_reset, List.append_nil]
      rw [List.take_of_length_le (by rw [Arr.length_toList])]
    · refine ⟨?_, fun h => by simp at h, hopen', ?_⟩
      · simp only [Out.stream, hsent, hcache, Arr.toList_remove_front, List.append_assoc,
          List.take_append_drop]
      · rw [hcache]
        exact Nat.sub_le _ _

/-- How much a purge leaves, if the kernel accepts `n + 1` bytes. -/
theorem aCount_connCachepurge {o : Out} (hb : o.Bounded) {n : ℕ}
    (hs : o.sock.sends 0 = .accept n) :
    (connCachepurge o).2.wcache.aCount = o.wcache.aCount - (n + 1) := by
  rw [connCachepurge_eq, connCachepurgeWith]
  by_cases h0 : o.wcache.aCount = 0
  · rw [if_pos h0, h0, Nat.zero_sub]
  have hlen : o.wcache.toList.length = o.wcache.aCount := o.wcache.length_toList
  have hwrite : ∃ o', connWrite true o o.wcache.toList true = (min (n + 1) o.wcache.aCount, o') ∧
      o'.wcache = o.wcache := by
    have hfill : ∀ o bs force, connCachefill true o bs force = (0, o) := fun o bs force =>
      connCachefillWith_cached _ o bs force
    have hne : o.wcache.toList ≠ [] := by rwa [ne_eq, ← List.length_eq_zero_iff, hlen]
    have hamt : o.wcache.aCount = min o.wcache.toList.length INT_MAX := by
      have hlimit : maxcache ≤ INT_MAX := by decide
      have := hb.trans hlimit
      rw [hlen]
      omega
    have htake : o.wcache.toList.take o.wcache.aCount = o.wcache.toList :=
      List.take_of_length_le hlen.le
    obtain ⟨sock, hsend⟩ : ∃ sock, o.sock.send (o.wcache.toList.take o.wcache.aCount) =
        (((min (n + 1) o.wcache.aCount : ℕ) : ℤ), sock) := by
      rw [htake]
      exact ⟨_, by rw [Sock.send, hs, hlen]⟩
    rw [connWrite, connWriteWith]
    simp only [hfill, ne_eq, not_true_eq_false, if_false, if_true]
    by_cases hall : min (n + 1) o.wcache.aCount = o.wcache.aCount
    · rw [hall] at hsend ⊢
      rw [writeLoop_all (o := { o with errnum := 0, corked := true }) 0 hne hamt (by omega) hsend,
        writeLoop, if_pos]
      · simp
      · rw [List.drop_eq_nil_iff, hlen]
    · obtain ⟨e, -, he⟩ := writeLoop_part (o := { o with errnum := 0, corked := true }) 0 hne hamt
        hsend (by omega) (by omega) (hfill _ _ _)
      rw [he, Int.toNat_natCast]
      simp
  obtain ⟨o', hw, hcache⟩ := hwrite
  simp only [if_neg h0, hw, hcache]
  split_ifs with hall
  · show 0 = _
    omega
  · show o.wcache.aCount - _ = _
    omega

/-- The write of `buf` finds an empty cache, or room in it, or a kernel that makes room. -/
def WriteFits (o : Out) (buf : List UInt8) : Prop :=
  o.wcache.aCount = 0 ∨ buf.length + o.wcache.aCount ≤ maxcache ∨
    o.sock.polls 0 = true ∧
      match o.sock.sends 0 with
      | .accept n => buf.length + (o.wcache.aCount - (n + 1)) ≤ maxcache ∨ o.wcache.aCount ≤ n + 1
      | _ => False

/-- A fill that is not forced takes the buffer, or leaves the cache empty. -/
structure FillsFree (o : Out) (buf : List UInt8) (r : ℤ × Out) : Prop where
  opened : r.2.Open
  bounded : r.2.Bounded
  stream : r.1 ≠ 0 ∧ r.2.stream = o.stream ++ buf ∨
    r.1 = 0 ∧ r.2.stream = o.stream ∧ r.2.wcache.toList = []

theorem fillsFree_cacheAdd {o o' : Out} {buf : List UInt8} (hopen : o'.Open) (hb : o'.Bounded)
    (hstream : o'.stream = o.stream)
    (hfit : o'.wcache.aCount ≠ 0 → buf.length + o'.wcache.aCount ≤ maxcache) :
    FillsFree o buf (cacheAdd o' buf) := by
  have hf := fills_cacheAdd o' buf
  have hopen' : (cacheAdd o' buf).2.Open := by
    intro i
    rw [hf.sock]
    exact hopen i
  refine ⟨hopen', hf.bounded hb, ?_⟩
  rcases hf.wcache with ⟨h0, hw⟩ | ⟨h1, hw⟩
  · right
    refine ⟨h0, ?_, ?_⟩
    · rw [← hstream, Out.stream, Out.stream, hf.sock, hw]
    · by_cases hc : o'.wcache.aCount = 0
      · rwa [hw, ← List.length_eq_zero_iff, Arr.length_toList]
      · exact (cacheAdd_ne_zero hc (hfit hc) h0).elim
  · left
    refine ⟨h1, ?_⟩
    rw [← hstream, Out.stream, Out.stream, hf.sock, hw, List.append_assoc]

theorem fillsFree_connCachefill {o : Out} {buf : List UInt8} (hopen : o.Open) (hb : o.Bounded)
    (hfit : WriteFits o buf) : FillsFree o buf (connCachefill false o buf false) := by
  have hempty : o.wcache.aCount = 0 → o.wcache.toList = [] := by
    intro h
    rwa [← List.length_eq_zero_iff, Arr.length_toList]
  rw [connCachefill, connCachefillWith]
  simp only [Bool.false_eq_true, false_or, and_true]
  by_cases hcache : o.wcache.aCount ≠ 0 ∨ o.isWblocked = true
  swap
  · rw [if_neg hcache]
    simp only [not_or, not_not] at hcache
    exact ⟨hopen, hb, .inr ⟨rfl, rfl, hempty hcache.1⟩⟩
  rw [if_pos hcache]
  by_cases hblocked : o.isWblocked = true ∧ buf.length + o.wcache.aCount ≤ maxcache
  · rw [if_pos hblocked]
    exact fillsFree_cacheAdd hopen hb rfl fun _ => hblocked.2
  rw [if_neg hblocked]
  have hpolls : (connWritable o).1 = o.sock.polls 0 := rfl
  obtain ⟨o₁, ho₁⟩ : ∃ o₁, (connWritable o).2 = o₁ := ⟨_, rfl⟩
  have hcache₁ : o₁.wcache = o.wcache := by rw [← ho₁]; rfl
  have hsends₁ : o₁.sock.sends = o.sock.sends := by rw [← ho₁]; rfl
  have hstream₁ : o₁.stream = o.stream := by rw [← ho₁]; rfl
  have hopen₁ : o₁.Open := fun i => by
    rw [hsends₁]
    exact hopen i
  have hb₁ : o₁.Bounded := by rwa [Out.Bounded, hcache₁]
  simp only [hpolls, ho₁]
  by_cases hpoll : o.sock.polls 0 = false
  · rw [if_pos hpoll]
    refine fillsFree_cacheAdd hopen₁ hb₁ hstream₁ fun hc => ?_
    rw [hcache₁] at hc ⊢
    rcases hfit with h0 | hle | ⟨hw, -⟩
    · exact (hc h0).elim
    · exact hle
    · simp [hpoll] at hw
  · rw [if_neg hpoll]
    have hpurge := purges_connCachepurge hopen₁
    have hle := hcache₁ ▸ hpurge.count_le
    have hstream₂ := hpurge.stream.trans hstream₁
    by_cases hp : (connCachepurge o₁).1 = 0
    · rw [if_neg (not_not.mpr hp)]
      exact ⟨hpurge.opened, hle.trans hb, .inr ⟨rfl, hstream₂, hpurge.wcache hp⟩⟩
    · rw [if_pos hp]
      refine fillsFree_cacheAdd hpurge.opened (hle.trans hb) hstream₂ fun hc => ?_
      rcases hfit with h0 | hfit | ⟨-, hacc⟩
      · omega
      · exact (Nat.add_le_add_left hle _).trans hfit
      · cases hs : o.sock.sends 0 with
        | accept n =>
          have hcount := aCount_connCachepurge hb₁ (hsends₁ ▸ hs)
          rw [hcache₁] at hcount
          simp only [hs] at hacc
          omega
        | fail | closed => simp [hs] at hacc

/-- A write that fits adds to the stream what it returns. -/
theorem stream_connWrite {o : Out} {buf : List UInt8} (more : Bool) (hopen : o.Open)
    (hb : o.Bounded) (hfit : WriteFits o buf) :
    (connWrite false o buf more).2.stream =
      o.stream ++ buf.take (connWrite false o buf more).1 ∧
      (connWrite false o buf more).2.Open ∧ (connWrite false o buf more).2.Bounded := by
  have hf := fillsFree_connCachefill (o := { o with errnum := 0 }) hopen hb hfit
  rw [connWrite, connWriteWith]
  obtain ⟨f, hfeq⟩ : ∃ f, connCachefill false { o with errnum := 0 } buf false = f := ⟨_, rfl⟩
  rw [hfeq] at hf
  simp only [hfeq]
  have hstream := hf.stream
  rw [show ({ o with errnum := 0 } : Out).stream = o.stream from rfl] at hstream
  rcases hstream with ⟨h1, hstream⟩ | ⟨h0, hstream, hempty⟩
  · rw [if_pos h1]
    exact ⟨by simpa using hstream, hf.opened, hf.bounded⟩
  · rw [if_neg (not_not.mpr h0)]
    obtain ⟨k, a, o', hw, hl, -⟩ := writeLoop_spec
      (fun o bs => fills_connCachefillWith connCachepurge false o bs) buf
      (if more = true then { f.2 with corked := true } else f.2) 0
      (by split_ifs <;> exact hf.opened)
    have hsent : o'.sock.sent = f.2.sock.sent ++ buf.take k := by
      rw [hl.sent]
      cases more <;> rfl
    have hwcache : o'.wcache.toList = (buf.drop k).take a := by
      rw [hl.wcache]
      cases more <;> simp [hempty]
    have hstream' : o'.stream = o.stream ++ buf.take (0 + k + a) := by
      rw [Out.stream, hsent, hwcache, List.append_assoc, Nat.zero_add, List.take_add, ← hstream,
        Out.stream, hempty, List.append_nil]
    have hb' : o'.Bounded := hl.bounded (by cases more <;> exact hf.bounded)
    rw [show connCachefill false = connCachefillWith connCachepurge false from rfl, hw]
    cases more <;> exact ⟨hstream', hl.opened, hb'⟩

/-! ## Runs of calls -/

/-- A connection and what its calls accepted : the first `r` bytes of each buffer, `r` being
what the call returned. -/
structure Writer where
  out : Out
  accepted : List UInt8

/-- A call on the writing side of a connection. -/
inductive WriteAct
  /-- `xs_conn_write_`. -/
  | write (buf : List UInt8) (more : Bool)
  /-- `xs_conn_cachepurge`. -/
  | purge
  /-- `xs_conn_cacheset`. -/
  | cacheset

namespace Writer

/-- The next call. -/
def next (w : Writer) : WriteAct → Option Writer
  | .write buf more =>
    let r := connWrite false w.out buf more
    some ⟨r.2, w.accepted ++ buf.take r.1⟩
  | .purge => some ⟨(connCachepurge w.out).2, w.accepted⟩
  | .cacheset => some ⟨connCacheset w.out, w.accepted⟩

/-- A fresh connection on a socket that will answer as given. -/
def init (sends : ℕ → SendAns) (polls : ℕ → Bool) : Writer where
  out :=
    { errnum := 0, corked := false, isWblocked := false, wcache := .create
      sock := { sends := sends, polls := polls, errno := 0, sent := [] } }
  accepted := []

/-- If the call is a write, it fits. -/
def Fits (w : Writer) : WriteAct → Prop
  | .write buf _ => WriteFits w.out buf
  | _ => True

end Writer

theorem writer_invariant {sends : ℕ → SendAns} {polls : ℕ → Bool} (hopen : ∀ i, sends i ≠ .closed)
    {w : Writer} (h : Runs Writer.next Writer.Fits (Writer.init sends polls) w) :
    w.out.stream = w.accepted ∧ w.out.Open ∧ w.out.Bounded := by
  refine h.invariant (I := fun w => w.out.stream = w.accepted ∧ w.out.Open ∧ w.out.Bounded)
    ⟨rfl, hopen, Nat.zero_le _⟩ ?_
  rintro w a w' ⟨hs, ho, hb⟩ hfit hn
  cases a with
  | write buf more =>
    obtain rfl := Option.some.inj hn
    obtain ⟨hs', ho', hb'⟩ := stream_connWrite more ho hb hfit
    exact ⟨by rw [hs', hs], ho', hb'⟩
  | purge =>
    obtain rfl := Option.some.inj hn
    have hp := purges_connCachepurge ho
    exact ⟨hp.stream.trans hs, hp.opened, hp.count_le.trans hb⟩
  | cacheset =>
    obtain rfl := Option.some.inj hn
    exact ⟨hs, ho, hb⟩

/-- If every write fits, the bytes handed to the kernel followed by those in the cache are the
bytes accepted, in order. -/
theorem stream_eq_accepted_of_writeFits {sends : ℕ → SendAns} {polls : ℕ → Bool}
    (hopen : ∀ i, sends i ≠ .closed) {w : Writer}
    (h : Runs Writer.next Writer.Fits (Writer.init sends polls) w) :
    w.out.sock.sent ++ w.out.wcache.toList = w.accepted :=
  (writer_invariant hopen h).1

/-- The kernel takes one of three bytes. -/
theorem stream_eq_accepted_of_writeFits_part :
    ∃ w : Writer, w.accepted = [1, 2, 3] ∧ w.out.sock.sent = [1] ∧
      w.out.sock.sent ++ w.out.wcache.toList = w.accepted := by
  have hrun : Runs Writer.next Writer.Fits (Writer.init (fun _ => .accept 0) fun _ => false) _ :=
    .step (.write [1, 2, 3] false) .start (show WriteFits _ _ from .inl rfl) rfl
  refine ⟨_, ?_, ?_, stream_eq_accepted_of_writeFits (fun _ => by simp) hrun⟩ <;>
    simp [connWrite, connWriteWith, connCachefill, connCachefillWith, Writer.init, writeLoop,
      Sock.send, Arr.create, INT_MAX, cacheAdd, maxcache, Arr.add, Arr.addSpace, Arr.aSpace,
      Arr.makespace, Arr.recalloc]

/-- A write that is over the limit of a cache that is not empty is sent ahead of it. -/
theorem connWrite_over (o : Out) (buf : List UInt8) {n : ℕ} (more : Bool)
    (hcache : o.wcache.aCount ≠ 0) (hover : maxcache < buf.length + o.wcache.aCount)
    (hpoll : o.sock.polls 0 = false) (hs : o.sock.sends 0 = .accept n) (hne : buf ≠ [])
    (hlen : buf.length ≤ n + 1) (hmax : buf.length ≤ INT_MAX) :
    (connWrite false o buf more).1 = buf.length ∧
      (connWrite false o buf more).2.sock.sent = o.sock.sent ++ buf ∧
      (connWrite false o buf more).2.wcache = o.wcache := by
  have hpos := List.length_pos_iff.mpr hne
  obtain ⟨f, hf, hfcache, hfsent, hfs⟩ : ∃ f, connCachefill false { o with errnum := 0 } buf false =
      (0, f) ∧ f.wcache = o.wcache ∧ f.sock.sent = o.sock.sent ∧ f.sock.sends 0 = .accept n := by
    rw [connCachefill, connCachefillWith]
    simp [connWritable, hcache, hpoll, cacheAdd, hover, Nat.not_le.mpr hover, hs]
  obtain ⟨o₁, ho₁⟩ : ∃ o₁, (if more = true then { f with corked := true } else f) = o₁ := ⟨_, rfl⟩
  have hcache₁ : o₁.wcache = o.wcache := by rw [← ho₁]; cases more <;> exact hfcache
  have hsock₁ : o₁.sock = f.sock := by rw [← ho₁]; cases more <;> rfl
  have htake : buf.take buf.length = buf := List.take_length
  obtain ⟨sock, hsend, hsent⟩ : ∃ sock, o₁.sock.send (buf.take buf.length) =
      ((buf.length : ℤ), sock) ∧ sock.sent = o.sock.sent ++ buf := by
    rw [htake, Sock.send, hsock₁, hfs, hfsent]
    simp [Nat.min_eq_right hlen, htake]
  have hloop : writeLoop (connCachefill false) o₁ buf 0 =
      (some buf.length, { o₁ with sock := sock }) := by
    rw [writeLoop_all 0 hne (Nat.min_eq_left hmax).symm hpos hsend, writeLoop, if_pos (by simp)]
    simp
  rw [connWrite, connWriteWith]
  simp only [hf, ne_eq, not_true_eq_false, if_false, ho₁, hloop]
  cases more <;> simp [hsent, hcache₁]

/-- One byte waits in the cache, and 1000000 more overtake it. -/
theorem not_stream_eq_accepted :
    ∃ (sends : ℕ → SendAns) (polls : ℕ → Bool) (w : Writer), (∀ i, sends i ≠ .closed) ∧
      Reachable Writer.next (Writer.init sends polls) w ∧
      w.out.sock.sent ++ w.out.wcache.toList ≠ w.accepted := by
  let sends : ℕ → SendAns := fun i => if i = 0 then .fail EAGAIN else .accept maxcache
  let polls : ℕ → Bool := fun _ => false
  obtain ⟨r, hr⟩ : ∃ r, connWrite false (Writer.init sends polls).out [1] false = r := ⟨_, rfl⟩
  obtain ⟨hret, hcache, hsent, hpoll, hsend⟩ : r.1 = 1 ∧ r.2.wcache.toList = [1] ∧
      r.2.sock.sent = [] ∧ r.2.sock.polls 0 = false ∧ r.2.sock.sends 0 = .accept maxcache := by
    subst hr
    simp [connWrite, connWriteWith, connCachefill, connCachefillWith, Writer.init, writeLoop,
      Sock.send, Arr.create, INT_MAX, cacheAdd, maxcache, Arr.add, Arr.addSpace, Arr.aSpace,
      Arr.makespace, Arr.recalloc, sends, polls, connSeterr, EAGAIN, Arr.toList, Arr.copyTo]
  have hcount : r.2.wcache.aCount = 1 := by rw [← Arr.length_toList, hcache, List.length_singleton]
  obtain ⟨buf, hlen, htwo⟩ : ∃ buf : List UInt8, buf.length = maxcache ∧ buf.head? = some 2 :=
    ⟨List.replicate maxcache 2, List.length_replicate,
      by rw [List.head?_replicate, if_neg (by decide)]⟩
  obtain ⟨hret', hsent', hcache'⟩ := connWrite_over r.2 buf false
    (by omega) (by omega) hpoll hsend (List.ne_nil_of_length_pos (by rw [hlen]; decide))
    (by omega) (by rw [hlen]; decide)
  have hrun₁ : Reachable Writer.next (Writer.init sends polls) ⟨r.2, [1]⟩ :=
    .step (.write [1] false) .start trivial
      (by simp only [Writer.next, hr, hret]; rfl)
  have hrun₂ : Reachable Writer.next (Writer.init sends polls)
      ⟨(connWrite false r.2 buf false).2, [1] ++ buf⟩ :=
    .step (.write buf false) hrun₁ trivial (by simp [Writer.next, hret'])
  refine ⟨sends, polls, _, fun i => ?_, hrun₂, fun heq => ?_⟩
  · simp only [sends]
    split_ifs <;> simp
  · -- the first byte in the kernel is not the first accepted
    rw [hsent', hsent, hcache', hcache] at heq
    have hhead := congrArg List.head? heq
    simp [List.head?_append, htwo] at hhead

end Webxs
