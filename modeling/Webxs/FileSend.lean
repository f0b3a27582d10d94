import Webxs.WriteStream

/-!
# Sending a file

`xs_conn_write_filedata` (`xs_connection.h`) sends a range of a file in blocks, from memory if its
data is loaded and else as it is read. A call that does not block gives up where the socket is not
writable or takes only a part of a block, and its caller goes on at the byte that the value returned
says.

The two branches count a block that the write accepts with an error at different places : the one
from memory returns before it counts the block, the one from the file behind. A block that is sent
in part and cached is accepted all the same. And `open` returns -1 for a file that it cannot open,
while the code tests for 0 : it reads from the descriptor -1, and passes the -1 of `read` as a size
to `xs_conn_write_` (`accountsForAll_iff`).
-/

namespace Webxs

/-! ## The source -/

/-- A call under way. -/
structure Sending where
  out : Out
  tot : ℕ
  /-- Where the file is read next. -/
  pos : ℕ
  /-- History : the bytes that `xs_conn_write_` accepted. -/
  accepted : List UInt8

/-- Why a call has no result. -/
inductive NoResult
  /-- It needs more turns of its loop. -/
  | running
  /-- It passes a size to `xs_conn_write_` that is over the end of the buffer. -/
  | outside
  deriving DecidableEq

/-- `xs_conn_write_` of `w` bytes at `buf`. -/
def Sending.write (s : Sending) (buf : List UInt8) (w : ℕ) (more : Bool) :
    Except NoResult (ℕ × Sending) :=
  if buf.length < w then .error .outside
  else
    let r := connWrite false s.out (buf.take w) more
    .ok (r.1, { s with out := r.2, accepted := s.accepted ++ (buf.take w).take r.1 })

/-- The size of a block from memory. -/
def memBlock : ℕ := 256 <<< 12

/-- The size of a block from the file. -/
def fileBlock : ℕ := 256 <<< 10

/-- The loop of `xs_conn_write_filedata` on data in memory, over blocks of `block` bytes;
`xs_sock_setnonblocking` is a matter of the socket. -/
def blockLoop (block : ℕ) (data : List UInt8) (rs outtot : ℕ) (blocking : Bool) :
    ℕ → Sending → Except NoResult Sending
  | 0, _ => .error .running
  | n + 1, s =>
    let w := if outtot < s.tot + block then outtot - s.tot else block
    let p := connWritable s.out
    let s := { s with out := p.2 }
    if p.1 = false ∧ blocking = false then .ok s
    else
      match s.write (data.drop (rs + s.tot)) w (s.tot + w < outtot) with
      | .error e => .error e
      | .ok (w, s) =>
        if s.out.errnum = Error.WriteBusy then
          if blocking = false then .ok s
          else
            let s := { s with out := (connCachepurge s.out).2, tot := s.tot + w }
            if s.tot < outtot then blockLoop block data rs outtot blocking n s else .ok s
        else if s.out.errnum ≠ 0 ∨ w = 0 then .ok s
        else
          let s := { s with tot := s.tot + w }
          if s.tot < outtot then blockLoop block data rs outtot blocking n s else .ok s

/-- The loop, over its blocks. -/
def memLoop (data : List UInt8) (rs outtot : ℕ) (blocking : Bool) :
    ℕ → Sending → Except NoResult Sending :=
  blockLoop memBlock data rs outtot blocking

/-- `read` of `w` bytes at `pos` : the value returned as a `size_t`, and the buffer of `bsize`
bytes as far as it is read. There is no file if the descriptor is -1. -/
def readBlock (file : Option (List UInt8)) (pos w bsize : ℕ) : ℕ × List UInt8 :=
  match file with
  | none => (2 ^ 64 - 1, List.replicate bsize 0)
  | some f => (((f.drop pos).take w).length, (f.drop pos).take w)

/-- The loop on a file that is read. -/
def fileLoop (file : Option (List UInt8)) (outtot bsize : ℕ) (blocking : Bool) :
    ℕ → Sending → Except NoResult Sending
  | 0, _ => .error .running
  | n + 1, s =>
    let w := if outtot < s.tot + bsize then outtot - s.tot else bsize
    let p := connWritable s.out
    let s := { s with out := p.2 }
    if p.1 = false ∧ blocking = false then .ok s
    else
      let b := readBlock file s.pos w bsize
      match { s with pos := s.pos + b.1 }.write b.2 b.1 (s.tot + b.1 < outtot) with
      | .error e => .error e
      | .ok (w, s) =>
        let s := { s with tot := s.tot + w }
        if s.out.errnum = Error.WriteBusy then
          if blocking = false then .ok s
          else if s.tot < outtot then fileLoop file outtot bsize blocking n s
          else .ok s
        else if s.out.errnum ≠ 0 ∨ w = 0 then .ok s
        else if s.tot < outtot then fileLoop file outtot bsize blocking n s
        else .ok s

/-- `xs_conn_write_filedata`, in at most `n` turns of a loop : `data` is `fdp->data`, and `file`
what is behind the descriptor that `open` returns, which is not 0. -/
def connWriteFiledata (n : ℕ) (o : Out) (data file : Option (List UInt8)) (rs re : ℕ)
    (blocking : Bool) : Except NoResult Sending :=
  let outtot := re - rs
  if outtot = 0 then .ok ⟨o, 0, rs, []⟩
  else
    let p := connWritable o
    if p.1 = false ∧ blocking = false then .ok ⟨p.2, 0, rs, []⟩
    else
      match data with
      | some data => memLoop data rs outtot blocking n ⟨p.2, 0, rs, []⟩
      | none =>
        let bsize := if outtot < fileBlock then outtot else fileBlock
        fileLoop file outtot bsize blocking n ⟨p.2, 0, rs, []⟩

/-! ## A write with an empty cache -/

/-- Nothing is cached, and nothing asks to cache. -/
def Out.Clean (o : Out) : Prop :=
  o.wcache.aCount = 0 ∧ o.isWblocked = false

/-- What a write of `b` does when the cache is empty, by the answer of `send`. -/
inductive CleanWrite (o : Out) (b : List UInt8) : ℕ × Out → Prop
  /-- All of it is sent, and the cache stays empty. -/
  | whole {n : ℕ} {o' : Out} : o.sock.sends 0 = .accept n → b.length ≤ n + 1 → o'.errnum = 0 →
      o'.Clean → (∀ i, o'.sock.sends i = o.sock.sends (i + 1)) → o'.sock.polls = o.sock.polls →
      CleanWrite o b (b.length, o')
  /-- A part of it is sent, and the rest cached if it fits. -/
  | part {n k : ℕ} {o' : Out} : o.sock.sends 0 = .accept n → n + 1 < b.length → 0 < k →
      k ≤ b.length → (b.length ≤ maxcache → k = b.length) → o'.errnum ≠ 0 →
      CleanWrite o b (k, o')
  /-- It is cached if it fits. -/
  | fail {e : ℤ} {o' : Out} : o.sock.sends 0 = .fail e → o'.errnum ≠ 0 →
      CleanWrite o b (if b.length ≤ maxcache then b.length else 0, o')
  | closed {o' : Out} : o.sock.sends 0 = .closed → o'.errnum = 0 → CleanWrite o b (0, o')

/-- What is not sent goes to an empty cache if it fits. -/
theorem cacheAdd_clean {o : Out} {b : List UInt8} (h : o.Clean) (hne : b ≠ []) :
    (b.length ≤ maxcache → (cacheAdd o b).1 ≠ 0) ∧
      (maxcache < b.length → (cacheAdd o b).1 = 0) := by
  rw [cacheAdd, h.1, Nat.add_zero]
  refine ⟨fun hfit => ?_, fun hover => by rw [if_pos hover]⟩
  rw [if_neg (Nat.not_lt.mpr hfit)]
  cases hadd : o.wcache.add b with
  | none => exact absurd (Arr.add_eq_none hadd).1 hne
  | some ar => simp

/-- A write that is not taken whole, with an empty cache. -/
theorem writeLoop_rest {o : Out} (h : o.Clean) {b : List UInt8} (hne : b ≠ [])
    (hmax : b.length ≤ INT_MAX) {n : ℤ} {sock : Sock} (hsend : o.sock.send b = (n, sock))
    (h0 : n ≠ 0) (hn : n < b.length) :
    ∃ k o', writeLoop (connCachefill false) o b 0 = (some k, o') ∧ o'.errnum ≠ 0 ∧
      (b.length - n.toNat ≤ maxcache → k = b.length) ∧
      (maxcache < b.length - n.toNat → k = n.toNat) := by
  have hpos := List.length_pos_iff.mpr hne
  have htake : b.take b.length = b := List.take_length
  have hdrop : (b.drop n.toNat).length = b.length - n.toNat := List.length_drop
  have hforce : connCachefill false { o with sock := sock } ((b.take b.length).drop n.toNat) true =
      cacheAdd { o with sock := sock } (b.drop n.toNat) := by
    rw [htake]
    simp [connCachefill, connCachefillWith]
  obtain ⟨hin, hover⟩ := cacheAdd_clean (o := { o with sock := sock }) h
    (List.ne_nil_of_length_pos (by omega : 0 < (b.drop n.toNat).length))
  obtain ⟨e, he, heq⟩ := writeLoop_part 0 hne
    (Nat.min_eq_left hmax).symm (by rw [htake]; exact hsend) h0 (by omega) hforce
  by_cases hfit : b.length - n.toNat ≤ maxcache
  · rw [if_pos (hin (by omega))] at heq
    exact ⟨_, _, heq, he, fun _ => by omega, fun h => by omega⟩
  · rw [if_neg (not_not_intro (hover (by omega)))] at heq
    exact ⟨_, _, heq, he, fun h => by omega, fun _ => by omega⟩

theorem connWrite_clean {o : Out} (h : o.Clean) {b : List UInt8} (hne : b ≠ [])
    (hmax : b.length ≤ INT_MAX) (more : Bool) : CleanWrite o b (connWrite false o b more) := by
  have hpos := List.length_pos_iff.mpr hne
  have hamt : b.length = min b.length INT_MAX := (Nat.min_eq_left hmax).symm
  have htake : b.take b.length = b := List.take_length
  have hfill : connCachefill false { o with errnum := 0 } b false =
      (0, { o with errnum := 0 }) := by
    simp [connCachefill, connCachefillWith, h.1, h.2]
  obtain ⟨o₁, ho₁⟩ : ∃ o₁ : Out, (if more = true then { o with errnum := 0, corked := true }
    else { o with errnum := 0 }) = o₁ := ⟨_, rfl⟩
  have hsock : o₁.sock = o.sock := by
    rw [← ho₁]
    cases more <;> rfl
  have hclean : o₁.Clean := by
    rw [← ho₁]
    cases more <;> exact h
  have herr : o₁.errnum = 0 := by
    rw [← ho₁]
    cases more <;> rfl
  rw [connWrite, connWriteWith]
  simp only [hfill, ne_eq, not_true_eq_false, if_false, ho₁]
  cases hs : o.sock.sends 0 with
  | accept n =>
    have hsend : o₁.sock.send (b.take b.length) = (((min (n + 1) b.length : ℕ) : ℤ),
        { o.sock with
          sends := fun i => o.sock.sends (i + 1)
          sent := o.sock.sent ++ b.take (min (n + 1) b.length) }) := by
      rw [htake, hsock, Sock.send, hs]
    by_cases hall : b.length ≤ n + 1
    · rw [Nat.min_eq_right hall] at hsend
      rw [writeLoop_all 0 hne hamt hpos hsend, List.drop_length, writeLoop, if_pos rfl]
      dsimp only
      rw [Nat.zero_add]
      cases more <;> exact .whole hs hall herr hclean (fun i => rfl) rfl
    · rw [Nat.min_eq_left (by omega), htake] at hsend
      obtain ⟨k, o', heq, he, hfit, hover⟩ :=
        writeLoop_rest hclean hne hmax hsend (by omega) (by omega)
      have hk : 0 < k ∧ k ≤ b.length := by
        by_cases hle : b.length - ((n + 1 : ℕ) : ℤ).toNat ≤ maxcache
        · have := hfit hle
          omega
        · have := hover (by omega)
          omega
      rw [heq]
      cases more <;> exact .part hs (by omega) hk.1 hk.2 (fun h => hfit (by omega)) he
  | fail e =>
    have hsend : o₁.sock.send b = (-1, { o.sock with
        sends := fun i => o.sock.sends (i + 1), errno := e }) := by
      rw [hsock, Sock.send, hs]
    obtain ⟨k, o', heq, he, hfit, hover⟩ :=
      writeLoop_rest hclean hne hmax hsend (by omega) (by omega)
    have hk : k = if b.length ≤ maxcache then b.length else 0 := by
      rw [show (-1 : ℤ).toNat = 0 from rfl, Nat.sub_zero] at hfit hover
      split_ifs with h
      · exact hfit h
      · exact hover (by omega)
    rw [heq, hk]
    cases more <;> exact .fail hs he
  | closed =>
    have hclosed : writeLoop (connCachefill false) o₁ b 0 = (none, { o₁ with
        sock := { o.sock with sends := fun i => o.sock.sends (i + 1) } }) := by
      rw [writeLoop, if_neg hne]
      simp only [hsock, Sock.send, hs, if_true]
    rw [hclosed]
    exact .closed hs herr

/-! ## Runs of a loop -/

/-- Turn for turn a loop takes a block of `B` bytes, as long as `T` says so and there is one; then
it ends. -/
theorem exists_run {f : ℕ → Sending → Except NoResult Sending} {A S : ℕ → Sending → Prop}
    {T : ℕ → Prop} {B L : ℕ} (hB : 0 < B) (hzero : ∀ s, f 0 s = .error .running)
    (htake : ∀ i s, A i s → i * B < L → T i → ∃ s', A (i + 1) s' ∧
      ∀ n, f (n + 1) s = if (i + 1) * B < L then f n s' else .ok s')
    (hstop : ∀ i s, A i s → i * B < L → ¬T i → ∃ r, S i r ∧ ∀ n, f (n + 1) s = .ok r)
    {s : Sending} (hs : A 0 s) (hL : 0 < L) :
    ∃ j r, (∀ i < j, T i) ∧ (L ≤ j * B ∧ A j r ∨ j * B < L ∧ ¬T j ∧ S j r) ∧
      (∃ n, f n s = .ok r) ∧ ∀ n r', f n s = .ok r' → r' = r := by
  have hrun : ∀ d i s, A i s → i * B < L → L ≤ (i + d) * B → (∀ i' < i, T i') →
      ∃ j r, (∀ i < j, T i) ∧ (L ≤ j * B ∧ A j r ∨ j * B < L ∧ ¬T j ∧ S j r) ∧
        (∃ n, f n s = .ok r) ∧ ∀ n r', f n s = .ok r' → r' = r := by
    intro d
    induction d with
    | zero => exact fun i s _ hlt hle _ => absurd hle (Nat.not_le.mpr hlt)
    | succ d ih =>
      intro i s hs hlt hle hT
      by_cases hTi : T i
      · obtain ⟨s', hs', hstep⟩ := htake i s hs hlt hTi
        have hT' : ∀ i' < i + 1, T i' := by
          intro i' hi'
          obtain rfl | hlt' := Nat.eq_or_lt_of_le (Nat.le_of_lt_succ hi')
          · exact hTi
          · exact hT i' hlt'
        by_cases hlast : (i + 1) * B < L
        · obtain ⟨j, r, hj, hr, ⟨n, hn⟩, huniq⟩ := ih (i + 1) s' hs' hlast
            (by rwa [Nat.add_right_comm, Nat.add_assoc]) hT'
          refine ⟨j, r, hj, hr, ⟨n + 1, by rw [hstep, if_pos hlast, hn]⟩, fun n r' hn' => ?_⟩
          cases n with
          | zero =>
            rw [hzero] at hn'
            cases hn'
          | succ n =>
            rw [hstep, if_pos hlast] at hn'
            exact huniq n r' hn'
        · refine ⟨i + 1, s', hT', .inl ⟨Nat.le_of_not_lt hlast, hs'⟩,
            ⟨1, by rw [hstep, if_neg hlast]⟩, fun n r' hn' => ?_⟩
          cases n with
          | zero =>
            rw [hzero] at hn'
            cases hn'
          | succ n =>
            rw [hstep, if_neg hlast] at hn'
            exact (Except.ok.inj hn').symm
      · obtain ⟨r, hr, hstep⟩ := hstop i s hs hlt hTi
        refine ⟨i, r, hT, .inr ⟨hlt, hTi, hr⟩, ⟨1, hstep 0⟩, fun n r' hn' => ?_⟩
        cases n with
        | zero =>
          rw [hzero] at hn'
          cases hn'
        | succ n =>
          rw [hstep] at hn'
          exact (Except.ok.inj hn').symm
  refine hrun L 0 s hs (by rwa [Nat.zero_mul]) ?_ fun i hi => absurd hi (Nat.not_lt_zero i)
  rw [Nat.zero_add]
  exact Nat.le_mul_of_pos_right L hB

/-! ## Blocks -/

/-- The socket takes block `i` of `L` bytes whole. -/
def Takes (o : Out) (blocking : Bool) (L B i : ℕ) : Prop :=
  (o.sock.polls (i + 1) = true ∨ blocking = true) ∧
    ∃ n, o.sock.sends i = .accept n ∧ min B (L - i * B) ≤ n + 1

/-- Why a call that does not block ends at block `i`, and how much it accepts of its `len` bytes. -/
inductive Stop (o : Out) (len i : ℕ) : ℕ → Prop
  | busy : o.sock.polls (i + 1) = false → Stop o len i 0
  | closed : o.sock.polls (i + 1) = true → o.sock.sends i = .closed → Stop o len i 0
  | part {n k : ℕ} : o.sock.polls (i + 1) = true → o.sock.sends i = .accept n → n + 1 < len →
      0 < k → k ≤ len → (len ≤ maxcache → k = len) → Stop o len i k
  | fail {e : ℤ} : o.sock.polls (i + 1) = true → o.sock.sends i = .fail e →
      Stop o len i (if len ≤ maxcache then len else 0)

/-- The call is at block `i`, and all before it is sent. -/
structure AtBlock (o : Out) (bytes : List UInt8) (B i : ℕ) (s : Sending) : Prop where
  clean : s.out.Clean
  sends : ∀ j, s.out.sock.sends j = o.sock.sends (i + j)
  polls : ∀ j, s.out.sock.polls j = o.sock.polls (i + 1 + j)
  tot : s.tot = min (i * B) bytes.length
  accepted : s.accepted = bytes.take (i * B)

section Turns

variable {o : Out} {bytes b : List UInt8} {blocking : Bool} {L B i k : ℕ} {s : Sending}

theorem Sending.write_eq (s : Sending) {buf : List UInt8} {w : ℕ} (more : Bool)
    (hle : w ≤ buf.length) (hb : buf.take w = b) :
    s.write buf w more = .ok ((connWrite false s.out b more).1,
      { s with
        out := (connWrite false s.out b more).2
        accepted := s.accepted ++ b.take (connWrite false s.out b more).1 }) := by
  rw [Sending.write, if_neg (Nat.not_lt.mpr hle), hb]

theorem CleanWrite.of_take {r : ℕ × Out} (h : CleanWrite o b r) {n : ℕ}
    (hs : o.sock.sends 0 = .accept n) (hle : b.length ≤ n + 1) :
    r.1 = b.length ∧ r.2.errnum = 0 ∧ r.2.Clean ∧
      (∀ i, r.2.sock.sends i = o.sock.sends (i + 1)) ∧ r.2.sock.polls = o.sock.polls := by
  cases h with
  | whole _ _ herr hclean hsends hpolls => exact ⟨rfl, herr, hclean, hsends, hpolls⟩
  | part hs' hlt =>
    rw [hs] at hs'
    cases hs'
    omega
  | fail hs' =>
    rw [hs] at hs'
    cases hs'
  | closed hs' =>
    rw [hs] at hs'
    cases hs'

/-- The write of a block that is not taken whole ends a call. -/
theorem CleanWrite.of_not_takes {r : ℕ × Out} {o' : Out} (h : CleanWrite o' b r)
    (hsends : o'.sock.sends 0 = o.sock.sends i) (hpoll : o.sock.polls (i + 1) = true)
    (hlen : b.length = min B (L - i * B)) (hT : ¬Takes o false L B i) :
    (r.2.errnum ≠ 0 ∨ r.1 = 0) ∧ r.1 ≤ b.length ∧ Stop o b.length i r.1 := by
  cases h with
  | whole hs hle =>
    exact absurd ⟨.inl hpoll, _, hsends ▸ hs, by omega⟩ hT
  | part hs hlt hpos hle hfit herr =>
    exact ⟨.inl herr, hle, .part hpoll (hsends ▸ hs) hlt hpos hle hfit⟩
  | fail hs herr =>
    refine ⟨.inl herr, ?_, .fail hpoll (hsends ▸ hs)⟩
    dsimp only
    split_ifs <;> omega
  | closed hs => exact ⟨.inr rfl, Nat.zero_le _, .closed hpoll (hsends ▸ hs)⟩

/-- Block `i` of the range. -/
def blockAt (bytes : List UInt8) (B i : ℕ) : List UInt8 :=
  (bytes.drop (i * B)).take B

theorem length_blockAt : (blockAt bytes B i).length = min B (bytes.length - i * B) := by
  rw [blockAt, List.length_take, List.length_drop]

theorem blockAt_ne (hB : 0 < B) (hlt : i * B < bytes.length) : blockAt bytes B i ≠ [] := by
  refine List.ne_nil_of_length_pos ?_
  rw [length_blockAt]
  omega

theorem take_succ_block : bytes.take ((i + 1) * B) = bytes.take (i * B) ++ blockAt bytes B i := by
  rw [Nat.succ_mul, List.take_add, blockAt]

namespace AtBlock

variable (h : AtBlock o bytes B i s)

include h

theorem tot_eq (hlt : i * B < bytes.length) : s.tot = i * B :=
  h.tot.trans (Nat.min_eq_left hlt.le)

theorem size_eq (hlt : i * B < bytes.length) :
    (if bytes.length < s.tot + B then bytes.length - s.tot else B) =
      (blockAt bytes B i).length := by
  rw [length_blockAt, h.tot_eq hlt]
  split_ifs <;> omega

theorem poll : (connWritable s.out).1 = o.sock.polls (i + 1) :=
  h.polls 0

theorem write (hB : 0 < B) (hmax : B ≤ INT_MAX) (hlt : i * B < bytes.length) (more : Bool) :
    CleanWrite (connWritable s.out).2 (blockAt bytes B i)
      (connWrite false (connWritable s.out).2 (blockAt bytes B i) more) := by
  refine connWrite_clean (o := (connWritable s.out).2) h.clean (blockAt_ne hB hlt) ?_ more
  rw [length_blockAt]
  omega

theorem not_busy (hT : Takes o blocking L B i) :
    ¬((connWritable s.out).1 = false ∧ blocking = false) := by
  rintro ⟨hbusy, hnon⟩
  rw [h.poll] at hbusy
  rcases hT.1 with hready | hblocking
  · rw [hready] at hbusy
    cases hbusy
  · rw [hnon] at hblocking
    cases hblocking

/-- Where the block is taken whole, the next one comes. -/
theorem take {r : ℕ × Out} (hT : Takes o blocking bytes.length B i) (hlt : i * B < bytes.length)
    (hw : CleanWrite (connWritable s.out).2 (blockAt bytes B i) r) :
    r.1 = (blockAt bytes B i).length ∧ r.2.errnum = 0 ∧
      ∀ pos, AtBlock o bytes B (i + 1)
        ⟨r.2, s.tot + r.1, pos, s.accepted ++ (blockAt bytes B i).take r.1⟩ := by
  obtain ⟨-, n, hn, hle⟩ := hT
  obtain ⟨hlen, herr, hclean, hsends, hpolls⟩ := hw.of_take ((h.sends 0).trans hn)
    (length_blockAt.trans_le hle)
  refine ⟨hlen, herr, fun pos => ⟨hclean, fun j => ?_, fun j => ?_, ?_, ?_⟩⟩
  · rw [hsends]
    exact (h.sends (j + 1)).trans (congrArg _ (by omega))
  · rw [hpolls]
    exact (h.polls (j + 1)).trans (congrArg _ (by omega))
  · dsimp only
    rw [hlen, length_blockAt, h.tot_eq hlt, Nat.succ_mul]
    omega
  · dsimp only
    rw [hlen, List.take_length, h.accepted, take_succ_block]

/-- Where it is not, a call that does not block ends. -/
theorem stop {r : ℕ × Out} (hT : ¬Takes o false bytes.length B i)
    (hready : o.sock.polls (i + 1) = true)
    (hw : CleanWrite (connWritable s.out).2 (blockAt bytes B i) r) :
    (r.2.errnum ≠ 0 ∨ r.1 = 0) ∧ Stop o (blockAt bytes B i).length i r.1 ∧
      s.accepted ++ (blockAt bytes B i).take r.1 = bytes.take (i * B + r.1) := by
  obtain ⟨herr, hle, hstop⟩ := hw.of_not_takes (h.sends 0) hready length_blockAt hT
  refine ⟨herr, hstop, ?_⟩
  rw [length_blockAt] at hle
  rw [h.accepted, List.take_add, blockAt, List.take_take, Nat.min_eq_left (by omega)]

end AtBlock

/-- What a call that ends at block `i` has accepted, `k` bytes of the block among it. -/
def StopsAt (o : Out) (bytes : List UInt8) (B i k : ℕ) (r : Sending) : Prop :=
  Stop o (blockAt bytes B i).length i k ∧ r.accepted = bytes.take (i * B + k)

/-! ## The two loops -/

variable {content : List UInt8} {rs : ℕ}

/-- A block, in the content of the file. -/
theorem blockAt_content (hb : (content.drop rs).take L = bytes) (hL : bytes.length = L) (B i : ℕ) :
    (content.drop (rs + i * B)).take (blockAt bytes B i).length = blockAt bytes B i ∧
      (blockAt bytes B i).length ≤ (content.drop (rs + i * B)).length := by
  have heq : blockAt bytes B i = (content.drop (rs + i * B)).take (min B (L - i * B)) := by
    rw [blockAt, ← hb, List.drop_take, List.take_take, List.drop_drop]
  have hlen := congrArg List.length heq
  rw [List.length_take] at hlen
  refine ⟨?_, by omega⟩
  rw [length_blockAt, hL]
  exact heq.symm

theorem memLoop_take (hb : (content.drop rs).take L = bytes) (hL : bytes.length = L)
    (h : AtBlock o bytes memBlock i s) (hlt : i * memBlock < L)
    (hT : Takes o blocking L memBlock i) :
    ∃ s', AtBlock o bytes memBlock (i + 1) s' ∧
      ∀ n, memLoop content rs L blocking (n + 1) s =
        if (i + 1) * memBlock < L then memLoop content rs L blocking n s' else .ok s' := by
  obtain ⟨hblock, hsize⟩ := blockAt_content hb hL memBlock i
  subst hL
  obtain ⟨more, hmore⟩ : ∃ more : Bool, decide (s.tot + (blockAt bytes memBlock i).length <
    bytes.length) = more := ⟨_, rfl⟩
  obtain ⟨hlen, herr, hnext⟩ := h.take hT hlt (h.write (by decide) (by decide) hlt more)
  refine ⟨_, hnext s.pos, fun n => ?_⟩
  have hpoll := h.not_busy hT
  have hbusy : ¬(0 : ℤ) = Error.WriteBusy := by decide
  have hpos := List.length_pos_iff.mpr (blockAt_ne (by decide) hlt)
  have hdone := (hnext s.pos).tot
  rw [memLoop, blockLoop]
  rw [← h.tot_eq hlt] at hblock hsize
  simp only [h.size_eq hlt, if_neg hpoll, hmore]
  rw [Sending.write_eq _ _ hsize hblock]
  dsimp only at hdone ⊢
  rw [herr, if_neg hbusy, if_neg (by omega)]
  split_ifs with h1 h2 h2
  · rfl
  · omega
  · omega
  · rfl

theorem memLoop_stop (hb : (content.drop rs).take L = bytes) (hL : bytes.length = L)
    (h : AtBlock o bytes memBlock i s) (hlt : i * memBlock < L)
    (hT : ¬Takes o false L memBlock i) :
    ∃ r, (∃ k, StopsAt o bytes memBlock i k r ∧ r.tot = i * memBlock) ∧
      ∀ n, memLoop content rs L false (n + 1) s = .ok r := by
  obtain ⟨hblock, hsize⟩ := blockAt_content hb hL memBlock i
  subst hL
  have htot := h.tot_eq hlt
  by_cases hready : o.sock.polls (i + 1) = true
  · obtain ⟨more, hmore⟩ : ∃ more : Bool, decide (s.tot + (blockAt bytes memBlock i).length <
      bytes.length) = more := ⟨_, rfl⟩
    have hw := h.write (by decide) (by decide) hlt more
    obtain ⟨w, hwrite⟩ : ∃ w, connWrite false (connWritable s.out).2 (blockAt bytes memBlock i)
      more = w := ⟨_, rfl⟩
    rw [hwrite] at hw
    obtain ⟨herr, hstop, haccepted⟩ := h.stop hT hready hw
    refine ⟨{ s with out := w.2, accepted := s.accepted ++ (blockAt bytes memBlock i).take w.1 },
      ⟨w.1, ⟨hstop, haccepted⟩, htot⟩, fun n => ?_⟩
    rw [memLoop, blockLoop]
    rw [← htot] at hblock hsize
    simp only [h.size_eq hlt, h.poll, hready, hmore, Bool.true_eq_false, false_and, if_false]
    rw [Sending.write_eq _ _ hsize hblock]
    simp only [hwrite]
    by_cases hbusy : w.2.errnum = Error.WriteBusy
    · rw [if_pos hbusy, if_pos trivial]
    · rw [if_neg hbusy, if_pos herr]
  · rw [Bool.not_eq_true] at hready
    refine ⟨{ s with out := (connWritable s.out).2 }, ⟨0, ⟨.busy hready, ?_⟩, htot⟩,
      fun n => ?_⟩
    · rw [Nat.add_zero]
      exact h.accepted
    · rw [memLoop, blockLoop]
      simp only [h.poll, hready, and_self, if_true]

/-- The call is at block `i`, and so is the file. -/
structure AtFileBlock (o : Out) (bytes : List UInt8) (rs i : ℕ) (s : Sending) : Prop
    extends AtBlock o bytes fileBlock i s where
  pos : i * fileBlock < bytes.length → s.pos = rs + i * fileBlock

/-- The size of the buffer. -/
def fileSize (L : ℕ) : ℕ :=
  if L < fileBlock then L else fileBlock

theorem AtBlock.fileSize_eq (h : AtBlock o bytes fileBlock i s)
    (hlt : i * fileBlock < bytes.length) :
    (if bytes.length < s.tot + fileSize bytes.length then bytes.length - s.tot
      else fileSize bytes.length) = (blockAt bytes fileBlock i).length := by
  rw [length_blockAt, h.tot_eq hlt, fileSize]
  by_cases hshort : bytes.length < fileBlock
  · obtain rfl : i = 0 := by
      by_contra hi
      have := Nat.le_mul_of_pos_left fileBlock (Nat.pos_of_ne_zero hi)
      omega
    rw [if_pos hshort]
    split_ifs <;> omega
  · rw [if_neg hshort]
    split_ifs <;> omega

theorem fileLoop_take (hb : (content.drop rs).take L = bytes) (hL : bytes.length = L)
    (h : AtFileBlock o bytes rs i s) (hlt : i * fileBlock < L)
    (hT : Takes o blocking L fileBlock i) :
    ∃ s', AtFileBlock o bytes rs (i + 1) s' ∧
      ∀ n, fileLoop (some content) L (fileSize L) blocking (n + 1) s =
        if (i + 1) * fileBlock < L then fileLoop (some content) L (fileSize L) blocking n s'
        else .ok s' := by
  obtain ⟨hblock, -⟩ := blockAt_content hb hL fileBlock i
  subst hL
  obtain ⟨more, hmore⟩ : ∃ more : Bool, decide (s.tot + (blockAt bytes fileBlock i).length <
    bytes.length) = more := ⟨_, rfl⟩
  have hw := h.write (by decide) (by decide) hlt more
  obtain ⟨w, hwrite⟩ : ∃ w, connWrite false (connWritable s.out).2 (blockAt bytes fileBlock i)
    more = w := ⟨_, rfl⟩
  rw [hwrite] at hw
  obtain ⟨hlen, herr, hnext⟩ := h.take hT hlt hw
  have hpos' := @length_blockAt bytes fileBlock i
  have hnext := hnext (rs + i * fileBlock + (blockAt bytes fileBlock i).length)
  refine ⟨_, ⟨hnext, fun hlt' => ?_⟩, fun n => ?_⟩
  · dsimp only
    rw [Nat.succ_mul] at hlt' ⊢
    omega
  have hpoll := h.not_busy hT
  have hbusy : ¬(0 : ℤ) = Error.WriteBusy := by decide
  have hpos := List.length_pos_iff.mpr (blockAt_ne (by decide) hlt)
  have hdone := hnext.tot
  rw [fileLoop]
  simp only [h.fileSize_eq hlt, if_neg hpoll, readBlock, h.pos hlt, hblock, hmore]
  rw [Sending.write_eq _ _ le_rfl List.take_length]
  simp only [hwrite] at hdone ⊢
  rw [herr, if_neg hbusy, if_neg (by omega)]
  split_ifs with h1 h2 h2
  · rfl
  · omega
  · omega
  · rfl

theorem fileLoop_stop (hb : (content.drop rs).take L = bytes) (hL : bytes.length = L)
    (h : AtFileBlock o bytes rs i s) (hlt : i * fileBlock < L)
    (hT : ¬Takes o false L fileBlock i) :
    ∃ r, (∃ k, StopsAt o bytes fileBlock i k r ∧ r.tot = i * fileBlock + k) ∧
      ∀ n, fileLoop (some content) L (fileSize L) false (n + 1) s = .ok r := by
  obtain ⟨hblock, -⟩ := blockAt_content hb hL fileBlock i
  subst hL
  have htot := h.tot_eq hlt
  by_cases hready : o.sock.polls (i + 1) = true
  · obtain ⟨more, hmore⟩ : ∃ more : Bool, decide (s.tot + (blockAt bytes fileBlock i).length <
      bytes.length) = more := ⟨_, rfl⟩
    have hw := h.write (by decide) (by decide) hlt more
    obtain ⟨w, hwrite⟩ : ∃ w, connWrite false (connWritable s.out).2 (blockAt bytes fileBlock i)
      more = w := ⟨_, rfl⟩
    rw [hwrite] at hw
    obtain ⟨herr, hstop, haccepted⟩ := h.stop hT hready hw
    refine ⟨⟨w.2, s.tot + w.1, rs + i * fileBlock + (blockAt bytes fileBlock i).length,
      s.accepted ++ (blockAt bytes fileBlock i).take w.1⟩, ⟨w.1, ⟨hstop, haccepted⟩, ?_⟩,
      fun n => ?_⟩
    · dsimp only
      rw [htot]
    rw [fileLoop]
    simp only [h.fileSize_eq hlt, h.poll, hready, readBlock, h.pos hlt, hblock, hmore,
      Bool.true_eq_false, false_and, if_false]
    rw [Sending.write_eq _ _ le_rfl List.take_length]
    simp only [hwrite]
    by_cases hbusy : w.2.errnum = Error.WriteBusy
    · rw [if_pos hbusy, if_pos trivial]
    · rw [if_neg hbusy, if_pos herr]
  · rw [Bool.not_eq_true] at hready
    refine ⟨{ s with out := (connWritable s.out).2 }, ⟨0, ⟨.busy hready, ?_⟩, ?_⟩, fun n => ?_⟩
    · rw [Nat.add_zero]
      exact h.accepted
    · rw [Nat.add_zero]
      exact htot
    · rw [fileLoop]
      simp only [h.poll, hready, and_self, if_true]

/-- How a call ends : all is sent, or a block is not taken whole. -/
def EndsAt (o : Out) (blocking : Bool) (bytes : List UInt8) (B j : ℕ) (counted : ℕ → ℕ)
    (r : Sending) : Prop :=
  (∀ i < j, Takes o blocking bytes.length B i) ∧
    (bytes.length ≤ j * B ∧ r.tot = bytes.length ∧ r.accepted = bytes ∨
      j * B < bytes.length ∧ ¬Takes o blocking bytes.length B j ∧
        ∃ k, StopsAt o bytes B j k r ∧ r.tot = j * B + counted k)

theorem AtBlock.done (h : AtBlock o bytes B i s) (hle : bytes.length ≤ i * B) :
    s.tot = bytes.length ∧ s.accepted = bytes :=
  ⟨h.tot.trans (Nat.min_eq_right hle), h.accepted.trans (List.take_of_length_le hle)⟩

theorem atBlock_zero (hclean : o.Clean) (bytes : List UInt8) (B rs : ℕ) :
    AtBlock o bytes B 0 ⟨(connWritable o).2, 0, rs, []⟩ where
  clean := hclean
  sends j := by rw [Nat.zero_add]; rfl
  polls j := by rw [Nat.zero_add, Nat.add_comm]; rfl
  tot := by rw [Nat.zero_mul, Nat.zero_min]
  accepted := by rw [Nat.zero_mul, List.take_zero]

/-- Either the call does not block, or the socket takes all blocks. -/
def Ended (o : Out) (blocking : Bool) (L B : ℕ) : Prop :=
  blocking = false ∨ ∀ i, i * B < L → Takes o blocking L B i

theorem memLoop_ends (hb : (content.drop rs).take L = bytes) (hL : bytes.length = L) (h0 : 0 < L)
    (hclean : o.Clean) (hends : Ended o blocking L memBlock) :
    ∃ j r, EndsAt o blocking bytes memBlock j (fun _ => 0) r ∧
      (∃ n, memLoop content rs L blocking n ⟨(connWritable o).2, 0, rs, []⟩ = .ok r) ∧
      ∀ n r', memLoop content rs L blocking n ⟨(connWritable o).2, 0, rs, []⟩ = .ok r' →
        r' = r := by
  obtain ⟨j, r, hT, hend, hex, huniq⟩ := exists_run (f := memLoop content rs L blocking)
    (T := Takes o blocking L memBlock) (L := L)
    (S := fun i r => ∃ k, StopsAt o bytes memBlock i k r ∧ r.tot = i * memBlock) (by decide)
    (fun s => rfl) (fun i s hs hlt hT => memLoop_take hb hL hs hlt hT) (fun i s hs hlt hT => by
      rcases hends with rfl | hall
      · exact memLoop_stop hb hL hs hlt hT
      · exact absurd (hall i hlt) hT) (atBlock_zero hclean bytes memBlock rs) h0
  refine ⟨j, r, ?_, hex, huniq⟩
  subst hL
  refine ⟨hT, ?_⟩
  rcases hend with ⟨hle, hat⟩ | ⟨hlt, hno, k, hstop, htot⟩
  · exact .inl ⟨hle, hat.done hle⟩
  · exact .inr ⟨hlt, hno, k, hstop, by rw [htot, Nat.add_zero]⟩

theorem fileLoop_ends (hb : (content.drop rs).take L = bytes) (hL : bytes.length = L) (h0 : 0 < L)
    (hclean : o.Clean) (hends : Ended o blocking L fileBlock) :
    ∃ j r, EndsAt o blocking bytes fileBlock j id r ∧
      (∃ n, fileLoop (some content) L (fileSize L) blocking n ⟨(connWritable o).2, 0, rs, []⟩ =
        .ok r) ∧
      ∀ n r', fileLoop (some content) L (fileSize L) blocking n ⟨(connWritable o).2, 0, rs, []⟩ =
        .ok r' → r' = r := by
  obtain ⟨j, r, hT, hend, hex, huniq⟩ := exists_run
    (f := fileLoop (some content) L (fileSize L) blocking)
    (T := Takes o blocking L fileBlock) (L := L)
    (S := fun i r => ∃ k, StopsAt o bytes fileBlock i k r ∧ r.tot = i * fileBlock + k) (by decide)
    (fun s => rfl) (fun i s hs hlt hT => fileLoop_take hb hL hs hlt hT) (fun i s hs hlt hT => by
      rcases hends with rfl | hall
      · exact fileLoop_stop hb hL hs hlt hT
      · exact absurd (hall i hlt) hT)
    (A := AtFileBlock o bytes rs)
    ⟨atBlock_zero hclean bytes fileBlock rs, fun _ => by rw [Nat.zero_mul, Nat.add_zero]⟩ h0
  refine ⟨j, r, ?_, hex, huniq⟩
  subst hL
  refine ⟨hT, ?_⟩
  rcases hend with ⟨hle, hat⟩ | ⟨hlt, hno, k, hstop, htot⟩
  · exact .inl ⟨hle, hat.done hle⟩
  · exact .inr ⟨hlt, hno, k, hstop, htot⟩

end Turns

/-! ## What is accounted for -/

/-- The value returned is the number of bytes accepted, and these are the first of the range. -/
structure Accounted (bytes : List UInt8) (r : Sending) : Prop where
  length : r.accepted.length = r.tot
  prefix_bytes : r.accepted <+: bytes

/-- Both branches account for the bytes they accept, and they are the same. -/
def CountedAlike (o : Out) (content : List UInt8) (rs re : ℕ) (blocking : Bool) : Prop :=
  ∃ n m r t, connWriteFiledata n o (some content) (some content) rs re blocking = .ok r ∧
    connWriteFiledata m o none (some content) rs re blocking = .ok t ∧
    Accounted ((content.drop rs).take (re - rs)) r ∧
    Accounted ((content.drop rs).take (re - rs)) t ∧ t.tot = r.tot ∧ t.accepted = r.accepted

/-- Nothing is written if the file cannot be opened. -/
def QuietUnopened (o : Out) (rs re : ℕ) (blocking : Bool) : Prop :=
  ∃ n r, connWriteFiledata n o none none rs re blocking = .ok r ∧ r.accepted = []

/-- `xs_conn_write_filedata` accounts for every byte. -/
def AccountsForAll (o : Out) (content : List UInt8) (rs re : ℕ) (blocking : Bool) : Prop :=
  CountedAlike o content rs re blocking ∧ QuietUnopened o rs re blocking

/-- The socket takes the blocks from the file : all but the last whole, and the last in part at
least or not at once. -/
def Accepts (o : Out) (L : ℕ) : Prop :=
  ∀ i, i * fileBlock < L → o.sock.polls (i + 1) = true ∧
    if (i + 1) * fileBlock < L then Takes o false L fileBlock i else o.sock.sends i ≠ .closed

variable {o : Out} {content : List UInt8} {rs re : ℕ} {blocking : Bool}

/-- Nothing is offered to the socket. -/
def OffersNothing (o : Out) (rs re : ℕ) (blocking : Bool) : Prop :=
  rs = re ∨ blocking = false ∧ (o.sock.polls 0 = false ∨ o.sock.polls 1 = false)

theorem fileLoop_unopened (L n : ℕ) (s : Sending) :
    fileLoop none L (fileSize L) blocking (n + 1) s =
      if s.out.sock.polls 0 = false ∧ blocking = false then
        .ok { s with out := (connWritable s.out).2 }
      else .error .outside := by
  have hsize : fileSize L < 2 ^ 64 - 1 := by
    rw [fileSize, fileBlock]
    split_ifs <;> omega
  rw [fileLoop]
  simp only [readBlock, Sending.write, List.length_replicate, if_pos hsize]
  rfl

/-- The call goes on to its loop. -/
theorem connWriteFiledata_mem {data : List UInt8} {file : Option (List UInt8)} (n : ℕ)
    (hlt : rs < re) (h : ¬(blocking = false ∧ o.sock.polls 0 = false)) :
    connWriteFiledata n o (some data) file rs re blocking =
      memLoop data rs (re - rs) blocking n ⟨(connWritable o).2, 0, rs, []⟩ := by
  rw [connWriteFiledata, if_neg (by omega)]
  exact if_neg fun hp => h ⟨hp.2, hp.1⟩

theorem connWriteFiledata_file {file : Option (List UInt8)} (n : ℕ) (hlt : rs < re)
    (h : ¬(blocking = false ∧ o.sock.polls 0 = false)) :
    connWriteFiledata n o none file rs re blocking =
      fileLoop file (re - rs) (fileSize (re - rs)) blocking n ⟨(connWritable o).2, 0, rs, []⟩ := by
  rw [connWriteFiledata, if_neg (by omega)]
  exact if_neg fun hp => h ⟨hp.2, hp.1⟩

/-- A call that does not block gives up where the socket is not writable. -/
theorem blockLoop_busy {block L n : ℕ} {data : List UInt8} {s : Sending}
    (h : s.out.sock.polls 0 = false) :
    blockLoop block data rs L false (n + 1) s = .ok { s with out := (connWritable s.out).2 } := by
  rw [blockLoop]
  exact if_pos ⟨h, rfl⟩

/-- The call gives up before it has anything to write. -/
theorem OffersNothing.result (h : OffersNothing o rs re blocking)
    (data file : Option (List UInt8)) :
    ∃ out, connWriteFiledata 1 o data file rs re blocking = .ok ⟨out, 0, rs, []⟩ := by
  by_cases h0 : re - rs = 0
  · rw [connWriteFiledata]
    exact ⟨_, if_pos h0⟩
  rcases h with rfl | ⟨rfl, hbusy⟩
  · exact absurd (Nat.sub_self _) h0
  by_cases hready : o.sock.polls 0 = false
  · rw [connWriteFiledata, if_neg h0]
    exact ⟨_, if_pos ⟨hready, rfl⟩⟩
  · have hnext : (connWritable o).2.sock.polls 0 = false := hbusy.resolve_left hready
    cases data with
    | some data =>
      rw [connWriteFiledata_mem 1 (by omega) fun h => hready h.2]
      exact ⟨_, blockLoop_busy hnext⟩
    | none =>
      rw [connWriteFiledata_file 1 (by omega) fun h => hready h.2]
      exact ⟨_, if_pos ⟨hnext, rfl⟩⟩

theorem OffersNothing.accountsForAll (h : OffersNothing o rs re blocking) (content : List UInt8) :
    AccountsForAll o content rs re blocking := by
  obtain ⟨out, hr⟩ := h.result (some content) (some content)
  obtain ⟨out', ht⟩ := h.result none (some content)
  obtain ⟨out'', hu⟩ := h.result none none
  have hnil : ∀ out, Accounted ((content.drop rs).take (re - rs)) ⟨out, 0, rs, []⟩ :=
    fun out => ⟨rfl, List.nil_prefix⟩
  exact ⟨⟨1, 1, _, _, hr, ht, hnil out, hnil out', rfl, rfl⟩, 1, _, hu, rfl⟩

/-- Where anything is offered, the code passes the -1 of `read` on as a size. -/
theorem QuietUnopened.offersNothing (hle : rs ≤ re) (h : QuietUnopened o rs re blocking) :
    OffersNothing o rs re blocking := by
  by_cases hearly : rs = re ∨ blocking = false ∧ o.sock.polls 0 = false
  · exact hearly.imp_right fun h => ⟨h.1, .inl h.2⟩
  obtain ⟨hne, hgo⟩ := not_or.mp hearly
  obtain ⟨n, r, hr, -⟩ := h
  rw [connWriteFiledata_file n (by omega) hgo] at hr
  cases n with
  | zero => cases hr
  | succ n =>
    rw [fileLoop_unopened] at hr
    split_ifs at hr with hbusy
    exact .inr ⟨hbusy.2, .inr hbusy.1⟩

/-! ## Calls that do not block -/

section Ends

variable {bytes : List UInt8} {B L i j k len : ℕ} {counted : ℕ → ℕ} {r : Sending}

theorem Stop.le (h : Stop o len i k) : k ≤ len := by
  cases h with
  | busy | closed => exact Nat.zero_le len
  | part _ _ _ _ hle => exact hle
  | fail => split_ifs <;> omega

theorem Stop.ready (h : Stop o len i k) (hk : 0 < k) :
    o.sock.polls (i + 1) = true ∧ o.sock.sends i ≠ .closed := by
  cases h with
  | busy | closed => exact absurd hk (Nat.lt_irrefl 0)
  | part hready hs => exact ⟨hready, by rw [hs]; simp⟩
  | fail hready hs => exact ⟨hready, by rw [hs]; simp⟩

/-- A block that is not refused is accepted if it can be cached. -/
theorem Stop.eq_length (h : Stop o len i k) (hfit : len ≤ maxcache)
    (hready : o.sock.polls (i + 1) = true) (hopen : o.sock.sends i ≠ .closed) : k = len := by
  cases h with
  | busy hbusy =>
    rw [hready] at hbusy
    cases hbusy
  | closed _ hs => exact absurd hs hopen
  | part _ _ _ _ _ hall => exact hall hfit
  | fail => exact if_pos hfit

theorem StopsAt.le (h : StopsAt o bytes B i k r) : k ≤ min B (bytes.length - i * B) :=
  (@length_blockAt bytes B i) ▸ h.1.le

theorem lt_of_block_lt (hlt : i * B < L) (hle : L ≤ j * B) : i < j :=
  Nat.lt_of_mul_lt_mul_right (hlt.trans_le hle)

/-- Where the socket is closed at the first block, nothing is accepted. -/
theorem EndsAt.of_closed (h : EndsAt o blocking bytes B j counted r) (h0 : counted 0 = 0)
    (hpos : 0 < bytes.length) (hs : o.sock.sends 0 = .closed) :
    r.tot = 0 ∧ r.accepted = [] := by
  obtain ⟨hT, hend⟩ := h
  obtain rfl : j = 0 := by
    by_contra hj
    obtain ⟨-, n, hn, -⟩ := hT 0 (Nat.pos_of_ne_zero hj)
    rw [hs] at hn
    cases hn
  rw [Nat.zero_mul] at hend
  rcases hend with ⟨hle, -⟩ | ⟨-, -, k, hstop, htot⟩
  · omega
  · obtain rfl : k = 0 := by
      by_contra hk
      exact (hstop.1.ready (Nat.pos_of_ne_zero hk)).2 hs
    refine ⟨by rw [htot, h0], ?_⟩
    rw [hstop.2, Nat.zero_mul, Nat.zero_add, List.take_zero]

/-- Where the socket takes all blocks, all is sent. -/
theorem EndsAt.of_takes (h : EndsAt o blocking bytes B j counted r)
    (hall : ∀ i, i * B < bytes.length → Takes o blocking bytes.length B i) :
    r.tot = bytes.length ∧ r.accepted = bytes := by
  rcases h.2 with ⟨-, hdone⟩ | ⟨hlt, hno, -⟩
  · exact hdone
  · exact absurd (hall j hlt) hno

theorem length_blockAt_le (bytes : List UInt8) (i : ℕ) :
    (blockAt bytes fileBlock i).length ≤ maxcache := by
  have hsize : fileBlock ≤ maxcache := by decide
  rw [length_blockAt]
  omega

theorem EndsAt.of_accepts (h : EndsAt o false bytes fileBlock j id r)
    (hall : Accepts o bytes.length) : r.tot = bytes.length ∧ r.accepted = bytes := by
  rcases h.2 with ⟨-, hdone⟩ | ⟨hlt, hno, k, hstop, htot⟩
  · exact hdone
  obtain ⟨hready, hlast⟩ := hall j hlt
  rw [Nat.succ_mul] at hlast
  split_ifs at hlast with hmore
  · exact absurd hlast hno
  have hk := hstop.1.eq_length (length_blockAt_le bytes j) hready hlast
  rw [length_blockAt] at hk
  have hdone : j * fileBlock + k = bytes.length := by omega
  refine ⟨htot.trans hdone, ?_⟩
  rw [hstop.2, hdone, List.take_length]

/-- Where all of a file is accepted, the socket took its blocks. -/
theorem EndsAt.accepts (h : EndsAt o false bytes fileBlock j id r) (htot : r.tot = bytes.length) :
    Accepts o bytes.length := by
  obtain ⟨hT, hend⟩ := h
  intro i hi
  by_cases hij : i < j
  · have hTi := hT i hij
    obtain ⟨hready, n, hn, -⟩ := hTi
    refine ⟨hready.resolve_right (by simp), ?_⟩
    split_ifs
    · exact hT i hij
    · rw [hn]
      simp
  rcases hend with ⟨hle, -⟩ | ⟨hlt, -, k, hstop, hk⟩
  · exact absurd (lt_of_block_lt hi hle) hij
  · have hle := hstop.le
    have hsum : j * fileBlock + k = bytes.length := hk.symm.trans htot
    have hlast : bytes.length ≤ (j + 1) * fileBlock := by
      rw [Nat.succ_mul]
      omega
    obtain rfl : i = j := by
      have := lt_of_block_lt hi hlast
      omega
    obtain ⟨hready, hopen⟩ := hstop.1.ready (by omega)
    exact ⟨hready, by rw [if_neg (Nat.not_lt.mpr hlast)]; exact hopen⟩

/-- If the branches count alike, and the one from memory all it accepts, then all is sent or nothing
is : a stop between two blocks is at different places in the two. -/
theorem closed_of_alike {M F j' : ℕ} {t : Sending} (hsize : M = 4 * F) (hpos : 0 < F)
    (hfit : (blockAt bytes F 0).length ≤ maxcache) (hm : EndsAt o false bytes M j (fun _ => 0) r)
    (hf : EndsAt o false bytes F j' id t) (hacc : Accounted bytes r) (htot : t.tot = r.tot)
    (hready : o.sock.polls 1 = true) : o.sock.sends 0 = .closed ∨ r.tot = bytes.length := by
  rcases hm.2 with ⟨-, hdone, -⟩ | ⟨hlt, -, k, hstop, hr⟩
  · exact .inr hdone
  left
  have hkle := hstop.le
  -- no byte of the block is accepted
  have hk : k = 0 := by
    have hlen := hacc.length
    rw [hstop.2, List.length_take, hr] at hlen
    dsimp only at hlen
    omega
  have hr : r.tot = j * M := by rw [hr, Nat.add_zero]
  have hj' : j' ≤ j := by
    by_contra hlt'
    obtain ⟨hready', n, hn, -⟩ := hf.1 j (Nat.lt_of_not_le hlt')
    cases hstop.1 with
    | busy hbusy =>
      rw [hbusy] at hready'
      rcases hready' with hready' | hready' <;> cases hready'
    | closed _ hs =>
      rw [hs] at hn
      cases hn
    | part _ _ _ hpos => omega
    | fail _ hs =>
      rw [hs] at hn
      cases hn
  -- so the other branch stops at the first block too
  have hfirst : j = 0 ∧ ∃ k', j' = 0 ∧ StopsAt o bytes F 0 k' t ∧ k' = 0 := by
    rcases hf.2 with ⟨-, hdone, -⟩ | ⟨-, -, k', hstop', ht⟩
    · omega
    · have hkle' := hstop'.le
      have hblocks := Nat.mul_le_mul_right F hj'
      dsimp only [id] at ht
      have hj : j = 0 := by
        by_contra hne
        have hone := Nat.le_mul_of_pos_left F (Nat.pos_of_ne_zero hne)
        have hfour : j * M = 4 * (j * F) := by rw [hsize, Nat.mul_left_comm]
        omega
      obtain rfl : j' = 0 := by omega
      refine ⟨hj, k', rfl, hstop', ?_⟩
      rw [hj] at hr
      omega
  obtain ⟨rfl, k', rfl, hstop', hk'⟩ := hfirst
  by_contra hopen
  have hall := hstop'.1.eq_length hfit hready hopen
  rw [length_blockAt] at hall
  omega

end Ends

/-- The socket takes all blocks of both sizes, or as much of the last one from the file as is
accepted. -/
def SendsAll (o : Out) (L : ℕ) : Prop :=
  (∀ i, i * memBlock < L → Takes o false L memBlock i) ∧ Accepts o L

theorem accounted_of_done {bytes : List UInt8} {r : Sending} (h : r.tot = bytes.length)
    (h' : r.accepted = bytes) : Accounted bytes r :=
  ⟨by rw [h', h], by rw [h']⟩

theorem length_range (hle : rs ≤ re) (hre : re ≤ content.length) :
    ((content.drop rs).take (re - rs)).length = re - rs := by
  rw [List.length_take, List.length_drop]
  omega

/-- With an empty cache a call that does not block accounts for all if it offers nothing, is refused
at once, or sends everything. -/
theorem countedAlike_iff (hclean : o.Clean) (hle : rs ≤ re) (hre : re ≤ content.length) :
    CountedAlike o content rs re false ↔
      OffersNothing o rs re false ∨ o.sock.sends 0 = .closed ∨ SendsAll o (re - rs) := by
  by_cases hnothing : OffersNothing o rs re false
  · exact iff_of_true (hnothing.accountsForAll content).1 (.inl hnothing)
  rw [or_iff_right hnothing]
  rw [OffersNothing, not_or, not_and, not_or] at hnothing
  obtain ⟨hne, hpolls⟩ := hnothing
  obtain ⟨h0, h1⟩ := hpolls rfl
  have hready : o.sock.polls 1 = true := by simpa using h1
  have hlt := lt_of_le_of_ne hle hne
  have hmem : ∀ n, connWriteFiledata n o (some content) (some content) rs re false = _ :=
    fun n => connWriteFiledata_mem n hlt fun h => h0 h.2
  have hfile : ∀ n, connWriteFiledata n o none (some content) rs re false = _ :=
    fun n => connWriteFiledata_file n hlt fun h => h0 h.2
  have hL := length_range hle hre
  have hpos : 0 < re - rs := by omega
  obtain ⟨j, r, hm, ⟨n, hn⟩, huniq⟩ := memLoop_ends rfl hL hpos hclean (.inl rfl)
  obtain ⟨j', t, hf, ⟨n', hn'⟩, huniq'⟩ := fileLoop_ends rfl hL hpos hclean (.inl rfl)
  constructor
  · rintro ⟨m, m', r', t', hr', ht', hacc, -, htot, -⟩
    rw [hmem] at hr'
    rw [hfile] at ht'
    obtain rfl := huniq m r' hr'
    obtain rfl := huniq' m' t' ht'
    rcases closed_of_alike (by decide) (by decide) (length_blockAt_le _ 0) hm hf hacc htot
      hready with hclosed | hdone
    · exact .inl hclosed
    · have haccepts := hf.accepts (htot.trans hdone)
      rw [hL] at haccepts
      refine .inr ⟨fun i hi => ?_, haccepts⟩
      rcases hm.2 with ⟨hle', -⟩ | ⟨hlt, -, k, -, hr⟩
      · rw [hL] at hle'
        have hTi := hm.1 i (lt_of_block_lt hi hle')
        rwa [hL] at hTi
      · rw [hdone, Nat.add_zero] at hr
        omega
  · intro h
    refine ⟨n, n', r, t, (hmem n).trans hn, (hfile n').trans hn', ?_⟩
    rcases h with hclosed | ⟨htakes, haccepts⟩
    · obtain ⟨hr, hra⟩ := hm.of_closed rfl (by omega) hclosed
      obtain ⟨ht, hta⟩ := hf.of_closed rfl (by omega) hclosed
      refine ⟨⟨by rw [hra, hr]; rfl, by rw [hra]; exact List.nil_prefix⟩,
        ⟨by rw [hta, ht]; rfl, by rw [hta]; exact List.nil_prefix⟩, ht.trans hr.symm,
        hta.trans hra.symm⟩
    · rw [← hL] at htakes haccepts
      obtain ⟨hr, hra⟩ := hm.of_takes htakes
      obtain ⟨ht, hta⟩ := hf.of_accepts haccepts
      exact ⟨accounted_of_done hr hra, accounted_of_done ht hta, ht.trans hr.symm,
        hta.trans hra.symm⟩

/-- With an empty cache, where the socket takes all blocks of both sizes, a call that blocks sends
all. -/
theorem countedAlike_of_takes (hclean : o.Clean) (hle : rs ≤ re) (hre : re ≤ content.length)
    (hm : ∀ i, i * memBlock < re - rs → Takes o true (re - rs) memBlock i)
    (hf : ∀ i, i * fileBlock < re - rs → Takes o true (re - rs) fileBlock i) :
    CountedAlike o content rs re true := by
  by_cases heq : rs = re
  · exact (OffersNothing.accountsForAll (.inl heq) content).1
  have hlt := lt_of_le_of_ne hle heq
  have hL := length_range hle hre
  obtain ⟨j, r, hm', ⟨n, hn⟩, -⟩ := memLoop_ends rfl hL (by omega) hclean (.inr hm)
  obtain ⟨j', t, hf', ⟨n', hn'⟩, -⟩ := fileLoop_ends rfl hL (by omega) hclean (.inr hf)
  rw [← hL] at hm hf
  obtain ⟨hr, hra⟩ := hm'.of_takes hm
  obtain ⟨ht, hta⟩ := hf'.of_takes hf
  exact ⟨n, n', r, t, (connWriteFiledata_mem n hlt (by simp)).trans hn,
    (connWriteFiledata_file n' hlt (by simp)).trans hn', accounted_of_done hr hra,
    accounted_of_done ht hta, ht.trans hr.symm, hta.trans hra.symm⟩

end Webxs
