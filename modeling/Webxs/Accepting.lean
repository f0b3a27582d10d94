import Webxs.WriteStream

/-!
# A connection that takes everything

Where each `send` takes all it is given, `xs_conn_write_` (`xs_connection.h`) sends its buffer whole
and returns its length (`connWrite_took`). What is written in several calls is sent in one piece
after the other (`Took.trans`).
-/

namespace Webxs

/-- Each `send` takes all it is given, and nothing waits in the cache. -/
structure Out.AcceptsAll (o : Out) : Prop where
  sends : ∀ i, ∃ n, o.sock.sends i = .accept n ∧ INT_MAX ≤ n + 1
  empty : o.wcache.aCount = 0
  unblocked : o.isWblocked = false

/-- `o'` has taken the bytes `t`. -/
structure Took (o : Out) (t : List UInt8) (o' : Out) : Prop where
  sent : o'.sock.sent = o.sock.sent ++ t
  accepts : o'.AcceptsAll

variable {o o₁ o₂ : Out} {t t' : List UInt8}

theorem Took.nil (h : o.AcceptsAll) : Took o [] o where
  sent := (List.append_nil _).symm
  accepts := h

theorem Took.trans (h : Took o t o₁) (h' : Took o₁ t' o₂) : Took o (t ++ t') o₂ where
  sent := by rw [h'.sent, h.sent, List.append_assoc]
  accepts := h'.accepts

theorem writeLoop_took (fill : Out → List UInt8 → Bool → ℤ × Out) (rest : List UInt8) (tot : ℕ)
    (h : o.AcceptsAll) :
    ∃ o', writeLoop fill o rest tot = (some (tot + rest.length), o') ∧ Took o rest o' ∧
      o'.errnum = o.errnum := by
  induction hn : rest.length using Nat.strong_induction_on generalizing rest o tot with
  | _ n ih =>
  by_cases hne : rest = []
  · subst hne
    subst hn
    exact ⟨o, by rw [writeLoop, if_pos rfl]; rfl, .nil h, rfl⟩
  obtain ⟨amt, hamt⟩ : ∃ amt, amt = min rest.length INT_MAX := ⟨_, rfl⟩
  have hpos : 0 < rest.length := List.length_pos_iff.mpr hne
  have hmax : 0 < INT_MAX := by decide
  obtain ⟨k, hk, hkmax⟩ := h.sends 0
  have hall : min (k + 1) (rest.take amt).length = amt := by
    rw [List.length_take]
    omega
  have hsend : o.sock.send (rest.take amt) = ((amt : ℤ), { o.sock with
      sends := fun i => o.sock.sends (i + 1), sent := o.sock.sent ++ rest.take amt }) := by
    unfold Sock.send
    rw [hk]
    dsimp only
    rw [hall, List.take_take, Nat.min_self]
  obtain ⟨o', hw, htook, herr⟩ := ih (rest.drop amt).length (by rw [List.length_drop]; omega)
    (rest.drop amt) (o := { o with sock := { o.sock with
      sends := fun i => o.sock.sends (i + 1), sent := o.sock.sent ++ rest.take amt } })
    (tot + amt) ⟨fun i => h.sends (i + 1), h.empty, h.unblocked⟩ rfl
  refine ⟨o', ?_, ⟨?_, htook.accepts⟩, herr⟩
  · rw [writeLoop_all tot hne hamt (by omega) hsend, hw, List.length_drop, ← hn]
    congr 2
    omega
  · rw [htook.sent, List.append_assoc, List.take_append_drop]

/-- The buffer is sent whole, and there is no error. -/
theorem connWrite_took_errnum (buf : List UInt8) (more : Bool) (h : o.AcceptsAll) :
    ∃ o', connWrite false o buf more = (buf.length, o') ∧ Took o buf o' ∧ o'.errnum = 0 := by
  have hfill : connCachefill false { o with errnum := 0 } buf false =
      (0, { o with errnum := 0 }) := by
    simp [connCachefill, connCachefillWith, h.empty, h.unblocked]
  unfold connWrite connWriteWith
  rw [hfill]
  dsimp only
  rw [if_neg (by simp)]
  cases more with
  | true =>
    obtain ⟨o', hw, htook, herr⟩ := writeLoop_took (connCachefill false)
      (o := { o with errnum := 0, corked := true }) buf 0 ⟨h.sends, h.empty, h.unblocked⟩
    rw [if_pos rfl, hw, Nat.zero_add]
    exact ⟨o', rfl, ⟨htook.sent, htook.accepts⟩, herr⟩
  | false =>
    obtain ⟨o', hw, htook, herr⟩ := writeLoop_took (connCachefill false)
      (o := { o with errnum := 0 }) buf 0 ⟨h.sends, h.empty, h.unblocked⟩
    rw [if_neg (by simp), hw, Nat.zero_add]
    exact ⟨_, rfl, ⟨htook.sent, htook.accepts.sends, htook.accepts.empty,
      htook.accepts.unblocked⟩, herr⟩

theorem connWrite_took (buf : List UInt8) (more : Bool) (h : o.AcceptsAll) :
    ∃ o', connWrite false o buf more = (buf.length, o') ∧ Took o buf o' := by
  obtain ⟨o', hw, htook, -⟩ := connWrite_took_errnum buf more h
  exact ⟨o', hw, htook⟩

/-- A connection whose socket takes whatever it is given. -/
def Out.willing : Out :=
  (Writer.init (fun _ => .accept INT_MAX) (fun _ => true)).out

theorem Out.acceptsAll_willing : Out.willing.AcceptsAll where
  sends := fun _ => ⟨INT_MAX, rfl, Nat.le_succ _⟩
  empty := rfl
  unblocked := rfl

end Webxs
