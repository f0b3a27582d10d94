import Mathlib.Data.List.Basic
import Mathlib.Algebra.Group.Nat.Defs

/-!
# Codecs

A codec works block by block : in a state, with the input that is there, a call takes some of the
input and produces some output, which may not exceed the room it is given. `Drained call room out`
is what is documented of a codec that is to finish its output. `out k x` is what is still to come in
the state `k` with the input `x`; a call produces the beginning of it, and everything if it leaves
room.

`History` says of a codec that its state remembers what it took and made; `traced` adds this to one
whose calls depend on the input only.

Output may be pending when the input is used up. `Left call out k x l` says that a caller who calls
the codec as long as there is input misses `l`.
-/

namespace Codec

/-- What a call returns : the state after it, how much of the input it took, its output, and its
return code. -/
structure Turn (κ α : Type*) where
  state : κ
  consumed : ℕ
  produced : List α
  ret : ℤ

variable {κ α : Type*} {call : κ → List α → Turn κ α} {room : ℕ} {out : κ → List α → List α}

/-- The codec has `out` to produce, in calls with room for `room` elements. -/
structure Drained (call : κ → List α → Turn κ α) (room : ℕ) (out : κ → List α → List α) : Prop where
  consumed_le : ∀ k x, (call k x).consumed ≤ x.length
  produced_le : ∀ k x, (call k x).produced.length ≤ room
  out_eq : ∀ k x,
    out k x = (call k x).produced ++ out (call k x).state (x.drop (call k x).consumed)
  /-- A call that leaves room was the last with any output. -/
  finished : ∀ k x, (call k x).produced.length < room →
    out (call k x).state (x.drop (call k x).consumed) = []
  /-- The return code is 0 only if there was progress. -/
  progress : ∀ k x, (call k x).ret = 0 → 0 < (call k x).consumed ∨ (call k x).produced ≠ []
  /-- The output for an input does not end inside of that for a beginning of it. -/
  whole : ∀ k x y, y <+: x → out k x <+: out k y → out k x = out k y

/-- Calls while there is input leave `l` in the codec. -/
inductive Left (call : κ → List α → Turn κ α) (out : κ → List α → List α) :
    κ → List α → List α → Prop
  | used (k : κ) : Left call out k [] (out k [])
  | call {k : κ} {x l : List α} : x ≠ [] →
      Left call out (call k x).state (x.drop (call k x).consumed) l → Left call out k x l
  | ended {k : κ} {x : List α} : out k x = [] → Left call out k x []

namespace Left

variable {k : κ} {x l : List α}

/-- Without further output nothing is left. -/
theorem eq_nil (h : Drained call room out) (hl : Left call out k x l) (hout : out k x = []) :
    l = [] := by
  induction hl with
  | used k => exact hout
  | call hx hl ih =>
    rw [h.out_eq, List.append_eq_nil_iff] at hout
    exact ih hout.2
  | ended _ => rfl

theorem of_nil (hl : Left call out k [] l) : l = out k [] := by
  cases hl with
  | used => rfl
  | call hx _ => exact absurd rfl hx
  | ended hout => exact hout.symm

/-- A call leaves what was left. -/
theorem step (h : Drained call room out) (hl : Left call out k x l) (hx : x ≠ []) :
    Left call out (call k x).state (x.drop (call k x).consumed) l := by
  cases hl with
  | used => exact absurd rfl hx
  | call _ hl => exact hl
  | ended hout =>
    rw [h.out_eq, List.append_eq_nil_iff] at hout
    exact .ended hout.2

/-- The input is used up, or the output ends. -/
theorem exists_left (h : Drained call room out) (hroom : 0 < room) (k : κ) (x : List α) :
    ∃ l, Left call out k x l := by
  obtain ⟨n, hn⟩ : ∃ n, x.length + (out k x).length ≤ n := ⟨_, Nat.le_refl _⟩
  induction n generalizing k x with
  | zero => exact ⟨[], .ended (List.length_eq_zero_iff.mp (by omega))⟩
  | succ n ih =>
    by_cases hx : x = []
    · subst hx
      exact ⟨out k [], .used k⟩
    by_cases hout : out k x = []
    · exact ⟨[], .ended hout⟩
    -- a call that neither takes nor produces anything would be the last with any output
    have hprogress : 0 < (call k x).consumed ∨ (call k x).produced ≠ [] := by
      by_contra hno
      obtain ⟨h0, hnil⟩ := not_or.mp hno
      rw [not_not] at hnil
      have hfinished := h.finished k x (by rw [hnil]; exact hroom)
      exact hout (by rw [h.out_eq, hnil, hfinished]; rfl)
    have hlength := congrArg List.length (h.out_eq k x)
    rw [List.length_append] at hlength
    have hpos : 0 < x.length := List.length_pos_iff.mpr hx
    obtain ⟨l, hl⟩ := ih (call k x).state (x.drop (call k x).consumed) (by
      rw [List.length_drop]
      obtain h0 | hne := hprogress
      · omega
      · have := List.length_pos_iff.mpr hne
        omega)
    exact ⟨l, .call hx hl⟩

end Left

/-! ## History -/

/-- A call keeps to its input and its room, and reports success for input only if there was
progress. -/
structure Bounded (call : κ → List α → Turn κ α) (room : ℕ) : Prop where
  consumed_le : ∀ k x, (call k x).consumed ≤ x.length
  produced_le : ∀ k x, (call k x).produced.length ≤ room
  progress : ∀ k x, x ≠ [] → (call k x).ret = 0 →
    0 < (call k x).consumed ∨ (call k x).produced ≠ []

/-- History variables : what a codec took and made before, and whether a call has failed. -/
structure History (call : κ → List α → Turn κ α) (taken made : κ → List α) (failed : κ → Bool) :
    Prop where
  taken_eq : ∀ k x, taken (call k x).state = taken k ++ x.take (call k x).consumed
  made_eq : ∀ k x, made (call k x).state = made k ++ (call k x).produced
  failed_eq : ∀ k x, failed (call k x).state = (failed k || decide ((call k x).ret < 0))

/-- The history of a codec. -/
structure Trace (α : Type*) where
  taken : List α
  made : List α
  failed : Bool

/-- A codec whose calls depend on the input only, with its history. -/
def traced (call : List α → ℕ × List α × ℤ) (k : Trace α) (x : List α) : Turn (Trace α) α :=
  let r := call x
  ⟨⟨k.taken ++ x.take r.1, k.made ++ r.2.1, k.failed || decide (r.2.2 < 0)⟩, r.1, r.2.1, r.2.2⟩

theorem traced_history (call : List α → ℕ × List α × ℤ) :
    History (traced call) Trace.taken Trace.made Trace.failed :=
  ⟨fun _ _ => rfl, fun _ _ => rfl, fun _ _ => rfl⟩

end Codec
