import Mathlib.Data.Int.Notation
import Mathlib.Data.Nat.Notation
import Mathlib.Tactic.Common

/-!
# Counted references

An object with a reference count is made with count 0, and its maker hands it on without
counting (`fresh`). Whoever takes it up counts the first reference and still keeps the object
to itself (`raised`), and then gives it to its holders (`refs`). The one who gives up the last
reference has it to itself again : it closes the object (`dying`) and then frees it (`shut`).

`Ledger` has how many hold an object in each of these ways, beside the count that the code
keeps. `Ledger.Sound` : an object that was made is in one of these ways, or freed, and the
count is the number of its references. Each thing done to an object keeps it sound, and what
one may rely on when one holds it (`Sound.alive`, `Sound.of_shut`) is read off.
-/

namespace RefCount

/-- One object : what the code keeps of it, and how many hold it in each way. -/
@[ext]
structure Ledger where
  /-- How often it was made. -/
  made : ℕ
  /-- The count that the code keeps. -/
  count : ℤ
  /-- The references. -/
  refs : ℕ
  /-- Who has it and has not counted it. -/
  fresh : ℕ
  /-- Who has it to itself, and counted it. -/
  raised : ℕ
  /-- Who is to close it. -/
  dying : ℕ
  /-- Who is to free it. -/
  shut : ℕ
  /-- How often it was closed. -/
  closed : ℕ
  /-- How often it was freed. -/
  freed : ℕ

namespace Ledger

/-- The count is the number of references, and an object is held in one way only. -/
structure Sound (l : Ledger) : Prop where
  count : l.count = l.refs + l.raised
  stage : min l.refs 1 + l.fresh + l.raised + l.dying + l.shut + l.freed = l.made
  made : l.made ≤ 1
  closed : l.closed = l.shut + l.freed

/-- The object is made, with count 0. -/
def create (l : Ledger) : Ledger :=
  { l with made := l.made + 1, count := 0, fresh := l.fresh + 1 }

/-- The first reference is counted. -/
def raise (l : Ledger) : Ledger :=
  { l with count := l.count + 1, fresh := l.fresh - 1, raised := l.raised + 1 }

/-- The first reference is put where it stays. -/
def adopt (l : Ledger) : Ledger :=
  { l with raised := l.raised - 1, refs := l.refs + 1 }

/-- A holder counts one more reference. -/
def share (l : Ledger) : Ledger :=
  { l with count := l.count + 1, refs := l.refs + 1 }

/-- A holder gives its reference up, and finds out by the count whether it was the last. -/
def release (l : Ledger) : Ledger :=
  { l with
    count := l.count - 1, refs := l.refs - 1,
    dying := l.dying + if l.count ≤ 1 then 1 else 0 }

/-- The object is closed. -/
def close (l : Ledger) : Ledger :=
  { l with dying := l.dying - 1, shut := l.shut + 1, closed := l.closed + 1 }

/-- The object is freed. -/
def free (l : Ledger) : Ledger :=
  { l with shut := l.shut - 1, freed := l.freed + 1 }

variable {l : Ledger}

/-! ## What is done to an object keeps it sound -/

theorem Sound.create (h : l.Sound) (hl : l.made = 0) : l.create.Sound := by
  obtain ⟨hcount, hstage, hmade, hclosed⟩ := h
  refine ⟨?_, ?_, ?_, hclosed⟩ <;> simp only [Ledger.create] <;> omega

theorem Sound.raise (h : l.Sound) (hl : 0 < l.fresh) : l.raise.Sound := by
  obtain ⟨hcount, hstage, hmade, hclosed⟩ := h
  refine ⟨?_, ?_, hmade, hclosed⟩ <;> simp only [Ledger.raise] <;> omega

theorem Sound.adopt (h : l.Sound) (hl : 0 < l.raised) : l.adopt.Sound := by
  obtain ⟨hcount, hstage, hmade, hclosed⟩ := h
  refine ⟨?_, ?_, hmade, hclosed⟩ <;> simp only [Ledger.adopt] <;> omega

theorem Sound.share (h : l.Sound) (hl : 0 < l.refs) : l.share.Sound := by
  obtain ⟨hcount, hstage, hmade, hclosed⟩ := h
  refine ⟨?_, ?_, hmade, hclosed⟩ <;> simp only [Ledger.share] <;> omega

theorem Sound.release (h : l.Sound) (hl : 0 < l.refs) : l.release.Sound := by
  obtain ⟨hcount, hstage, hmade, hclosed⟩ := h
  refine ⟨?_, ?_, hmade, hclosed⟩ <;> simp only [Ledger.release]
  · omega
  -- the count tells the last reference from the others, as it is their number
  · split_ifs <;> omega

theorem Sound.close (h : l.Sound) (hl : 0 < l.dying) : l.close.Sound := by
  obtain ⟨hcount, hstage, hmade, hclosed⟩ := h
  refine ⟨hcount, ?_, hmade, ?_⟩ <;> simp only [Ledger.close] <;> omega

theorem Sound.free (h : l.Sound) (hl : 0 < l.shut) : l.free.Sound := by
  obtain ⟨hcount, hstage, hmade, hclosed⟩ := h
  refine ⟨hcount, ?_, hmade, ?_⟩ <;> simp only [Ledger.free] <;> omega

/-- What is done to an object, by one who may do it. -/
inductive Did (l : Ledger) : Ledger → Prop
  | same : Did l l
  | create : l.made = 0 → Did l l.create
  | raise : 0 < l.fresh → Did l l.raise
  | adopt : 0 < l.raised → Did l l.adopt
  | share : 0 < l.refs → Did l l.share
  | release : 0 < l.refs → Did l l.release
  | close : 0 < l.dying → Did l l.close
  | free : 0 < l.shut → Did l l.free

theorem Sound.did {l' : Ledger} (h : l.Sound) (hd : l.Did l') : l'.Sound := by
  cases hd with
  | same => exact h
  | create hl => exact h.create hl
  | raise hl => exact h.raise hl
  | adopt hl => exact h.adopt hl
  | share hl => exact h.share hl
  | release hl => exact h.release hl
  | close hl => exact h.close hl
  | free hl => exact h.free hl

/-! ## What a holder may rely on -/

/-- An object that is referred to was neither closed nor freed, and is in no other way held. -/
theorem Sound.alive (h : l.Sound) (hl : 0 < l.refs) :
    0 < l.count ∧ l.closed = 0 ∧ l.freed = 0 := by
  obtain ⟨hcount, hstage, hmade, hclosed⟩ := h
  omega

/-- One who has an object to itself before it was given to its holders. -/
theorem Sound.of_first (h : l.Sound) (hl : 0 < l.fresh + l.raised) :
    l.refs = 0 ∧ l.closed = 0 ∧ l.freed = 0 := by
  obtain ⟨hcount, hstage, hmade, hclosed⟩ := h
  omega

/-- The one that is to close the object. -/
theorem Sound.of_dying (h : l.Sound) (hl : 0 < l.dying) :
    l.refs = 0 ∧ l.closed = 0 ∧ l.freed = 0 := by
  obtain ⟨hcount, hstage, hmade, hclosed⟩ := h
  omega

/-- The one that is to free the object finds the count at 0. -/
theorem Sound.of_shut (h : l.Sound) (hl : 0 < l.shut) : l.count = 0 ∧ l.freed = 0 := by
  obtain ⟨hcount, hstage, hmade, hclosed⟩ := h
  omega

theorem Sound.closed_le (h : l.Sound) : l.closed ≤ 1 := by
  obtain ⟨hcount, hstage, hmade, hclosed⟩ := h
  omega

theorem Sound.freed_le (h : l.Sound) : l.freed ≤ 1 := by
  obtain ⟨hcount, hstage, hmade, hclosed⟩ := h
  omega

/-- An object that nobody holds in any way was freed. -/
theorem Sound.freed_of_none (h : l.Sound) (hm : 0 < l.made) (hr : l.refs = 0)
    (hf : l.fresh + l.raised = 0) (hd : l.dying + l.shut = 0) : l.freed = 1 := by
  obtain ⟨hcount, hstage, hmade, hclosed⟩ := h
  omega

end Ledger

end RefCount
