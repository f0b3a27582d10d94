import Webxs.Swaps
import Webxs.Write

/-!
# Sorting in place

`xs_ptr_qsort` (`xs_arr.h`) is a quicksort with a stack of its own. Runs of less than eight elements
are left to an insertion sort, others are split around the median of three : two cursors run towards
each other, each stopped by the bounds of the run, and the larger part is pushed.

The array is a list of elements, and `es` the size of an element. Accesses are checked : a call is
`none` if it leaves the array, its stack or `temp`, or if the offset of an element, a product of two
`int`, or an index is too large for an `int`. It is also `none` if the fuel does not do, so that a
result is a proof of termination.
-/

namespace Webxs

variable {α : Type}

/-- `eBinSearchThresh`. -/
def binSearchThresh : ℕ := 8

/-- What does not change during a call : the size of an element and the comparison. -/
structure Qsort (α : Type) where
  es : ℕ
  proc : α → α → ℤ

/-- `xs_ptr_qsort` at work : the array, the stack and the run that is sorted. -/
structure QsortState (α : Type) where
  array : List α
  stack : List ℕ
  start : ℕ
  limit : ℕ

namespace Qsort

variable (q : Qsort α)

/-- The element at `base + a * es`. -/
def elem (m : List α) (a : ℕ) : Option α :=
  if a * q.es ≤ INT_MAX then m[a]? else none

/-- Where the offset of the last element fits an `int`, that of each element does. -/
theorem elem_of_offset {m : List α} (h : (m.length - 1) * q.es ≤ INT_MAX) (a : ℕ) :
    q.elem m a = m[a]? := by
  unfold elem
  by_cases ha : a < m.length
  · have hle : a * q.es ≤ (m.length - 1) * q.es := Nat.mul_le_mul_right _ (by omega)
    rw [if_pos (hle.trans h)]
  · rw [List.getElem?_eq_none (by omega), ite_self]

/-- `xs_local_qsort_swap`. -/
def swap (m : List α) (a b : ℕ) : Option (List α) := do
  let temp ← if q.es ≤ 1024 then q.elem m a else none
  let x ← q.elem m b
  some ((m.set a x).set b temp)

/-- `xs_local_qsort_comp`. -/
def comp (m : List α) (a b : ℕ) : Option ℤ := do
  let x ← q.elem m b
  let y ← q.elem m a
  some (q.proc x y)

/-- The inner loop of the insertion sort, with `j` from `start + n` down. -/
def bubbleDown (start : ℕ) (n : ℕ) (m : List α) : Option (List α) := do
  if (← q.comp m (start + n) (start + n + 1)) < 0 then
    let m ← q.swap m (start + n) (start + n + 1)
    match n with
    | 0 => some m
    | n + 1 => bubbleDown start n m
  else some m

/-- The insertion sort. -/
def bubble (start limit : ℕ) (m : List α) : Option (List α) :=
  if INT_MAX < start + 1 then none
  else (List.range (limit - (start + 1))).foldlM (fun m n => q.bubbleDown start n m) m

/-- Swap two elements if they compare less. -/
def compSwap (a b : ℕ) (m : List α) : Option (List α) := do
  if (← q.comp m a b) < 0 then q.swap m a b else some m

/-- `i++` as long as elements are greater than the pivot. There are `n` elements behind `i`, and
`limit` is not passed. -/
def scanUp (m : List α) (start limit : ℕ) (n : ℕ) : Option ℕ :=
  match n with
  | 0 => some limit
  | n + 1 => do
    if 0 < (← q.comp m (limit - (n + 1)) start) then scanUp m start limit n
    else some (limit - (n + 1))

/-- `j--` as long as elements are less than the pivot. There are `n` elements from `start` to `j`,
and `start` is not passed. -/
def scanDown (m : List α) (start : ℕ) (n : ℕ) : Option ℕ :=
  match n with
  | 0 => some start
  | n + 1 => do
    if (← q.comp m (start + n) start) < 0 then scanDown m start n
    else some (start + n)

/-- The loop that partitions : the cursors where they have passed each other. -/
def partition (start limit fuel i j : ℕ) (m : List α) : Option (ℕ × ℕ × List α) :=
  match fuel with
  | 0 => none
  | fuel + 1 => do
    let i ← q.scanUp m start limit (limit - (i + 1))
    let j ← q.scanDown m start (j - start)
    if j < i then some (i, j, m)
    else partition start limit fuel i j (← q.swap m i j)

/-- `stack[si++] = x`. -/
def push (stack : List ℕ) (x : ℕ) : Option (List ℕ) :=
  if stack.length < 64 then some (x :: stack) else none

/-- The part that puts the median of three at `start`. -/
def median (start limit : ℕ) (m : List α) : Option (List α) := do
  let m ← q.swap m ((limit - start) / 2 + start) start
  let i := start + 1
  let j := limit - 1
  let m ← q.compSwap i j m
  let m ← q.compSwap start j m
  q.compSwap i start m

/-- The part that splits a run : the cursors, and the array. -/
def split (start limit fuel : ℕ) (m : List α) : Option (ℕ × ℕ × List α) := do
  let m ← q.median start limit m
  let (i, j, m) ← q.partition start limit fuel (start + 1) (limit - 1) m
  let m ← q.swap m start j
  some (i, j, m)

/-- The loop. -/
def loop (fuel : ℕ) (s : QsortState α) : Option (ℤ × List α) :=
  match fuel with
  | 0 => none
  | fuel + 1 => do
    if s.limit - s.start < binSearchThresh then
      let m ← q.bubble s.start s.limit s.array
      match s.stack with
      | limit :: start :: stack => loop fuel ⟨m, stack, start, limit⟩
      | _ => some (0, m)
    else
      let (i, j, m) ← q.split s.start s.limit fuel s.array
      let s' ←
        if s.limit - i < j - s.start then do
          some ⟨m, ← push (← push s.stack s.start) j, i, s.limit⟩
        else do
          some ⟨m, ← push (← push s.stack i) s.limit, s.start, j⟩
      if 64 ≤ s'.stack.length then some (-1, m) else loop fuel s'

/-- `xs_ptr_qsort`. -/
def run (m : List α) (fuel : ℕ) : Option (ℤ × List α) :=
  q.loop fuel ⟨m, [], 0, m.length⟩

end Qsort

end Webxs
