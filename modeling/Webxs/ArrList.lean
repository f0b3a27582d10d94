import Webxs.Arr

/-!
# Growing arrays as lists

The operations on an `xs_arr` are those on the list of its elements in use (`Arr.toList`). Room is
made by three tests : `xs_arr_push` grows the block already when the last element of it would be
used (`xs_arr_makespace`), and `xs_arr_add_` and `xs_arr_insert_` only when the elements do not fit.
An operation stores in the block it has grown; `Op.writes` has these stores, and the block
afterwards is the grown one with the stores made in their order (`aData_run`).
-/

namespace Webxs

namespace Arr

variable {α : Type*}

/-! ## What a copy leaves -/

/-- What is stored behind the first `i` elements, and what is in front of it. -/
theorem take_copyTo {dst : List α} {i : ℕ} (src : List α) (hi : i ≤ dst.length) :
    (copyTo dst i src).take (i + src.length) = dst.take i ++ src := by
  have hlen : (dst.take i ++ src).length = i + src.length := by
    rw [List.length_append, List.length_take, Nat.min_eq_left hi]
  rw [copyTo, ← hlen, List.take_left]

/-- What is in front of a copy. -/
theorem take_copyTo_of_le {dst : List α} {i j : ℕ} (src : List α) (hj : j ≤ i)
    (hi : i ≤ dst.length) : (copyTo dst i src).take j = dst.take j := by
  rw [copyTo, List.append_assoc, List.take_append_of_le_length
    (by rw [List.length_take, Nat.min_eq_left hi]; exact hj), List.take_take, Nat.min_eq_left hj]

theorem drop_copyTo {dst : List α} {i : ℕ} (src : List α) (hi : i ≤ dst.length) :
    (copyTo dst i src).drop i = src ++ dst.drop (i + src.length) := by
  rw [copyTo, List.append_assoc, List.drop_left' (by rw [List.length_take, Nat.min_eq_left hi])]

theorem length_copyTo {dst : List α} {i : ℕ} {src : List α} (h : i + src.length ≤ dst.length) :
    (copyTo dst i src).length = dst.length := by
  simp only [copyTo, List.length_append, List.length_take, List.length_drop]
  omega

variable [Inhabited α]

/-! ## The operations -/

/-- The block of `xs_arr_push` before the store. -/
def pushSpace (ar : Arr α) : Arr α :=
  if ar.aSpace ≤ ar.aCount + 1 then ar.makespace (ar.aCount + 1) else ar

/-- `xs_arr_push`. -/
def push (ar : Arr α) (v : α) : Arr α where
  aData := copyTo ar.pushSpace.aData ar.aCount [v]
  aCount := ar.aCount + 1
  count_le := by
    have h : ar.aCount ≤ ar.pushSpace.aData.length := by
      unfold pushSpace
      split_ifs
      · exact (ar.makespace (ar.aCount + 1)).count_le
      · exact ar.count_le
    simp only [copyTo, List.length_append, List.length_take, List.length_singleton]
    omega

/-- `xs_arr_pop`, with the element. -/
def pop (ar : Arr α) : Arr α × Option α :=
  if ar.aCount = 0 then (ar, none)
  else
    ({ aData := ar.aData
       aCount := ar.aCount - 1
       count_le := Nat.le_trans (Nat.sub_le _ _) ar.count_le }, ar.aData[ar.aCount - 1]?)

/-- `xs_ptr_insert` on the `count` elements of a block. -/
def ptrInsert (dst : List α) (count : ℕ) (src : List α) (index : ℕ) : List α :=
  if count < index then dst
  else
    copyTo (copyTo dst (index + src.length) ((dst.drop index).take (count - index))) index src

/-- `xs_arr_insert_`. -/
def insert (ar : Arr α) (before : ℕ) (data : List α) : Arr α where
  aData := ptrInsert (ar.addSpace data.length).aData ar.aCount data before
  aCount := ar.aCount + data.length
  count_le := by
    have h := ar.le_aSpace_addSpace data.length
    have hlen : (ar.addSpace data.length).aData.length = (ar.addSpace data.length).aSpace := rfl
    unfold ptrInsert
    split_ifs
    · omega
    · simp only [copyTo, List.length_append, List.length_take, List.length_drop]
      omega

/-- An operation. -/
inductive Op (α : Type*)
  | push (v : α)
  | pop
  | add (data : List α)
  | insert (before : ℕ) (data : List α)
  | remove (before n : ℕ)
  | reset

namespace Op

/-- An operation on an array, with the element popped. -/
def run (ar : Arr α) : Op α → Arr α × Option α
  | .push v => (ar.push v, none)
  | .pop => ar.pop
  | .add data => ((ar.add data).getD ar, none)
  | .insert before data => (ar.insert before data, none)
  | .remove before n => (ar.remove before n, none)
  | .reset => (ar.reset, none)

/-- An operation on a list, with the element popped. -/
def onList (l : List α) : Op α → List α × Option α
  | .push v => (l ++ [v], none)
  | .pop => (l.dropLast, l.getLast?)
  | .add data => (l ++ data, none)
  | .insert before data => (l.take before ++ data ++ l.drop before, none)
  | .remove before n => (l.take before ++ l.drop (before + n), none)
  | .reset => ([], none)

/-- The positions of an operation are in the list. -/
def Fits (l : List α) : Op α → Prop
  | .insert before _ => before ≤ l.length
  | .remove before n => before + n ≤ l.length
  | _ => True

instance (l : List α) : DecidablePred (Op.Fits l)
  | .insert .. | .remove .. => inferInstanceAs (Decidable (_ ≤ _))
  | .push _ | .pop | .add _ | .reset => .isTrue trivial

/-- The block that an operation stores in. -/
def block (ar : Arr α) : Op α → List α
  | .push _ => ar.pushSpace.aData
  | .add data | .insert _ data => (ar.addSpace data.length).aData
  | _ => ar.aData

/-- The stores of an operation, each with its first element and what is stored. -/
def writes (ar : Arr α) : Op α → List (ℕ × List α)
  | .push v => [(ar.aCount, [v])]
  | .add data => [(ar.aCount, data)]
  | .insert before data =>
    [(before + data.length, ar.toList.drop before), (before, data)]
  | .remove before n =>
    if n < ar.aCount ∧ before < ar.aCount then [(before, ar.toList.drop (before + n))] else []
  | _ => []

end Op

/-! ## What they do to the elements in use -/

theorem lt_aSpace_pushSpace (ar : Arr α) : ar.aCount < ar.pushSpace.aSpace := by
  unfold pushSpace
  split_ifs with h
  · have hlen : ar.aData.length = ar.aSpace := rfl
    have := ar.count_le
    rw [aSpace, makespace]
    simp only [if_pos h, recalloc, List.length_append, List.length_replicate]
    split_ifs <;> omega
  · omega

theorem take_pushSpace (ar : Arr α) : ar.pushSpace.aData.take ar.aCount = ar.toList := by
  unfold pushSpace
  split_ifs with h
  · simp only [makespace, if_pos h, recalloc]
    exact List.take_append_of_le_length ar.count_le
  · rfl

theorem toList_push (ar : Arr α) (v : α) : (ar.push v).toList = ar.toList ++ [v] := by
  have hlt : ar.aCount ≤ ar.pushSpace.aData.length := Nat.le_of_lt ar.lt_aSpace_pushSpace
  rw [← take_pushSpace ar]
  exact take_copyTo [v] hlt

omit [Inhabited α] in
theorem pop_eq (ar : Arr α) :
    ar.pop.1.toList = ar.toList.dropLast ∧ ar.pop.2 = ar.toList.getLast? := by
  unfold pop
  split_ifs with h
  · have hnil : ar.toList = [] := by rw [toList, h, List.take_zero]
    simp [hnil]
  · constructor
    · rw [List.dropLast_eq_take, length_toList]
      show ar.aData.take (ar.aCount - 1) = (ar.aData.take ar.aCount).take (ar.aCount - 1)
      rw [List.take_take, Nat.min_eq_left (Nat.sub_le _ _)]
    · rw [List.getLast?_eq_getElem?, length_toList, toList, List.getElem?_take_of_lt (by omega)]

theorem toList_getD_add (ar : Arr α) (data : List α) :
    ((ar.add data).getD ar).toList = ar.toList ++ data := by
  cases hadd : ar.add data with
  | none =>
    obtain ⟨rfl, -⟩ := add_eq_none hadd
    exact (List.append_nil _).symm
  | some ar' => exact toList_add hadd

/-- The elements behind the place of an insertion. -/
theorem drop_take_addSpace (ar : Arr α) (n before : ℕ) :
    ((ar.addSpace n).aData.drop before).take (ar.aCount - before) = ar.toList.drop before := by
  rw [← List.drop_take, take_addSpace]

theorem toList_insert (ar : Arr α) {before : ℕ} (data : List α) (hbefore : before ≤ ar.aCount) :
    (ar.insert before data).toList = ar.toList.take before ++ data ++ ar.toList.drop before := by
  have hspace : ar.aCount + data.length ≤ (ar.addSpace data.length).aData.length :=
    ar.le_aSpace_addSpace data.length
  have hrest : (ar.toList.drop before).length = ar.aCount - before := by
    rw [List.length_drop, length_toList]
  -- the elements behind the place are moved up first
  have hmoved : before + data.length ≤ (ar.addSpace data.length).aData.length := by omega
  have hfront : (copyTo (ar.addSpace data.length).aData (before + data.length)
      (ar.toList.drop before)).take before = ar.toList.take before := by
    rw [take_copyTo_of_le _ (Nat.le_add_right _ _) hmoved, ← take_addSpace ar data.length,
      List.take_take, Nat.min_eq_left hbefore]
  have hcopy : (ar.insert before data).aData =
      ar.toList.take before ++ data ++ ar.toList.drop before ++
        (ar.addSpace data.length).aData.drop (before + data.length + (ar.aCount - before)) := by
    have hdata : (ar.insert before data).aData = copyTo (copyTo (ar.addSpace data.length).aData
        (before + data.length) (ar.toList.drop before)) before data := by
      rw [← drop_take_addSpace ar data.length]
      exact if_neg (by omega)
    rw [hdata, copyTo, hfront, drop_copyTo _ hmoved, hrest]
    simp only [List.append_assoc]
  have hlen : (ar.toList.take before ++ data ++ ar.toList.drop before).length =
      ar.aCount + data.length := by
    simp only [List.length_append, hrest, List.length_take, length_toList]
    omega
  rw [toList, hcopy]
  exact List.take_left' hlen

omit [Inhabited α] in
theorem toList_remove (ar : Arr α) {before n : ℕ} (h : before + n ≤ ar.aCount) :
    (ar.remove before n).toList = ar.toList.take before ++ ar.toList.drop (before + n) := by
  have hcount : ar.aCount ≤ ar.aData.length := ar.count_le
  by_cases hn : n < ar.aCount
  · by_cases hbefore : ar.aCount ≤ before
    · -- nothing is removed behind the last element
      obtain rfl : n = 0 := by omega
      have htake : ar.toList.take before = ar.toList :=
        List.take_of_length_le (by rw [length_toList]; exact hbefore)
      have hdrop : ar.toList.drop (before + 0) = [] :=
        List.drop_of_length_le (by rw [length_toList]; omega)
      rw [htake, hdrop, List.append_nil]
      simp only [toList, remove, if_pos hn, ptrRemove, if_pos hbefore, Nat.sub_zero]
    · have hdel : ¬ar.aCount < before + n := by omega
      have hrest : (ar.aData.drop (before + n)).take (ar.aCount - (before + n)) =
          ar.toList.drop (before + n) := List.drop_take.symm
      have hsum : ar.aCount - n = before + (ar.toList.drop (before + n)).length := by
        rw [List.length_drop, length_toList]
        omega
      have hfront : ar.toList.take before = ar.aData.take before := by
        rw [toList, List.take_take, Nat.min_eq_left (by omega)]
      simp only [toList, remove, if_pos hn, ptrRemove, if_neg hbefore, if_neg hdel]
      rw [hrest, hsum, take_copyTo _ (by omega)]
      exact congrArg (· ++ _) hfront.symm
  · obtain rfl : before = 0 := by omega
    have h0 : ar.aCount - n = 0 := by omega
    rw [List.take_zero, List.drop_of_length_le (by rw [length_toList]; omega)]
    simp only [toList, remove, if_neg hn, h0, List.take_zero, List.append_nil]

/-! ## Every operation -/

namespace Op

theorem toList_run (ar : Arr α) (op : Op α) (h : op.Fits ar.toList) :
    (op.run ar).1.toList = (op.onList ar.toList).1 ∧ (op.run ar).2 = (op.onList ar.toList).2 := by
  cases op with
  | push v => exact ⟨ar.toList_push v, rfl⟩
  | pop => exact ar.pop_eq
  | add data => exact ⟨ar.toList_getD_add data, rfl⟩
  | insert before data =>
    have h : before ≤ ar.toList.length := h
    rw [length_toList] at h
    exact ⟨ar.toList_insert data h, rfl⟩
  | remove before n =>
    have h : before + n ≤ ar.toList.length := h
    rw [length_toList] at h
    exact ⟨ar.toList_remove h, rfl⟩
  | reset => exact ⟨rfl, rfl⟩

/-- The block of an operation, after its stores. -/
theorem aData_run (ar : Arr α) (op : Op α) (h : op.Fits ar.toList) :
    (op.run ar).1.aData = (op.writes ar).foldl (fun b w => copyTo b w.1 w.2) (op.block ar) := by
  cases op with
  | push v => rfl
  | pop =>
    simp only [run, writes, block, List.foldl_nil, Arr.pop]
    split_ifs <;> rfl
  | add data =>
    simp only [run, writes, block, List.foldl_cons, List.foldl_nil]
    cases hadd : ar.add data with
    | none =>
      -- nothing is added, and the array has no block
      obtain ⟨rfl, -⟩ := add_eq_none hadd
      have hsame : ar.addSpace 0 = ar := if_neg (by have := ar.count_le; rw [aSpace]; omega)
      simp only [Option.getD_none, List.length_nil, hsame, copyTo, List.append_nil, Nat.add_zero,
        List.take_append_drop]
    | some ar' =>
      unfold Arr.add at hadd
      split_ifs at hadd
      exact congrArg aData (Option.some.inj hadd).symm
  | insert before data =>
    have h : before ≤ ar.toList.length := h
    rw [length_toList] at h
    simp only [run, writes, block, List.foldl_cons, List.foldl_nil]
    rw [← drop_take_addSpace ar data.length]
    exact if_neg (by omega)
  | remove before n =>
    have h : before + n ≤ ar.toList.length := h
    rw [length_toList] at h
    have hdel : ¬ar.aCount < before + n := by omega
    simp only [run, Arr.remove, writes, block, ptrRemove, if_neg hdel]
    by_cases hn : n < ar.aCount
    · by_cases hbefore : before < ar.aCount
      · have hdrop : (ar.aData.drop (before + n)).take (ar.aCount - (before + n)) =
            ar.toList.drop (before + n) := List.drop_take.symm
        rw [if_pos hn, if_neg (by omega), if_pos ⟨hn, hbefore⟩, hdrop]
        rfl
      · rw [if_pos hn, if_pos (by omega), if_neg (by omega)]
        rfl
    · rw [if_neg hn, if_neg (by omega)]
      rfl
  | reset => rfl

/-- The stores of an operation are in its block. -/
theorem writes_le (ar : Arr α) (op : Op α) (h : op.Fits ar.toList) :
    ∀ w ∈ op.writes ar, w.1 + w.2.length ≤ (op.block ar).length := by
  have hcount := ar.count_le
  cases op with
  | push v =>
    have hlt : ar.aCount + 1 ≤ ar.pushSpace.aData.length := ar.lt_aSpace_pushSpace
    simpa [writes, block] using hlt
  | add data =>
    have hle : ar.aCount + data.length ≤ (ar.addSpace data.length).aData.length :=
      ar.le_aSpace_addSpace data.length
    simpa [writes, block] using hle
  | insert before data =>
    have h : before ≤ ar.toList.length := h
    have hle : ar.aCount + data.length ≤ (ar.addSpace data.length).aData.length :=
      ar.le_aSpace_addSpace data.length
    simp only [writes, block, List.mem_cons, List.not_mem_nil, or_false, forall_eq_or_imp,
      forall_eq, List.length_drop, length_toList] at h ⊢
    omega
  | remove before n =>
    have h : before + n ≤ ar.toList.length := h
    intro w hw
    simp only [writes] at hw
    split_ifs at hw with hn
    · obtain rfl := List.mem_singleton.mp hw
      simp only [block, List.length_drop, length_toList] at h ⊢
      omega
    · exact absurd hw List.not_mem_nil
  | pop | reset => simp [writes]

omit [Inhabited α] in
theorem length_foldl_copyTo {ws : List (ℕ × List α)} {b : List α}
    (h : ∀ w ∈ ws, w.1 + w.2.length ≤ b.length) :
    (ws.foldl (fun b w => copyTo b w.1 w.2) b).length = b.length := by
  induction ws generalizing b with
  | nil => rfl
  | cons w ws ih =>
    rw [List.forall_mem_cons] at h
    have hlen := length_copyTo h.1
    rw [List.foldl_cons, ih (by rw [hlen]; exact h.2), hlen]

/-- The space after an operation is that of the block it stores in. -/
theorem aSpace_run (ar : Arr α) (op : Op α) (h : op.Fits ar.toList) :
    (op.run ar).1.aSpace = (op.block ar).length := by
  rw [aSpace, aData_run ar op h, length_foldl_copyTo (writes_le ar op h)]

end Op

/-! ## Runs -/

/-- An array after operations. -/
def after (ar : Arr α) (ops : List (Op α)) : Arr α :=
  ops.foldl (fun ar op => (op.run ar).1) ar

/-- A list after operations. -/
def listAfter (l : List α) (ops : List (Op α)) : List α :=
  ops.foldl (fun l op => (op.onList l).1) l

/-- The positions of the operations are in the list they are done on. -/
def AllFit (l : List α) : List (Op α) → Prop
  | [] => True
  | op :: ops => op.Fits l ∧ AllFit (op.onList l).1 ops

theorem toList_after {ar : Arr α} {ops : List (Op α)} (h : AllFit ar.toList ops) :
    (ar.after ops).toList = listAfter ar.toList ops := by
  induction ops generalizing ar with
  | nil => rfl
  | cons op ops ih =>
    have hrun := (op.toList_run ar h.1).1
    have hrest := h.2
    rw [← hrun] at hrest
    simp only [after, listAfter, List.foldl_cons] at ih ⊢
    rw [ih hrest, hrun]

omit [Inhabited α] in
theorem allFit_append {l : List α} {ops : List (Op α)} {op : Op α} :
    AllFit l (ops ++ [op]) ↔ AllFit l ops ∧ op.Fits (listAfter l ops) := by
  induction ops generalizing l with
  | nil => simp [AllFit, listAfter]
  | cons op' ops ih =>
    simp only [List.cons_append, AllFit, ih, listAfter, List.foldl_cons, and_assoc]

end Arr

end Webxs
