import Mathlib.Data.List.Infix

/-!
# Lexical paths

A path is a list with separators; what is between them are its segments. Its lexical normal form is
where a walk along them ends : a segment for which `skip` holds does not move, one for which `up`
holds leaves the place that was entered last, and any other enters a place.

`walk_eq` says where a walk from a place ends, by what the segments do : they climb a number of
places, and enter others. So a walk stays under the place where it starts exactly if it enters again
what it has climbed (`prefix_walk_iff`).
-/

namespace LexicalPath

/-! ## Walks -/

section Walk

variable {σ : Type*} (skip up : σ → Bool)

/-- One segment. -/
def step (place : List σ) (s : σ) : List σ :=
  if skip s then place else if up s then place.dropLast else place ++ [s]

/-- Where the segments lead from a place. -/
def walk (place segs : List σ) : List σ :=
  segs.foldl (step skip up) place

/-- One segment, for one who sees only how many places were climbed and what was entered since. -/
def wayStep (w : ℕ × List σ) (s : σ) : ℕ × List σ :=
  if skip s then w
  else if up s then
    if w.2.isEmpty then (w.1 + 1, []) else (w.1, w.2.dropLast)
  else (w.1, w.2 ++ [s])

/-- How far the segments climb, and what they enter then. -/
def way (segs : List σ) : ℕ × List σ :=
  segs.foldl (wayStep skip up) (0, [])

variable {skip up} {place segs : List σ}

theorem dropLast_take (l : List σ) (n : ℕ) :
    (l.take (l.length - n)).dropLast = l.take (l.length - (n + 1)) := by
  rw [List.dropLast_eq_take, List.length_take, List.take_take]
  congr 1
  omega

/-- A walk keeps the part of the place that it does not climb. -/
theorem walk_eq (place segs : List σ) :
    walk skip up place segs =
      place.take (place.length - (way skip up segs).1) ++ (way skip up segs).2 := by
  have hfold : ∀ w : ℕ × List σ,
      segs.foldl (step skip up) (place.take (place.length - w.1) ++ w.2) =
        place.take (place.length - (segs.foldl (wayStep skip up) w).1) ++
          (segs.foldl (wayStep skip up) w).2 := by
    induction segs with
    | nil => exact fun _ => rfl
    | cons s segs ih =>
      intro w
      rw [List.foldl_cons, List.foldl_cons, ← ih]
      congr 1
      unfold step wayStep
      split_ifs with hskip hup hempty
      · rfl
      · -- a place of those where the walk started
        rw [List.isEmpty_iff.mp hempty, List.append_nil, List.append_nil, dropLast_take]
      · exact List.dropLast_append_of_ne_nil fun h => hempty (List.isEmpty_iff.mpr h)
      · exact List.append_assoc _ _ _
  have hwalk := hfold (0, [])
  rwa [Nat.sub_zero, List.take_length, List.append_nil] at hwalk

/-- A walk ends under its place iff it enters again what it has climbed. -/
theorem prefix_walk_iff (place segs : List σ) :
    place <+: walk skip up place segs ↔
      place.drop (place.length - (way skip up segs).1) <+: (way skip up segs).2 := by
  obtain ⟨k, hk⟩ : ∃ k, place.length - (way skip up segs).1 = k := ⟨_, rfl⟩
  have hinj : place.take k ++ place.drop k <+: place.take k ++ (way skip up segs).2 ↔
      place.drop k <+: (way skip up segs).2 := List.prefix_append_right_inj _
  rw [List.take_append_drop] at hinj
  rw [walk_eq, hk, hinj]

/-- Every place of the walk is a segment, or was there before. -/
theorem mem_walk {s : σ} (h : s ∈ walk skip up place segs) : s ∈ place ∨ s ∈ segs := by
  induction segs generalizing place with
  | nil => exact .inl h
  | cons s' segs ih =>
    have hmem : s ∈ walk skip up (step skip up place s') segs := h
    obtain hplace | hsegs := ih hmem
    · unfold step at hplace
      split_ifs at hplace
      · exact .inl hplace
      · exact .inl (List.mem_of_mem_dropLast hplace)
      · rw [List.mem_append, List.mem_singleton] at hplace
        obtain hplace | rfl := hplace
        · exact .inl hplace
        · exact .inr List.mem_cons_self
    · exact .inr (List.mem_cons_of_mem _ hsegs)

end Walk

/-! ## Paths -/

section Path

variable {α : Type*} [DecidableEq α] {sep : α} {skip up : List α → Bool}

/-- The places that a path leads through from the root. -/
def places (sep : α) (skip up : List α → Bool) (path : List α) : List (List α) :=
  walk skip up [] (path.splitOn sep)

/-- The path of some places. -/
def render (sep : α) (segs : List (List α)) : List α :=
  segs.flatMap fun s => sep :: s

/-- The lexical normal form of `path` is that of `root`, or starts with it and a separator. -/
def Under (sep : α) (skip up : List α → Bool) (root path : List α) : Prop :=
  render sep (places sep skip up path) = render sep (places sep skip up root) ∨
    render sep (places sep skip up root) ++ [sep] <+: render sep (places sep skip up path)

instance (root path : List α) : Decidable (Under sep skip up root path) :=
  inferInstanceAs (Decidable (_ ∨ _))

theorem not_mem_of_mem_splitOn {l : List α} {s : List α} (h : s ∈ l.splitOn sep) : sep ∉ s := by
  induction l generalizing s with
  | nil =>
    rw [List.splitOn_nil, List.mem_singleton] at h
    rw [h]
    exact List.not_mem_nil
  | cons a l ih =>
    rw [List.splitOn_cons_eq_if_modifyHead] at h
    obtain ⟨t, ts, hl⟩ := List.exists_cons_of_ne_nil (List.splitOn_ne_nil sep l)
    rw [hl] at h ih
    split_ifs at h with ha
    · obtain rfl | h := List.mem_cons.mp h
      · exact List.not_mem_nil
      · exact ih h
    · rw [List.modifyHead_cons] at h
      obtain rfl | h := List.mem_cons.mp h
      · rw [List.mem_cons]
        rintro (rfl | hmem)
        · exact ha (beq_self_eq_true _)
        · exact ih List.mem_cons_self hmem
      · exact ih (List.mem_cons_of_mem _ h)

theorem not_mem_of_mem_places {path s : List α} (h : s ∈ places sep skip up path) : sep ∉ s := by
  obtain h | h := mem_walk h
  · exact absurd h List.not_mem_nil
  · exact not_mem_of_mem_splitOn h

/-- The segments of a path that was made of them. -/
theorem splitOn_render {segs : List (List α)} (h : ∀ s ∈ segs, sep ∉ s) :
    (render sep segs).splitOn sep = [] :: segs := by
  induction segs with
  | nil => rfl
  | cons s segs ih =>
    rw [List.forall_mem_cons] at h
    have hcons : render sep (s :: segs) = [] ++ sep :: (s ++ render sep segs) := rfl
    rw [hcons, List.splitOn_append_cons_self, List.splitOn_nil, List.singleton_append]
    congr 1
    cases segs with
    | nil =>
      rw [render, List.flatMap_nil, List.append_nil]
      exact List.splitOn_eq_singleton h.1
    | cons s' segs =>
      have hih := ih h.2
      have hcons' : render sep (s' :: segs) = sep :: (s' ++ render sep segs) := rfl
      rw [hcons'] at hih ⊢
      rw [List.splitOn_append_cons_self_of_not_mem h.1]
      have hih' := hih
      rw [← List.nil_append (sep :: _), List.splitOn_append_cons_self, List.splitOn_nil,
        List.singleton_append, List.cons.injEq] at hih'
      rw [hih'.2]

/-- It is the same for the places. -/
theorem under_iff (root path : List α) :
    Under sep skip up root path ↔ places sep skip up root <+: places sep skip up path := by
  have hroot := splitOn_render fun s (h : s ∈ places sep skip up root) => not_mem_of_mem_places h
  have hpath := splitOn_render fun s (h : s ∈ places sep skip up path) => not_mem_of_mem_places h
  unfold Under
  generalize places sep skip up root = r at *
  generalize places sep skip up path = p at *
  constructor
  · rintro (heq | ⟨t, ht⟩)
    · rw [heq, hroot, List.cons.injEq] at hpath
      rw [hpath.2]
    · rw [← ht, List.append_assoc, List.singleton_append, List.splitOn_append_cons_self, hroot,
        List.cons_append, List.cons.injEq] at hpath
      exact ⟨_, hpath.2⟩
  · rintro ⟨q, rfl⟩
    cases q with
    | nil => exact .inl (by rw [List.append_nil])
    | cons s q =>
      refine .inr ⟨s ++ render sep q, ?_⟩
      rw [render, render, render, List.flatMap_append, List.append_assoc]
      rfl

/-- A path that goes on from a root stays under it iff it enters again what it has climbed. -/
theorem under_append_iff (root path : List α) :
    Under sep skip up root (root ++ sep :: path) ↔
      (places sep skip up root).drop ((places sep skip up root).length -
          (way skip up (path.splitOn sep)).1) <+:
        (way skip up (path.splitOn sep)).2 := by
  have happend : places sep skip up (root ++ sep :: path) =
      walk skip up (places sep skip up root) (path.splitOn sep) := by
    rw [places, List.splitOn_append_cons_self, walk, List.foldl_append]
    rfl
  rw [under_iff, happend, prefix_walk_iff]

end Path

end LexicalPath
