import Mathlib.Data.Finset.Card
import Webxs.KhashRuns

/-!
# The table of file entries

`xs_fileinfo_get` (`xs_fileinfo.h`) keeps one entry for each path that it was ever asked for, in
the hash table `gxs_statptr`. A path that is not there gets a fresh entry, and an `assert` says
that `kh_put` cannot find the path. For calls that are made one after another this holds, and a
path has one entry from its first call on (`findAll_eq_iff`).

Entries are numbered as `calloc` returns them. Threads that call at the same time are in
`FileLock`, and what a call does with its entry is in `FileEntry`.
-/

namespace Webxs

namespace FileTable

open Khash

/-- `gxs_statptr`, and the number of entries allocated. -/
structure Table where
  statptr : Khash (List UInt8) ℕ
  entries : ℕ

/-- `xs_fileinfo_init`. -/
def init : Table where
  statptr := khInit
  entries := 0

/-- The entry of `path` in `xs_fileinfo_get`. -/
def find (t : Table) (path : List UInt8) : Option (Table × ℕ) := do
  let iter ← khGet acX31HashString t.statptr path
  if iter = t.statptr.nBuckets then
    let fptr := t.entries
    let (h, iter, result) ← khPut acX31HashString t.statptr path
    if result = 0 then
      none -- `assert(0)`
    else
      let h ← h.setVal iter fptr
      some (⟨h, t.entries + 1⟩, fptr)
  else
    let fptr ← t.statptr.khVal iter
    some (t, fptr)

/-- The entries of a sequence of calls. -/
def findAll : Table → List (List UInt8) → Option (Table × List ℕ)
  | t, [] => some (t, [])
  | t, path :: paths => do
    let (t, fptr) ← find t path
    let (t, fptrs) ← findAll t paths
    some (t, fptr :: fptrs)

/-- The paths seen once `path` is asked for, in the order of their first calls. -/
def see (seen : List (List UInt8)) (path : List UInt8) : List (List UInt8) :=
  if seen.contains path then seen else seen ++ [path]

/-- The entries of the paths seen. -/
def entryMap (seen : List (List UInt8)) (path : List UInt8) : Option ℕ :=
  if seen.contains path then some (seen.idxOf path) else none

/-- The table after calls for the paths `seen`. -/
structure Seen (t : Table) (seen : List (List UInt8)) : Prop where
  maps : Maps acX31HashString t.statptr (entryMap seen)
  entries : t.entries = seen.length
  nodup : seen.Nodup

variable {t : Table} {seen : List (List UInt8)} {path : List UInt8}

theorem see_of_mem (h : path ∈ seen) : see seen path = seen :=
  if_pos (List.contains_iff_mem.mpr h)

theorem see_of_notMem (h : path ∉ seen) : see seen path = seen ++ [path] :=
  if_neg (mt List.contains_iff_mem.mp h)

theorem entryMap_of_mem (h : path ∈ seen) : entryMap seen path = some (seen.idxOf path) :=
  if_pos (List.contains_iff_mem.mpr h)

theorem entryMap_of_notMem (h : path ∉ seen) : entryMap seen path = none :=
  if_neg (mt List.contains_iff_mem.mp h)

theorem mem_see {p : List UInt8} : p ∈ see seen path ↔ p ∈ seen ∨ p = path := by
  by_cases h : path ∈ seen
  · rw [see_of_mem h]
    exact ⟨.inl, fun hp => hp.elim id fun heq => heq ▸ h⟩
  · rw [see_of_notMem h, List.mem_append, List.mem_singleton]

theorem nodup_see (path : List UInt8) (h : seen.Nodup) : (see seen path).Nodup := by
  by_cases hmem : path ∈ seen
  · rwa [see_of_mem hmem]
  · rw [see_of_notMem hmem]
    exact h.append (List.nodup_singleton path) (List.disjoint_singleton.mpr hmem)

theorem idxOf_see {p : List UInt8} (hp : p ∈ seen) : (see seen path).idxOf p = seen.idxOf p := by
  by_cases h : path ∈ seen
  · rw [see_of_mem h]
  · rw [see_of_notMem h]
    exact List.idxOf_append_of_mem hp

theorem idxOf_see_new (h : path ∉ seen) : (see seen path).idxOf path = seen.length := by
  rw [see_of_notMem h, List.idxOf_append_of_notMem h, List.idxOf_cons_self]
  rfl

theorem entryMap_see (h : path ∉ seen) :
    entryMap (see seen path) = Function.update (entryMap seen) path (some seen.length) := by
  ext1 p
  rw [Function.update_apply]
  split_ifs with hp
  · rw [hp, entryMap_of_mem (mem_see.mpr (.inr rfl)), idxOf_see_new h]
  · by_cases hmem : p ∈ seen
    · rw [entryMap_of_mem (mem_see.mpr (.inl hmem)), entryMap_of_mem hmem, idxOf_see hmem]
    · rw [entryMap_of_notMem hmem, entryMap_of_notMem fun hsee =>
        (mem_see.mp hsee).elim hmem hp]

theorem Seen.size_eq (h : Seen t seen) : t.statptr.size = seen.length := by
  rw [h.maps.ncard_eq, ← List.toFinset_card_of_nodup h.nodup, ← Set.ncard_coe_finset]
  congr 1
  ext p
  simp [entryMap]

/-- One call finds the entry of the path, or makes the next one. -/
theorem find_spec (h : Seen t seen) (path : List UInt8)
    (hfew : (see seen path).length ≤ 2 ^ 30) :
    ∃ t', find t path = some (t', (see seen path).idxOf path) ∧ Seen t' (see seen path) := by
  rcases khGet_spec h.maps path with ⟨hm, hget⟩ | ⟨v, hm, x, hx, hget, hlive⟩
  · rw [Option.map_eq_none_iff] at hm
    have hnew : path ∉ seen := fun hmem => by
      rw [entryMap_of_mem hmem] at hm
      exact absurd hm (Option.some_ne_none _)
    have hlen : seen.length + 1 ≤ 2 ^ 30 := by
      rwa [see_of_notMem hnew, List.length_append] at hfew
    obtain ⟨h₁, x, ret, v, hput, hx, hs₁, hret⟩ :=
      khPut_spec h.maps (by rw [h.size_eq]; omega) path
    have hne : ret ≠ 0 := fun hzero => hret.mp hzero (by rw [hm]; rfl)
    obtain ⟨h₂, hset, hs₂⟩ := setVal_spec hs₁ hx t.entries
    rw [Function.update_idem] at hs₂
    refine ⟨⟨h₂, t.entries + 1⟩, ?_, ?_, ?_, nodup_see path h.nodup⟩
    · rw [find, hget, idxOf_see_new hnew, ← h.entries]
      simp only [hput, hset, if_neg hne, Option.bind_eq_bind, Option.bind_some, if_true]
    · rw [Maps, entryMap_see hnew, map_update, ← h.entries]
      exact hs₂
    · rw [see_of_notMem hnew, List.length_append, h.entries]
      rfl
  · obtain ⟨w, hw, rfl⟩ := Option.map_eq_some_iff.mp hm
    have hmem : path ∈ seen := by
      by_contra hno
      rw [entryMap_of_notMem hno] at hw
      exact absurd hw.symm (Option.some_ne_none _)
    rw [entryMap_of_mem hmem, Option.some.injEq] at hw
    have hval := (of_slotAt_live hlive).2.2.2.2
    refine ⟨t, ?_, by rwa [see_of_mem hmem]⟩
    rw [find, hget, see_of_mem hmem, hw]
    simp only [if_neg hx.ne, khVal, ← hval, Option.bind_eq_bind, Option.bind_some]

/-! ## All calls -/

/-- The paths seen after all calls. -/
def seeAll : List (List UInt8) → List (List UInt8) → List (List UInt8) :=
  List.foldl see

theorem mem_seeAll {p : List UInt8} (paths : List (List UInt8)) :
    p ∈ seeAll seen paths ↔ p ∈ seen ∨ p ∈ paths := by
  induction paths generalizing seen with
  | nil => simp [seeAll]
  | cons q paths ih =>
    have : p ∈ seeAll seen (q :: paths) ↔ p ∈ see seen q ∨ p ∈ paths := ih
    rw [this, mem_see, List.mem_cons, or_assoc]

theorem idxOf_seeAll {p : List UInt8} (paths : List (List UInt8)) (hp : p ∈ seen) :
    (seeAll seen paths).idxOf p = seen.idxOf p := by
  induction paths generalizing seen with
  | nil => rfl
  | cons q paths ih => exact (ih (mem_see.mpr (.inl hp))).trans (idxOf_see hp)

theorem nodup_seeAll (paths : List (List UInt8)) (h : seen.Nodup) : (seeAll seen paths).Nodup := by
  induction paths generalizing seen with
  | nil => exact h
  | cons q paths ih => exact ih (nodup_see q h)

theorem length_le_seeAll (paths : List (List UInt8)) (h : seen.Nodup) :
    seen.length ≤ (seeAll seen paths).length :=
  (List.subperm_of_subset h fun _ hp => (mem_seeAll paths).mpr (.inl hp)).length_le

/-- Every call returns the entry of its path, numbered in the order of the first calls. -/
theorem findAll_spec :
    ∀ (paths : List (List UInt8)) (t : Table) (seen : List (List UInt8)), Seen t seen →
      (seeAll seen paths).length ≤ 2 ^ 30 →
      ∃ t', findAll t paths = some (t', paths.map (seeAll seen paths).idxOf) ∧
        Seen t' (seeAll seen paths)
  | [], t, _, h, _ => ⟨t, rfl, h⟩
  | path :: paths, t, seen, h, hfew => by
    have hle := length_le_seeAll paths (nodup_see path h.nodup)
    obtain ⟨t₁, hfind, h₁⟩ := find_spec h path (hle.trans hfew)
    obtain ⟨t₂, hall, h₂⟩ := findAll_spec paths t₁ (see seen path) h₁ hfew
    refine ⟨t₂, ?_, h₂⟩
    have hidx : (seeAll seen (path :: paths)).idxOf path = (see seen path).idxOf path :=
      idxOf_seeAll paths (mem_see.mpr (.inr rfl))
    rw [findAll, hfind]
    simp only [hall, List.map_cons, hidx, Option.bind_eq_bind, Option.bind_some]
    rfl

theorem seen_init : Seen init [] where
  maps := khInit_stores acX31HashString
  entries := rfl
  nodup := List.nodup_nil

/-- No call fails, two calls return one entry exactly if they are for one path, and there are as
many entries as paths. -/
theorem findAll_eq_iff (paths : List (List UInt8)) (hfew : paths.toFinset.card ≤ 2 ^ 30) :
    ∃ t entries, findAll init paths = some (t, entries) ∧ entries.length = paths.length ∧
      (∀ i j : Fin paths.length, entries[i]? = entries[j]? ↔ paths[i] = paths[j]) ∧
      t.entries = paths.toFinset.card := by
  have hcard : (seeAll [] paths).length = paths.toFinset.card := by
    rw [← List.toFinset_card_of_nodup (nodup_seeAll paths List.nodup_nil)]
    congr 1
    ext p
    simp [mem_seeAll]
  obtain ⟨t, hrun, h⟩ := findAll_spec paths init [] seen_init (by rw [hcard]; exact hfew)
  refine ⟨t, _, hrun, List.length_map _, fun i j => ?_, h.entries.trans hcard⟩
  have hmem : ∀ i : Fin paths.length, paths[i] ∈ seeAll [] paths := fun i =>
    (mem_seeAll paths).mpr (.inr (List.getElem_mem i.2))
  simp only [Fin.getElem?_fin, List.getElem?_map, List.getElem?_eq_getElem i.2,
    List.getElem?_eq_getElem j.2, Option.map_some, Option.some.injEq]
  exact List.idxOf_inj (hmem i)

/-- "a", "b", "a". -/
def twoPaths : List (List UInt8) :=
  [[97], [98], [97]]

theorem findAll_eq_iff_twoPaths :
    ∃ t entries, findAll init twoPaths = some (t, entries) ∧ entries.length = twoPaths.length ∧
      (∀ i j : Fin twoPaths.length, entries[i]? = entries[j]? ↔ twoPaths[i] = twoPaths[j]) ∧
      t.entries = twoPaths.toFinset.card :=
  findAll_eq_iff twoPaths ((List.toFinset_card_le _).trans (by norm_num [twoPaths]))

end FileTable

end Webxs
