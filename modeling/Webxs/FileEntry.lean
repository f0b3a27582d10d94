import Webxs.Calls
import Mathlib.Data.Int.Notation
import Mathlib.Tactic.Tauto

/-!
# The data of a file entry

An entry of the file table (`xs_fileinfo`, `xs_fileinfo.h`) holds what `stat` said of its file, and
the mapping of the file if it is loaded. `xs_fileinfo_get` refreshes the entry through a record of
its own : `xs_stat` clears the record, and where the data are kept, `data` is taken over from the
entry, but `msize` is not. From then on the length of the mapping is lost, and it is never unmapped.
`dataLive_iff` says that the data are right after each call exactly if no refresh finds data that it
keeps.

The calls are made one after another, and nobody holds the entry : `readcount` is 0. What the system
answers comes with each call. A mapping is fresh, and `mmap` fails without a length or a file. The
records that nobody reads here (`userdata`, `userinfo`) are left out.
-/

namespace Webxs

namespace FileEntry

/-! ## Mappings -/

/-- The mappings made of the file. -/
structure Maps where
  /-- The live ones, with their lengths. -/
  live : List (ℕ × ℕ)
  /-- The address of the next one. -/
  next : ℕ
  /-- History : some `munmap` was not given the address and the length of a live mapping. -/
  wrong : Bool
  deriving DecidableEq

/-- `munmap`. -/
def Maps.munmap (m : Maps) (data msize : ℕ) : Maps :=
  if (data, msize) ∈ m.live then { m with live := m.live.erase (data, msize) }
  else { m with wrong := true }

/-- `munmap`, if there are data. -/
def Maps.unmap (m : Maps) (data : Option ℕ) (msize : ℕ) : Maps :=
  match data with
  | none => m
  | some data => m.munmap data msize

/-! ## The entry -/

/-- What the system answers in a call. -/
structure Sys where
  /-- The size, the time and the kind of the file, if `stat` succeeds. -/
  stat : Option (ℕ × ℤ × Bool)
  /-- What `xs_open` returns. -/
  f : ℤ
  /-- Whether `mmap` succeeds if it can. -/
  mmap : Bool
  deriving DecidableEq

/-- An `xs_fileinfo`. -/
structure Fileinfo where
  status : ℕ
  checkTime : ℤ
  statRet : ℤ
  size : ℕ
  msize : ℕ
  modificationTime : ℤ
  folderMod : ℤ
  isDirectory : Bool
  data : Option ℕ
  deriving DecidableEq

/-- An entry filled with zeros. -/
def Fileinfo.zero : Fileinfo :=
  ⟨0, 0, 0, 0, 0, 0, 0, false, none⟩

/-- `xs_stat`. -/
def xsStat (sys : Sys) : Fileinfo :=
  match sys.stat with
  | none => { Fileinfo.zero with statRet := -1 }
  | some (size, modificationTime, isDirectory) =>
    { Fileinfo.zero with
      size := if isDirectory then 0 else size
      modificationTime
      isDirectory }

/-- `mmap` of `size` bytes. -/
def Maps.mmap (m : Maps) (sys : Sys) (size : ℕ) : Option ℕ × Maps :=
  if sys.mmap = true ∧ 0 < size ∧ 0 ≤ sys.f then
    (some m.next, { m with live := (m.next, size) :: m.live, next := m.next + 1 })
  else (none, m)

/-- `xs_fileinfo_loaddata`, with a path or without. -/
def loaddata (fi : Fileinfo) (path : Bool) (sys : Sys) (m : Maps) : ℤ × Fileinfo × Maps :=
  let fi := if fi.status = 10 ∧ path = false then { fi with status := 0 } else fi
  if fi.statRet ≠ 0 ∨ 1 < fi.status ∨ fi.isDirectory = true then (-1, fi, m)
  else
    -- whatever the size is, the old mapping goes
    let m := m.unmap fi.data fi.msize
    let fi := { fi with data := none }
    let (fi, m) :=
      if path = true ∧ sys.f ≠ 0 then
        let (data, m) := m.mmap sys fi.size
        ({ fi with data, msize := fi.size }, m)
      else (fi, m)
    (if fi.data.isSome then 0 else -3, fi, m)

/-- An entry with the mappings of its file. -/
structure State where
  fi : Fileinfo
  maps : Maps
  deriving DecidableEq

/-- The time for which an entry is not checked. -/
def deltasecs : ℤ :=
  2

/-- The entry is checked : its status is 0, or it becomes 0. -/
def Fileinfo.Refreshed (fi : Fileinfo) (ct : ℤ) : Prop :=
  fi.status = 0 ∨ fi.status = 10 ∧ deltasecs < ct - fi.checkTime

instance (fi : Fileinfo) (ct : ℤ) : Decidable (fi.Refreshed ct) := by
  unfold Fileinfo.Refreshed
  infer_instance

/-- The branch of `xs_fileinfo_get` that updates the entry. -/
def refresh (s : State) (loadData : Bool) (ct : ℤ) (sys : Sys) : State :=
  let fptr := s.fi
  let tfi := { xsStat sys with checkTime := ct, status := 1, folderMod := fptr.folderMod }
  if loadData = true ∧ tfi.modificationTime ≠ fptr.modificationTime then
    let m := s.maps.unmap fptr.data fptr.msize
    let (_, tfi, m) := loaddata tfi true sys m
    -- the old data are 0 by now
    ⟨{ tfi with status := 10 }, m⟩
  else ⟨{ tfi with data := fptr.data, status := 10 }, s.maps⟩

/-- `xs_fileinfo_get` of an entry that is there; `none` if it waits for another thread. -/
def get (s : State) (loadData : Bool) (ct : ℤ) (sys : Sys) : Option (ℤ × State) :=
  if s.fi.Refreshed ct then
    let s := refresh s loadData ct sys
    some (s.fi.statRet, s)
  else if 10 ≤ s.fi.status then some (s.fi.statRet, s)
  else none

/-- A call. -/
inductive Call
  /-- `xs_fileinfo_get`, at a time. -/
  | get (loadData : Bool) (ct : ℤ) (sys : Sys)
  | loaddata (sys : Sys)
  | unloaddata (sys : Sys)
  deriving DecidableEq

/-- What a call does. -/
def step (s : State) : Call → Option (ℤ × State)
  | .get load ct sys => get s load ct sys
  | .loaddata sys =>
    let (ret, fi, maps) := loaddata s.fi true sys s.maps
    some (ret, ⟨fi, maps⟩)
  | .unloaddata sys =>
    let (ret, fi, maps) := loaddata s.fi false sys s.maps
    some (ret, ⟨fi, maps⟩)

/-- A new entry. -/
def fresh : State :=
  ⟨.zero, ⟨[], 1, false⟩⟩

/-! ## The data are live -/

/-- The data are a live mapping of `msize` bytes, and hold the file; no mapping was unmapped with a
wrong length, and there is at most one. -/
structure DataLive (s : State) : Prop where
  live : ∀ data, s.fi.data = some data → (data, s.fi.msize) ∈ s.maps.live ∧ s.fi.size ≤ s.fi.msize
  munmaps : s.maps.wrong = false
  one : s.maps.live.length ≤ 1

/-- A refresh finds data and keeps them. -/
def KeepsData (s : State) : Call → Prop
  | .get load ct sys => s.fi.Refreshed ct ∧ s.fi.data ≠ none ∧
      ¬(load = true ∧ (xsStat sys).modificationTime ≠ s.fi.modificationTime)
  | _ => False

instance (s : State) (c : Call) : Decidable (KeepsData s c) := by
  unfold KeepsData
  split <;> infer_instance

/-- The live mappings are that of the data. -/
def Maps.Of (m : Maps) (fi : Fileinfo) : Prop :=
  m.wrong = false ∧ match fi.data with
    | none => m.live = []
    | some data => m.live = [(data, fi.msize)] ∧ fi.size = fi.msize ∧ 0 < fi.msize

/-- What the calls keep. -/
structure Inv (s : State) : Prop where
  status : s.fi.status = 0 ∨ s.fi.status = 10
  maps : s.maps.Of s.fi

variable {s : State} {m : Maps} {fi : Fileinfo} {sys : Sys} {load : Bool} {ct : ℤ}

theorem Inv.dataLive (h : Inv s) : DataLive s := by
  obtain ⟨-, hwrong, hmaps⟩ := h
  cases hdata : s.fi.data with
  | none =>
    rw [hdata] at hmaps
    exact ⟨by simp [hdata], hwrong, by simp [hmaps]⟩
  | some data =>
    rw [hdata] at hmaps
    obtain ⟨hlive, hsize, -⟩ := hmaps
    refine ⟨fun data' hdata' => ?_, hwrong, by simp [hlive]⟩
    obtain rfl := Option.some.inj (hdata.symm.trans hdata')
    exact ⟨by simp [hlive], Nat.le_of_eq hsize⟩

/-- Unmapping the data leaves no mapping. -/
theorem Maps.Of.unmap (h : m.Of fi) :
    (m.unmap fi.data fi.msize).live = [] ∧ (m.unmap fi.data fi.msize).wrong = false := by
  obtain ⟨hwrong, hmaps⟩ := h
  cases hdata : fi.data with
  | none =>
    rw [hdata] at hmaps
    exact ⟨hmaps, hwrong⟩
  | some data =>
    rw [hdata] at hmaps
    have hmem : (data, fi.msize) ∈ m.live := by simp [hmaps.1]
    rw [Maps.unmap, Maps.munmap, if_pos hmem, hmaps.1]
    exact ⟨List.erase_cons_head .., hwrong⟩

/-- A mapping of `size` bytes, made where there is none. -/
theorem Maps.Of.mmap (hlive : m.live = []) (hwrong : m.wrong = false) (sys : Sys)
    (fi : Fileinfo) :
    (m.mmap sys fi.size).2.Of { fi with data := (m.mmap sys fi.size).1, msize := fi.size } := by
  unfold Maps.mmap
  split_ifs with h
  · exact ⟨hwrong, by simp [hlive], rfl, h.2.1⟩
  · exact ⟨hwrong, hlive⟩

/-- Loading and unloading keep the status below 10, or make it 0, and what is known of the data. -/
theorem loaddata_spec (path : Bool) (sys : Sys) (h : m.Of fi) :
    ((loaddata fi path sys m).2.1.status = fi.status ∨ (loaddata fi path sys m).2.1.status = 0) ∧
      (loaddata fi path sys m).2.2.Of (loaddata fi path sys m).2.1 := by
  have hstatus : ∀ fi', (if fi.status = 10 ∧ path = false then { fi with status := 0 } else fi) =
      fi' → (fi'.status = fi.status ∨ fi'.status = 0) ∧ m.Of fi' := by
    rintro _ rfl
    split_ifs
    · exact ⟨.inr rfl, h⟩
    · exact ⟨.inl rfl, h⟩
  unfold loaddata
  generalize hfi : (if fi.status = 10 ∧ path = false then { fi with status := 0 } else fi) = fi'
  obtain ⟨hstatus, hof⟩ := hstatus fi' hfi
  dsimp only
  by_cases hout : fi'.statRet ≠ 0 ∨ 1 < fi'.status ∨ fi'.isDirectory = true
  · rw [if_pos hout]
    exact ⟨hstatus, hof⟩
  rw [if_neg hout]
  obtain ⟨hlive, hwrong⟩ := hof.unmap
  by_cases hload : path = true ∧ sys.f ≠ 0
  · rw [if_pos hload]
    exact ⟨hstatus, Maps.Of.mmap hlive hwrong sys { fi' with data := none }⟩
  · rw [if_neg hload]
    exact ⟨hstatus, hwrong, hlive⟩

/-- A refresh that does not keep data loads them anew, or there are none. -/
theorem refresh_spec (h : s.maps.Of s.fi)
    (hkeep : ¬(s.fi.data ≠ none ∧
      ¬(load = true ∧ (xsStat sys).modificationTime ≠ s.fi.modificationTime))) :
    Inv (refresh s load ct sys) := by
  unfold refresh
  dsimp only
  split_ifs with hload
  · obtain ⟨hlive, hwrong⟩ := h.unmap
    have hnone : ∀ fi : Fileinfo, fi.data = none →
        (s.maps.unmap s.fi.data s.fi.msize).Of fi := by
      intro fi hfi
      refine ⟨hwrong, ?_⟩
      rw [hfi]
      exact hlive
    refine ⟨.inr rfl, ?_⟩
    refine (loaddata_spec true sys (hnone
      { xsStat sys with checkTime := ct, status := 1, folderMod := s.fi.folderMod } ?_)).2
    unfold xsStat
    split <;> rfl
  · have hdata : s.fi.data = none := by tauto
    obtain ⟨hwrong, hmaps⟩ := h
    rw [hdata] at hmaps
    refine ⟨.inr rfl, hwrong, ?_⟩
    rw [hdata]
    exact hmaps

/-- A refresh that keeps data forgets the length of the mapping. -/
theorem refresh_keeps (h : s.maps.Of s.fi) (hdata : s.fi.data ≠ none)
    (hload : ¬(load = true ∧ (xsStat sys).modificationTime ≠ s.fi.modificationTime)) :
    ¬DataLive (refresh s load ct sys) := by
  obtain ⟨data, hdata⟩ := Option.ne_none_iff_exists'.mp hdata
  obtain ⟨-, hmaps⟩ := h
  rw [hdata] at hmaps
  have hmsize : (xsStat sys).msize = 0 := by
    unfold xsStat
    split <;> rfl
  intro hlive
  unfold refresh at hlive
  dsimp only at hlive
  rw [if_neg hload] at hlive
  have hmem := (hlive.live data hdata).1
  dsimp only at hmem
  rw [hmaps.1, hmsize, List.mem_singleton, Prod.mk.injEq] at hmem
  omega

/-- One call. -/
theorem step_spec (h : Inv s) (c : Call) : ∃ r, step s c = some r ∧
    (¬KeepsData s c → Inv r.2) ∧ (¬¬KeepsData s c → ¬DataLive r.2) := by
  have hload : ∀ path sys, Inv ⟨(loaddata s.fi path sys s.maps).2.1,
      (loaddata s.fi path sys s.maps).2.2⟩ := by
    intro path sys
    obtain ⟨hstatus, hof⟩ := loaddata_spec path sys h.maps
    refine ⟨?_, hof⟩
    rcases hstatus with hstatus | hstatus
    · rw [hstatus]
      exact h.status
    · exact .inl hstatus
  cases c with
  | get load ct sys =>
    by_cases hr : s.fi.Refreshed ct
    · refine ⟨_, if_pos hr, fun hkeep => refresh_spec h.maps ?_, fun hkeep => ?_⟩
      · exact fun hk => hkeep ⟨hr, hk⟩
      · obtain ⟨-, hdata, hk⟩ := not_not.mp hkeep
        exact refresh_keeps h.maps hdata hk
    · have h10 : s.fi.status = 10 := by
        rcases h.status with hs | hs
        · exact absurd (.inl hs) hr
        · exact hs
      refine ⟨_, (if_neg hr).trans (if_pos (by omega)), fun _ => h, fun hkeep => ?_⟩
      exact absurd (not_not.mp hkeep).1 hr
  | loaddata sys => exact ⟨_, rfl, fun _ => hload true sys, fun hkeep => absurd id hkeep⟩
  | unloaddata sys => exact ⟨_, rfl, fun _ => hload false sys, fun hkeep => absurd id hkeep⟩

/-- The data are right after each call iff no refresh finds data that it keeps. -/
theorem dataLive_iff (calls : List Call) :
    (∃ rs, Calls.run step fresh calls = some rs ∧ ∀ r ∈ rs, DataLive r.2) ↔
      Calls.Along step (fun s c => ¬KeepsData s c) fresh calls :=
  Calls.forall_iff_along (I := Inv) (G := DataLive) (fun _ h => h.dataLive)
    (fun _ c h => step_spec h c) ⟨.inl rfl, rfl, rfl⟩

/-- The same file twice, with three seconds between : the second time its length is lost. -/
theorem not_dataLive_twice : ¬∃ rs, Calls.run step fresh
    [.get true 100 ⟨some (5, 7, false), 3, true⟩, .get true 103 ⟨some (5, 7, false), 3, true⟩] =
      some rs ∧ ∀ r ∈ rs, DataLive r.2 := by
  rintro ⟨rs, hrs, hall⟩
  have hrun : Calls.run step fresh [.get true 100 ⟨some (5, 7, false), 3, true⟩,
      .get true 103 ⟨some (5, 7, false), 3, true⟩] =
      some [(0, ⟨⟨10, 100, 0, 5, 5, 7, 0, false, some 1⟩, ⟨[(1, 5)], 2, false⟩⟩),
        (0, ⟨⟨10, 103, 0, 5, 0, 7, 0, false, some 1⟩, ⟨[(1, 5)], 2, false⟩⟩)] := by decide
  rw [hrun] at hrs
  cases hrs
  have hlive := (hall _ (List.mem_cons_of_mem _ List.mem_cons_self)).live 1 rfl
  exact absurd hlive.1 (by decide)

end FileEntry

end Webxs
