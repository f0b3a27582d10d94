import Webxs.FileEntry
import Webxs.Interleaving

/-!
# The lock of a file entry

`xs_fileinfo_lock` (`xs_fileinfo.h`) counts a reader of an entry in, `xs_fileinfo_unlock` counts
it out, and `xs_fileinfo_get` waits for a count of 0 before it copies the refreshed record over
the entry. The status word says who else is at the entry : 10 nobody, 3 a thread that looks at the
time, 1 one that refreshes, 2 one that unloads. But the data of a changed file are unmapped before
the wait, unloading does not wait at all, and a reader tests the status and the count some steps
before it counts itself in.

Each thread's place is a `Pc`, one for each atomic operation, each test, each field that is copied
and each `munmap`; a spin that repeats is a step that changes nothing. Every place of an owner of
the status word has an assertion (`Pc.Holds`), which no other thread can break as long as a reader
that counts itself in still finds what it waited for, and the data go only while nobody is counted
(`inv_of_orderly`).

The lookup of the entry in the table and the values returned are left out.
-/

open Interleaving

namespace Webxs

namespace EntryLock

open FileEntry

variable {ι : Type*}

/-! ## The model -/

/-- The fields of an entry that a refresh copies. -/
inductive Field
  | status
  | readcount
  | checkTime
  | statRet
  | size
  | msize
  | modificationTime
  | folderMod
  | isDirectory
  | data
  deriving DecidableEq

/-- All fields, in the order of the structure. -/
def Field.all : List Field :=
  [.status, .readcount, .checkTime, .statRet, .size, .msize, .modificationTime, .folderMod,
    .isDirectory, .data]

/-- An entry with its count of readers, and the mappings of its file. -/
structure Shared where
  fi : Fileinfo
  readcount : ℤ
  maps : Maps

/-- The status word. -/
abbrev Shared.status (s : Shared) : ℕ :=
  s.fi.status

def Shared.setStatus (s : Shared) (status : ℕ) : Shared :=
  { s with fi.status := status }

/-- `data = 0`. -/
def Shared.zeroData (s : Shared) : Shared :=
  { s with fi.data := none }

/-- Unmap the entry's data. -/
def Shared.unmap (s : Shared) : Shared :=
  { s with maps := s.maps.unmap s.fi.data s.fi.msize }

/-- Copy a field of the refreshed record, whose `readcount` is the 0 of `xs_stat`. -/
def Shared.copy (s : Shared) (tfi : Fileinfo) : Field → Shared
  | .status => { s with fi.status := tfi.status }
  | .readcount => { s with readcount := 0 }
  | .checkTime => { s with fi.checkTime := tfi.checkTime }
  | .statRet => { s with fi.statRet := tfi.statRet }
  | .size => { s with fi.size := tfi.size }
  | .msize => { s with fi.msize := tfi.msize }
  | .modificationTime => { s with fi.modificationTime := tfi.modificationTime }
  | .folderMod => { s with fi.folderMod := tfi.folderMod }
  | .isDirectory => { s with fi.isDirectory := tfi.isDirectory }
  | .data => { s with fi.data := tfi.data }

/-- Where a thread is. -/
inductive Pc
  /-- In none of the functions. -/
  | idle
  /-- `xs_fileinfo_lock`, or `xs_fileinfo_unlock`, at the spin : `readcount==0`. -/
  | ifUncounted (lock : Bool)
  /-- At the spin : `status!=10`. -/
  | ifBusy (lock : Bool)
  /-- At the addition to `readcount`. -/
  | count (lock : Bool)
  /-- `xs_fileinfo_get`, at the first test of `check_time`. -/
  | checkTime (load : Bool) (ct : ℤ)
  /-- At the test `status==10`. -/
  | checkStatus (load : Bool) (ct : ℤ)
  /-- At the swap of 10 by 3. -/
  | swapThree (load : Bool) (ct : ℤ)
  /-- At the second test of `check_time`. -/
  | checkAgain (load : Bool) (ct : ℤ)
  /-- At the test `status==3`. -/
  | ifThree (load : Bool) (ct : ℤ)
  /-- At `status = 0`. -/
  | reset (load : Bool) (ct : ℤ)
  /-- At `status = 10`, the time being not over. -/
  | restore (load : Bool) (ct : ℤ)
  /-- At the swap of 0 by 1. -/
  | swapOne (load : Bool) (ct : ℤ)
  /-- At the loop that waits for a status of 10. -/
  | wait
  /-- At `xs_stat`. -/
  | stat (load : Bool) (ct : ℤ)
  /-- At `tfi.status = fptr->status`. -/
  | readStatus (load : Bool) (tfi : Fileinfo)
  /-- At `tfi.folder_mod = fptr->folder_mod`. -/
  | readFolder (load : Bool) (tfi : Fileinfo)
  /-- At the test of the modification time. -/
  | readTime (load : Bool) (tfi : Fileinfo)
  /-- The file is another : at the test of `fptr->data`. -/
  | ifData (tfi : Fileinfo)
  /-- At the `munmap` of the old data. -/
  | munmap (tfi : Fileinfo)
  /-- At `fptr->data = 0`. -/
  | zeroData (tfi : Fileinfo)
  /-- At `xs_fileinfo_loaddata(&tfi, path)`. -/
  | load (tfi : Fileinfo)
  /-- At `olddata = fptr->data`. -/
  | oldData (tfi : Fileinfo)
  /-- At `oldsize = fptr->msize`. -/
  | oldSize (tfi : Fileinfo) (olddata : Option ℕ)
  /-- The file is the same, or not to be loaded : at `tfi.data = fptr->data`. -/
  | keepData (tfi : Fileinfo)
  /-- At the spin on `readcount`. -/
  | waitReaders (tfi : Fileinfo) (olddata : Option ℕ) (oldsize : ℕ)
  /-- At `*fptr = tfi`, with the fields that are left. -/
  | copy (left : List Field) (tfi : Fileinfo) (olddata : Option ℕ) (oldsize : ℕ)
  /-- At `status = 10`, after the copy. -/
  | setTen (olddata : Option ℕ) (oldsize : ℕ)
  /-- At the `munmap` of `olddata`, if there is any. -/
  | unmapOld (olddata : Option ℕ) (oldsize : ℕ)
  /-- `xs_fileinfo_loaddata(fi, 0)`, at `locallock = status`. -/
  | readLock
  /-- At the test `status==10`. -/
  | ifTen (locallock : ℕ)
  /-- At the spin on the swap of 10 by 0. -/
  | swapZero
  /-- At the test of `stat_ret`. -/
  | guardStat (locallock : ℕ)
  /-- At the test `status>1`. -/
  | guardStatus (locallock : ℕ)
  /-- At the test of `is_directory`. -/
  | guardDirectory (locallock : ℕ)
  /-- At the swap of `locallock` by 2. -/
  | swapTwo (locallock : ℕ)
  /-- At the test of `fi->data` : the first, or that of the last branch. -/
  | ifLoaded (last : Bool) (locallock : ℕ)
  /-- At the `munmap` of the data. -/
  | unload (last : Bool) (locallock : ℕ)
  /-- At `fi->data = 0`. -/
  | clear (last : Bool) (locallock : ℕ)
  /-- At `status = locallock`. -/
  | setBack (locallock : ℕ)
  deriving DecidableEq

/-- A step in `xs_fileinfo_get` or `xs_fileinfo_unloaddata` of a thread that gets the answers `sys`
of the system. A structure is copied in any order : `f` is the next field. -/
def fileinfoStep (sys : Sys) (f : Field) (s : Shared) : Pc → Option (Shared × Pc)
  | .checkTime load ct =>
    some (s, if deltasecs < ct - s.fi.checkTime then .checkStatus load ct else .swapOne load ct)
  | .checkStatus load ct =>
    some (s, if s.status = 10 then .swapThree load ct else .swapOne load ct)
  | .swapThree load ct =>
    if s.status = 10 then some (s.setStatus 3, .checkAgain load ct)
    else some (s, .swapThree load ct)
  | .checkAgain load ct =>
    some (s, if deltasecs < ct - s.fi.checkTime then .ifThree load ct else .restore load ct)
  | .ifThree load ct => some (s, if s.status = 3 then .reset load ct else .swapOne load ct)
  | .reset load ct => some (s.setStatus 0, .swapOne load ct)
  | .restore load ct => some (s.setStatus 10, .swapOne load ct)
  | .swapOne load ct =>
    if s.status = 0 then some (s.setStatus 1, .stat load ct) else some (s, .wait)
  | .wait => some (s, if s.status < 10 then .wait else .idle)
  | .stat load ct => some (s, .readStatus load { xsStat sys with checkTime := ct })
  | .readStatus load tfi => some (s, .readFolder load { tfi with status := s.status })
  | .readFolder load tfi => some (s, .readTime load { tfi with folderMod := s.fi.folderMod })
  | .readTime load tfi =>
    some (s, if load = true ∧ tfi.modificationTime ≠ s.fi.modificationTime then .ifData tfi
      else .keepData tfi)
  | .ifData tfi => some (s, if s.fi.data.isSome then .munmap tfi else .load tfi)
  | .munmap tfi => some (s.unmap, .zeroData tfi)
  | .zeroData tfi => some (s.zeroData, .load tfi)
  | .load tfi =>
    let (_, tfi, maps) := loaddata tfi true sys s.maps
    some ({ s with maps }, .oldData tfi)
  | .oldData tfi => some (s, .oldSize tfi s.fi.data)
  | .oldSize tfi olddata => some (s, .waitReaders tfi olddata s.fi.msize)
  | .keepData tfi => some (s, .waitReaders { tfi with data := s.fi.data } none 0)
  | .waitReaders tfi olddata oldsize =>
    some (s, if s.readcount ≠ 0 then .waitReaders tfi olddata oldsize
      else .copy Field.all tfi olddata oldsize)
  | .copy left tfi olddata oldsize =>
    if f ∈ left then
      some (s.copy tfi f, if left.erase f = [] then .setTen olddata oldsize
        else .copy (left.erase f) tfi olddata oldsize)
    else none
  | .setTen olddata oldsize => some (s.setStatus 10, .unmapOld olddata oldsize)
  | .unmapOld olddata oldsize => some ({ s with maps := s.maps.unmap olddata oldsize }, .idle)
  | .readLock => some (s, .ifTen s.status)
  | .ifTen locallock => some (s, if s.status = 10 then .swapZero else .guardStat locallock)
  | .swapZero =>
    -- the spin repeats as long as the swap succeeds
    if s.status = 10 then some (s.setStatus 0, .swapZero) else some (s, .guardStat 0)
  | .guardStat locallock =>
    some (s, if s.fi.statRet ≠ 0 then .idle else .guardStatus locallock)
  | .guardStatus locallock =>
    some (s, if 1 < s.status then .idle else .guardDirectory locallock)
  | .guardDirectory locallock =>
    some (s, if s.fi.isDirectory = true then .idle else .swapTwo locallock)
  | .swapTwo locallock =>
    if s.status = locallock then some (s.setStatus 2, .ifLoaded false locallock)
    else some (s, .swapTwo locallock)
  | .ifLoaded last locallock =>
    some (s, if s.fi.data.isSome then .unload last locallock
      else if last then .setBack locallock else .clear last locallock)
  | .unload last locallock => some (s.unmap, .clear last locallock)
  | .clear last locallock =>
    some (s.zeroData, if last then .setBack locallock else .ifLoaded true locallock)
  | .setBack locallock => some (s.setStatus locallock, .idle)
  | .idle | .ifUncounted _ | .ifBusy _ | .count _ => none

/-- A thread. -/
structure Local where
  /-- The data of the entry when the thread was counted in, if it is counted. -/
  held : Option (Option ℕ)
  pc : Pc
  deriving DecidableEq

/-- A thread calls a function, or goes on with the call it is in. -/
inductive Act
  | lock
  | unlock
  | get (load : Bool) (ct : ℤ)
  | unloaddata
  | go (sys : Sys) (f : Field)

/-- One step of a thread. It locks an entry if it has not locked it, and unlocks it if it has. -/
def step (a : Act) (s : Shared) (l : Local) : Option (Shared × Local) :=
  match a with
  | .lock =>
    if l.pc = .idle ∧ l.held = none then some (s, { l with pc := .ifUncounted true }) else none
  | .unlock =>
    if l.pc = .idle ∧ l.held ≠ none then some (s, { l with pc := .ifUncounted false }) else none
  | .get load ct =>
    if l.pc = .idle then some (s, { l with pc := .checkTime load ct }) else none
  | .unloaddata => if l.pc = .idle then some (s, { l with pc := .readLock }) else none
  | .go sys f =>
    match l.pc with
    | .ifUncounted lock =>
      some (s, { l with pc := if s.readcount = 0 then .ifBusy lock else .count lock })
    | .ifBusy lock =>
      some (s, { l with pc := if s.status ≠ 10 then .ifUncounted lock else .count lock })
    | .count true => some ({ s with readcount := s.readcount + 1 }, ⟨some s.fi.data, .idle⟩)
    | .count false => some ({ s with readcount := s.readcount - 1 }, ⟨none, .idle⟩)
    | pc => (fileinfoStep sys f s pc).map fun r => (r.1, { l with pc := r.2 })

/-- The states of an entry and its threads. -/
abbrev State (ι : Type*) := Config ι Shared Local

/-- One step of the system : some thread's next step. -/
def next [DecidableEq ι] : State ι → ι × Act → Option (State ι) :=
  threadNext fun _ => step

/-- A new entry, and nobody at it. -/
def init : State ι :=
  ⟨⟨.zero, 0, ⟨[], 1, false⟩⟩, fun _ => ⟨none, .idle⟩⟩

/-! ## What is claimed of a lock -/

/-- The next step of a thread there stores to the data, the size or the count of the entry; the
counting of readers does not matter here. -/
def Pc.Overwrites : Pc → Prop
  | .zeroData _ | .clear _ _ => True
  | .copy left _ _ _ => .data ∈ left ∨ .size ∈ left ∨ .readcount ∈ left
  | _ => False

/-- The next step of a thread there unmaps the address `data`. -/
def Pc.Unmaps (s : Shared) (data : ℕ) : Pc → Prop
  | .munmap _ | .unload _ _ => s.fi.data = some data
  | .load tfi => tfi.data = some data
  | .unmapOld olddata _ => olddata = some data
  | _ => False

instance (s : Shared) (data : ℕ) (p : Pc) : Decidable (p.Unmaps s data) := by
  cases p <;> unfold Pc.Unmaps <;> infer_instance

/-- The lock returned, and `xs_fileinfo_unlock` is not called yet; the data were `data`. -/
def Local.Locked (l : Local) (data : Option ℕ) : Prop :=
  l.held = some data ∧ ∀ p ∈ [Pc.ifUncounted false, .ifBusy false, .count false], l.pc ≠ p

instance (l : Local) (data : Option ℕ) : Decidable (l.Locked data) :=
  inferInstanceAs (Decidable (_ ∧ _))

/-- 1 if the thread was counted in and not yet out. -/
def Local.counted (l : Local) : ℕ :=
  if l.held = none then 0 else 1

variable [Fintype ι]

/-- A locked entry keeps its data. -/
structure KeepsLocked (c : State ι) : Prop where
  /-- No other thread overwrites the entry, and none unmaps the data it had when it was locked. -/
  keeps : ∀ i j data, (c.pc i).Locked data → j ≠ i → ¬(c.pc j).pc.Overwrites ∧
    ∀ d, data = some d → ¬(c.pc j).pc.Unmaps c.shared d
  /-- The count is that of the threads that lock the entry. -/
  readcount : c.shared.readcount = tally Local.counted c.pc

/-! ## The condition -/

/-- A reader that counts itself in finds what it waited for; data are unmapped, by a refresh or by
unloading, while no reader is counted; and unloading finds the entry with no owner. -/
def Pc.Orderly (s : Shared) : Pc → Prop
  | .count true => s.readcount ≠ 0 ∨ s.status = 10
  | .ifData _ => s.fi.data ≠ none → s.readcount = 0
  | .swapTwo locallock => s.status = locallock →
      s.readcount = 0 ∧ (locallock = 0 ∨ locallock = 10)
  | _ => True

/-- The step is an orderly one. -/
def Orderly (c : State ι) (ia : ι × Act) : Prop :=
  (c.pc ia.1).pc.Orderly c.shared

instance (c : State ι) (ia : ι × Act) : Decidable (Orderly c ia) := by
  unfold Orderly Pc.Orderly
  split <;> infer_instance

/-! ## Owners of the status word -/

/-- What the owner of the status word put there. -/
def Pc.mark : Pc → Option ℕ
  | .checkAgain .. | .ifThree .. | .reset .. | .restore .. => some 3
  | .stat .. | .readStatus .. | .readFolder .. | .readTime .. | .ifData .. | .munmap ..
  | .zeroData .. | .load .. | .oldData .. | .oldSize .. | .keepData .. | .waitReaders ..
  | .copy .. | .setTen .. => some 1
  | .ifLoaded .. | .unload .. | .clear .. | .setBack .. => some 2
  | _ => none

/-- What a thread knows of its variables, and of the entry. -/
def Pc.Knows (s : Shared) : Pc → Prop
  | .readStatus _ tfi => tfi.data = none
  | .readFolder _ tfi | .readTime _ tfi | .ifData tfi | .keepData tfi =>
    tfi.status = 1 ∧ tfi.data = none
  | .munmap tfi | .zeroData tfi => tfi.status = 1 ∧ tfi.data = none ∧ s.readcount = 0
  | .load tfi => tfi.status = 1 ∧ tfi.data = none ∧ s.fi.data = none
  | .oldData tfi => tfi.status = 1 ∧ s.fi.data = none
  | .oldSize tfi olddata | .waitReaders tfi olddata _ => tfi.status = 1 ∧ olddata = none
  | .copy _ tfi olddata _ => tfi.status = 1 ∧ olddata = none ∧ s.readcount = 0
  | .setTen olddata _ => olddata = none ∧ s.readcount = 0
  | .unmapOld olddata _ => olddata = none
  | .ifLoaded _ locallock | .unload _ locallock | .clear _ locallock | .setBack locallock =>
    s.readcount = 0 ∧ (locallock = 0 ∨ locallock = 10)
  | _ => True

/-- The assertion at a place. -/
def Pc.Holds (s : Shared) (p : Pc) : Prop :=
  (∀ v, p.mark = some v → s.status = v) ∧ p.Knows s

/-- Nobody owns the status word. -/
def Shared.Free (s : Shared) : Prop :=
  s.status = 0 ∨ s.status = 10

variable {sys : Sys} {f : Field} {s s' : Shared} {p p' : Pc} {l l' : Local}

/-- An owner keeps others from being owners. -/
theorem Pc.Holds.not_free (h : p.Holds s) (hp : p.mark ≠ none) : ¬s.Free := by
  obtain ⟨v, hv⟩ := Option.ne_none_iff_exists'.mp hp
  have hs := h.1 v hv
  unfold Shared.Free
  rw [hs]
  cases p <;> cases hv <;> decide

/-- A thread that does not own the status word knows nothing of the entry. -/
theorem Pc.Holds.of_not_owner (h : p.Holds s) (hp : p.mark = none) : p.Holds s' := by
  refine ⟨fun v hv => absurd (hp.symm.trans hv) nofun, ?_⟩
  cases p with
  | unmapOld => exact h.2
  | _ => first | exact trivial | cases hp

/-- Counting in a reader that finds what it waited for, or counting out one of some readers, keeps
what others know. -/
theorem Pc.Holds.of_counted (h : p.Holds s) (hs : s.readcount ≠ 0 ∨ s.status = 10)
    (hfi : s'.fi = s.fi) : p.Holds s' := by
  by_cases hp : p.mark = none
  · exact h.of_not_owner hp
  have hcount : s.readcount ≠ 0 := hs.resolve_right fun h10 => h.not_free hp (.inr h10)
  obtain ⟨hmark, hknows⟩ := h
  unfold Pc.Holds Shared.status at *
  rw [hfi]
  refine ⟨hmark, ?_⟩
  cases p <;> simp_all [Pc.Knows]

/-- Loading the refreshed record keeps its status. -/
theorem status_loaddata (tfi : Fileinfo) (maps : Maps) :
    (loaddata tfi true sys maps).2.1.status = tfi.status := by
  unfold loaddata
  simp only [Bool.true_eq_false, and_false, if_false]
  split_ifs <;> rfl

theorem data_xsStat : (xsStat sys).data = none := by
  unfold xsStat
  split <;> rfl

theorem copy_of_knows (tfi : Fileinfo) (htfi : tfi.status = 1) (hs : s.status = 1)
    (hcount : s.readcount = 0) :
    (s.copy tfi f).status = 1 ∧ (s.copy tfi f).readcount = 0 := by
  cases f <;> simp_all [Shared.copy, Shared.status]

/-- A step of an owner. -/
theorem fileinfoStep_owner (h : fileinfoStep sys f s p = some (s', p')) (hp : p.Holds s)
    (hok : p.Orderly s) (howner : p.mark ≠ none) :
    p'.Holds s' ∧ s'.readcount = s.readcount ∧ (p'.mark = none → s'.Free) := by
  obtain ⟨hmark, hknows⟩ := hp
  cases p with
  | idle | ifUncounted | ifBusy | count | checkTime | checkStatus | swapThree | swapOne | wait
  | unmapOld | readLock | ifTen | swapZero | guardStat | guardStatus | guardDirectory | swapTwo =>
    exact absurd rfl howner
  | copy left tfi olddata oldsize =>
    obtain ⟨htfi, hold, hcount⟩ := hknows
    obtain ⟨hstatus, hcount'⟩ := copy_of_knows (f := f) tfi htfi (hmark 1 rfl) hcount
    have hmark' : ∀ v, some 1 = some v → (s.copy tfi f).status = v :=
      fun v hv => hstatus.trans (Option.some.inj hv)
    simp only [fileinfoStep] at h
    split_ifs at h with hmem hleft
    · -- the last field
      obtain ⟨rfl, rfl⟩ := Prod.mk.inj (Option.some.inj h)
      exact ⟨⟨hmark', hold, hcount'⟩, hcount'.trans hcount.symm, nofun⟩
    · obtain ⟨rfl, rfl⟩ := Prod.mk.inj (Option.some.inj h)
      exact ⟨⟨hmark', htfi, hold, hcount'⟩, hcount'.trans hcount.symm, nofun⟩
  | load tfi =>
    obtain ⟨rfl, rfl⟩ := Prod.mk.inj (Option.some.inj h)
    obtain ⟨htfi, -, hdata⟩ := hknows
    exact ⟨⟨hmark, (status_loaddata ..).trans htfi, hdata⟩, rfl, nofun⟩
  | ifData tfi =>
    obtain ⟨rfl, rfl⟩ := Prod.mk.inj (Option.some.inj h)
    obtain ⟨htfi, hdata⟩ := hknows
    split_ifs with hold
    · exact ⟨⟨hmark, htfi, hdata, hok (Option.isSome_iff_ne_none.mp hold)⟩, rfl, nofun⟩
    · exact ⟨⟨hmark, htfi, hdata, not_not.mp fun h => hold (Option.isSome_iff_ne_none.mpr h)⟩, rfl,
        nofun⟩
  | munmap | unload =>
    obtain ⟨rfl, rfl⟩ := Prod.mk.inj (Option.some.inj h)
    exact ⟨⟨hmark, hknows⟩, rfl, nofun⟩
  | reset | restore | setTen | setBack =>
    -- the status word is given back
    obtain ⟨rfl, rfl⟩ := Prod.mk.inj (Option.some.inj h)
    simp_all [Pc.Holds, Pc.Knows, Pc.mark, Shared.Free, Shared.setStatus]
  | checkAgain | ifThree | readTime | waitReaders | ifLoaded | clear =>
    obtain ⟨rfl, rfl⟩ := Prod.mk.inj (Option.some.inj h)
    split_ifs <;>
      simp_all [Pc.Holds, Pc.Knows, Pc.mark, Shared.zeroData]
  | _ =>
    obtain ⟨rfl, rfl⟩ := Prod.mk.inj (Option.some.inj h)
    simp_all [Pc.Holds, Pc.Knows, Pc.mark, Shared.zeroData, data_xsStat]

/-- A step of a thread that is not an owner : it leaves the entry as it is, or finds it free. -/
theorem fileinfoStep_other (h : fileinfoStep sys f s p = some (s', p')) (hp : p.Holds s)
    (hok : p.Orderly s) (howner : p.mark = none) :
    p'.Holds s' ∧ s'.readcount = s.readcount ∧
      (s' = s ∧ p'.mark = none ∨ s.Free ∧ (p'.mark = none → s'.Free)) := by
  obtain ⟨hmark, hknows⟩ := hp
  cases p with
  | idle | ifUncounted | ifBusy | count => cases h
  | swapThree | swapOne | swapZero | swapTwo =>
    simp only [fileinfoStep] at h
    split_ifs at h <;> obtain ⟨rfl, rfl⟩ := Prod.mk.inj (Option.some.inj h) <;>
      simp_all [Pc.Holds, Pc.Knows, Pc.mark, Pc.Orderly, Shared.Free, Shared.setStatus]
  | unmapOld =>
    -- there are no old data
    obtain rfl : _ = none := hknows
    obtain ⟨rfl, rfl⟩ := Prod.mk.inj (Option.some.inj h)
    exact ⟨⟨nofun, trivial⟩, rfl, .inl ⟨rfl, rfl⟩⟩
  | readLock =>
    obtain ⟨rfl, rfl⟩ := Prod.mk.inj (Option.some.inj h)
    exact ⟨⟨nofun, trivial⟩, rfl, .inl ⟨rfl, rfl⟩⟩
  | checkTime | checkStatus | wait | ifTen | guardStat | guardStatus | guardDirectory =>
    obtain ⟨rfl, rfl⟩ := Prod.mk.inj (Option.some.inj h)
    split_ifs <;> exact ⟨⟨nofun, trivial⟩, rfl, .inl ⟨rfl, rfl⟩⟩
  | _ => cases howner

/-! ## Runs -/

/-- A thread that locks is not counted, one that unlocks is. -/
def Local.Fits (l : Local) : Prop :=
  match l.pc with
  | .ifUncounted lock | .ifBusy lock | .count lock => lock = true ↔ l.held = none
  | _ => True

theorem fits_fileinfoStep (h : fileinfoStep sys f s p = some (s', p'))
    (held : Option (Option ℕ)) : Local.Fits ⟨held, p'⟩ := by
  cases p with
  | idle | ifUncounted | ifBusy | count => cases h
  | swapThree | swapOne | swapZero | swapTwo =>
    simp only [fileinfoStep] at h
    split_ifs at h <;> obtain ⟨rfl, rfl⟩ := Prod.mk.inj (Option.some.inj h) <;> trivial
  | copy left =>
    simp only [fileinfoStep] at h
    split_ifs at h <;> obtain ⟨rfl, rfl⟩ := Prod.mk.inj (Option.some.inj h) <;> trivial
  | _ =>
    obtain ⟨rfl, rfl⟩ := Prod.mk.inj (Option.some.inj h)
    try split_ifs
    all_goals trivial

/-- What a step can be. -/
theorem step_cases {a : Act} (h : step a s l = some (s', l')) (hfits : l.Fits) :
    (s' = s ∧ l'.held = l.held ∧ l.pc.mark = none ∧ l'.pc.mark = none ∧ l'.Fits ∧
      ∀ s, l'.pc.Holds s) ∨
    (l.pc = .count true ∧ l.held = none ∧ s' = { s with readcount := s.readcount + 1 } ∧
      l' = ⟨some s.fi.data, .idle⟩) ∨
    (l.pc = .count false ∧ l.held ≠ none ∧ s' = { s with readcount := s.readcount - 1 } ∧
      l' = ⟨none, .idle⟩) ∨
    ∃ sys f p', fileinfoStep sys f s l.pc = some (s', p') ∧ l' = { l with pc := p' } := by
  obtain ⟨held, pc⟩ := l
  have hquiet : ∀ lock, (∀ s, (Pc.ifUncounted lock).Holds s) ∧ (∀ s, (Pc.ifBusy lock).Holds s) ∧
      ∀ s, (Pc.count lock).Holds s :=
    fun _ => ⟨fun _ => ⟨nofun, trivial⟩, fun _ => ⟨nofun, trivial⟩, fun _ => ⟨nofun, trivial⟩⟩
  cases a with
  | lock =>
    simp only [step] at h
    split_ifs at h with hidle
    obtain ⟨rfl, rfl⟩ := Prod.mk.inj (Option.some.inj h)
    obtain ⟨rfl, rfl⟩ := hidle
    exact .inl ⟨rfl, rfl, rfl, rfl, iff_of_true rfl rfl, (hquiet true).1⟩
  | unlock =>
    simp only [step] at h
    split_ifs at h with hidle
    obtain ⟨rfl, rfl⟩ := Prod.mk.inj (Option.some.inj h)
    obtain ⟨rfl, hheld⟩ := hidle
    exact .inl ⟨rfl, rfl, rfl, rfl, iff_of_false nofun hheld, (hquiet false).1⟩
  | get load ct =>
    simp only [step] at h
    split_ifs at h with hidle
    obtain ⟨rfl, rfl⟩ := Prod.mk.inj (Option.some.inj h)
    obtain rfl := hidle
    exact .inl ⟨rfl, rfl, rfl, rfl, trivial, fun _ => ⟨nofun, trivial⟩⟩
  | unloaddata =>
    simp only [step] at h
    split_ifs at h with hidle
    obtain ⟨rfl, rfl⟩ := Prod.mk.inj (Option.some.inj h)
    obtain rfl := hidle
    exact .inl ⟨rfl, rfl, rfl, rfl, trivial, fun _ => ⟨nofun, trivial⟩⟩
  | go sys f =>
    cases pc with
    | ifUncounted lock =>
      obtain ⟨rfl, rfl⟩ := Prod.mk.inj (Option.some.inj h)
      dsimp only
      split_ifs
      · exact .inl ⟨rfl, rfl, rfl, rfl, hfits, (hquiet lock).2.1⟩
      · exact .inl ⟨rfl, rfl, rfl, rfl, hfits, (hquiet lock).2.2⟩
    | ifBusy lock =>
      obtain ⟨rfl, rfl⟩ := Prod.mk.inj (Option.some.inj h)
      dsimp only
      split_ifs
      · exact .inl ⟨rfl, rfl, rfl, rfl, hfits, (hquiet lock).1⟩
      · exact .inl ⟨rfl, rfl, rfl, rfl, hfits, (hquiet lock).2.2⟩
    | count lock =>
      cases lock with
      | true =>
        obtain ⟨rfl, rfl⟩ := Prod.mk.inj (Option.some.inj h)
        exact .inr (.inl ⟨rfl, hfits.mp rfl, rfl, rfl⟩)
      | false =>
        obtain ⟨rfl, rfl⟩ := Prod.mk.inj (Option.some.inj h)
        have hheld : held ≠ none := fun hheld => nomatch hfits.mpr hheld
        exact .inr (.inr (.inl ⟨rfl, hheld, rfl, rfl⟩))
    | _ =>
      simp only [step, Option.map_eq_some_iff] at h
      obtain ⟨⟨s₁, p'⟩, hstep, hr⟩ := h
      obtain ⟨rfl, rfl⟩ := Prod.mk.inj hr
      exact .inr (.inr (.inr ⟨sys, f, p', hstep, rfl⟩))

/-- What the steps keep. -/
structure Inv (c : State ι) : Prop where
  fits : ∀ i, (c.pc i).Fits
  holds : ∀ i, (c.pc i).pc.Holds c.shared
  one : ∀ i j, (c.pc i).pc.mark ≠ none → (c.pc j).pc.mark ≠ none → i = j
  free : (∀ i, (c.pc i).pc.mark = none) → c.shared.Free
  readcount : c.shared.readcount = tally Local.counted c.pc

variable {c : State ι}

/-- While a reader is counted, nobody is at a place from which the entry is overwritten or its data
are unmapped. -/
theorem Pc.Holds.not_overwrites (h : p.Holds s) (hcount : s.readcount ≠ 0) :
    ¬p.Overwrites ∧ ∀ d, ¬p.Unmaps s d := by
  obtain ⟨-, hknows⟩ := h
  cases p <;> simp_all [Pc.Knows, Pc.Overwrites, Pc.Unmaps]

theorem Inv.readcount_ne_zero (h : Inv c) {i : ι} (hi : (c.pc i).held ≠ none) :
    c.shared.readcount ≠ 0 := by
  have hle := le_tally Local.counted c.pc i
  have hone : (c.pc i).counted = 1 := if_neg hi
  have := h.readcount
  omega

theorem Inv.keepsLocked (h : Inv c) : KeepsLocked c := by
  refine ⟨fun i j data hi _ => ?_, h.readcount⟩
  have hheld : (c.pc i).held ≠ none := by
    rw [hi.1]
    exact Option.some_ne_none data
  obtain ⟨hover, hunmaps⟩ := (h.holds j).not_overwrites (h.readcount_ne_zero hheld)
  exact ⟨hover, fun d _ => hunmaps d⟩

theorem inv_init : Inv (init : State ι) where
  fits _ := trivial
  holds _ := ⟨nofun, trivial⟩
  one _ _ h := absurd rfl h
  free _ := .inl rfl
  readcount := by simp [init, tally, Local.counted]

variable [DecidableEq ι]

/-- A thread moves, and what it does to the entry leaves the others their assertions. -/
theorem Inv.update (h : Inv c) {i : ι} (hfits : l'.Fits) (hholds : l'.pc.Holds s')
    (hothers : ∀ j, j ≠ i → (c.pc j).pc.Holds s')
    (hone : l'.pc.mark ≠ none → ∀ j, j ≠ i → (c.pc j).pc.mark = none)
    (hfree : (∀ j, j ≠ i → (c.pc j).pc.mark = none) → l'.pc.mark = none → s'.Free)
    (hcount : s'.readcount + (c.pc i).counted = c.shared.readcount + l'.counted) :
    Inv ⟨s', Function.update c.pc i l'⟩ := by
  refine ⟨(Function.forall_update_iff _ fun _ l => Local.Fits l).mpr ⟨hfits, fun j _ => h.fits j⟩,
    (Function.forall_update_iff _ fun _ l => Pc.Holds s' (Local.pc l)).mpr ⟨hholds, hothers⟩,
    fun j k => ?_, fun hnone => ?_, ?_⟩
  · dsimp only
    by_cases hji : j = i <;> by_cases hki : k = i
    · exact fun _ _ => hji.trans hki.symm
    · subst hji
      rw [Function.update_self, Function.update_of_ne hki]
      exact fun hj hk => absurd (hone hj k hki) hk
    · subst hki
      rw [Function.update_self, Function.update_of_ne hji]
      exact fun hj hk => absurd (hone hk j hji) hj
    · rw [Function.update_of_ne hji, Function.update_of_ne hki]
      exact h.one j k
  · obtain ⟨hi, hothers⟩ :=
      (Function.forall_update_iff _ fun _ (l : Local) => l.pc.mark = none).mp hnone
    exact hfree hothers hi
  · have := h.readcount
    have := tally_update Local.counted c.pc i l'
    dsimp only
    omega

/-- One orderly step. -/
theorem Inv.next {c' : State ι} {ia : ι × Act} (h : Inv c) (hok : Orderly c ia)
    (hnext : next c ia = some c') : Inv c' := by
  obtain ⟨i, a⟩ := ia
  obtain ⟨s', l', hstep, rfl⟩ := threadNext_eq_some hnext
  have hcounted : ∀ {l₁ l₂ : Local}, l₁.held = l₂.held → l₁.counted = l₂.counted := by
    intro l₁ l₂ hheld
    unfold Local.counted
    rw [hheld]
  obtain ⟨rfl, hheld, hmark, hmark', hfits, hholds⟩ | ⟨hpc, hheld, rfl, rfl⟩ |
    ⟨hpc, hheld, rfl, rfl⟩ | ⟨sys, f, p', hfi, rfl⟩ := step_cases hstep (h.fits i)
  · -- the thread looks
    refine h.update hfits (hholds _) (fun j _ => h.holds j) (fun hne => absurd hmark' hne)
      (fun hothers _ => h.free fun j => ?_) (by rw [hcounted hheld])
    by_cases hji : j = i
    · rwa [hji]
    · exact hothers j hji
  · -- the thread is counted in
    have horder : c.shared.readcount ≠ 0 ∨ c.shared.status = 10 := by
      have := hok
      rwa [Orderly, hpc] at this
    refine h.update trivial ⟨nofun, trivial⟩ (fun j _ => (h.holds j).of_counted horder rfl)
      (fun hne => absurd rfl hne) (fun hothers _ => ?_) ?_
    · refine h.free fun j => ?_
      by_cases hji : j = i
      · rw [hji, hpc]
        rfl
      · exact hothers j hji
    · simp [Local.counted, hheld]
  · -- the thread is counted out
    have hcount := h.readcount_ne_zero hheld
    refine h.update trivial ⟨nofun, trivial⟩ (fun j _ => (h.holds j).of_counted (.inl hcount) rfl)
      (fun hne => absurd rfl hne) (fun hothers _ => ?_) ?_
    · refine h.free fun j => ?_
      by_cases hji : j = i
      · rw [hji, hpc]
        rfl
      · exact hothers j hji
    · simp [Local.counted, hheld]
  · -- the thread goes on in `xs_fileinfo_get` or `xs_fileinfo_unloaddata`
    have hfits := fits_fileinfoStep hfi (c.pc i).held
    by_cases hmark : (c.pc i).pc.mark = none
    · obtain ⟨hholds, hcount, hor⟩ := fileinfoStep_other hfi (h.holds i) hok hmark
      obtain ⟨rfl, hmark'⟩ | ⟨hfree, hfree'⟩ := hor
      · refine h.update hfits hholds (fun j _ => h.holds j) (fun hne => absurd hmark' hne)
          (fun hothers _ => h.free fun j => ?_) rfl
        by_cases hji : j = i
        · rwa [hji]
        · exact hothers j hji
      · -- the entry is free, so nobody else is an owner
        have hnone : ∀ j, (c.pc j).pc.mark = none :=
          fun j => by_contra fun hj => (h.holds j).not_free hj hfree
        exact h.update hfits hholds (fun j _ => (h.holds j).of_not_owner (hnone j))
          (fun _ j _ => hnone j) (fun _ => hfree') (by rw [hcount]; rfl)
    · obtain ⟨hholds, hcount, hfree⟩ := fileinfoStep_owner hfi (h.holds i) hok hmark
      have hnone : ∀ j, j ≠ i → (c.pc j).pc.mark = none :=
        fun j hji => by_contra fun hj => hji (h.one j i hj hmark)
      exact h.update hfits hholds (fun j hji => (h.holds j).of_not_owner (hnone j hji))
        (fun _ => hnone) (fun _ => hfree) (by rw [hcount]; rfl)

theorem inv_of_orderly (h : Runs next Orderly init c) : Inv c :=
  h.invariant (I := Inv) inv_init fun _ _ _ hc hok hnext => hc.next hok hnext

/-! ## What the places stand for -/

omit [DecidableEq ι] [Fintype ι] in
/-- A step from a place that does not overwrite the entry keeps its data, size and count. -/
theorem fileinfoStep_kept (h : fileinfoStep sys f s p = some (s', p')) (hp : ¬p.Overwrites) :
    s'.fi.data = s.fi.data ∧ s'.fi.size = s.fi.size ∧ s'.readcount = s.readcount := by
  cases p with
  | idle | ifUncounted | ifBusy | count => cases h
  | swapThree | swapOne | swapZero | swapTwo =>
    simp only [fileinfoStep] at h
    split_ifs at h <;> obtain ⟨rfl, rfl⟩ := Prod.mk.inj (Option.some.inj h) <;>
      exact ⟨rfl, rfl, rfl⟩
  | copy left =>
    simp only [fileinfoStep] at h
    split_ifs at h with hmem <;> obtain ⟨rfl, rfl⟩ := Prod.mk.inj (Option.some.inj h) <;>
      cases f <;> simp_all [Pc.Overwrites, Shared.copy]
  | zeroData | clear => exact absurd trivial hp
  | _ =>
    obtain ⟨rfl, rfl⟩ := Prod.mk.inj (Option.some.inj h)
    exact ⟨rfl, rfl, rfl⟩

/-- Unmapping other data keeps a mapping. -/
theorem mem_unmap {m : Maps} {data : Option ℕ} {d n msize : ℕ} (hd : data ≠ some d)
    (h : (d, n) ∈ m.live) : (d, n) ∈ (m.unmap data msize).live := by
  cases data with
  | none => exact h
  | some data =>
    have hne : (d, n) ≠ (data, msize) := fun heq => hd (congrArg some (Prod.mk.inj heq).1.symm)
    unfold Maps.unmap Maps.munmap
    dsimp only
    split_ifs
    · exact (List.mem_erase_of_ne hne).mpr h
    · exact h

theorem mem_mmap {m : Maps} {x : ℕ × ℕ} (size : ℕ) (h : x ∈ m.live) :
    x ∈ (m.mmap sys size).2.live := by
  unfold Maps.mmap
  split_ifs
  · exact List.mem_cons_of_mem _ h
  · exact h

theorem mem_loaddata {m : Maps} {tfi : Fileinfo} {d n : ℕ} (hd : tfi.data ≠ some d)
    (h : (d, n) ∈ m.live) : (d, n) ∈ (loaddata tfi true sys m).2.2.live := by
  have hunmap : (d, n) ∈ (m.unmap tfi.data tfi.msize).live := mem_unmap hd h
  unfold loaddata
  simp only [Bool.true_eq_false, and_false, if_false]
  by_cases hout : tfi.statRet ≠ 0 ∨ 1 < tfi.status ∨ tfi.isDirectory = true
  · rw [if_pos hout]
    exact h
  · rw [if_neg hout]
    by_cases hopen : True ∧ sys.f ≠ 0
    · rw [if_pos hopen]
      exact mem_mmap tfi.size hunmap
    · rw [if_neg hopen]
      exact hunmap

/-- A step from a place that does not unmap `d` keeps the mapping at `d`. -/
theorem fileinfoStep_live (h : fileinfoStep sys f s p = some (s', p')) {d n : ℕ}
    (hp : ¬p.Unmaps s d) (hlive : (d, n) ∈ s.maps.live) : (d, n) ∈ s'.maps.live := by
  cases p with
  | idle | ifUncounted | ifBusy | count => cases h
  | swapThree | swapOne | swapZero | swapTwo =>
    simp only [fileinfoStep] at h
    split_ifs at h <;> obtain ⟨rfl, rfl⟩ := Prod.mk.inj (Option.some.inj h) <;> exact hlive
  | copy left =>
    simp only [fileinfoStep] at h
    split_ifs at h <;> obtain ⟨rfl, rfl⟩ := Prod.mk.inj (Option.some.inj h) <;>
      cases f <;> exact hlive
  | munmap | unload | unmapOld =>
    obtain ⟨rfl, rfl⟩ := Prod.mk.inj (Option.some.inj h)
    exact mem_unmap hp hlive
  | load =>
    obtain ⟨rfl, rfl⟩ := Prod.mk.inj (Option.some.inj h)
    exact mem_loaddata hp hlive
  | _ =>
    obtain ⟨rfl, rfl⟩ := Prod.mk.inj (Option.some.inj h)
    exact hlive

/-- While an entry is locked, a step of another thread keeps its data, its size and its mapping. -/
theorem locked_step {c' : State ι} {i j : ι} {a : Act} {data : Option ℕ}
    (h : Runs next Orderly init c) (hi : (c.pc i).Locked data) (hji : j ≠ i)
    (hnext : next c (j, a) = some c') :
    c'.shared.fi.data = c.shared.fi.data ∧ c'.shared.fi.size = c.shared.fi.size ∧
      ∀ d n, data = some d → (d, n) ∈ c.shared.maps.live → (d, n) ∈ c'.shared.maps.live := by
  have hinv := inv_of_orderly h
  obtain ⟨hover, hunmaps⟩ := hinv.keepsLocked.keeps i j data hi hji
  obtain ⟨s', l', hstep, rfl⟩ := threadNext_eq_some hnext
  obtain ⟨rfl, -⟩ | ⟨-, -, rfl, -⟩ | ⟨-, -, rfl, -⟩ | ⟨sys, f, p', hfi, -⟩ :=
    step_cases hstep (hinv.fits j)
  · exact ⟨rfl, rfl, fun _ _ _ => id⟩
  · exact ⟨rfl, rfl, fun _ _ _ => id⟩
  · exact ⟨rfl, rfl, fun _ _ _ => id⟩
  · obtain ⟨hdata, hsize, -⟩ := fileinfoStep_kept hfi hover
    exact ⟨hdata, hsize, fun d n hd => fileinfoStep_live hfi (hunmaps d hd)⟩

/-! ## Locked entries -/

/-- An entry keeps its data while it is locked, in every run of orderly steps. -/
theorem keepsLocked_of_orderly (c : State ι) (h : Runs next Orderly init c) : KeepsLocked c :=
  (inv_of_orderly h).keepsLocked

/-- Thread `i` goes on while the file has 5 bytes, written at `time`. -/
def on (i : Fin 2) (time : ℤ) (f : Field) : Fin 2 × Act :=
  (i, .go ⟨some (5, time, false), 3, true⟩ f)

/-- Thread 0 loads the file. -/
def loading : List (Fin 2 × Act) :=
  (0, .get true 100) :: List.replicate 12 (on 0 7 .status) ++ Field.all.map (on 0 7) ++
    List.replicate 2 (on 0 7 .status)

/-- Thread 1 locks the loaded entry. -/
theorem keepsLocked_of_orderly_loaded :
    ∃ c : State (Fin 2), (c.pc 1).Locked (some 1) ∧ KeepsLocked c := by
  obtain ⟨c, hc, hlocked⟩ : ∃ c : State (Fin 2), Runs next Orderly init c ∧
      (c.pc 1).Locked (some 1) :=
    exists_runs_of_runSchedule (loading ++ (1, .lock) :: List.replicate 3 (on 1 7 .status))
      (by decide +kernel)
  exact ⟨c, hlocked, keepsLocked_of_orderly c hc⟩

/-- Thread 1 locks the loaded entry, the file changes, and thread 0 refreshes the entry and is about
to unmap the data. Or the file stays, and thread 0 finds the count 0 before thread 1 counts itself
in, and then copies the 0 over the count. -/
theorem not_keepsLocked :
    (∃ c : State (Fin 2), Reachable next init c ∧ (c.pc 1).Locked (some 1) ∧
      (c.pc 0).pc.Unmaps c.shared 1 ∧ ¬KeepsLocked c) ∧
    ∃ c : State (Fin 2), Reachable next init c ∧ (c.pc 1).Locked (some 1) ∧
      c.shared.readcount = 0 ∧ ¬KeepsLocked c := by
  constructor
  · obtain ⟨c, hc, hlocked, hunmaps⟩ : ∃ c : State (Fin 2), Reachable next init c ∧
        (c.pc 1).Locked (some 1) ∧ (c.pc 0).pc.Unmaps c.shared 1 :=
      exists_runs_of_runSchedule (loading ++ (1, .lock) :: List.replicate 3 (on 1 7 .status) ++
        (0, .get true 103) :: List.replicate 12 (on 0 8 .status)) (by decide +kernel)
    exact ⟨c, hc, hlocked, hunmaps, fun h => (h.keeps 1 0 _ hlocked (by decide)).2 1 rfl hunmaps⟩
  · obtain ⟨c, hc, hlocked, hzero⟩ : ∃ c : State (Fin 2), Reachable next init c ∧
        (c.pc 1).Locked (some 1) ∧ c.shared.readcount = 0 :=
      exists_runs_of_runSchedule (loading ++ (1, .lock) :: List.replicate 2 (on 1 7 .status) ++
        (0, .get true 103) :: List.replicate 13 (on 0 7 .status) ++
        [on 1 7 .status, on 0 7 .readcount]) (by decide +kernel)
    refine ⟨c, hc, hlocked, hzero, fun h => ?_⟩
    have hle := le_tally Local.counted c.pc 1
    have hone : (c.pc 1).counted = 1 := if_neg (by simp [hlocked.1])
    have := h.readcount
    omega

end EntryLock

end Webxs
