import Mathlib.Data.List.Lex
import Mathlib.Data.Prod.Lex
import Webxs.Heads
import Webxs.Percent
import Webxs.QsortOrder

/-!
# Directory listings

`xs_http_dirresponse` (`xs_server.h`) sorts the entries of a directory by name, date or size, in one
of six ways that the query of the request chooses. Each `xs_dircompare` puts directories first.

A comparison `Follows` a key if it is negative exactly where the key is less, and positive where it
is greater; what it is on ties is left open. Comparing by one key after the other follows the pair
of keys, so each of the six follows a key of its own. `Qsort.sorts_iff` says when arrays, and
listings, are sorted.
-/

namespace Webxs

/-! ## Comparisons by a key -/

/-- A comparison that is by the key `f`. -/
structure Follows {α β : Type} [LinearOrder β] (proc : α → α → ℤ) (f : α → β) : Prop where
  neg : ∀ x y, proc x y < 0 ↔ f x < f y
  pos : ∀ x y, f y < f x → 0 < proc x y

section

variable {α β γ : Type} [LinearOrder β] [LinearOrder γ] {proc c : α → α → ℤ} {f : α → β} {g : α → γ}

theorem Follows.isComparison (h : Follows proc f) : IsComparison proc where
  order :=
    { irrefl := fun x hx => lt_irrefl _ ((h.neg x x).mp hx)
      trans := fun x y z hxy hyz =>
        (h.neg x z).mpr (((h.neg x y).mp hxy).trans ((h.neg y z).mp hyz))
      incomp_trans := fun x y z => by
        simp only [h.neg, not_lt]
        exact fun hxy hyz => ⟨hyz.1.trans hxy.1, hxy.2.trans hyz.2⟩ }
  pos := fun x y hyx => h.pos x y ((h.neg y x).mp hyx)

/-- A second comparison for the ties of a first. -/
theorem Follows.orElse (hc : Follows c f) (hties : ∀ x y, f x = f y → c x y = 0)
    (h : Follows proc g) :
    Follows (fun x y => if c x y ≠ 0 then c x y else proc x y) (fun x => toLex (f x, g x)) where
  neg x y := by
    rw [Prod.Lex.toLex_lt_toLex]
    rcases lt_trichotomy (f x) (f y) with hlt | heq | hgt
    · have hneg := (hc.neg x y).mpr hlt
      rw [if_pos hneg.ne]
      simp [hneg, hlt]
    · rw [if_neg (not_not.mpr (hties x y heq))]
      simp [heq, h.neg]
    · have hpos := hc.pos x y hgt
      rw [if_pos hpos.ne']
      simp [hpos.not_gt, hgt.not_gt, hgt.ne']
  pos x y hyx := by
    rcases Prod.Lex.toLex_lt_toLex.mp hyx with hlt | ⟨heq, hlt⟩
    · have hpos := hc.pos x y hlt
      rwa [if_pos hpos.ne']
    · rw [if_neg (not_not.mpr (hties x y heq.symm))]
      exact h.pos x y hlt

/-- A comparison the other way round. -/
theorem Follows.swap (h : Follows proc f) :
    Follows (fun x y => proc y x) (fun x => OrderDual.toDual (f x)) where
  neg x y := h.neg y x
  pos x y := h.pos y x

end

/-! ## Names -/

/-- The loop of `xs_strncmp_case` under `xs_strcmp_case`, on what is before the NULs. -/
def strcmpCaseLoop : ℕ → List UInt8 → List UInt8 → ℤ
  | 0, _, _ => 0
  | n + 1, s, t =>
    let v := charValue (lower (s.headD 0)) - charValue (lower (t.headD 0))
    if v ≠ 0 ∨ s.headD 0 = 0 ∨ t.headD 0 = 0 then v else strcmpCaseLoop n s.tail t.tail

/-- What `xs_strncmp_case` compares : the values of the first `n` characters in lower case, with the
NUL. -/
def caseKey (n : ℕ) (s : List UInt8) : List ℤ :=
  ((s ++ [0]).take n).map fun a => charValue (lower a)

theorem charValue_lower_zero : charValue (lower 0) = 0 :=
  rfl

theorem charValue_lower_ne_zero {a : UInt8} : a ≠ 0 → charValue (lower a) ≠ 0 := by
  have h : ∀ a : UInt8, a ≠ 0 → charValue (lower a) ≠ 0 := forall_byte (by decide +kernel)
  exact h a

theorem caseKey_nil (n : ℕ) : caseKey (n + 1) [] = [0] := by
  simp [caseKey, charValue_lower_zero]

theorem caseKey_cons (n : ℕ) (a : UInt8) (s : List UInt8) :
    caseKey (n + 1) (a :: s) = charValue (lower a) :: caseKey n s := by
  simp [caseKey]

theorem strcmpCaseLoop_swap (n : ℕ) (s t : List UInt8) :
    strcmpCaseLoop n t s = -strcmpCaseLoop n s t := by
  induction n generalizing s t with
  | zero => rfl
  | succ n ih =>
    unfold strcmpCaseLoop
    dsimp only
    rw [ih]
    split_ifs <;> grind

theorem strcmpCaseLoop_cons (n : ℕ) {a b : UInt8} (ha : a ≠ 0) (hb : b ≠ 0) (s t : List UInt8) :
    strcmpCaseLoop (n + 1) (a :: s) (b :: t) =
      if charValue (lower a) = charValue (lower b) then strcmpCaseLoop n s t
      else charValue (lower a) - charValue (lower b) := by
  by_cases hv : charValue (lower a) = charValue (lower b) <;>
    simp [strcmpCaseLoop, hv, ha, hb, sub_eq_zero]

theorem strcmpCaseLoop_neg (n : ℕ) {s t : List UInt8} (hs : 0 ∉ s) (ht : 0 ∉ t) :
    strcmpCaseLoop n s t < 0 ↔ caseKey n s < caseKey n t := by
  induction n generalizing s t with
  | zero => simp [strcmpCaseLoop, caseKey]
  | succ n ih =>
    cases s with
    | nil =>
      cases t with
      | nil => simp [strcmpCaseLoop, charValue_lower_zero]
      | cons b t =>
        have hb := charValue_lower_ne_zero (List.ne_of_not_mem_cons ht).symm
        rw [caseKey_nil, caseKey_cons, List.cons_lt_cons_iff]
        simp [strcmpCaseLoop, charValue_lower_zero, hb.symm]
    | cons a s =>
      have ha := (List.ne_of_not_mem_cons hs).symm
      cases t with
      | nil =>
        rw [caseKey_nil, caseKey_cons, List.cons_lt_cons_iff]
        simp [strcmpCaseLoop, charValue_lower_zero, charValue_lower_ne_zero ha]
      | cons b t =>
        have hb := (List.ne_of_not_mem_cons ht).symm
        have hs' : 0 ∉ s := fun h => hs (List.mem_cons_of_mem a h)
        have ht' : 0 ∉ t := fun h => ht (List.mem_cons_of_mem b h)
        rw [caseKey_cons, caseKey_cons, List.cons_lt_cons_iff, ← ih hs' ht',
          strcmpCaseLoop_cons n ha hb]
        split_ifs with hv <;> simp [hv]

/-! ## Entries -/

/-- What the comparisons read of an `xs_fileinfo`. -/
structure FileInfo where
  size : ℕ
  modificationTime : ℤ
  isDirectory : Bool
  /-- The offset of the name. -/
  userinfo : ℕ

/-- `sizeof(xs_fileinfo)`. -/
def fileInfoSize : ℕ := 96

/-- `xs_strcmp_case` of the names at two offsets. -/
def strcmpCase (names : List UInt8) (i j : ℕ) : ℤ :=
  if i = j then 0 else strcmpCaseLoop INT_MAX (cstr names i) (cstr names j)

/-- Directories first, and `rest` for what both are. -/
def dirFirst (rest : FileInfo → FileInfo → ℤ) (a b : FileInfo) : ℤ :=
  if b.isDirectory.toInt - a.isDirectory.toInt ≠ 0 then
    b.isDirectory.toInt - a.isDirectory.toInt
  else rest a b

variable (names : List UInt8)

/-- `xs_dircompare_an`. -/
def dircompareAn : FileInfo → FileInfo → ℤ :=
  dirFirst fun a b => strcmpCase names a.userinfo b.userinfo

/-- `xs_dircompare_dn`. -/
def dircompareDn : FileInfo → FileInfo → ℤ :=
  dirFirst fun a b => strcmpCase names b.userinfo a.userinfo

/-- `xs_dircompare_ad`. -/
def dircompareAd : FileInfo → FileInfo → ℤ :=
  dirFirst fun a b => if b.modificationTime < a.modificationTime then -1 else 1

/-- `xs_dircompare_dd`. -/
def dircompareDd : FileInfo → FileInfo → ℤ :=
  dirFirst fun a b => if a.modificationTime < b.modificationTime then -1 else 1

/-- The sizes of two entries. -/
def compareSize (a b : FileInfo) : ℤ :=
  if a.size < b.size then -1 else if b.size < a.size then 1 else 0

/-- `xs_dircompare_as`. -/
def dircompareAs (a b : FileInfo) : ℤ :=
  if dirFirst compareSize a b ≠ 0 then dirFirst compareSize a b else dircompareAn names a b

/-- `xs_dircompare_ds`. -/
def dircompareDs (a b : FileInfo) : ℤ :=
  if dirFirst (fun a b => compareSize b a) a b ≠ 0 then dirFirst (fun a b => compareSize b a) a b
  else dircompareDn names a b

/-- All six. -/
def dircompares : List (FileInfo → FileInfo → ℤ) :=
  [dircompareAn names, dircompareDn names, dircompareAd, dircompareDd, dircompareAs names,
    dircompareDs names]

/-- `sortinfo` for the query `h`. -/
def sortInfo (h : Option (List UInt8)) : UInt8 × UInt8 :=
  match h with
  | some [a] => (if a = 100 then 100 else 97, 110)
  | some (a :: b :: _) => (if a = 100 then 100 else 97, b)
  | _ => (97, 110)

/-- The comparison that `sortinfo` chooses. -/
def sortProc (info : UInt8 × UInt8) : Option (FileInfo → FileInfo → ℤ) :=
  if info.2 = 110 then
    some (if info.1 = 97 then dircompareAn names else dircompareDn names)
  else if info.2 = 100 then some (if info.1 = 97 then dircompareAd else dircompareDd)
  else if info.2 = 115 then
    some (if info.1 = 97 then dircompareAs names else dircompareDs names)
  else none

/-- The part of `xs_http_dirresponse` that sorts the entries. -/
def sortEntries (h : Option (List UInt8)) (entries : List FileInfo) (fuel : ℕ) :
    Option (List FileInfo) :=
  match sortProc names (sortInfo h) with
  | some proc => (Qsort.run ⟨fileInfoSize, proc⟩ entries fuel).map Prod.snd
  | none => some entries

/-! ## The keys -/

/-- Less for directories. -/
def FileInfo.dirKey (a : FileInfo) : ℤ :=
  -a.isDirectory.toInt

theorem dirFirst_follows {β : Type} [LinearOrder β] {rest : FileInfo → FileInfo → ℤ}
    {f : FileInfo → β} (h : Follows rest f) :
    Follows (dirFirst rest) fun a => toLex (a.dirKey, f a) := by
  have hdir : Follows (fun a b : FileInfo => b.isDirectory.toInt - a.isDirectory.toInt)
      FileInfo.dirKey :=
    ⟨fun a b => by unfold FileInfo.dirKey; omega, fun a b => by unfold FileInfo.dirKey; omega⟩
  exact hdir.orElse (fun a b => by unfold FileInfo.dirKey; omega) h

theorem strcmpCase_follows :
    Follows (fun a b : FileInfo => strcmpCase names a.userinfo b.userinfo)
      fun a => caseKey INT_MAX (cstr names a.userinfo) := by
  have hneg : ∀ i j, strcmpCase names i j < 0 ↔
      caseKey INT_MAX (cstr names i) < caseKey INT_MAX (cstr names j) := by
    intro i j
    unfold strcmpCase
    by_cases hij : i = j
    · simp [hij]
    · rw [if_neg hij]
      exact strcmpCaseLoop_neg _ (cstr_spec names i).1 (cstr_spec names j).1
  refine ⟨fun a b => hneg _ _, fun a b hlt => ?_⟩
  have hba := (hneg _ _).mpr hlt
  unfold strcmpCase at hba ⊢
  by_cases hij : a.userinfo = b.userinfo
  · simp [hij] at hba
  · rw [if_neg (Ne.symm hij)] at hba
    rw [if_neg hij, strcmpCaseLoop_swap]
    omega

theorem compareSize_follows : Follows compareSize FileInfo.size where
  neg a b := by unfold compareSize; split_ifs <;> omega
  pos a b hlt := by unfold compareSize; rw [if_neg hlt.not_gt, if_pos hlt]; decide

/-- The six comparisons are ones. -/
theorem isComparison_of_mem {proc : FileInfo → FileInfo → ℤ} (h : proc ∈ dircompares names) :
    IsComparison proc := by
  have han := dirFirst_follows (strcmpCase_follows names)
  have hdn := dirFirst_follows (strcmpCase_follows names).swap
  have htime : Follows (fun a b : FileInfo => if a.modificationTime < b.modificationTime then
      (-1 : ℤ) else 1) FileInfo.modificationTime :=
    ⟨fun a b => by split_ifs <;> simp_all, fun a b hlt => by rw [if_neg hlt.not_gt]; decide⟩
  have hties : ∀ a b : FileInfo, toLex (a.dirKey, a.size) = toLex (b.dirKey, b.size) →
      dirFirst compareSize a b = 0 ∧ dirFirst (fun a b => compareSize b a) a b = 0 := by
    intro a b hab
    obtain ⟨hdir, hsize⟩ := Prod.mk.inj (toLex.injective hab)
    unfold FileInfo.dirKey at hdir
    simp [dirFirst, compareSize, hsize, neg_inj.mp hdir]
  simp only [dircompares, List.mem_cons, List.not_mem_nil, or_false] at h
  rcases h with rfl | rfl | rfl | rfl | rfl | rfl
  · exact han.isComparison
  · exact hdn.isComparison
  · exact (dirFirst_follows htime.swap).isComparison
  · exact (dirFirst_follows htime).isComparison
  · exact ((dirFirst_follows compareSize_follows).orElse (fun a b h => (hties a b h).1)
      han).isComparison
  · exact ((dirFirst_follows compareSize_follows.swap).orElse (fun a b h => (hties a b h).2)
      hdn).isComparison

/-- A file is never before a directory. -/
theorem dircompare_directory {proc : FileInfo → FileInfo → ℤ} (h : proc ∈ dircompares names)
    {a b : FileInfo} (ha : a.isDirectory = true) (hb : b.isDirectory = false) : proc a b < 0 := by
  have hfirst : ∀ rest, dirFirst rest a b = -1 := by
    intro rest
    simp [dirFirst, ha, hb]
  simp only [dircompares, List.mem_cons, List.not_mem_nil, or_false] at h
  rcases h with rfl | rfl | rfl | rfl | rfl | rfl
  · exact (hfirst _).trans_lt (by decide)
  · exact (hfirst _).trans_lt (by decide)
  · exact (hfirst _).trans_lt (by decide)
  · exact (hfirst _).trans_lt (by decide)
  · simp [dircompareAs, hfirst]
  · simp [dircompareDs, hfirst]

/-! ## Sorting -/

namespace Qsort

variable {α : Type} {q : Qsort α} {m m' : List α} {es count : ℕ}

/-- `xs_ptr_qsort` gives a permutation with no later element less than an earlier one. -/
def Sorts (q : Qsort α) (m : List α) : Prop :=
  ∃ fuel m', q.run m fuel = some (0, m') ∧ m'.Perm m ∧ m'.Pairwise fun x y => ¬q.proc y x < 0

theorem sorts_of_fits (hq : IsComparison q.proc) (h : m.length < 2 ∨ Fits q.es m.length) :
    q.Sorts m := by
  rcases h with h | h
  · refine ⟨1, m, run_of_length_lt_two q h, .refl m, ?_⟩
    rw [List.pairwise_iff_getElem]
    omega
  · exact run_ordered hq h

/-- Nothing is less than anything. -/
theorem isComparison_const {c : ℤ} (hc : 0 ≤ c) : IsComparison fun _ _ : α => c where
  order :=
    { irrefl := fun _ => hc.not_gt
      trans := fun _ _ _ h => absurd h hc.not_gt
      incomp_trans := fun _ _ _ h _ => h }
  pos := fun _ _ h => absurd h hc.not_gt

theorem not_sorts (h : ∀ fuel, q.run m fuel = none) : ¬q.Sorts m := by
  rintro ⟨fuel, m', hm', -⟩
  rw [h] at hm'
  cases hm'

end Qsort

/-- The listing for the query `h` is sorted by one of the comparisons, directories first. -/
def ListingSorted (names : List UInt8) (h : Option (List UInt8)) (entries : List FileInfo) : Prop :=
  ∃ fuel m', sortEntries names h entries fuel = some m' ∧ m'.Perm entries ∧
    (∃ proc ∈ dircompares names, m'.Pairwise fun x y => ¬proc y x < 0) ∧
    m'.Pairwise fun x y => y.isDirectory = true → x.isDirectory = true

/-- The query asks for an order that there is. -/
def SortKnown (h : Option (List UInt8)) : Prop :=
  (sortInfo h).2 = 110 ∨ (sortInfo h).2 = 100 ∨ (sortInfo h).2 = 115

theorem sortProc_of_known {h : Option (List UInt8)} (hh : SortKnown h) :
    ∃ proc ∈ dircompares names, sortProc names (sortInfo h) = some proc := by
  unfold sortProc dircompares
  rcases hh with hh | hh | hh <;> by_cases h97 : (sortInfo h).1 = 97 <;> simp [hh, h97]

theorem sortProc_of_unknown {h : Option (List UInt8)} (hh : ¬SortKnown h) :
    sortProc names (sortInfo h) = none := by
  simp only [SortKnown, not_or] at hh
  simp [sortProc, hh]

/-- In a sorted listing directories are first. -/
theorem pairwise_directory {proc : FileInfo → FileInfo → ℤ} (h : proc ∈ dircompares names)
    {m : List FileInfo} (hm : m.Pairwise fun x y => ¬proc y x < 0) :
    m.Pairwise fun x y => y.isDirectory = true → x.isDirectory = true := by
  refine hm.imp fun {x y} hxy hy => ?_
  by_contra hx
  exact hxy (dircompare_directory names h hy (Bool.not_eq_true _ ▸ hx))

/-- Without a known order a file that is first stays first. -/
theorem not_listingSorted {h : Option (List UInt8)} (hh : ¬SortKnown h) (a b : FileInfo)
    (ha : a.isDirectory = false) (hb : b.isDirectory = true) (n : ℕ) :
    ¬ListingSorted names h (a :: b :: List.replicate n b) := by
  rintro ⟨fuel, m', hm', -, -, hdir⟩
  unfold sortEntries at hm'
  rw [sortProc_of_unknown names hh] at hm'
  obtain rfl := Option.some.inj hm'
  have hab := List.rel_of_pairwise_cons hdir (List.mem_cons_self (a := b)) hb
  simp [ha] at hab

theorem listingSorted_iff {h : Option (List UInt8)} {count : ℕ} :
    (∀ names entries, entries.length = count → ListingSorted names h entries) ↔
      count < 2 ∨ (Qsort.Fits fileInfoSize count ∧ SortKnown h) := by
  constructor
  · intro hall
    by_contra hcond
    rw [not_or, not_lt] at hcond
    obtain ⟨h2, hcond⟩ := hcond
    by_cases hh : SortKnown h
    · have ho : INT_MAX < (count - 1) * fileInfoSize := by
        by_contra hle
        refine hcond ⟨⟨by decide, not_lt.mp hle, ?_⟩, hh⟩
        unfold fileInfoSize INT_MAX at *
        omega
      obtain ⟨proc, -, hproc⟩ := sortProc_of_known [] hh
      obtain ⟨fuel, m', hm', -⟩ := hall [] (List.replicate count ⟨0, 0, true, 0⟩)
        List.length_replicate
      unfold sortEntries at hm'
      rw [hproc] at hm'
      dsimp only at hm'
      rw [Qsort.run_eq_none_of_offset (by rwa [List.length_replicate])
        (by rwa [List.length_replicate])] at hm'
      cases hm'
    · obtain ⟨n, rfl⟩ : ∃ n, count = n + 2 := ⟨count - 2, by omega⟩
      exact not_listingSorted [] hh ⟨0, 0, false, 0⟩ ⟨0, 0, true, 0⟩ rfl rfl n
        (hall [] _ (by simp))
  · intro hcond names entries hlen
    subst hlen
    by_cases hh : SortKnown h
    · obtain ⟨proc, hmem, hproc⟩ := sortProc_of_known names hh
      obtain ⟨fuel, m', hm', hperm, hsorted⟩ := Qsort.sorts_of_fits (q := ⟨fileInfoSize, proc⟩)
        (isComparison_of_mem names hmem) (hcond.imp_right And.left)
      refine ⟨fuel, m', ?_, hperm, ⟨proc, hmem, hsorted⟩, pairwise_directory names hmem hsorted⟩
      unfold sortEntries
      rw [hproc]
      dsimp only
      rw [hm']
      rfl
    · -- a listing of less than two entries is sorted as it is
      have h2 := hcond.resolve_right fun hc => hh hc.2
      have hpair : ∀ R : FileInfo → FileInfo → Prop, entries.Pairwise R := fun R => by
        rw [List.pairwise_iff_getElem]
        omega
      refine ⟨0, entries, ?_, .refl _, ⟨dircompareAd, by simp [dircompares], hpair _⟩, hpair _⟩
      unfold sortEntries
      rw [sortProc_of_unknown names hh]

/-- Arrays are sorted by all comparisons exactly if there is nothing to sort or everything fits; the
six comparisons of listings are ones; and listings are sorted exactly if they fit as well, and the
query asks for an order that there is. -/
theorem Qsort.sorts_iff {es count : ℕ} (hes : es ≤ 1024) (hc : count ≤ INT_MAX)
    (h : Option (List UInt8)) :
    ((∀ (α : Type) (proc : α → α → ℤ), IsComparison proc → ∀ m : List α, m.length = count →
        Sorts ⟨es, proc⟩ m) ↔ count < 2 ∨ Fits es count) ∧
      (∀ names, ∀ proc ∈ dircompares names, IsComparison proc) ∧
      ((∀ names entries, entries.length = count → ListingSorted names h entries) ↔
        count < 2 ∨ (Fits fileInfoSize count ∧ SortKnown h)) := by
  refine ⟨⟨fun hall => ?_, fun hfits α proc hproc m hm => ?_⟩, isComparison_of_mem,
    listingSorted_iff⟩
  · by_contra hcond
    rw [not_or, not_lt] at hcond
    obtain ⟨h2, hfits⟩ := hcond
    have hlen : (List.replicate count ()).length = count := List.length_replicate
    refine hfits ⟨hes, ?_, ?_⟩
    · by_contra ho
      exact not_sorts (run_eq_none_of_offset (hlen.symm ▸ h2) (hlen.symm ▸ not_le.mp ho))
        (hall Unit _ (isComparison_const le_rfl) _ hlen)
    · by_contra hi
      exact not_sorts (run_eq_none_of_index (hlen.trans (by omega)) fun _ _ => rfl)
        (hall Unit _ (isComparison_const zero_le_one) _ hlen)
  · subst hm
    exact sorts_of_fits hproc hfits

theorem Qsort.sorts_three :
    Sorts ⟨4, fun _ _ => 1⟩ [3, 1, 2] ∧
      ListingSorted (ascii "name") (some (ascii "ds"))
        [⟨7, 0, false, 0⟩, ⟨0, 5, true, 1⟩, ⟨8, 0, false, 0⟩] := by
  obtain ⟨harray, -, hlist⟩ := Qsort.sorts_iff (show 4 ≤ 1024 by decide)
    (show 3 ≤ INT_MAX by decide) (some (ascii "ds"))
  exact ⟨harray.mpr (.inr ⟨by decide, by decide, by decide⟩) ℕ _ (isComparison_const zero_le_one)
      _ rfl,
    hlist.mpr (.inr ⟨⟨by decide, by decide, by decide⟩, .inr (.inr rfl)⟩) _ _ rfl⟩

/-- The offset of the last of `2 ^ 21 + 1` elements of 1024 bytes is too large for an `int`. -/
theorem Qsort.not_sorts_offset :
    IsComparison (fun _ _ : Unit => 0) ∧
      ¬Sorts ⟨1024, fun _ _ => 0⟩ (List.replicate (2 ^ 21 + 1) ()) :=
  ⟨isComparison_const le_rfl, not_sorts (run_eq_none_of_offset
    (by rw [List.length_replicate]; decide) (by rw [List.length_replicate]; decide))⟩

end Webxs
