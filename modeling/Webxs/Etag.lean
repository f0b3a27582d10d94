import Webxs.CanonicalHead
import Webxs.Percent
import Webxs.PrintfIntegers

/-!
# Requests that are conditional

`xs_http_etag` (`xs_server.h`) prints the time of the last change and the size of a file into a
buffer of 64 bytes, and the text tells any two of these apart (`etagText_injective`). A client sends
it back as the value of `If-None-Match`, and `xs_http_notmodified` compares. So the answer is that
the file was not modified exactly if its time and its size are the ones that were printed
(`httpNotmodified_iff`).
-/

namespace Webxs

/-! ## The source -/

/-- What `xs_http_etag` reads of an `xs_fileinfo`. -/
structure FileStamp where
  modificationTime : BitVec 64
  size : BitVec 64
  deriving DecidableEq

/-- `xs_http_etag`, into `str` : the string it returns. -/
def httpEtag (str : List UInt8) (fd : FileStamp) : Option (List UInt8) :=
  produced str (ascii "\"%llx.%zx\"") [.int64 fd.modificationTime, .int64 fd.size]

/-- The loop of `xs_strncmp`, on what is before the NULs of two strings at different places. -/
def strncmpLoop : ℕ → List UInt8 → List UInt8 → ℤ
  | 0, _, _ => 0
  | n + 1, s, t =>
    let v := charValue (s.headD 0) - charValue (t.headD 0)
    if v ≠ 0 ∨ s.headD 0 = 0 ∨ t.headD 0 = 0 then v else strncmpLoop n s.tail t.tail

/-- `xs_http_notmodified`, where `etag` is what its buffer holds before. -/
def httpNotmodified (etag : List UInt8) (req : HttpReq) (fd : FileStamp) : Option Bool :=
  match httpGetheader req (ascii "If-None-Match") with
  | none => some false
  | some h => (httpEtag etag fd).map fun t => decide (strncmpLoop INT_MAX h t = 0)

/-! ## What is printed -/

/-- A number as `%llx` and `%zx` print it, with a sign if its top bit is set. -/
def hexText (v : BitVec 64) : List UInt8 :=
  (if v.toInt < 0 then [45] else []) ++
    ((lowDigits 16 v.toInt.natAbs).map (digitByte false)).reverse

def etagText (fd : FileStamp) : List UInt8 :=
  34 :: (hexText fd.modificationTime ++ 46 :: (hexText fd.size ++ [34]))

theorem fromhex_digitByte : ∀ d < 16, fromhex (digitByte false d) = d := by
  decide +kernel

theorem lowDigits_lt {v d : ℕ} (h : d ∈ lowDigits 16 v) : d < 16 := by
  unfold lowDigits at h
  split_ifs at h
  · rw [List.mem_singleton.mp h]
    decide
  · exact Nat.digits_lt_base (by decide) h

theorem ofDigits_lowDigits (v : ℕ) : Nat.ofDigits 16 (lowDigits 16 v) = v := by
  unfold lowDigits
  split_ifs with h0
  · rw [h0]
    rfl
  · exact Nat.ofDigits_digits 16 v

/-- The digits are visible, and none of them is a sign or a period. -/
theorem hexDigit_plain : ∀ d < 16, isVisible (digitByte false d) = true ∧
    digitByte false d ≠ 45 ∧ digitByte false d ≠ 46 := by
  decide +kernel

theorem mem_hexText {v : BitVec 64} {a : UInt8} (h : a ∈ hexText v) :
    isVisible a = true ∧ a ≠ 46 := by
  unfold hexText at h
  rw [List.mem_append, List.mem_reverse, List.mem_map] at h
  obtain hsign | ⟨d, hd, rfl⟩ := h
  · split_ifs at hsign
    · rw [List.mem_singleton.mp hsign]
      decide
    · cases hsign
  · have hplain := hexDigit_plain d (lowDigits_lt hd)
    exact ⟨hplain.1, hplain.2.2⟩

theorem length_hexText (v : BitVec 64) : (hexText v).length ≤ 17 := by
  have hlt : v.toInt.natAbs < 16 ^ 16 := by
    have := v.toInt_lt
    have := v.le_toInt
    omega
  have hdigits : (lowDigits 16 v.toInt.natAbs).length ≤ 16 := by
    unfold lowDigits
    split_ifs
    · decide
    · exact Nat.digits_length_le_iff (by decide) _ |>.mpr hlt
  unfold hexText
  rw [List.length_append, List.length_reverse, List.length_map]
  split_ifs <;> simp <;> omega

/-- The value is read back off the digits. -/
theorem hexText_injective : Function.Injective hexText := by
  have hval : ∀ v : BitVec 64, ∀ ds, ds = ((lowDigits 16 v.toInt.natAbs).map
      (digitByte false)).reverse → ds.head? ≠ some 45 ∧
      v.toInt.natAbs = Nat.ofDigits 16 (ds.reverse.map fun a => (fromhex a).toNat) := by
    rintro v ds rfl
    have hback : ((lowDigits 16 v.toInt.natAbs).map (digitByte false)).map
        (fun a => (fromhex a).toNat) = lowDigits 16 v.toInt.natAbs := by
      rw [List.map_map]
      refine (List.map_congr_left fun d hd => ?_).trans (List.map_id _)
      rw [Function.comp_apply, fromhex_digitByte d (lowDigits_lt hd), id, Int.toNat_natCast]
    refine ⟨fun h => ?_, ?_⟩
    · have hmem := List.mem_of_mem_head? h
      rw [List.mem_reverse, List.mem_map] at hmem
      obtain ⟨d, hd, heq⟩ := hmem
      exact (hexDigit_plain d (lowDigits_lt hd)).2.1 heq
    · rw [List.reverse_reverse, hback, ofDigits_lowDigits]
  intro v w h
  unfold hexText at h
  obtain ⟨hv, hvalue⟩ := hval v _ rfl
  obtain ⟨hw, hwalue⟩ := hval w _ rfl
  refine BitVec.eq_of_toInt_eq ?_
  split_ifs at h with hneg hneg' hneg'
  · obtain h := List.append_cancel_left h
    rw [h] at hvalue
    omega
  · rw [List.nil_append, List.singleton_append] at h
    rw [← h] at hw
    exact absurd rfl hw
  · rw [List.nil_append, List.singleton_append] at h
    rw [h] at hv
    exact absurd rfl hv
  · rw [List.nil_append, List.nil_append] at h
    rw [h] at hvalue
    omega

/-- The text tells the time and the size. -/
theorem etagText_injective : Function.Injective etagText := by
  rintro ⟨mt, size⟩ ⟨mt', size'⟩ h
  have hplain : ∀ v, (46 : UInt8) ∉ hexText v := fun v hmem => (mem_hexText hmem).2 rfl
  obtain ⟨hmt, -, hrest⟩ := (List.append_cons_inj_of_notMem (hplain mt) (by
    rw [List.mem_append]
    rintro (hmem | hmem)
    · exact hplain size hmem
    · exact absurd (List.mem_singleton.mp hmem) (by decide))).mp (List.cons.inj h).2
  have hmt : mt = mt' := hexText_injective hmt
  have hsize : size = size' := hexText_injective (List.append_cancel_right hrest)
  rw [hmt, hsize]

/-! ## Printing -/

/-- `%llx` and `%zx`. -/
def hexItem (v : BitVec 64) : Item :=
  .int ((IntSpec.bare .x).item (.longLong v))

theorem rendered_hexItem (v : BitVec 64) : (hexItem v).rendered = hexText v := by
  rw [hexItem, IntSpec.rendered_item]
  have hdigits : printedDigits 16 120 v.toInt =
      ((lowDigits 16 v.toInt.natAbs).map (digitByte false)).reverse := by
    rw [lowDigits_reverse, printedDigits]
    simp only [Int.natAbs_eq_zero]
    rfl
  show printedSign _ true 16 120 v.toInt ++ (if v.toInt = 0 ∧ none = some 0 then []
    else numberText _ 0 none (printedDigits 16 120 v.toInt)) = _
  rw [if_neg (by simp), hdigits, hexText, printedSign, numberText, fieldText]
  simp [IntSpec.f, IntSpec.bare]

theorem matches_etag (fd : FileStamp) :
    Matches (ascii "\"%llx.%zx\"") [.int64 fd.modificationTime, .int64 fd.size]
      [.text [34], hexItem fd.modificationTime, .text [46], hexItem fd.size, .text [34]] :=
  .cons (by decide) rfl (.cons (by decide) rfl (.cons (by decide) rfl (.cons (by decide) rfl
    (.cons (by decide) rfl (.nil _)))))

theorem visible_etagText (fd : FileStamp) : ∀ a ∈ etagText fd, isVisible a = true := by
  intro a ha
  simp only [etagText, List.mem_cons, List.mem_append, List.not_mem_nil, or_false] at ha
  obtain rfl | ha | rfl | ha | rfl := ha
  · decide
  · exact (mem_hexText ha).1
  · decide
  · exact (mem_hexText ha).1
  · decide

theorem zero_notMem_etagText (fd : FileStamp) : 0 ∉ etagText fd :=
  zero_notMem_of_visible (visible_etagText fd)

theorem length_etagText (fd : FileStamp) : (etagText fd).length < 40 := by
  have hmt := length_hexText fd.modificationTime
  have hsize := length_hexText fd.size
  simp only [etagText, List.length_cons, List.length_append, List.length_nil]
  omega

/-- The text is printed whole. -/
theorem httpEtag_eq {str : List UInt8} (hlen : str.length = 64) (fd : FileStamp) :
    httpEtag str fd = some (etagText fd) := by
  have hrender : rendering [.text [34], hexItem fd.modificationTime, .text [46],
      hexItem fd.size, .text [34]] = etagText fd := by
    simp only [rendering_cons, rendered_hexItem]
    rfl
  have hlength := length_etagText fd
  rw [httpEtag, produced_rendering (matches_etag fd) (by omega) (by rw [hrender]; omega)
    (fun _ => ⟨trivial, fun _ => ⟨trivial, fun _ => ⟨trivial, fun _ => ⟨trivial, fun _ =>
      ⟨trivial, trivial⟩⟩⟩⟩⟩) (by rw [hrender]; exact zero_notMem_etagText fd), hrender]

/-! ## Comparing -/

theorem charValue_injective {a b : UInt8} (h : charValue a = charValue b) : a = b := by
  unfold charValue at h
  have := a.toNat_lt
  have := b.toNat_lt
  refine UInt8.toNat_inj.mp ?_
  split_ifs at h with ha hb hb
  · omega
  · rw [UInt8.lt_iff_toNat_lt] at ha
    omega
  · rw [UInt8.lt_iff_toNat_lt] at hb
    omega
  · omega

/-- The result is 0 exactly for equal strings. -/
theorem strncmpLoop_eq_zero {n : ℕ} {s t : List UInt8} (hs : 0 ∉ s) (ht : 0 ∉ t)
    (hlen : t.length < n) : strncmpLoop n s t = 0 ↔ s = t := by
  induction n generalizing s t with
  | zero => omega
  | succ n ih =>
    have hval : charValue 0 = 0 := rfl
    rw [strncmpLoop]
    cases s with
    | nil =>
      cases t with
      | nil => simp
      | cons b t =>
        have hb : b ≠ 0 := fun h => ht (h ▸ List.mem_cons_self)
        rw [List.headD_nil, List.headD_cons, if_pos (.inr (.inl rfl)), sub_eq_zero]
        exact iff_of_false (fun h => hb (charValue_injective h).symm) (List.cons_ne_nil _ _).symm
    | cons a s =>
      have ha : a ≠ 0 := fun h => hs (h ▸ List.mem_cons_self)
      cases t with
      | nil =>
        rw [List.headD_nil, List.headD_cons, if_pos (.inr (.inr rfl)), sub_eq_zero]
        exact iff_of_false (fun h => ha (charValue_injective h)) (List.cons_ne_nil _ _)
      | cons b t =>
        have hb : b ≠ 0 := fun h => ht (h ▸ List.mem_cons_self)
        rw [List.headD_cons, List.headD_cons, List.tail_cons, List.tail_cons]
        by_cases hab : a = b
        · subst hab
          rw [if_neg (by simp [ha]), ih (fun h => hs (List.mem_cons_of_mem _ h))
            (fun h => ht (List.mem_cons_of_mem _ h)) (by
              rw [List.length_cons] at hlen
              omega)]
          simp
        · have hne : charValue a - charValue b ≠ 0 :=
            sub_ne_zero.mpr fun h => hab (charValue_injective h)
          rw [if_pos (.inl hne)]
          exact iff_of_false hne fun h => hab (List.cons.inj h).1

/-! ## Requests -/

/-- The value goes into a header line. -/
theorem canonical_etagText {name : List UInt8} (hne : name ≠ [])
    (hname : ∀ a ∈ name, isVisible a = true) (fd : FileStamp) :
    HeaderLine.Canonical ⟨name, etagText fd⟩ := by
  have hvisible : ∀ a : UInt8, isVisible a = true → httpOkchar a = true ∧ a ≠ 13 ∧ a ≠ 10 := by
    have h : ∀ a : UInt8, isVisible a = true → httpOkchar a = true ∧ a ≠ 13 ∧ a ≠ 10 :=
      forall_byte (by decide +kernel)
    exact h
  refine ⟨hne, hname, fun a ha => hvisible a (visible_etagText fd a ha), fun a ha => ?_⟩
  obtain rfl := Option.some.inj ha
  decide

theorem httpGetheader_eq (req : HttpReq) (name : List UInt8) :
    httpGetheader req name =
      (req.headerStrings.find? fun h => eqCase name h.1).map Prod.snd := by
  rw [httpGetheader, HttpReq.headerStrings, List.find?_map, Option.map_map]
  rfl

variable {strtod : List UInt8 → ℤ}

/-- A request with the text that was printed for `fd` is answered with "not modified" exactly as
long as the file has the time and the size of `fd`. -/
theorem httpNotmodified_iff (req : HttpReq) {h : RequestHead} (hc : h.Canonical)
    {before after : List HeaderLine} {name etag str str' : List UInt8} {fd fd' : FileStamp}
    (hstr : str.length = 64) (hstr' : str'.length = 64) (hetag : httpEtag str fd = some etag)
    (hheaders : h.headers = before ++ ⟨name, etag⟩ :: after)
    (hname : eqCase (ascii "If-None-Match") name = true)
    (hbefore : ∀ l ∈ before, eqCase (ascii "If-None-Match") l.name = false) :
    ∃ r, httpParse strtod req h.bytes = (0, r) ∧
      httpNotmodified str' r fd' = some (decide (fd'.modificationTime = fd.modificationTime ∧
        fd'.size = fd.size)) := by
  obtain ⟨r, hr, hs, -⟩ := (httpParse_bytes strtod req hc).2
  rw [httpEtag_eq hstr] at hetag
  obtain rfl := Option.some.inj hetag
  have hfind : httpGetheader r (ascii "If-None-Match") = some (etagText fd) := by
    rw [httpGetheader_eq, hs, hheaders, List.map_append, List.find?_append, List.map_cons,
      List.find?_eq_none.mpr fun p hp => ?_, Option.none_or, List.find?_cons_of_pos]
    · rfl
    · exact hname
    · obtain ⟨l, hl, rfl⟩ := List.mem_map.mp hp
      rw [hbefore l hl]
      decide
  refine ⟨r, hr, ?_⟩
  have hlength := length_etagText fd'
  have hmax : 40 < INT_MAX := by decide
  rw [httpNotmodified, hfind]
  dsimp only
  rw [httpEtag_eq hstr', Option.map_some, Option.some.injEq, decide_eq_decide,
    strncmpLoop_eq_zero (zero_notMem_etagText fd) (zero_notMem_etagText fd') (by omega),
    etagText_injective.eq_iff]
  constructor
  · rintro rfl
    exact ⟨rfl, rfl⟩
  · intro heq
    cases fd
    cases fd'
    obtain ⟨rfl, rfl⟩ := heq
    rfl

/-- A request for a file of 100 bytes that the client has. -/
def conditional : RequestHead where
  method := ascii "GET"
  target := ascii "/"
  version := ascii "1.1"
  headers := [⟨ascii "Host", ascii "a"⟩, ⟨ascii "if-none-match", ascii "\"5f3c.64\""⟩]

/-- The file has grown by a byte. -/
theorem httpNotmodified_iff_grown :
    ∃ r, httpParse decimal (HttpReq.alloc 0 0) conditional.bytes = (0, r) ∧
      httpNotmodified (List.replicate 64 0) r ⟨0x5f3c, 101⟩ =
        some (decide ((0x5f3c : BitVec 64) = 0x5f3c ∧ (101 : BitVec 64) = 100)) := by
  have hetag : httpEtag (List.replicate 64 0) ⟨0x5f3c, 100⟩ = some (ascii "\"5f3c.64\"") := by
    rw [httpEtag_eq List.length_replicate]
    decide +kernel
  have hc : conditional.Canonical := by
    refine ⟨by decide, by decide +kernel, by decide, by decide +kernel, ?_, by decide⟩
    refine List.forall_mem_cons.mpr ⟨?_, List.forall_mem_singleton.mpr ?_⟩ <;>
      exact ⟨by decide, by decide +kernel, by decide +kernel, by decide +kernel⟩
  have hbefore : ∀ l ∈ [HeaderLine.mk (ascii "Host") (ascii "a")],
      eqCase (ascii "If-None-Match") l.name = false :=
    List.forall_mem_singleton.mpr (by decide +kernel)
  exact httpNotmodified_iff (HttpReq.alloc 0 0) hc List.length_replicate List.length_replicate hetag
    rfl (by decide +kernel) hbefore

end Webxs
