import Webxs.Chunked
import Webxs.Scanning

/-!
# The size of a chunk

`xs_scan_chunk` skips whatever is no hexadecimal digit, takes the digits that follow for the size,
and skips again up to the first CR LF. It does not look at what it skips, the size wraps around in
an `int`, and behind the line of the last chunk the end of the trailer is taken for granted.
`scanChunk_parts` says what it returns in the terms of the parts of its bytes, and `scansRight_iff`
when the size that it reports is the one of a line that the coding allows.
-/

namespace Webxs

/-! ## Digits -/

theorem fromhex_eq (a : UInt8) :
    fromhex a = (hexDigitValue a).elim (-1 : ℤ) fun v => (v : ℤ) := by
  unfold fromhex hexDigitValue
  split_ifs with h0 h1 h2
  · obtain ⟨hlo, -⟩ := h0
    rw [UInt8.le_iff_toNat_le] at hlo
    simp only [UInt8.reduceToNat, Option.elim_some] at hlo ⊢
    omega
  · obtain ⟨hlo, -⟩ := h1
    rw [UInt8.le_iff_toNat_le] at hlo
    simp only [UInt8.reduceToNat, Option.elim_some] at hlo ⊢
    omega
  · obtain ⟨hlo, -⟩ := h2
    rw [UInt8.le_iff_toNat_le] at hlo
    simp only [UInt8.reduceToNat, Option.elim_some] at hlo ⊢
    omega
  · rfl

theorem fromhex_digit {a : UInt8} (h : (hexDigitValue a).isSome = true) :
    fromhex a = ((hexDigitValue a).getD 0 : ℕ) := by
  obtain ⟨v, hv⟩ := Option.isSome_iff_exists.mp h
  rw [fromhex_eq, hv, Option.elim_some, Option.getD_some]

/-- The first CR LF. -/
def crlfIndex : List UInt8 → Option ℕ
  | 13 :: 10 :: _ => some 0
  | _ :: l => (crlfIndex l).map (· + 1)
  | [] => none

theorem crlfIndex_cons {a : UInt8} {l : List UInt8} (h : ¬(a = 13 ∧ l.head? = some 10)) :
    crlfIndex (a :: l) = (crlfIndex l).map (· + 1) := by
  rw [crlfIndex]
  rintro l' rfl rfl
  exact h ⟨rfl, rfl⟩

theorem crlfIndex_append {ext : List UInt8} (h : ¬[13, 10] <:+: ext) (rest : List UInt8) :
    crlfIndex (ext ++ 13 :: 10 :: rest) = some ext.length := by
  induction ext with
  | nil => rfl
  | cons a ext ih =>
    have hext : ¬[13, 10] <:+: ext := fun hin => h (hin.trans (List.suffix_cons a ext).isInfix)
    rw [List.cons_append, crlfIndex_cons, ih hext]
    · rfl
    · rintro ⟨rfl, hhead⟩
      cases ext with
      | nil => cases hhead
      | cons b ext =>
        cases hhead
        exact h (List.prefix_append [13, 10] ext).isInfix

/-- A line ends where it is found, and not before. -/
theorem crlfIndex_eq {l : List UInt8} {k : ℕ} (h : crlfIndex l = some k) :
    l = l.take k ++ 13 :: 10 :: l.drop (k + 2) ∧ ¬[13, 10] <:+: l.take k := by
  induction l generalizing k with
  | nil => cases h
  | cons a l ih =>
    by_cases hc : a = 13 ∧ l.head? = some 10
    · obtain ⟨rfl, hhead⟩ := hc
      cases l with
      | nil => cases hhead
      | cons b l =>
        cases hhead
        cases h
        exact ⟨rfl, by simp⟩
    · rw [crlfIndex_cons hc] at h
      obtain ⟨k, hk, rfl⟩ := Option.map_eq_some_iff.mp h
      obtain ⟨heq, hno⟩ := ih hk
      refine ⟨congrArg (a :: ·) heq, fun hin => ?_⟩
      rw [List.take_succ_cons, List.infix_cons_iff] at hin
      rcases hin with hp | hin
      · obtain ⟨ha, hhead⟩ := List.cons_prefix_cons.mp hp
        refine hc ⟨ha.symm, ?_⟩
        obtain ⟨t, ht⟩ := hhead.trans (List.take_prefix k l)
        rw [← ht]
        rfl
      · exact hno hin

/-! ## The parts of the bytes -/

/-- A hexadecimal digit. -/
def isHexDigit (a : UInt8) : Bool :=
  (hexDigitValue a).isSome

def noDigit (a : UInt8) : Bool :=
  !isHexDigit a

/-- What `xs_scan_chunk` skips first. -/
def sizeLead (b : List UInt8) : List UInt8 :=
  b.takeWhile noDigit

/-- The digits that follow. -/
def sizeDigits (b : List UInt8) : List UInt8 :=
  (b.dropWhile noDigit).takeWhile isHexDigit

/-- What is behind the digits. -/
def afterDigits (b : List UInt8) : List UInt8 :=
  (b.dropWhile noDigit).dropWhile isHexDigit

theorem parts_append (b : List UInt8) : sizeLead b ++ (sizeDigits b ++ afterDigits b) = b := by
  rw [sizeLead, sizeDigits, afterDigits, List.takeWhile_append_dropWhile,
    List.takeWhile_append_dropWhile]

/-! ## The loop -/

/-- Where `datalen` is known and `gotdata` at a byte `a` that does not end the line. -/
def scanChunkNext (datalen : ℤ) (gotdata : ℕ) (a : UInt8) : ℤ × ℕ :=
  if 1 < gotdata then (datalen, gotdata)
  else if 0 ≤ fromhex a then (toInt32 (datalen * 16 + fromhex a), 1)
  else if gotdata ≠ 0 then (datalen, gotdata + 1)
  else (datalen, gotdata)

variable {buf l : List UInt8} {s gotdata : ℕ} {datalen : ℤ}

theorem drop_succ_of_cons {a : UInt8} (h : buf.drop s = a :: l) : buf.drop (s + 1) = l := by
  rw [← List.drop_drop, h, List.drop_one, List.tail_cons]

/-- A step of the loop, at a byte with one behind it. -/
theorem scanChunkLoop_cons {a b : UInt8} (h : buf.drop s = a :: b :: l) :
    scanChunkLoop buf (l.length + 1) s datalen gotdata =
      if gotdata ≠ 0 ∧ a = 13 ∧ b = 10 then
        some (datalen, some (s + 2 + if datalen = 0 then 2 else 0))
      else scanChunkLoop buf l.length (s + 1) (scanChunkNext datalen gotdata a).1
        (scanChunkNext datalen gotdata a).2 := by
  have ha := getElem?_of_drop h
  have hb := getElem?_of_drop (drop_succ_of_cons h)
  unfold scanChunkNext
  simp only [scanChunkLoop, ha, hb, Option.bind_eq_bind, Option.bind_some]
  by_cases hend : gotdata ≠ 0 ∧ a = 13 ∧ b = 10
  · obtain ⟨h1, h2, h3⟩ := hend
    simp [h1, h2, h3]
  · have hno : ¬(gotdata ≠ 0 ∧ a = 13 ∧ (if gotdata ≠ 0 ∧ a = 13 then b else 0) = 10) := by
      rintro ⟨h1, h2, h3⟩
      rw [if_pos ⟨h1, h2⟩] at h3
      exact hend ⟨h1, h2, h3⟩
    rw [if_neg hend]
    split_ifs <;> first | rfl | simp_all

theorem fromhex_nonneg {a : UInt8} : 0 ≤ fromhex a ↔ isHexDigit a = true := by
  rw [fromhex_eq, isHexDigit]
  cases hexDigitValue a <;> simp

theorem ne_of_digit {a : UInt8} (h : isHexDigit a = true) : a ≠ 13 := by
  rintro rfl
  exact absurd h (by decide)

/-- Where the scan ends if the line end is at `k`, counted from `s`. -/
def lineFound (s : ℕ) (datalen : ℤ) (k : Option ℕ) : ℤ × Option ℕ :=
  k.elim (-1, none) fun k => (datalen, some (s + k + 2 + if datalen = 0 then 2 else 0))

@[simp] theorem lineFound_none (s : ℕ) (datalen : ℤ) : lineFound s datalen none = (-1, none) := rfl

@[simp] theorem lineFound_some (s : ℕ) (datalen : ℤ) (k : ℕ) :
    lineFound s datalen (some k) = (datalen, some (s + k + 2 + if datalen = 0 then 2 else 0)) :=
  rfl

theorem lineFound_succ (s : ℕ) (datalen : ℤ) (k : Option ℕ) :
    lineFound s datalen (k.map (· + 1)) = lineFound (s + 1) datalen k := by
  cases k with
  | none => rfl
  | some k =>
    simp only [lineFound, Option.map_some, Option.elim_some]
    rw [Nat.add_right_comm s 1 k, Nat.add_assoc s k 1]

/-- The wrapped value of digits, with the value `datalen` in front. -/
def wrapDigits (datalen : ℤ) (ds : List UInt8) : ℤ :=
  ds.foldl (fun d a => toInt32 (d * 16 + fromhex a)) datalen

/-- Behind the digits only the line end is looked for. -/
theorem scanChunkLoop_after (hg : 1 < gotdata) (hl : buf.drop s = l) :
    scanChunkLoop buf (l.length - 1) s datalen gotdata =
      some (lineFound s datalen (crlfIndex l)) := by
  induction l generalizing s with
  | nil => rfl
  | cons a l ih =>
    cases l with
    | nil =>
      rw [crlfIndex_cons (by simp)]
      rfl
    | cons b l =>
      have hnext : scanChunkNext datalen gotdata a = (datalen, gotdata) := if_pos hg
      rw [List.length_cons, Nat.add_sub_cancel, List.length_cons, scanChunkLoop_cons hl, hnext]
      by_cases hend : a = 13 ∧ b = 10
      · obtain ⟨rfl, rfl⟩ := hend
        rw [if_pos ⟨by omega, rfl, rfl⟩]
        rfl
      · rw [if_neg fun h => hend h.2, crlfIndex_cons (by simpa using hend), lineFound_succ]
        exact ih (drop_succ_of_cons hl)

/-- In the digits the value is taken, up to what is no digit. -/
theorem scanChunkLoop_digits (datalen : ℤ) (hl : buf.drop s = l) :
    scanChunkLoop buf (l.length - 1) s datalen 1 =
      some (lineFound (s + (l.takeWhile isHexDigit).length)
        (wrapDigits datalen (l.takeWhile isHexDigit))
        (crlfIndex (l.dropWhile isHexDigit))) := by
  induction l generalizing s datalen with
  | nil => rfl
  | cons a l ih =>
    by_cases hhex : isHexDigit a = true
    · rw [List.takeWhile_cons_of_pos hhex, List.dropWhile_cons_of_pos hhex]
      cases l with
      | nil => rfl
      | cons b l =>
        have hnext : scanChunkNext datalen 1 a = (toInt32 (datalen * 16 + fromhex a), 1) := by
          rw [scanChunkNext, if_neg (by omega), if_pos (fromhex_nonneg.mpr hhex)]
        rw [List.length_cons, Nat.add_sub_cancel, List.length_cons, scanChunkLoop_cons hl, hnext,
          if_neg fun h => ne_of_digit hhex h.2.1]
        have hrest := @ih (s + 1) (toInt32 (datalen * 16 + fromhex a)) (drop_succ_of_cons hl)
        rw [List.length_cons, Nat.add_sub_cancel] at hrest
        rw [hrest, List.length_cons, Nat.add_assoc s 1, Nat.add_comm 1]
        rfl
    · rw [List.takeWhile_cons_of_neg hhex, List.dropWhile_cons_of_neg hhex]
      cases l with
      | nil =>
        rw [crlfIndex_cons (by simp)]
        rfl
      | cons b l =>
        have hnext : scanChunkNext datalen 1 a = (datalen, 2) := by
          rw [scanChunkNext, if_neg (by omega), if_neg (fromhex_nonneg.not.mpr hhex),
            if_pos (by omega)]
        rw [List.length_cons, Nat.add_sub_cancel, List.length_cons, scanChunkLoop_cons hl, hnext]
        by_cases hend : a = 13 ∧ b = 10
        · obtain ⟨rfl, rfl⟩ := hend
          rw [if_pos ⟨by omega, rfl, rfl⟩]
          rfl
        · rw [if_neg fun h => hend h.2, crlfIndex_cons (by simpa using hend), lineFound_succ]
          exact scanChunkLoop_after (by omega) (drop_succ_of_cons hl)

/-- In front of the digits everything is skipped. -/
theorem scanChunkLoop_lead (hl : buf.drop s = l) :
    scanChunkLoop buf (l.length - 1) s 0 0 =
      some (lineFound (s + (sizeLead l).length + (sizeDigits l).length)
        (wrapDigits 0 (sizeDigits l)) (crlfIndex (afterDigits l))) := by
  unfold sizeLead sizeDigits afterDigits
  induction l generalizing s with
  | nil => rfl
  | cons a l ih =>
    by_cases hhex : isHexDigit a = true
    · have hno : ¬noDigit a = true := by simpa [noDigit] using hhex
      rw [List.takeWhile_cons_of_neg hno, List.dropWhile_cons_of_neg hno,
        List.takeWhile_cons_of_pos hhex, List.dropWhile_cons_of_pos hhex]
      cases l with
      | nil => rfl
      | cons b l =>
        have hnext : scanChunkNext 0 0 a = (toInt32 (0 * 16 + fromhex a), 1) := by
          rw [scanChunkNext, if_neg (by omega), if_pos (fromhex_nonneg.mpr hhex)]
        have hrest := scanChunkLoop_digits (toInt32 (0 * 16 + fromhex a)) (drop_succ_of_cons hl)
        rw [List.length_cons, Nat.add_sub_cancel] at hrest
        rw [List.length_cons, Nat.add_sub_cancel, List.length_cons, scanChunkLoop_cons hl, hnext,
          if_neg fun h => h.1 rfl, hrest, List.length_cons, List.length_nil, Nat.add_zero,
          Nat.add_assoc s 1, Nat.add_comm 1]
        rfl
    · have hno : noDigit a = true := by simpa [noDigit] using hhex
      rw [List.takeWhile_cons_of_pos hno, List.dropWhile_cons_of_pos hno]
      cases l with
      | nil => rfl
      | cons b l =>
        have hnext : scanChunkNext 0 0 a = (0, 0) := by
          rw [scanChunkNext, if_neg (by omega), if_neg (fromhex_nonneg.not.mpr hhex),
            if_neg (by omega)]
        have hrest := ih (drop_succ_of_cons hl)
        rw [List.length_cons, Nat.add_sub_cancel] at hrest
        rw [List.length_cons, Nat.add_sub_cancel, List.length_cons, scanChunkLoop_cons hl, hnext,
          if_neg fun h => h.1 rfl, hrest, List.length_cons, Nat.add_assoc s 1, Nat.add_comm 1]

theorem toInt32_step (x y : ℤ) : toInt32 (toInt32 x * 16 + y) = toInt32 (x * 16 + y) := by
  unfold toInt32
  rw [← Int.bmod_add_bmod, Int.bmod_mul_bmod, Int.bmod_add_bmod]

theorem wrapDigits_eq {ds : List UInt8} (h : ∀ a ∈ ds, isHexDigit a = true) :
    wrapDigits 0 ds = toInt32 (hexValue ds) := by
  have hwrap : ∀ v : ℕ, wrapDigits (toInt32 v) ds =
      toInt32 (ds.foldl (fun v a => v * 16 + (hexDigitValue a).getD 0) v : ℕ) := by
    induction ds with
    | nil =>
      intro v
      rw [wrapDigits, List.foldl_nil, List.foldl_nil]
    | cons a ds ih =>
      intro v
      have hstep : toInt32 (toInt32 v * 16 + fromhex a) =
          toInt32 ((v * 16 + (hexDigitValue a).getD 0 : ℕ) : ℤ) := by
        rw [toInt32_step, fromhex_digit (h a (by simp))]
        push_cast
        rfl
      rw [wrapDigits, List.foldl_cons, hstep]
      exact ih (fun b hb => h b (by simp [hb])) _
  exact hwrap 0

theorem sizeDigits_hex (b : List UInt8) : ∀ a ∈ sizeDigits b, isHexDigit a = true :=
  fun _ ha => List.mem_takeWhile_imp ha

/-- What `xs_scan_chunk` returns. -/
theorem scanChunk_parts (b : List UInt8) :
    scanChunk b b.length = some (lineFound ((sizeLead b).length + (sizeDigits b).length)
      (toInt32 (hexValue (sizeDigits b))) (crlfIndex (afterDigits b))) := by
  have hn : ((b.length : ℤ) - 1).toNat = b.length - 1 := by omega
  rw [scanChunk, hn, scanChunkLoop_lead (List.drop_zero), wrapDigits_eq (sizeDigits_hex b),
    Nat.zero_add]

/-! ## The line that the coding allows -/

/-- What may stand between the digits and the line end : blanks and a `;` with whatever follows. -/
def IsExtension (ext : List UInt8) : Prop :=
  ¬[13, 10] <:+: ext ∧
    (ext = [] ∨ ∃ w t, ext = w ++ 59 :: t ∧ ∀ a ∈ w, isBlank a = true)

/-- `b` starts with the line of a size `n`, after the line end of the chunk before it or not, and
`e` is behind that line, or, for the last chunk, behind the empty trailer. -/
def SizeReported (b : List UInt8) (n : ℤ) (e : ℕ) : Prop :=
  ∃ lead ds ext rest, (lead = [] ∨ lead = [13, 10]) ∧ IsHex ds ∧ IsExtension ext ∧
    b = lead ++ (ds ++ (ext ++ 13 :: 10 :: rest)) ∧ n = hexValue ds ∧
    e = lead.length + ds.length + ext.length + 2 + (if n = 0 then 2 else 0) ∧
    (n = 0 → [13, 10] <+: rest) ∧ e ≤ b.length

/-- A size that `xs_scan_chunk` returns for `b` is the one of its line. -/
def ScansRight (b : List UInt8) : Prop :=
  ∀ n ret, scanChunk b b.length = some (n, ret) → 0 ≤ n → ∃ e, ret = some e ∧ SizeReported b n e

/-- In front of the digits is nothing or a line end, the size fits, between the digits and the line
end at `k` is an extension or nothing, and behind the last chunk there is an empty line. -/
structure LineAllowed (b : List UInt8) (k : ℕ) : Prop where
  lead : sizeLead b = [] ∨ sizeLead b = [13, 10]
  size_lt : hexValue (sizeDigits b) < 2 ^ 31
  ext : IsExtension ((afterDigits b).take k)
  last : hexValue (sizeDigits b) = 0 → [13, 10] <+: (afterDigits b).drop (k + 2)

theorem parts_eq {lead ds t : List UInt8} (hlead : ∀ a ∈ lead, noDigit a = true) (hds : IsHex ds)
    (ht : ∀ a ∈ t.head?, noDigit a = true) :
    sizeLead (lead ++ (ds ++ t)) = lead ∧ sizeDigits (lead ++ (ds ++ t)) = ds ∧
      afterDigits (lead ++ (ds ++ t)) = t := by
  have hhex : ∀ a ∈ ds, isHexDigit a = true := hds.2
  have hdigits : (ds ++ t).takeWhile noDigit = [] ∧ (ds ++ t).dropWhile noDigit = ds ++ t := by
    obtain ⟨a, ds', rfl⟩ := List.exists_cons_of_ne_nil hds.1
    have ha : ¬noDigit a = true := by simpa [noDigit] using hhex a (by simp)
    exact ⟨List.takeWhile_cons_of_neg ha, List.dropWhile_cons_of_neg ha⟩
  have hrest : t.takeWhile isHexDigit = [] ∧ t.dropWhile isHexDigit = t := by
    cases t with
    | nil => exact ⟨rfl, rfl⟩
    | cons a t =>
      have ha : ¬isHexDigit a = true := by simpa [noDigit] using ht a rfl
      exact ⟨List.takeWhile_cons_of_neg ha, List.dropWhile_cons_of_neg ha⟩
  unfold sizeLead sizeDigits afterDigits
  rw [List.takeWhile_append_of_pos hlead, List.dropWhile_append_of_pos hlead, hdigits.1, hdigits.2,
    List.takeWhile_append_of_pos hhex, List.dropWhile_append_of_pos hhex, hrest.1, hrest.2,
    List.append_nil, List.append_nil]
  exact ⟨rfl, rfl, rfl⟩

theorem sizeDigits_ne {b : List UInt8} (h : afterDigits b ≠ []) : sizeDigits b ≠ [] := by
  intro hnil
  unfold afterDigits at h
  unfold sizeDigits at hnil
  cases ht : b.dropWhile noDigit with
  | nil =>
    rw [ht] at h
    exact h rfl
  | cons a t =>
    have ha : ¬noDigit a = true := by
      have := List.head?_dropWhile_not noDigit b
      rw [ht] at this
      simpa using this
    rw [ht, List.takeWhile_cons_of_pos (by simpa [noDigit] using ha)] at hnil
    cases hnil

theorem IsExtension.head {ext : List UInt8} (h : IsExtension ext) (rest : List UInt8) :
    ∀ a ∈ (ext ++ 13 :: rest).head?, noDigit a = true := by
  intro a ha
  rcases h.2 with rfl | ⟨w, t, rfl, hw⟩
  · cases ha
    rfl
  · cases w with
    | nil =>
      cases ha
      rfl
    | cons b w =>
      obtain rfl := Option.some.inj ha
      have hb := hw b (by simp)
      simp only [isBlank, Bool.or_eq_true, beq_iff_eq] at hb
      rcases hb with rfl | rfl <;> rfl

/-- What is reported is right exactly if the line is allowed, or is none, or has a size that wraps
to a negative one. -/
theorem scansRight_iff (b : List UInt8) :
    ScansRight b ↔ ∀ k ∈ crlfIndex (afterDigits b), 0 ≤ toInt32 (hexValue (sizeDigits b)) →
      LineAllowed b k := by
  have hscan := scanChunk_parts b
  constructor
  · intro hright k hk hn
    rw [Option.mem_def.mp hk] at hscan
    obtain ⟨e, -, lead, ds, ext, rest, hlead, hds, hext, heq, hval, -, hlast, -⟩ :=
      hright _ _ hscan hn
    have hnolead : ∀ a ∈ lead, noDigit a = true := by
      rcases hlead with rfl | rfl
      · simp
      · decide +kernel
    obtain ⟨h1, h2, h3⟩ := parts_eq hnolead hds (hext.head (10 :: rest))
    rw [← heq] at h1 h2 h3
    rw [h3, crlfIndex_append hext.1] at hk
    cases hk
    refine ⟨by rwa [h1], ?_, by rwa [h3, List.take_left], ?_⟩
    · have hlt : toInt32 (hexValue (sizeDigits b)) < 2 ^ 31 := by
        unfold toInt32
        have := Int.bmod_lt (x := hexValue (sizeDigits b)) (m := 2 ^ 32) (by decide)
        omega
      rw [hval, ← h2] at hlt
      exact_mod_cast hlt
    · intro h0
      rw [h3, ← List.drop_drop, List.drop_left]
      exact hlast (by rw [hval, ← h2, h0, Nat.cast_zero])
  · intro hall n ret hret hn
    rw [hscan, Option.some.injEq] at hret
    cases hk : crlfIndex (afterDigits b) with
    | none =>
      rw [hk, lineFound_none, Prod.mk.injEq] at hret
      rw [← hret.1] at hn
      exact absurd hn (by decide)
    | some k =>
      rw [hk, lineFound_some, Prod.mk.injEq] at hret
      obtain ⟨rfl, hret'⟩ := hret
      obtain ⟨h1, h2, h3, h4⟩ := hall k hk hn
      have hval : toInt32 (hexValue (sizeDigits b)) = hexValue (sizeDigits b) := by
        unfold toInt32
        rw [Int.bmod_def]
        omega
      have h0 : toInt32 (hexValue (sizeDigits b)) = 0 →
          [13, 10] <+: (afterDigits b).drop (k + 2) := by
        rw [hval]
        exact fun h0 => h4 (by exact_mod_cast h0)
      obtain ⟨hsplit, -⟩ := crlfIndex_eq hk
      have hb := parts_append b
      have hlen := congrArg List.length hsplit
      have hklen : ((afterDigits b).take k).length = k := by
        simp only [List.length_append, List.length_take, List.length_cons,
          List.length_drop] at hlen ⊢
        omega
      refine ⟨_, hret'.symm, sizeLead b, sizeDigits b, (afterDigits b).take k,
        (afterDigits b).drop (k + 2), h1, ⟨sizeDigits_ne ?_, sizeDigits_hex b⟩, h3,
        by rw [← hsplit, hb], hval, by rw [hklen], h0, ?_⟩
      · intro hnil
        rw [hnil] at hk
        cases hk
      · have hblen := congrArg List.length hb
        simp only [List.length_append] at hblen
        rw [List.length_append, hklen, List.length_cons, List.length_cons] at hlen
        split_ifs with hz
        · have := (h0 hz).length_le
          simp only [List.length_cons, List.length_nil] at this
          omega
        · omega

/-- The line of the last chunk, with an extension. -/
theorem scansRight_iff_last : ScansRight (ascii "\r\n0;a\r\n\r\n") := by
  refine (scansRight_iff _).mpr fun k hk _ => ?_
  have h2 : crlfIndex (afterDigits (ascii "\r\n0;a\r\n\r\n")) = some 2 := by decide +kernel
  obtain rfl := Option.some.inj (h2.symm.trans hk)
  have hext : (afterDigits (ascii "\r\n0;a\r\n\r\n")).take 2 = [59, 97] := by decide +kernel
  refine ⟨.inr (by decide +kernel), by decide +kernel, ⟨?_, .inr ⟨[], [97], hext, by simp⟩⟩,
    fun _ => by decide +kernel⟩
  rw [hext]
  decide

/-- A size of 2 to the 32 wraps to 0. -/
theorem not_scansRight :
    scanChunk (ascii "100000000\r\n") 11 = some (0, some 13) ∧
      ¬ScansRight (ascii "100000000\r\n") := by
  have hscan : scanChunk (ascii "100000000\r\n") 11 = some (0, some 13) := by decide +kernel
  refine ⟨hscan, fun hright => ?_⟩
  obtain ⟨e, he, hreported⟩ := hright 0 (some 13) hscan le_rfl
  obtain rfl := Option.some.inj he
  obtain ⟨lead, ds, ext, rest, -, -, -, -, -, -, -, hle⟩ := hreported
  exact absurd hle (by decide)
end Webxs
