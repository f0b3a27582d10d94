import Webxs.Http

/-!
# Range requests

`xs_http_fileresponse` (`xs_server.h`) reads the `Range` header with three patterns of `sscanf`,
each of which may store a number before it fails. The check of the range is made for unsigned
numbers, but `rs` and `re` are signed : only the comparison of `re` with the size is unsigned. So a
negative start gets through, and `bytes=-5`, which asks for the last five bytes, starts five bytes
before the file. `rangesInside_iff` says that this is all that goes wrong.

The file is there and was modified. What `%lld` stores of a number that does not fit 64 bits is left
open.
-/

namespace Webxs

/-! ## Scanning -/

/-- What a format of `sscanf` consists of. -/
inductive Directive
  | lit (c : UInt8)
  | lld

/-- `isspace`. -/
def Stdio.isspace (a : UInt8) : Bool :=
  a = 32 || (9 ≤ a && a ≤ 13)

/-- `isdigit`. -/
def Stdio.isdigit (a : UInt8) : Bool :=
  48 ≤ a && a ≤ 57

/-- The value of decimal digits. -/
def digitsValue (ds : List UInt8) : ℕ :=
  ds.foldl (fun v a => v * 10 + (a.toNat - 48)) 0

/-- What is stored of a number; `huge` is what is stored of one that does not fit. -/
def storeInt64 (huge : ℤ → ℤ) (v : ℤ) : ℤ :=
  if -2 ^ 63 ≤ v ∧ v < 2 ^ 63 then v else Int.bmod (huge v) (2 ^ 64)

/-- `%lld` : the number stored, and what follows it. -/
def scanInt64 (huge : ℤ → ℤ) (s : List UInt8) : Option (ℤ × List UInt8) :=
  let s := s.dropWhile Stdio.isspace
  let neg := s.head? = some 45
  let s := if neg ∨ s.head? = some 43 then s.tail else s
  let ds := s.takeWhile Stdio.isdigit
  if ds = [] then none
  else
    some (storeInt64 huge (if neg then -digitsValue ds else digitsValue ds),
      s.dropWhile Stdio.isdigit)

/-- `sscanf` : the numbers that it stores. -/
def sscanf (huge : ℤ → ℤ) : List Directive → List UInt8 → List ℤ
  | .lit c :: ds, a :: s => if a = c then sscanf huge ds s else []
  | .lld :: ds, s =>
    match scanInt64 huge s with
    | none => []
    | some (v, s) => v :: sscanf huge ds s
  | _, _ => []

/-- A format without conversions. -/
def literal (s : String) : List Directive :=
  (ascii s).map .lit

/-! ## The response -/

/-- What `xs_http_fileresponse` answers. -/
structure FileReply where
  statuscode : ℕ
  /-- The numbers of the `Content-Range` header. -/
  contentRange : Option (ℤ × ℤ × ℕ)
  /-- The arguments `rs` and `re` of `xs_conn_write_filedata`. -/
  filedata : Option (ℕ × ℕ)
  deriving DecidableEq

/-- The range that a `Range` header asks for, of a file of `size` bytes : `rs` and `re`, or `none`
if `haverangehdr` is 0. -/
def scanRange (huge : ℤ → ℤ) (h : List UInt8) (size : ℕ) : Option (ℤ × ℤ) :=
  let r := sscanf huge (literal "bytes=" ++ [.lld] ++ literal "-" ++ [.lld]) h
  let rs := r.getD 0 0
  let re := r.getD 1 size
  if r.length = 2 then some (rs, re)
  else
    let r := sscanf huge (literal "bytes=" ++ [.lld] ++ literal "-") h
    let rs := r.getD 0 rs
    if r.length = 1 then some (rs, re)
    else
      let r := sscanf huge (literal "bytes=-" ++ [.lld]) h
      let re := r.getD 0 re
      if r.length = 1 then some (rs, re) else none

/-- The part of `xs_http_fileresponse` after the early outs, for a `GET` or not. -/
def httpFileresponse (huge : ℤ → ℤ) (h : Option (List UInt8)) (size : ℕ) (dobody : Bool) :
    FileReply :=
  let filedata (rs re : ℤ) : Option (ℕ × ℕ) :=
    if dobody = true ∧ re - rs ≠ 0 then some ((rs % 2 ^ 64).toNat, (re % 2 ^ 64).toNat) else none
  match h.bind fun h => scanRange huge h size with
  | none => ⟨200, none, filedata 0 size⟩
  | some (rs, re) =>
    -- the second comparison is unsigned
    if re < rs ∨ (size : ℤ) < re % 2 ^ 64 then ⟨400, none, none⟩
    else ⟨206, some (rs, re, size), filedata rs re⟩

/-- With status 206 the range that is announced is inside the file, and it is the one that is sent.
Otherwise the whole file is sent, or no byte of it is read. -/
def RangesInside (huge : ℤ → ℤ) (h : Option (List UInt8)) (size : ℕ) (dobody : Bool) : Prop :=
  let r := httpFileresponse huge h size dobody
  r.statuscode = 206 ∧ (∃ rs re : ℕ, r.contentRange = some ((rs : ℤ), (re : ℤ), size) ∧ rs ≤ re ∧
      re ≤ size ∧ r.filedata = if dobody = true ∧ rs ≠ re then some (rs, re) else none) ∨
    r.statuscode = 200 ∧ r.filedata = (if dobody = true ∧ size ≠ 0 then some (0, size) else none) ∨
    r.statuscode = 400 ∧ r.filedata = none

/-! ## The numbers of a header -/

/-- The number behind `bytes=`, and what follows it. -/
def rangeStart (huge : ℤ → ℤ) (h : List UInt8) : Option (ℤ × List UInt8) :=
  if ascii "bytes=" <+: h then scanInt64 huge (h.drop 6) else none

/-- The number behind a `-`, at the start of what follows the first number. -/
def rangeEnd (huge : ℤ → ℤ) : List UInt8 → Option ℤ
  | 45 :: s => (scanInt64 huge s).map Prod.fst
  | _ => none

/-- The first number is negative, and no second one is outside of the file. -/
def NegativeStart (huge : ℤ → ℤ) (h : List UInt8) (size : ℕ) : Prop :=
  ∃ p ∈ rangeStart huge h, p.1 < 0 ∧ ∀ re ∈ rangeEnd huge p.2, 0 ≤ re ∧ re ≤ size

variable {huge : ℤ → ℤ} {h s : List UInt8} {size : ℕ} {dobody : Bool} {rs re : ℤ}

theorem storeInt64_bounds (huge : ℤ → ℤ) (v : ℤ) :
    -2 ^ 63 ≤ storeInt64 huge v ∧ storeInt64 huge v < 2 ^ 63 := by
  unfold storeInt64
  split_ifs with hv
  · exact hv
  · have hpos : 0 < 2 ^ 64 := Nat.two_pow_pos 64
    have hle := Int.le_bmod (x := huge v) hpos
    have hlt := Int.bmod_lt (x := huge v) hpos
    constructor <;> omega

theorem scanInt64_bounds (hs : scanInt64 huge h = some (rs, s)) : -2 ^ 63 ≤ rs ∧ rs < 2 ^ 63 := by
  unfold scanInt64 at hs
  dsimp only at hs
  split_ifs at hs
  all_goals
    rw [Option.some.injEq, Prod.mk.injEq] at hs
    rw [← hs.1]
    exact storeInt64_bounds huge _

/-- The literal part of a format. -/
theorem sscanf_literal (huge : ℤ → ℤ) (l : List UInt8) (ds : List Directive) (h : List UInt8) :
    sscanf huge (l.map .lit ++ ds) h =
      if l <+: h then sscanf huge ds (h.drop l.length) else [] := by
  induction l generalizing h with
  | nil => simp
  | cons c l ih =>
    cases h with
    | nil => simp [sscanf]
    | cons a h =>
      simp only [List.map_cons, List.cons_append, sscanf, List.cons_prefix_cons,
        List.length_cons, List.drop_succ_cons]
      by_cases hac : a = c
      · rw [if_pos hac, ih]
        simp [hac]
      · rw [if_neg hac, if_neg fun hp => hac hp.1.symm]

theorem sscanf_lld (huge : ℤ → ℤ) (ds : List Directive) (s : List UInt8) :
    sscanf huge (.lld :: ds) s =
      match scanInt64 huge s with
      | none => []
      | some (v, s) => v :: sscanf huge ds s := by
  rw [sscanf]

theorem sscanf_end (huge : ℤ → ℤ) (s : List UInt8) :
    sscanf huge (literal "-" ++ [.lld]) s = (rangeEnd huge s).toList := by
  have hlit : literal "-" = [45].map Directive.lit := rfl
  rw [hlit, sscanf_literal]
  cases s with
  | nil => rfl
  | cons a s =>
    by_cases ha : a = 45
    · subst ha
      rw [if_pos (by simp), List.length_singleton, List.drop_one, List.tail_cons, sscanf_lld,
        rangeEnd]
      cases scanInt64 huge s <;> rfl
    · rw [if_neg (by simpa using Ne.symm ha)]
      unfold rangeEnd
      split
      · rename_i hs
        exact absurd (List.cons.inj hs).1 ha
      · rfl

/-- The range of a header with a first number. -/
theorem scanRange_of_start (hs : rangeStart huge h = some (rs, s)) :
    scanRange huge h size = some (rs, (rangeEnd huge s).getD size) := by
  unfold rangeStart at hs
  split_ifs at hs with hp
  have hfirst : ∀ ds, sscanf huge (literal "bytes=" ++ .lld :: ds) h = rs :: sscanf huge ds s := by
    intro ds
    rw [literal, sscanf_literal, if_pos hp]
    exact (sscanf_lld huge ds _).trans (by rw [show (ascii "bytes=").length = 6 from rfl, hs])
  have hthree := hfirst (literal "-" ++ [.lld])
  rw [sscanf_end] at hthree
  have htwo := hfirst (literal "-")
  have hnone : sscanf huge (literal "-") s = [] := by
    have := sscanf_literal huge (ascii "-") [] s
    rw [List.append_nil] at this
    rw [literal, this]
    split_ifs <;> rfl
  rw [hnone] at htwo
  unfold scanRange
  rw [List.append_assoc, List.append_assoc, List.singleton_append, List.append_assoc,
    List.singleton_append, hthree, htwo]
  cases rangeEnd huge s <;> rfl

/-- Without one the start is 0. -/
theorem scanRange_of_no_start (hs : rangeStart huge h = none) :
    ∀ p ∈ scanRange huge h size, p.1 = 0 := by
  have hfirst : ∀ ds, sscanf huge (literal "bytes=" ++ .lld :: ds) h = [] := by
    intro ds
    rw [literal, sscanf_literal]
    unfold rangeStart at hs
    split_ifs at hs ⊢
    · rw [sscanf_lld, show (ascii "bytes=").length = 6 from rfl, hs]
    · rfl
  unfold scanRange
  rw [List.append_assoc, List.append_assoc, List.singleton_append, List.append_assoc,
    List.singleton_append, hfirst, hfirst]
  intro p hp
  dsimp only at hp
  rw [if_neg (by simp), if_neg (by simp)] at hp
  split_ifs at hp
  · cases hp
    rfl
  · cases hp

theorem sscanf_bounds (ds : List Directive) (h : List UInt8) :
    ∀ v ∈ sscanf huge ds h, -2 ^ 63 ≤ v ∧ v < 2 ^ 63 := by
  fun_induction sscanf huge ds h with
  | case1 c ds s ih => exact ih
  | case2 => simp
  | case3 => simp
  | case4 ds s v s' hs ih =>
    rw [List.forall_mem_cons]
    exact ⟨scanInt64_bounds hs, ih⟩
  | case5 => simp

/-- The end that is scanned fits 64 bits. -/
theorem scanRange_bounds (hsize : size < 2 ^ 63) :
    ∀ p ∈ scanRange huge h size, -2 ^ 63 ≤ p.2 ∧ p.2 < 2 ^ 63 := by
  have hgetD : ∀ ds k (d : ℤ), (-2 ^ 63 ≤ d ∧ d < 2 ^ 63) →
      -2 ^ 63 ≤ (sscanf huge ds h).getD k d ∧ (sscanf huge ds h).getD k d < 2 ^ 63 := by
    intro ds k d hd
    rw [List.getD_eq_getElem?_getD]
    cases hk : (sscanf huge ds h)[k]? with
    | none => exact hd
    | some v => exact sscanf_bounds ds h v (List.mem_of_getElem? hk)
  have hend := hgetD (literal "bytes=" ++ [.lld] ++ literal "-" ++ [.lld]) 1 size (by omega)
  intro p hp
  unfold scanRange at hp
  dsimp only at hp
  split_ifs at hp
  · cases hp
    exact hend
  · cases hp
    exact hend
  · cases hp
    exact hgetD _ 0 _ hend
  · cases hp

/-! ## The response -/

theorem rangesInside_of_range (hsize : size < 2 ^ 63) {v : List UInt8}
    (hr : scanRange huge v size = some (rs, re)) :
    RangesInside huge (some v) size dobody ↔ ¬(rs < 0 ∧ 0 ≤ re ∧ re ≤ size) := by
  have hbounds := scanRange_bounds hsize (rs, re) hr
  dsimp only at hbounds
  unfold RangesInside httpFileresponse
  rw [Option.bind_some, hr]
  dsimp only
  by_cases hbad : re < rs ∨ (size : ℤ) < re % 2 ^ 64
  · rw [if_pos hbad]
    exact iff_of_true (.inr (.inr ⟨rfl, rfl⟩)) (by omega)
  rw [if_neg hbad]
  have hre : 0 ≤ re ∧ re ≤ size ∧ rs ≤ re := by omega
  constructor
  · rintro (⟨-, rs', re', hcontent, -⟩ | ⟨hstatus, -⟩ | ⟨hstatus, -⟩)
    · simp only [Option.some.injEq, Prod.mk.injEq] at hcontent
      omega
    · exact absurd hstatus (show (206 : ℕ) ≠ 200 by decide)
    · exact absurd hstatus (show (206 : ℕ) ≠ 400 by decide)
  · intro hneg
    obtain ⟨rs, rfl⟩ := Int.eq_ofNat_of_zero_le (show 0 ≤ rs by omega)
    obtain ⟨re, rfl⟩ := Int.eq_ofNat_of_zero_le hre.1
    refine .inl ⟨rfl, rs, re, rfl, by omega, by omega, ?_⟩
    have hmod : ((rs : ℤ) % 2 ^ 64).toNat = rs ∧ ((re : ℤ) % 2 ^ 64).toNat = re := by omega
    rw [hmod.1, hmod.2]
    exact if_congr (and_congr_right fun _ => by omega) rfl rfl

/-- Without a range the whole file is sent. -/
theorem rangesInside_whole (hsize : size < 2 ^ 63) {h : Option (List UInt8)}
    (hr : (h.bind fun h => scanRange huge h size) = none) :
    RangesInside huge h size dobody := by
  have hmod : ((size : ℤ) % 2 ^ 64).toNat = size := by omega
  unfold RangesInside httpFileresponse
  rw [hr]
  refine .inr (.inl ⟨rfl, ?_⟩)
  dsimp only
  rw [hmod]
  exact if_congr (and_congr_right fun _ => by omega) rfl rfl

/-- The range is inside the file unless the header begins with a negative number. -/
theorem rangesInside_iff (huge : ℤ → ℤ) (h : Option (List UInt8)) (dobody : Bool)
    (hsize : size < 2 ^ 63) :
    RangesInside huge h size dobody ↔ ∀ v ∈ h, ¬NegativeStart huge v size := by
  cases h with
  | none => exact iff_of_true (rangesInside_whole hsize rfl) (by simp)
  | some v =>
    simp only [Option.mem_def, Option.some.injEq, forall_eq']
    cases hs : rangeStart huge v with
    | none =>
      have hno : ¬NegativeStart huge v size := by
        rintro ⟨p, hp, -⟩
        rw [hs] at hp
        cases hp
      refine iff_of_true ?_ hno
      cases hr : scanRange huge v size with
      | none => exact rangesInside_whole hsize hr
      | some p =>
        obtain ⟨rs, re⟩ := p
        have h0 : rs = 0 := scanRange_of_no_start hs (rs, re) hr
        exact (rangesInside_of_range hsize hr).mpr (by omega)
    | some p =>
      obtain ⟨rs, s⟩ := p
      rw [rangesInside_of_range hsize (scanRange_of_start hs)]
      refine not_congr ⟨fun hneg => ⟨(rs, s), hs, hneg.1, fun re hre => ?_⟩, ?_⟩
      · rw [Option.mem_def.mp hre] at hneg
        exact hneg.2
      · rintro ⟨p', hp', hneg, hend⟩
        obtain rfl := Option.some.inj (hs.symm.trans hp')
        refine ⟨hneg, ?_⟩
        cases he : rangeEnd huge s with
        | none => exact ⟨by simp, le_rfl⟩
        | some re => exact hend re he

theorem rangesInside_two : RangesInside id (some (ascii "bytes=2-4")) 10 true := by
  refine (rangesInside_iff id _ true (by decide)).mpr ?_
  rintro v ⟨⟩ ⟨p, hp, hneg, -⟩
  have hstart : rangeStart id (ascii "bytes=2-4") = some (2, ascii "-4") := by decide +kernel
  obtain rfl := Option.some.inj (hstart.symm.trans hp)
  exact absurd hneg (by decide)

/-- The last five bytes. -/
theorem not_rangesInside_suffix : ¬RangesInside id (some (ascii "bytes=-5")) 10 true := by
  rintro (⟨-, rs, re, hcontent, -⟩ | ⟨hstatus, -⟩ | ⟨hstatus, -⟩)
  · have hreply : (httpFileresponse id (some (ascii "bytes=-5")) 10 true).contentRange =
        some (-5, 10, 10) := by decide +kernel
    rw [hreply] at hcontent
    simp only [Option.some.injEq, Prod.mk.injEq] at hcontent
    omega
  · exact absurd hstatus (by decide +kernel)
  · exact absurd hstatus (by decide +kernel)

end Webxs
