import Webxs.CanonicalHead
import Mathlib.Data.List.TakeWhile

/-!
# The text of the headers

`xs_http_parseheaders` cuts the lines of the copy as it reads them. What it finds is a function of
the text, which `headerLines` computes without a buffer : the loop refines it
(`httpHeadersLoop_text`). Behind the cursor are the strings recorded, ahead of it is text that is
not touched yet; the text ends in LF, as every head does, and has no NUL.
-/

namespace Webxs

/-! ## Lines -/

/-- Where `xs_http_skiptoEOL` stops in a text : at a CR, in front of a LF, or at the last byte. -/
def eolIndex : List UInt8 → ℕ
  | a :: b :: s => if a ≠ 13 ∧ b ≠ 10 then eolIndex (b :: s) + 1 else 0
  | _ => 0

/-- The headers of a text, with room for `n`. -/
def headerLines : ℕ → List UInt8 → List HeaderLine
  | 0, _ => []
  | n + 1, t =>
    let t := t.dropWhile isControl
    let key := t.takeWhile fun a => !isBlank a
    let v := (t.dropWhile fun a => !isBlank a).dropWhile isBlank
    if key.getLast? = some 58 then
      ⟨key.dropLast, v.take (eolIndex v)⟩ :: headerLines n (v.drop (eolIndex v + 1))
    else []

/-- A text without NUL that is empty or ends in LF. -/
structure LineText (t : List UInt8) : Prop where
  noNul : 0 ∉ t
  last : t = [] ∨ t.getLast? = some 10

/-- The header says keep-alive, or the version does. -/
def keepsAlive (version : List UInt8) (l : HeaderLine) : Bool :=
  (eqCase l.name (ascii "Connection") && eqCase l.value (ascii "keep-alive")) ||
    eqCase version (ascii "1.1")

/-! ## Scans of a text -/

theorem skipWhile_text {p : UInt8 → Bool} {m s w : List UInt8} {n c : ℕ}
    (hd : m.drop c = s ++ w) (hn : n = s.length) :
    skipWhile p m n c = c + (s.takeWhile p).length := by
  have hsplit : s.takeWhile p ++ s.dropWhile p = s := List.takeWhile_append_dropWhile
  have hlen := congrArg List.length hsplit
  rw [List.length_append] at hlen
  refine skipWhile_eq (s.takeWhile p) (s.dropWhile p ++ w) n c ?_ (fun a ha => ?_) ?_
  · rw [hd, ← List.append_assoc, hsplit]
  · exact List.mem_takeWhile_imp ha
  · cases hrest : s.dropWhile p with
    | nil =>
      rw [hrest, List.length_nil] at hlen
      exact .inl (by omega)
    | cons a rest =>
      rw [hrest, List.length_cons] at hlen
      refine .inr ⟨by omega, a, rest ++ w, rfl, ?_⟩
      have hhead := List.head?_dropWhile_not p s
      rw [hrest] at hhead
      exact hhead

theorem httpEOLLoop_text {buf w : List UInt8} :
    ∀ (s : List UInt8) n c, buf.drop c = s ++ w → n = s.length - 1 →
      httpEOLLoop buf n c = c + eolIndex s := by
  intro s
  induction s with
  | nil =>
    rintro n c - rfl
    rfl
  | cons a s ih =>
    rintro n c hd rfl
    cases s with
    | nil => rfl
    | cons b s =>
      obtain ⟨ha, hd'⟩ := getElem?_of_drop hd
      obtain ⟨hb, -⟩ := getElem?_of_drop hd'
      have hlen : (a :: b :: s).length - 1 = (b :: s).length - 1 + 1 := rfl
      rw [hlen, httpEOLLoop, eolIndex, List.getD_eq_getElem?_getD, List.getD_eq_getElem?_getD, ha,
        hb, Option.getD_some, Option.getD_some]
      split_ifs
      · rw [ih _ _ hd' rfl]
        omega
      · rfl

theorem eolIndex_lt : ∀ {s : List UInt8}, s ≠ [] → eolIndex s < s.length := by
  intro s
  induction s with
  | nil => exact fun h => absurd rfl h
  | cons a s ih =>
    intro _
    cases s with
    | nil => exact Nat.zero_lt_one
    | cons b s =>
      have := ih (List.cons_ne_nil b s)
      rw [eolIndex]
      split_ifs
      · rw [List.length_cons]
        omega
      · exact Nat.zero_lt_succ _

/-! ## Texts -/

theorem LineText.of_suffix {s t : List UInt8} (h : LineText t) (hs : s <:+ t) : LineText s where
  noNul h0 := h.noNul (hs.subset h0)
  last := by
    obtain ⟨u, rfl⟩ := hs
    cases s with
    | nil => exact .inl rfl
    | cons a s =>
      right
      obtain heq | hlast := h.last
      · cases u <;> cases heq
      · rwa [List.getLast?_append_cons] at hlast

variable {t : List UInt8}

/-- A token that ends in a colon is not the rest of a text. -/
theorem LineText.value_ne_nil (h : LineText t)
    (hcolon : (t.takeWhile fun a => !isBlank a).getLast? = some 58) :
    (t.dropWhile fun a => !isBlank a).dropWhile isBlank ≠ [] := by
  obtain rfl | hlast := h.last
  · cases hcolon
  intro hnil
  -- all that is left are blanks, and the last of them is LF
  have hsplit : (t.takeWhile fun a => !isBlank a) ++ (t.dropWhile fun a => !isBlank a) = t :=
    List.takeWhile_append_dropWhile
  cases hrest : (t.dropWhile fun a => !isBlank a) with
  | nil =>
    rw [hrest, List.append_nil] at hsplit
    rw [hsplit, hlast] at hcolon
    cases hcolon
  | cons a rest =>
    have hmem : (10 : UInt8) ∈ a :: rest := by
      rw [← hsplit, hrest, List.getLast?_append_cons] at hlast
      exact List.mem_of_getLast? hlast
    rw [hrest] at hnil
    have hblank := List.dropWhile_eq_nil_iff.mp hnil 10 hmem
    cases hblank

/-- A line of a text : a key with its colon, blanks, and a value with what follows. -/
structure SplitLine (t key gap v : List UInt8) : Prop where
  eq : t = key ++ 58 :: (gap ++ v)
  token : ∀ a ∈ key ++ [58], isBlank a = false
  head : ∀ a ∈ t.head?, isControl a = false
  blanks : ∀ a ∈ gap, isBlank a = true
  gap_ne : gap ≠ []
  start : ∀ a ∈ v.head?, isBlank a = false
  value_ne : v ≠ []

theorem LineText.exists_split (h : LineText t) (hhead : ∀ a ∈ t.head?, isControl a = false)
    (hcolon : (t.takeWhile fun a => !isBlank a).getLast? = some 58) :
    ∃ key gap v, SplitLine t key gap v := by
  obtain ⟨key, hkey⟩ := List.getLast?_eq_some_iff.mp hcolon
  obtain ⟨rest, hrest⟩ : ∃ rest, (t.dropWhile fun a => !isBlank a) = rest := ⟨_, rfl⟩
  obtain ⟨v, hv⟩ : ∃ v, rest.dropWhile isBlank = v := ⟨_, rfl⟩
  have hne : v ≠ [] := by
    rw [← hv, ← hrest]
    exact h.value_ne_nil hcolon
  have hvhead : ∀ a ∈ v.head?, isBlank a = false := by
    intro a ha
    have hstop := List.head?_dropWhile_not isBlank rest
    rw [hv, Option.mem_def.mp ha] at hstop
    exact hstop
  have hsplit : rest.takeWhile isBlank ++ v = rest := hv ▸ List.takeWhile_append_dropWhile
  refine ⟨key, rest.takeWhile isBlank, v, ?_, fun a ha => ?_, hhead, fun a ha => ?_, fun hnil => ?_,
    hvhead, hne⟩
  · have hall : (t.takeWhile fun a => !isBlank a) ++ (t.dropWhile fun a => !isBlank a) = t :=
      List.takeWhile_append_dropWhile
    rw [hsplit, ← hall, hkey, hrest, List.append_assoc, List.singleton_append]
  · rw [← hkey] at ha
    have htoken := List.mem_takeWhile_imp (p := fun a => !isBlank a) ha
    rwa [Bool.not_eq_true'] at htoken
  · exact List.mem_takeWhile_imp ha
  · -- the token ends at a blank
    obtain ⟨a, v', hav⟩ := List.exists_cons_of_ne_nil hne
    have hstop := List.head?_dropWhile_not (fun a => !isBlank a) t
    rw [hrest, ← hsplit, hnil, hav] at hstop
    have hblank : (!isBlank a) = false := hstop
    rw [hvhead a (by rw [hav]; rfl)] at hblank
    cases hblank

variable {key gap v : List UInt8}

theorem SplitLine.takeWhile_eq (h : SplitLine t key gap v) :
    (t.takeWhile fun a => !isBlank a) = key ++ [58] ∧
      (t.dropWhile fun a => !isBlank a) = gap ++ v := by
  obtain ⟨g, gap', rfl⟩ := List.exists_cons_of_ne_nil h.gap_ne
  have hg := h.blanks g List.mem_cons_self
  have htoken : ∀ a ∈ key ++ [58], (!isBlank a) = true := fun a ha => by rw [h.token a ha]; rfl
  have heq : t = (key ++ [58]) ++ (g :: gap' ++ v) := by
    rw [h.eq, List.append_assoc, List.singleton_append]
  rw [heq, List.takeWhile_append_of_pos htoken, List.dropWhile_append_of_pos htoken,
    List.cons_append, List.takeWhile_cons_of_neg (by simp [hg]),
    List.dropWhile_cons_of_neg (by simp [hg]), List.append_nil]
  exact ⟨rfl, rfl⟩

/-- A split line is the first header. -/
theorem SplitLine.headerLines_succ (h : SplitLine t key gap v) (n : ℕ) :
    headerLines (n + 1) t =
      ⟨key, v.take (eolIndex v)⟩ :: headerLines n (v.drop (eolIndex v + 1)) := by
  obtain ⟨a, t', ht⟩ : ∃ a t', t = a :: t' := by
    rw [h.eq]
    exact List.exists_cons_of_ne_nil (List.append_ne_nil_of_right_ne_nil _ (List.cons_ne_nil _ _))
  have hcontrol : t.dropWhile isControl = t := by
    rw [ht]
    exact List.dropWhile_cons_of_neg (by rw [h.head a (by rw [ht]; rfl)]; decide)
  obtain ⟨b, v', hbv⟩ := List.exists_cons_of_ne_nil h.value_ne
  have hblank : v.dropWhile isBlank = v := by
    rw [hbv]
    exact List.dropWhile_cons_of_neg (by rw [h.start b (by rw [hbv]; rfl)]; decide)
  rw [headerLines, hcontrol, h.takeWhile_eq.1, h.takeWhile_eq.2,
    List.dropWhile_append_of_pos h.blanks,
    hblank, if_pos (List.getLast?_concat ..), List.dropLast_concat]

/-! ## The loop -/

variable (strtod : List UInt8 → ℤ)

/-- One line of a text : it is cut, and the cursor ends at the NUL behind its value. -/
theorem httpHeadersLoop_textLine {Z : List UInt8} {req : HttpReq} {base rlen c : ℕ} (n : ℕ)
    (hsplit : SplitLine t key gap v) (hbuf : req.buf = Z ++ (t ++ [0])) (hc : base + c ≤ Z.length)
    (hZ : ∀ a ∈ Z.drop (base + c), isControl a = true) (hrlen : base + rlen + 1 = req.buf.length) :
    ∃ c', httpHeadersLoop strtod base rlen (n + 1) req c =
        httpHeadersLoop strtod base rlen n
          (httpPreparse strtod { req with
            buf := Z ++ (key ++ 0 :: (gap ++ (v.take (eolIndex v) ++
              0 :: (v.drop (eolIndex v + 1) ++ [0])))) }
            Z.length (Z.length + key.length + 1 + gap.length)) c' ∧
      base + c' = Z.length + key.length + 1 + gap.length + eolIndex v := by
  obtain ⟨ht, htoken, hhead, hgap, hgne, hv, hvne⟩ := hsplit
  have hkey : ∀ a ∈ key ++ [58], (!isBlank a) = true := fun a ha => by rw [htoken a ha]; rfl
  subst ht
  rw [List.append_assoc, List.cons_append, List.append_assoc] at hbuf
  have hlen := congrArg List.length hbuf
  simp only [List.length_append, List.length_cons, List.length_nil] at hlen
  have hgpos := List.length_pos_iff.mpr hgne
  have hvpos := List.length_pos_iff.mpr hvne
  have heol := eolIndex_lt hvne
  obtain ⟨k, hk⟩ : ∃ k, Z.length - base = k := ⟨_, rfl⟩
  obtain ⟨a, key', hkey'⟩ := List.exists_cons_of_ne_nil (List.append_ne_nil_of_right_ne_nil key
    (List.cons_ne_nil 58 []))
  -- the cursor after each of the four scans
  have h1 : skipWhile isControl (req.buf.drop base) (rlen - c) c = k := by
    have hd : (req.buf.drop base).drop c =
        Z.drop (base + c) ++ a :: (key' ++ (gap ++ (v ++ [0]))) := by
      have htoken : key ++ 58 :: (gap ++ (v ++ [0])) = (key ++ [58]) ++ (gap ++ (v ++ [0])) := by
        simp
      rw [List.drop_drop, hbuf, List.drop_append_of_le_length hc, htoken, hkey']
      rfl
    rw [skipWhile_eq _ _ _ _ hd hZ (.inr ⟨by rw [List.length_drop]; omega, a, _, rfl,
      hhead a (by rw [← List.singleton_append, ← List.append_assoc, hkey']; rfl)⟩),
      List.length_drop]
    omega
  have h2 : httpSkiptoken (req.buf.drop base) rlen k = k + (key.length + 1) := by
    have hd : (req.buf.drop base).drop k = (key ++ [58]) ++ (gap ++ (v ++ [0])) := by
      rw [List.drop_drop, hbuf, ← hk, show base + (Z.length - base) = Z.length by omega,
        List.drop_left]
      simp
    obtain ⟨g, gap', hg⟩ := List.exists_cons_of_ne_nil hgne
    rw [httpSkiptoken, skipWhile_eq _ _ _ _ hd hkey (.inr ⟨by
      simp only [List.length_append, List.length_cons, List.length_nil]
      omega, g, gap' ++ (v ++ [0]), by rw [hg]; rfl, by rw [hgap g (by simp [hg])]; rfl⟩)]
    simp only [List.length_append, List.length_cons, List.length_nil]
  have hcolon : req.buf.getD (base + (k + (key.length + 1)) - 1) 0 = 58 := by
    rw [← hk, show base + (Z.length - base + (key.length + 1)) - 1 = Z.length + key.length by omega,
      hbuf, List.getD_eq_getElem?_getD, List.getElem?_append_right (by omega)]
    simp
  have hset : req.buf.set (base + (k + (key.length + 1)) - 1) 0 =
      (Z ++ key ++ [0]) ++ (gap ++ (v ++ [0])) := by
    rw [hbuf, ← List.append_assoc Z, set_append_cons _ _ _ _ (by rw [List.length_append]; omega)]
    simp
  have h3 : httpSkipspace (((Z ++ key ++ [0]) ++ (gap ++ (v ++ [0]))).drop base) rlen
      (k + (key.length + 1)) = k + (key.length + 1) + gap.length := by
    have hd : (((Z ++ key ++ [0]) ++ (gap ++ (v ++ [0]))).drop base).drop (k + (key.length + 1)) =
        gap ++ (v ++ [0]) := by
      rw [List.drop_drop, show base + (k + (key.length + 1)) = (Z ++ key ++ [0]).length by
        simp only [List.length_append, List.length_cons, List.length_nil]
        omega, List.drop_left]
    obtain ⟨b, v', hv'⟩ := List.exists_cons_of_ne_nil hvne
    rw [httpSkipspace, skipWhile_eq _ _ _ _ hd hgap (.inr ⟨by omega, b, v' ++ [0],
      by rw [hv']; rfl, hv b (by rw [hv']; rfl)⟩)]
  have h4 : httpSkiptoEOL (((Z ++ key ++ [0]) ++ (gap ++ (v ++ [0]))).drop base) rlen
      (k + (key.length + 1) + gap.length) = k + (key.length + 1) + gap.length + eolIndex v := by
    have hd : (((Z ++ key ++ [0]) ++ (gap ++ (v ++ [0]))).drop base).drop
        (k + (key.length + 1) + gap.length) = v ++ [0] := by
      rw [List.drop_drop, show base + (k + (key.length + 1) + gap.length) =
        (Z ++ key ++ [0] ++ gap).length by
          simp only [List.length_append, List.length_cons, List.length_nil]
          omega, ← List.append_assoc, List.drop_left]
    exact httpEOLLoop_text v _ _ hd (by omega)
  have hset' : ((Z ++ key ++ [0]) ++ (gap ++ (v ++ [0]))).set
      (base + (k + (key.length + 1) + gap.length + eolIndex v)) 0 =
      Z ++ (key ++ 0 :: (gap ++ (v.take (eolIndex v) ++
        0 :: (v.drop (eolIndex v + 1) ++ [0])))) := by
    obtain ⟨m, hm⟩ : ∃ m, eolIndex v = m := ⟨_, rfl⟩
    rw [hm] at heol ⊢
    have hsplit : v ++ [0] = v.take m ++ v[m] :: (v.drop (m + 1) ++ [0]) := by
      rw [← List.cons_append, ← List.drop_eq_getElem_cons heol, ← List.append_assoc,
        List.take_append_drop]
    rw [hsplit, ← List.append_assoc gap, ← List.append_assoc _ (gap ++ v.take m),
      set_append_cons _ _ _ _ (by
        simp only [List.length_append, List.length_cons, List.length_nil, List.length_take]
        omega)]
    simp only [List.append_assoc, List.cons_append, List.nil_append]
  refine ⟨k + (key.length + 1) + gap.length + eolIndex v, ?_, by omega⟩
  rw [httpHeadersLoop]
  simp only [h1, h2, hcolon, hset, h3, h4, hset', ne_eq, not_true_eq_false, if_false]
  rw [if_neg (by omega), show base + k = Z.length by omega,
    show base + (k + (key.length + 1) + gap.length) = Z.length + key.length + 1 + gap.length by
      omega]

theorem isBlank_of_not_isControl {a : UInt8} (h : isControl a = false) : isBlank a = false := by
  by_contra hb
  rw [Bool.not_eq_false, isBlank, Bool.or_eq_true, beq_iff_eq, beq_iff_eq] at hb
  obtain rfl | rfl := hb <;> cases h

/-- What follows the controls at the start of a text. -/
theorem head?_dropWhile_isControl {a : UInt8} (h : a ∈ (t.dropWhile isControl).head?) :
    isControl a = false := by
  have hhead := List.head?_dropWhile_not isControl t
  rw [Option.mem_def.mp h] at hhead
  exact hhead

/-- A text whose first token does not end in a colon ends the loop. -/
theorem httpHeadersLoop_stop {Z : List UInt8} {req : HttpReq} {base rlen c : ℕ} (n : ℕ)
    (hbuf : req.buf = Z ++ (t ++ [0])) (hc : base + c ≤ Z.length)
    (hZ : ∀ a ∈ Z.drop (base + c), isControl a = true)
    (hhead : ∀ a ∈ t.head?, isControl a = false) (hrlen : base + rlen + 1 = req.buf.length)
    (hkey : (t.takeWhile fun a => !isBlank a).getLast? ≠ some 58) :
    httpHeadersLoop strtod base rlen (n + 1) req c = req := by
  have hlen := congrArg List.length hbuf
  simp only [List.length_append, List.length_cons, List.length_nil] at hlen
  obtain ⟨k, hk⟩ : ∃ k, Z.length - base = k := ⟨_, rfl⟩
  have h1 : skipWhile isControl (req.buf.drop base) (rlen - c) c = k := by
    have hd : (req.buf.drop base).drop c = Z.drop (base + c) ++ (t ++ [0]) := by
      rw [List.drop_drop, hbuf, List.drop_append_of_le_length hc]
    rw [skipWhile_eq _ _ _ _ hd hZ, List.length_drop]
    · omega
    · rw [List.length_drop]
      cases t with
      | nil => exact .inl (by rw [List.length_nil] at hlen; omega)
      | cons a t =>
        exact .inr ⟨by rw [List.length_cons] at hlen; omega, a, t ++ [0], rfl, hhead a rfl⟩
  have hd : (req.buf.drop base).drop k = t ++ [0] := by
    rw [List.drop_drop, hbuf, show base + k = Z.length by omega, List.drop_left]
  have h2 : httpSkiptoken (req.buf.drop base) rlen k =
      k + (t.takeWhile fun a => !isBlank a).length := skipWhile_text hd (by omega)
  rw [httpHeadersLoop]
  simp only [h1]
  split_ifs with hend hne
  · rfl
  · rfl
  · -- the byte in front of the cursor is the last one of the token
    exfalso
    rw [h2] at hne
    have hlast : (t.takeWhile fun a => !isBlank a).getLast? = some 58 := by
      cases t with
      | nil =>
        rw [List.length_nil] at hlen
        omega
      | cons a t =>
        have ha := isBlank_of_not_isControl (hhead a rfl)
        rw [List.takeWhile_cons_of_pos (by simp [ha])] at hne ⊢
        obtain ⟨w, hw⟩ : ∃ w, (t.takeWhile fun a => !isBlank a) = w := ⟨_, rfl⟩
        obtain ⟨rest, hrest⟩ : w <+: t := hw ▸ List.takeWhile_prefix _
        rw [hw, List.length_cons] at hne
        have hget : req.buf[Z.length + w.length]? = (a :: w)[w.length]? := by
          rw [hbuf, List.getElem?_append_right (by omega), Nat.add_sub_cancel_left, ← hrest,
            ← List.cons_append, List.append_assoc, List.getElem?_append_left (by simp)]
        obtain ⟨b, hb⟩ : ∃ b, (a :: w)[w.length]? = some b := exists_getElem? (by simp)
        rw [show base + (k + (w.length + 1)) - 1 = Z.length + w.length by omega,
          List.getD_eq_getElem?_getD, hget, hb, Option.getD_some, not_not] at hne
        rw [hw, List.getLast?_eq_getElem?, List.length_cons, Nat.add_sub_cancel, hb, hne]
    exact hkey hlast

theorem dropWhile_isControl_eq (h : ∀ a ∈ t.head?, isControl a = false) :
    t.dropWhile isControl = t := by
  cases t with
  | nil => rfl
  | cons a t => exact List.dropWhile_cons_of_neg (by rw [h a rfl]; decide)

/-- What the first line says. -/
def HttpReq.firstLine (req : HttpReq) :
    Option ℕ × Option ℕ × Option ℕ × Option ℕ × Option ℕ × Option ℕ × ℕ :=
  (req.method, req.uri, req.version, req.status, req.hash, req.query, req.statuscode)

theorem httpHeadersLoop_firstLine (base rlen : ℕ) :
    ∀ n req c, (httpHeadersLoop strtod base rlen n req c).firstLine = req.firstLine := by
  intro n
  induction n with
  | zero => exact fun _ _ => rfl
  | succ n ih =>
    intro req c
    rw [httpHeadersLoop]
    dsimp only
    split_ifs
    · rfl
    · rfl
    · exact ih _ _

theorem httpParseheaders_method (req : HttpReq) (base rlen : ℕ) :
    (httpParseheaders strtod req base rlen).method = req.method :=
  congrArg Prod.fst (httpHeadersLoop_firstLine strtod base rlen _ req 0)

/-- The loop records the headers of the text, and writes nowhere else. -/
theorem httpHeadersLoop_text {base rlen : ℕ} {version : List UInt8} (n : ℕ) :
    ∀ (P t : List UInt8) (req : HttpReq) (c : ℕ), LineText (t.dropWhile isControl) →
      req.buf = P ++ (t ++ [0]) → base + c ≤ P.length →
      (∀ a ∈ P.drop (base + c), isControl a = true) →
      StringAt P (req.version.getD 0) version → base + rlen + 1 = req.buf.length →
      ∃ r Q hs, httpHeadersLoop strtod base rlen n req c = r ∧ r.buf = P ++ Q ∧
        r.headers = req.headers ++ hs ∧ RecordsAt (P ++ Q) hs (headerLines n t) ∧
        r.keepalive = (req.keepalive || (headerLines n t).any (keepsAlive version)) ∧
        r.firstLine = req.firstLine := by
  induction n with
  | zero =>
    intro P t req c _ hbuf _ _ _ _
    exact ⟨req, t ++ [0], [], rfl, hbuf, (List.append_nil _).symm, .nil,
      (Bool.or_false _).symm, rfl⟩
  | succ n ih =>
    intro P t req c htext hbuf hc hP hver hrlen
    obtain ⟨z, hz⟩ : ∃ z, t.takeWhile isControl = z := ⟨_, rfl⟩
    obtain ⟨t', ht'⟩ : ∃ t', t.dropWhile isControl = t' := ⟨_, rfl⟩
    have hsplit : z ++ t' = t := by
      rw [← hz, ← ht']
      exact List.takeWhile_append_dropWhile
    have hcontrol : ∀ a ∈ z, isControl a = true := by
      intro a ha
      rw [← hz] at ha
      exact List.mem_takeWhile_imp ha
    have hhead : ∀ a ∈ t'.head?, isControl a = false := by
      rw [← ht']
      exact fun a ha => head?_dropWhile_isControl ha
    have hbuf' : req.buf = (P ++ z) ++ (t' ++ [0]) := by
      rw [hbuf, ← hsplit]
      simp
    have hZ : ∀ a ∈ (P ++ z).drop (base + c), isControl a = true := by
      intro a ha
      rw [List.drop_append_of_le_length hc] at ha
      obtain ha | ha := List.mem_append.mp ha
      · exact hP a ha
      · exact hcontrol a ha
    have hcz : base + c ≤ (P ++ z).length := by
      rw [List.length_append]
      omega
    rw [headerLines, ht']
    rw [ht'] at htext
    split_ifs with hcolon
    · obtain ⟨key, gap, v, hline⟩ := htext.exists_split hhead hcolon
      obtain ⟨c', hstep, hc'⟩ := httpHeadersLoop_textLine strtod n hline hbuf' hcz hZ hrlen
      have hlines := hline.headerLines_succ n
      rw [headerLines, dropWhile_isControl_eq hhead, if_pos hcolon] at hlines
      rw [hlines]
      have hsuffix : v.drop (eolIndex v + 1) <:+ t' := by
        rw [hline.eq]
        refine (List.drop_suffix _ _).trans ((List.suffix_append gap v).trans ?_)
        exact (List.suffix_cons 58 _).trans (List.suffix_append key _)
      have hnoNul : 0 ∉ key ∧ 0 ∉ v := by
        have h0 := htext.noNul
        rw [hline.eq] at h0
        simp only [List.mem_append, List.mem_cons, not_or] at h0
        exact ⟨h0.1, h0.2.2.2⟩
      -- what is behind the cursor now, up to the NUL
      obtain ⟨cut, hcut⟩ : ∃ cut, key ++ 0 :: (gap ++ (v.take (eolIndex v) ++ [0])) = cut :=
        ⟨_, rfl⟩
      have htake : (v.take (eolIndex v)).length = eolIndex v := by
        rw [List.length_take]
        have := eolIndex_lt hline.value_ne
        omega
      have hcutlen : cut.length = key.length + 1 + gap.length + eolIndex v + 1 := by
        rw [← hcut]
        simp only [List.length_append, List.length_cons, List.length_nil, htake]
        omega
      have hcutbuf : (P ++ z) ++ (key ++ 0 :: (gap ++ (v.take (eolIndex v) ++
          0 :: (v.drop (eolIndex v + 1) ++ [0])))) =
          ((P ++ z) ++ cut) ++ (v.drop (eolIndex v + 1) ++ [0]) := by
        rw [← hcut]
        simp only [List.append_assoc, List.cons_append, List.nil_append]
      have hname : StringAt ((P ++ z) ++ cut) (P ++ z).length key :=
        ⟨P ++ z, gap ++ (v.take (eolIndex v) ++ [0]),
          by rw [← hcut]; simp only [List.append_assoc], rfl, hnoNul.1⟩
      have hvalue : StringAt ((P ++ z) ++ cut) ((P ++ z).length + key.length + 1 + gap.length)
          (v.take (eolIndex v)) := by
        refine ⟨(P ++ z) ++ (key ++ 0 :: gap), [], ?_, ?_, fun h0 => hnoNul.2 ?_⟩
        · rw [← hcut]
          simp only [List.append_assoc, List.cons_append]
        · simp only [List.length_append, List.length_cons]
          omega
        · exact List.mem_of_mem_take h0
      have hver' : StringAt ((P ++ z) ++ cut) (req.version.getD 0) version := by
        rw [List.append_assoc]
        exact hver.append _
      -- the cursor is at the NUL behind the value
      have hlast : ((P ++ z) ++ cut).drop (base + c') = [0] := by
        rw [hc', ← hcut, show (P ++ z) ++ (key ++ 0 :: (gap ++ (v.take (eolIndex v) ++ [0]))) =
          ((P ++ z) ++ (key ++ 0 :: (gap ++ v.take (eolIndex v)))) ++ [0] by simp]
        refine List.drop_left' ?_
        simp only [List.length_append, List.length_cons, htake]
        omega
      have hnul : ∀ a ∈ ((P ++ z) ++ cut).drop (base + c'), isControl a = true := by
        intro a ha
        rw [hlast, List.mem_singleton] at ha
        rw [ha]
        rfl
      obtain ⟨req', hreq'⟩ : ∃ req', httpPreparse strtod { req with
          buf := ((P ++ z) ++ cut) ++ (v.drop (eolIndex v + 1) ++ [0]) } (P ++ z).length
          ((P ++ z).length + key.length + 1 + gap.length) = req' := ⟨_, rfl⟩
      have hreqbuf : req'.buf = ((P ++ z) ++ cut) ++ (v.drop (eolIndex v + 1) ++ [0]) := by
        rw [← hreq']
        rfl
      have halive : req'.keepalive =
          (req.keepalive || keepsAlive version ⟨key, v.take (eolIndex v)⟩) := by
        rw [← hreq']
        unfold httpPreparse keepsAlive
        dsimp only
        rw [(hname.append _).cstr_eq, (hvalue.append _).cstr_eq, (hver'.append _).cstr_eq,
          Bool.or_assoc]
      obtain ⟨r, Q, hs, hr, hrbuf, hheaders, hrec, hkeep, hfirst⟩ := ih ((P ++ z) ++ cut)
        (v.drop (eolIndex v + 1)) req' c'
        (htext.of_suffix ((List.dropWhile_suffix _).trans hsuffix)) hreqbuf
        (by rw [List.length_append]; omega) hnul
        (by rw [← hreq']; exact hver') (by
          rw [hreqbuf, ← hcutbuf, hrlen, hbuf', hline.eq]
          simp only [List.length_append, List.length_cons, List.length_nil, List.length_take,
            List.length_drop]
          have := eolIndex_lt hline.value_ne
          omega)
      refine ⟨r, z ++ (cut ++ Q),
        ((P ++ z).length, (P ++ z).length + key.length + 1 + gap.length) :: hs,
        ?_, ?_, ?_, ?_, ?_, ?_⟩
      · rw [hstep, hcutbuf, hreq', hr]
      · rw [hrbuf, List.append_assoc, List.append_assoc]
      · rw [hheaders, ← hreq', httpPreparse, List.append_assoc]
        rfl
      · rw [← List.append_assoc z, ← List.append_assoc P, ← List.append_assoc P]
        exact .cons ⟨hname.append Q, hvalue.append Q⟩ hrec
      · rw [hkeep, halive, List.any_cons, Bool.or_assoc]
      · rw [hfirst, ← hreq']
        rfl
    · rw [httpHeadersLoop_stop strtod n hbuf' hcz hZ hhead hrlen hcolon]
      exact ⟨req, t ++ [0], [], rfl, hbuf, (List.append_nil _).symm, .nil,
        (Bool.or_false _).symm, rfl⟩

end Webxs
