import Webxs.ChunkSize
import Webxs.PercentText
import Webxs.RequestText

/-!
# The parts of a target

`xs_http_parse` cuts the fragment and the query off the target, each with a NUL in the copy, and
decodes the three parts where they are (`uriDecode_inPlace`). The length it decodes the path with is
that of the target, unless something was cut off : then it is the negative distance back to the
start, and the path stays as it is (`decomposes_iff`).
-/

namespace Webxs

/-- A target : a path, and a query or a fragment or both. -/
structure TargetText where
  path : List UInt8
  query : Option (List UInt8)
  hash : Option (List UInt8)
  slash : path.head? = some 47
  path_plain : 63 ∉ path ∧ 35 ∉ path
  query_plain : ∀ s ∈ query, 63 ∉ s ∧ 35 ∉ s
  path_escaped : PercentEscaped path
  query_escaped : ∀ s ∈ query, PercentEscaped s
  hash_escaped : ∀ s ∈ hash, PercentEscaped s

/-- The target as it is sent. -/
def TargetText.text (t : TargetText) : List UInt8 :=
  t.path ++ (t.query.elim [] (63 :: ·) ++ t.hash.elim [] (35 :: ·))

/-! ## Decoding in place -/

theorem getD_of_drop {m v : List UInt8} {o : ℕ} (h : m.drop o = v) (i : ℕ) :
    m.getD (o + i) 0 = v.getD i 0 := by
  rw [← h, List.getD_eq_getElem?_getD, List.getD_eq_getElem?_getD, List.getElem?_drop]

theorem copyTo_singleton {m : List UInt8} {i : ℕ} (a : UInt8) (h : i < m.length) :
    Arr.copyTo m i [a] = m.set i a := by
  rw [List.set_eq_take_append_cons_drop, if_pos h, Arr.copyTo, List.length_singleton,
    List.append_assoc, List.singleton_append]

section InPlace

variable {A C D G R c : List UInt8} {k : ℕ}

/-- A byte is written in front of what is not read any more. -/
theorem set_behind (b : UInt8) (hc : c ≠ []) :
    (A ++ (D ++ (G ++ (c ++ R)))).set (A.length + D.length) b =
      A ++ ((D ++ [b]) ++ ((G ++ c).tail ++ R)) := by
  obtain ⟨x, t, hx⟩ := List.exists_cons_of_ne_nil (List.append_ne_nil_of_right_ne_nil G hc)
  rw [← List.append_assoc G, hx, List.tail_cons, ← List.append_assoc, List.cons_append,
    set_append_cons _ _ _ _ (by rw [List.length_append])]
  simp only [List.append_assoc, List.cons_append, List.nil_append]

theorem drop_behind (v : List UInt8) :
    (A ++ (D ++ (G ++ v))).drop (A.length + (D.length + G.length)) = v := by
  rw [← List.drop_drop, List.drop_left, ← List.drop_drop, List.drop_left, List.drop_left]

/-- The loop on the rest `s` of a string, of which `D` was made so far; what is between the two is
not read any more. -/
theorem uriDecodeLoop_inPlace {s : List UInt8} (hs : PercentEscaped s) :
    ∀ (D G : List UInt8) n, 0 ∉ s → D.length + G.length + s.length = k → s.length < n →
      ∃ G', uriDecodeLoop A.length A.length k (k + 1) false n (A ++ (D ++ (G ++ (s ++ 0 :: C))))
          (D.length + G.length) D.length 0 =
        (A ++ ((D ++ percentDecode s) ++ (G' ++ 0 :: C)), k, (D ++ percentDecode s).length, 0) ∧
        (D ++ percentDecode s).length + G'.length = k := by
  induction hs with
  | nil =>
    intro D G n _ hk hn
    obtain ⟨n, rfl⟩ : ∃ n', n = n' + 1 := ⟨n - 1, by omega⟩
    rw [List.length_nil] at hk
    have h0 := getD_of_drop (drop_behind (A := A) (D := D) (G := G) (0 :: C)) 0
    refine ⟨G, ?_, by rw [percentDecode, List.append_nil]; omega⟩
    rw [uriDecodeLoop, percentDecode, List.append_nil, List.nil_append]
    dsimp only
    rw [if_pos (.inr (.inr h0)), show D.length + G.length = k by omega]
  | @byte a s ha _ ih =>
    intro D G n h0 hk hn
    obtain ⟨n, rfl⟩ : ∃ n', n = n' + 1 := ⟨n - 1, by omega⟩
    rw [List.mem_cons, not_or] at h0
    rw [List.length_cons] at hk hn
    have hget : (A ++ (D ++ (G ++ (a :: s ++ 0 :: C)))).getD (A.length + (D.length + G.length)) 0 =
        a := getD_of_drop (drop_behind _) 0
    have hset : (A ++ (D ++ (G ++ (a :: s ++ 0 :: C)))).set (A.length + D.length) a =
        A ++ ((D ++ [a]) ++ ((G ++ [a]).tail ++ (s ++ 0 :: C))) :=
      set_behind a (List.cons_ne_nil a [])
    have hlen : (G ++ [a]).tail.length = G.length := by simp
    obtain ⟨G', hloop, hG'⟩ := ih (D ++ [a]) (G ++ [a]).tail n h0.2 (by
      rw [List.length_append, List.length_singleton, hlen]
      omega) (by omega)
    refine ⟨G', ?_, by
      rw [percentDecode_byte ha, ← List.singleton_append, ← List.append_assoc, hG']⟩
    rw [hlen, List.length_append, List.length_singleton,
      show D.length + 1 + G.length = D.length + G.length + 1 by omega] at hloop
    rw [uriDecodeLoop]
    dsimp only
    rw [hget, if_neg (by push_cast; simp only [Ne.symm h0.1, or_false]; omega),
      if_neg (fun h => by cases h.1), if_pos ha, hset, hloop, percentDecode_byte ha]
    simp only [List.append_assoc, List.singleton_append]
  | @escape hi lo s hhi hlo _ _ ih =>
    intro D G n h0 hk hn
    obtain ⟨n, rfl⟩ : ∃ n', n = n' + 1 := ⟨n - 1, by omega⟩
    simp only [List.mem_cons, not_or] at h0
    simp only [List.length_cons] at hk hn
    have hdrop := drop_behind (A := A) (D := D) (G := G) (37 :: hi :: lo :: s ++ 0 :: C)
    have hget : (A ++ (D ++ (G ++ (37 :: hi :: lo :: s ++ 0 :: C)))).getD
        (A.length + (D.length + G.length)) 0 = 37 := getD_of_drop hdrop 0
    have hget₁ : (A ++ (D ++ (G ++ (37 :: hi :: lo :: s ++ 0 :: C)))).getD
        (A.length + (D.length + G.length) + 1) 0 = hi := getD_of_drop hdrop 1
    have hget₂ : (A ++ (D ++ (G ++ (37 :: hi :: lo :: s ++ 0 :: C)))).getD
        (A.length + (D.length + G.length) + 2) 0 = lo := getD_of_drop hdrop 2
    have hset : (A ++ (D ++ (G ++ (37 :: hi :: lo :: s ++ 0 :: C)))).set (A.length + D.length)
        (hexByte hi lo) =
        A ++ ((D ++ [hexByte hi lo]) ++ ((G ++ [37, hi, lo]).tail ++ (s ++ 0 :: C))) :=
      set_behind _ (List.cons_ne_nil 37 [hi, lo])
    have hlen : (G ++ [37, hi, lo]).tail.length = G.length + 2 := by simp
    obtain ⟨G', hloop, hG'⟩ := ih (D ++ [hexByte hi lo]) (G ++ [37, hi, lo]).tail n h0.2.2.2 (by
      rw [List.length_append, List.length_singleton, hlen]
      omega) (by omega)
    refine ⟨G', ?_, by
      rw [percentDecode_escape, ← List.singleton_append, ← List.append_assoc, hG']⟩
    rw [hlen, List.length_append, List.length_singleton,
      show D.length + 1 + (G.length + 2) = D.length + G.length + 3 by omega] at hloop
    rw [uriDecodeLoop]
    dsimp only
    rw [hget, hget₁, hget₂, fromhex_digit hhi, fromhex_digit hlo, Int.toNat_natCast,
      Int.toNat_natCast, if_neg (by push_cast; simp only [or_false]; omega),
      if_neg (fun h => by cases h.1), if_neg (not_not.mpr rfl), if_pos (by push_cast; omega),
      if_neg (by omega), ← hexByte, hset, hloop, percentDecode_escape]
    simp only [List.append_assoc, List.singleton_append]

/-- A string is decoded where it is, with a NUL behind the result; nothing else is written but bytes
of the string behind that NUL. -/
theorem uriDecode_inPlace {s : List UInt8} (hs : PercentEscaped s) (h0 : 0 ∉ s)
    (A C : List UInt8) :
    ∃ w, (uriDecode (A ++ (s ++ 0 :: C)) A.length (s.length + 1) A.length (s.length + 1) false).2 =
      A ++ (percentDecode s ++ 0 :: (w ++ C)) ∧
      (percentDecode s).length + w.length = s.length := by
  unfold uriDecode
  dsimp only
  rw [add_sub_cancel_right]
  cases hlen : s.length with
  | zero =>
    rw [List.length_eq_zero_iff.mp hlen, if_pos (by omega)]
    exact ⟨[], rfl, rfl⟩
  | succ k =>
    obtain ⟨G, hloop, hG⟩ := uriDecodeLoop_inPlace (A := A) (C := C) (k := s.length) hs [] []
      (s.length + 1) h0 (by simp) (Nat.lt_succ_self _)
    rw [List.nil_append] at hG hloop
    have hn : (((k + 1 : ℕ) : ℤ) + 1).toNat = s.length + 1 := by omega
    rw [← hlen, if_neg (by omega), hlen, hn, ← hlen]
    rw [List.nil_append, List.nil_append, List.length_nil, Nat.zero_add] at hloop
    rw [hloop]
    dsimp only
    split_ifs with hroom
    · -- the NUL behind the string is copied, and another one put behind it
      cases G with
      | nil =>
        rw [List.length_nil] at hG
        omega
      | cons g G =>
        rw [List.length_cons] at hG
        obtain ⟨x, t, hx⟩ := List.exists_cons_of_ne_nil
          (List.append_ne_nil_of_right_ne_nil G (List.cons_ne_nil (0 : UInt8) []))
        have htl := congrArg List.length hx
        rw [List.length_append, List.length_singleton, List.length_cons] at htl
        have hr : ((s.length : ℤ) + 1 - s.length).toNat = 1 := by omega
        have hnul : (A ++ (percentDecode s ++ (g :: G ++ 0 :: C))).drop (A.length + s.length) =
            0 :: C := by
          rw [show A.length + s.length = A.length + ((percentDecode s).length + (g :: G).length) by
            rw [List.length_cons]
            omega, drop_behind]
        have hsplit : G ++ 0 :: C = x :: (t ++ C) := by
          rw [← List.cons_append, ← hx, List.append_assoc, List.singleton_append]
        have hset : (A ++ (percentDecode s ++ (g :: G ++ 0 :: C))).set
            (A.length + (percentDecode s).length) 0 =
            A ++ (percentDecode s ++ 0 :: x :: (t ++ C)) := by
          rw [List.cons_append, hsplit, ← List.append_assoc, set_append_cons _ _ _ _ (by
            rw [List.length_append]), List.append_assoc]
        have hset' : (A ++ (percentDecode s ++ 0 :: x :: (t ++ C))).set
            (A.length + ((percentDecode s).length + 1)) 0 =
            A ++ (percentDecode s ++ 0 :: 0 :: (t ++ C)) := by
          rw [← List.append_assoc, ← List.singleton_append, ← List.append_assoc,
            set_append_cons _ _ _ _ (by
              simp only [List.length_append, List.length_singleton]
              omega)]
          simp only [List.append_assoc, List.singleton_append]
        refine ⟨0 :: t, ?_, by rw [List.length_cons]; omega⟩
        rw [hr, hnul, List.take_succ_cons, List.take_zero, copyTo_singleton 0 (by
          simp only [List.length_append, List.length_cons]
          omega), hset, hset']
        rfl
    · cases G with
      | nil =>
        refine ⟨[], ?_, hG⟩
        rw [List.nil_append, ← List.append_assoc, set_append_cons _ _ _ _ (by
          rw [List.length_append])]
        rw [List.append_assoc]
        rfl
      | cons g G =>
        exfalso
        rw [List.length_cons] at hG
        exact hroom ⟨rfl, by omega, by omega⟩

end InPlace

/-! ## Cutting -/

section Cutting

variable {A s h : List UInt8} {d : UInt8}

theorem cstr_at (h0 : 0 ∉ s) (C : List UInt8) : cstr (A ++ (s ++ 0 :: C)) A.length = s :=
  cstr_eq List.drop_left h0

/-- A part is cut off at its delimiter. -/
theorem cutAt_mem (hs : d ∉ s) (h0 : 0 ∉ s) (h0' : 0 ∉ h) (hd : d ≠ 0) (C : List UInt8) :
    cutAt (A ++ (s ++ d :: (h ++ 0 :: C))) A.length d =
      (some (A.length + s.length + 1), A ++ (s ++ 0 :: (h ++ 0 :: C))) := by
  have hstr : cstr (A ++ (s ++ d :: (h ++ 0 :: C))) A.length = s ++ d :: h := by
    rw [← List.cons_append, ← List.append_assoc s]
    refine cstr_at ?_ C
    rw [List.mem_append, List.mem_cons]
    rintro (hm | rfl | hm)
    · exact h0 hm
    · exact hd rfl
    · exact h0' hm
  have hidx : (s ++ d :: h).findIdx (· == d) = s.length := by
    have hnone : s.findIdx (· == d) = s.length := List.findIdx_eq_length_of_false fun a ha => by
      rw [beq_eq_false_iff_ne]
      exact fun had => hs (had ▸ ha)
    rw [List.findIdx_append, hnone, if_neg (lt_irrefl _), List.findIdx_cons, beq_self_eq_true,
      cond_true, Nat.zero_add]
  unfold cutAt
  dsimp only
  rw [hstr, hidx, if_pos (by rw [List.length_append, List.length_cons]; omega),
    ← List.append_assoc, set_append_cons _ _ _ _ (by rw [List.length_append]), List.append_assoc]

theorem cutAt_notMem (hs : d ∉ s) (h0 : 0 ∉ s) (C : List UInt8) :
    cutAt (A ++ (s ++ 0 :: C)) A.length d = (none, A ++ (s ++ 0 :: C)) := by
  have hnone : s.findIdx (· == d) = s.length := List.findIdx_eq_length_of_false fun a ha => by
    rw [beq_eq_false_iff_ne]
    exact fun had => hs (had ▸ ha)
  unfold cutAt
  dsimp only
  rw [cstr_at h0, hnone, if_neg (lt_irrefl _)]

theorem decodeAt_inPlace (hs : PercentEscaped s) (h0 : 0 ∉ s) (C : List UInt8) :
    ∃ w, decodeAt (A ++ (s ++ 0 :: C)) (some A.length) =
      A ++ (percentDecode s ++ 0 :: (w ++ C)) ∧
      (percentDecode s).length + w.length = s.length := by
  obtain ⟨w, hw, hlen⟩ := uriDecode_inPlace hs h0 A C
  refine ⟨w, ?_, hlen⟩
  unfold decodeAt
  dsimp only
  rw [cstr_at h0, hw]

theorem cstr_behind {s : List UInt8} (h0 : 0 ∉ h) (C : List UInt8) :
    cstr (A ++ (s ++ 0 :: (h ++ 0 :: C))) (A.length + s.length + 1) = h := by
  have hA : A ++ (s ++ 0 :: (h ++ 0 :: C)) = (A ++ (s ++ [0])) ++ (h ++ 0 :: C) := by
    simp only [List.append_assoc, List.singleton_append]
  have hlen : A.length + s.length + 1 = (A ++ (s ++ [0])).length := by
    simp only [List.length_append, List.length_singleton]
    omega
  rw [hA, hlen, cstr_at h0]

/-- The string behind another one is decoded. -/
theorem decodeAt_behind (hh : PercentEscaped h) (h0 : 0 ∉ h) (A s C : List UInt8) :
    ∃ w, decodeAt (A ++ (s ++ 0 :: (h ++ 0 :: C))) (some (A.length + s.length + 1)) =
      A ++ (s ++ 0 :: (percentDecode h ++ 0 :: (w ++ C))) ∧
      (percentDecode h).length + w.length = h.length := by
  have hA : ∀ v, A ++ (s ++ 0 :: v) = (A ++ (s ++ [0])) ++ v := fun v => by
    simp only [List.append_assoc, List.singleton_append]
  have hlen : A.length + s.length + 1 = (A ++ (s ++ [0])).length := by
    simp only [List.length_append, List.length_singleton]
    omega
  obtain ⟨w, hw, hwlen⟩ := decodeAt_inPlace (A := A ++ (s ++ [0])) hh h0 C
  exact ⟨w, by rw [hA (h ++ 0 :: C), hlen, hw, ← hA], hwlen⟩

/-- A negative length decodes nothing. -/
theorem uriDecode_back (m : List UInt8) (o : ℕ) {k : ℕ} (hk : o < k) :
    (uriDecode m o ((o : ℤ) - k) o ((o : ℤ) - k) false).2 = m := by
  rw [uriDecode, if_pos (by omega)]

end Cutting

/-- What becomes of the target. -/
structure TargetCut (r : HttpReq) (uri : ℕ) (t : TargetText) : Prop where
  path : cstr r.buf uri = if t.query = none ∧ t.hash = none then percentDecode t.path else t.path
  query : r.query.map (cstr r.buf) = t.query.map percentDecode
  hash : r.hash.map (cstr r.buf) = t.hash.map percentDecode
  query_le : ∀ i ∈ r.query, i ≤ uri + t.text.length
  hash_le : ∀ i ∈ r.hash, i ≤ uri + t.text.length

theorem httpParseUri_target {req : HttpReq} {A C : List UInt8} {b : UInt8} (t : TargetText)
    (hbuf : req.buf = A ++ (t.text ++ b :: C)) (hb : isBlankOrEOL b = true)
    (htoken : ∀ a ∈ t.text, isBlankOrEOL a = false) (h0 : 0 ∉ t.text) :
    TargetCut (httpParseUri req A.length) A.length t := by
  have hterm : httpTerminatetoken req.buf A.length =
      ((t.text.length : ℤ) + 1, A ++ (t.text ++ 0 :: C)) := by
    rw [hbuf, httpTerminatetoken_token htoken hb rfl]
  obtain ⟨path, query, hash, hslash, hplain, hplain', hpath, hquery, hhash⟩ := t
  unfold TargetText.text at *
  dsimp only at *
  cases query with
  | none =>
    cases hash with
    | none =>
      rw [Option.elim_none, Option.elim_none, List.append_nil, List.append_nil] at *
      obtain ⟨w, hw, hlen⟩ := uriDecode_inPlace hpath h0 A C
      have hr : httpParseUri req A.length = { req with
          hash := none, query := none, buf := A ++ (percentDecode path ++ 0 :: (w ++ C)) } := by
        simp only [httpParseUri, hterm, cutAt_notMem hplain.2 h0, cutAt_notMem hplain.1 h0,
          Option.elim_none, hw, decodeAt]
      rw [hr]
      exact ⟨cstr_at (hpath.zero_notMem h0) _, rfl, rfl, fun i hi => (by cases hi),
        fun i hi => (by cases hi)⟩
    | some h =>
      have hhash := hhash h rfl
      rw [Option.elim_none, Option.elim_some, List.nil_append] at *
      rw [List.mem_append, List.mem_cons, not_or, not_or] at h0
      obtain ⟨hp0, -, hh0⟩ := h0
      rw [List.append_assoc, List.cons_append] at hterm
      obtain ⟨w, hw, hlen⟩ := decodeAt_behind hhash hh0 A path C
      have hr : httpParseUri req A.length = { req with
          hash := some (A.length + path.length + 1), query := none,
          buf := A ++ (path ++ 0 :: (percentDecode h ++ 0 :: (w ++ C))) } := by
        simp only [httpParseUri, hterm, cutAt_mem hplain.2 hp0 hh0 (by decide),
          cutAt_notMem hplain.1 hp0, Option.elim_none, Option.elim_some,
          uriDecode_back _ _ (by omega : A.length < A.length + path.length + 1), hw]
        rfl
      rw [hr]
      refine ⟨?_, rfl, ?_, fun i hi => (by cases hi), fun i hi => ?_⟩
      · rw [if_neg (fun hnone => by cases hnone.2)]
        exact cstr_at hp0 _
      · exact congrArg some (cstr_behind (hhash.zero_notMem hh0) _)
      · obtain rfl := Option.some.inj hi
        show A.length + path.length + 1 ≤ A.length + (path ++ ([] ++ 35 :: h)).length
        simp only [List.length_append, List.length_cons]
        omega
  | some s =>
    obtain ⟨hs63, hs35⟩ := hplain' s rfl
    have hquery := hquery s rfl
    cases hash with
    | none =>
      rw [Option.elim_none, Option.elim_some, List.append_nil] at *
      have hno : 35 ∉ path ++ 63 :: s := by
        rw [List.mem_append, List.mem_cons]
        rintro (hm | hm | hm)
        · exact hplain.2 hm
        · cases hm
        · exact hs35 hm
      have hcut := cutAt_notMem (A := A) (d := 35) hno h0 C
      rw [List.mem_append, List.mem_cons, not_or, not_or] at h0
      obtain ⟨hp0, -, hs0⟩ := h0
      rw [List.append_assoc, List.cons_append] at hterm hcut
      obtain ⟨w, hw, hlen⟩ := decodeAt_behind hquery hs0 A path C
      have hr : httpParseUri req A.length = { req with
          hash := none, query := some (A.length + path.length + 1),
          buf := A ++ (path ++ 0 :: (percentDecode s ++ 0 :: (w ++ C))) } := by
        simp only [httpParseUri, hterm, hcut, cutAt_mem hplain.1 hp0 hs0 (by decide),
          Option.elim_none, Option.elim_some,
          uriDecode_back _ _ (by omega : A.length < A.length + path.length + 1),
          show ∀ m, decodeAt m none = m from fun _ => rfl, hw]
      rw [hr]
      refine ⟨?_, ?_, rfl, fun i hi => ?_, fun i hi => (by cases hi)⟩
      · rw [if_neg (fun hnone => by cases hnone.1)]
        exact cstr_at hp0 _
      · exact congrArg some (cstr_behind (hquery.zero_notMem hs0) _)
      · obtain rfl := Option.some.inj hi
        show A.length + path.length + 1 ≤ A.length + (path ++ (63 :: s ++ [])).length
        simp only [List.length_append, List.length_cons]
        omega
    | some h =>
      have hhash := hhash h rfl
      rw [Option.elim_some, Option.elim_some] at *
      have hno : 35 ∉ path ++ 63 :: s := by
        rw [List.mem_append, List.mem_cons]
        rintro (hm | hm | hm)
        · exact hplain.2 hm
        · cases hm
        · exact hs35 hm
      have htext : path ++ (63 :: s ++ 35 :: h) ++ 0 :: C =
          (path ++ 63 :: s) ++ 35 :: (h ++ 0 :: C) := by
        simp only [List.append_assoc, List.cons_append]
      rw [htext] at hterm
      simp only [List.mem_append, List.mem_cons, not_or] at h0
      obtain ⟨hp0, ⟨-, hs0⟩, -, hh0⟩ := h0
      have hps0 : 0 ∉ path ++ 63 :: s := by
        rw [List.mem_append, List.mem_cons, not_or, not_or]
        exact ⟨hp0, by decide, hs0⟩
      have hcut : cutAt (A ++ ((path ++ 63 :: s) ++ 35 :: (h ++ 0 :: C))) A.length 35 =
          (some (A.length + (path ++ 63 :: s).length + 1),
            A ++ (path ++ 63 :: (s ++ 0 :: (h ++ 0 :: C)))) := by
        rw [cutAt_mem hno hps0 hh0 (by decide)]
        simp only [List.append_assoc, List.cons_append]
      obtain ⟨w, hw, hlen⟩ := decodeAt_behind hhash hh0 (A ++ (path ++ [0])) s C
      obtain ⟨w', hw', hlen'⟩ := decodeAt_behind hquery hs0 A path
        (percentDecode h ++ 0 :: (w ++ C))
      have hpos : A.length + (path ++ 63 :: s).length + 1 =
          (A ++ (path ++ [0])).length + s.length + 1 := by
        simp only [List.length_append, List.length_cons, List.length_nil]
        omega
      have hA : ∀ v, (A ++ (path ++ [0])) ++ v = A ++ (path ++ 0 :: v) := fun v => by
        simp only [List.append_assoc, List.singleton_append]
      rw [hA, hA, ← hpos] at hw
      have hr : httpParseUri req A.length = { req with
          hash := some (A.length + (path ++ 63 :: s).length + 1),
          query := some (A.length + path.length + 1),
          buf := A ++ (path ++ 0 :: (percentDecode s ++ 0 ::
            (w' ++ (percentDecode h ++ 0 :: (w ++ C))))) } := by
        simp only [httpParseUri, hterm, hcut, cutAt_mem hplain.1 hp0 hs0 (by decide),
          Option.elim_some, uriDecode_back _ _ (by omega : A.length < A.length + path.length + 1),
          hw, hw']
      rw [hr]
      refine ⟨?_, ?_, ?_, fun i hi => ?_, fun i hi => ?_⟩
      · rw [if_neg (fun hnone => by cases hnone.1)]
        exact cstr_at hp0 _
      · exact congrArg some (cstr_behind (hquery.zero_notMem hs0) _)
      · -- the string of the fragment is behind that of the query and its old bytes
        refine congrArg some (cstr_eq (v := w ++ C) ?_ (hhash.zero_notMem hh0))
        have hsplit : A ++ (path ++ 0 :: (percentDecode s ++ 0 ::
            (w' ++ (percentDecode h ++ 0 :: (w ++ C))))) =
            (A ++ (path ++ 0 :: (percentDecode s ++ 0 :: w'))) ++
              (percentDecode h ++ 0 :: (w ++ C)) := by
          simp only [List.append_assoc, List.cons_append]
        rw [hsplit, List.drop_left']
        simp only [List.length_append, List.length_cons]
        omega
      · obtain rfl := Option.some.inj hi
        show A.length + path.length + 1 ≤ A.length + (path ++ (63 :: s ++ 35 :: h)).length
        simp only [List.length_append, List.length_cons]
        omega
      · obtain rfl := Option.some.inj hi
        show A.length + (path ++ 63 :: s).length + 1 ≤
          A.length + (path ++ (63 :: s ++ 35 :: h)).length
        simp only [List.length_append, List.length_cons]
        omega

/-! ## The request -/

/-- The object points to the decoded parts of the target. -/
def Decomposed (r : HttpReq) (t : TargetText) : Prop :=
  r.uri.map (cstr r.buf) = some (percentDecode t.path) ∧
    r.query.map (cstr r.buf) = t.query.map percentDecode ∧
    r.hash.map (cstr r.buf) = t.hash.map percentDecode

/-- The target in the copy. -/
theorem RequestText.copy_target (q : RequestText) : ∃ A b C, q.copy = A ++ (q.target ++ b :: C) ∧
    q.uriAt = A.length ∧ isBlankOrEOL b = true := by
  obtain ⟨a, g, hg⟩ := List.exists_cons_of_ne_nil q.gap_ne
  obtain ⟨b, g', hg'⟩ := List.exists_cons_of_ne_nil q.gap'_ne
  refine ⟨q.method ++ 0 :: g, b, g' ++ (ascii "HTTP/" ++ (q.version ++ 0 :: (q.tail.tail ++ [0]))),
    ?_, ?_, ?_⟩
  · rw [copy, hg, hg']
    simp only [List.tail_cons, List.append_assoc, List.cons_append]
  · rw [uriAt, hg, List.length_append, List.length_cons, List.length_cons]
  · rw [isBlankOrEOL, q.gap'_blank b (by rw [hg']; exact List.mem_cons_self)]
    rfl

/-- A request, as any head that is framed and accepted as one is, with a target of these parts is
decomposed as it should be if and only if nothing is cut off the path, or nothing in the path has to
be decoded. -/
theorem decomposed_iff (strtod : List UInt8 → ℤ) (req r : HttpReq) {head : List UInt8}
    (hframed : httpValidrequest head head.length = some (head.length : ℤ))
    (hparse : httpParse strtod req head = (0, r)) (hmethod : r.method ≠ none) :
    (∃ q : RequestText, q.text = head) ∧
      ∀ (q : RequestText) (t : TargetText), q.text = head → q.target = t.text →
        (Decomposed r t ↔ t.query = none ∧ t.hash = none ∨ 37 ∉ t.path) := by
  refine ⟨exists_requestText strtod req hframed (by rw [hparse]) (by
    rw [hparse]
    exact hmethod), ?_⟩
  rintro q t rfl ht
  obtain ⟨r', hr', hfirst, hstr, -⟩ := q.httpParse_text strtod req
  obtain rfl : r' = r := congrArg Prod.snd (hr'.symm.trans hparse)
  obtain ⟨A, b, C, hcopy, hA, hb⟩ := q.copy_target
  have htoken : ∀ a ∈ t.text, isBlankOrEOL a = false := fun a ha =>
    q.target_token a (by rw [ht]; exact ha)
  have h0 : 0 ∉ t.text := fun hmem => by
    cases q.target_ok 0 (by rw [ht]; exact hmem)
  rw [ht] at hcopy
  have hcut : TargetCut (httpParseUri (q.cut req) A.length) A.length t :=
    httpParseUri_target t hcopy hb htoken h0
  rw [← hA] at hcut
  obtain ⟨r₁, hr₁⟩ : ∃ r₁, httpParseUri (q.cut req) q.uriAt = r₁ := ⟨_, rfl⟩
  have huri : r₁.uri = some q.uriAt := by
    rw [← hr₁]
    rfl
  rw [hr₁] at hcut hfirst hstr
  rw [ht] at hstr
  -- the strings are those that were cut and decoded
  have hmap : ∀ o : Option ℕ, (∀ i ∈ o, i ≤ q.uriAt + t.text.length) →
      o.map (cstr r'.buf) = o.map (cstr r₁.buf) := fun o ho =>
    Option.map_congr fun i hi => hstr i (ho i hi)
  have huri' : r'.uri = r₁.uri := congrArg (fun p => p.2.1) hfirst
  have hquery : r'.query = r₁.query := congrArg (fun p => p.2.2.2.2.2.1) hfirst
  have hhash : r'.hash = r₁.hash := congrArg (fun p => p.2.2.2.2.1) hfirst
  unfold Decomposed
  rw [huri', hquery, hhash, hmap _ hcut.query_le, hmap _ hcut.hash_le, huri, Option.map_some,
    hstr _ (Nat.le_add_right _ _), hcut.path, hcut.query, hcut.hash]
  simp only [and_true, Option.some.injEq]
  split_ifs with hnone
  · exact iff_of_true rfl (.inl hnone)
  · rw [eq_comm, t.path_escaped.decode_eq_self]
    exact ⟨.inr, fun h => h.resolve_left hnone⟩

/-- A path with a space in it. -/
def spacePath (query : Option (List UInt8)) (hplain : ∀ s ∈ query, 63 ∉ s ∧ 35 ∉ s)
    (hescaped : ∀ s ∈ query, PercentEscaped s) : TargetText where
  path := ascii "/a%20b"
  query := query
  hash := none
  slash := rfl
  path_plain := by decide
  query_plain := hplain
  path_escaped := .byte (by decide) (.byte (by decide) (.escape rfl rfl (by decide)
    (.byte (by decide) .nil)))
  query_escaped := hescaped
  hash_escaped := fun _ h => by cases h

theorem decomposed_iff_space :
    Decomposed (httpParse decimal (HttpReq.alloc 0 0) (ascii "GET /a%20b HTTP/1.1\r\n\r\n")).2
      (spacePath none (fun _ h => by cases h) (fun _ h => by cases h)) :=
  ((@decomposed_iff decimal (HttpReq.alloc 0 0) _ (ascii "GET /a%20b HTTP/1.1\r\n\r\n")
    (by decide +kernel) (Prod.ext (by decide +kernel) rfl) (by decide +kernel)).2
    (getText (ascii "/a%20b") (ascii "\r\n\r\n") (by decide +kernel) (by decide)
      (by decide +kernel) ⟨13, rfl, rfl⟩ (by decide) (by decide)) _ (by decide +kernel) rfl).mpr
    (.inl ⟨rfl, rfl⟩)

/-- With a query behind it the path is not decoded. -/
theorem not_decomposed_query :
    httpValidrequest (ascii "GET /a%20b?c HTTP/1.1\r\n\r\n") 25 = some 25 ∧
      (httpParse decimal (HttpReq.alloc 0 0) (ascii "GET /a%20b?c HTTP/1.1\r\n\r\n")).1 = 0 ∧
      ¬Decomposed
        (httpParse decimal (HttpReq.alloc 0 0) (ascii "GET /a%20b?c HTTP/1.1\r\n\r\n")).2
        (spacePath (some (ascii "c")) (by decide)
          (fun s hs => Option.some.inj hs ▸ .byte (by decide) .nil)) := by
  refine ⟨by decide +kernel, by decide +kernel, fun h => ?_⟩
  exact absurd h.1 (by decide +kernel)

end Webxs
