import Webxs.Http
import Webxs.Storing

/-!
# What parsing a head keeps

`xs_http_parse` writes the fields of the head and nothing else : the rest of the object, which
`HttpReq.fixed` collects, is as `xs_req_clear` left it. In the copy, decoding the target writes
between its first byte and the NUL behind it (`Within`), and the NUL stays.
-/

namespace Webxs

namespace HttpReq

/-- What `xs_http_parse` does not write, after it cleared the object. -/
def fixed (req : HttpReq) : ℕ × Bool × Bool × ℤ × ℕ × List UInt8 × ℕ × ℕ :=
  (req.id, req.done, req.header, req.reqlen, req.reqmallocsize, req.datamask, req.consumed,
    req.opcode)

@[simp] theorem terminate_fixed (req : HttpReq) (o : Option ℕ) :
    (req.terminate o).fixed = req.fixed := by
  cases o <;> rfl

end HttpReq

variable (strtod : List UInt8 → ℤ)

theorem httpHeadersLoop_fixed (base rlen : ℕ) :
    ∀ n req c, (httpHeadersLoop strtod base rlen n req c).fixed = req.fixed := by
  intro n
  induction n with
  | zero => exact fun _ _ => rfl
  | succ n ih =>
    intro req c
    rw [httpHeadersLoop]
    dsimp only
    split_ifs
    · rfl
    · rfl
    · exact ih _ _

@[simp] theorem httpParseheaders_fixed (req : HttpReq) (base rlen : ℕ) :
    (httpParseheaders strtod req base rlen).fixed = req.fixed :=
  httpHeadersLoop_fixed strtod base rlen _ req 0

@[simp] theorem httpParseUri_fixed (req : HttpReq) (uri : ℕ) :
    (httpParseUri req uri).fixed = req.fixed :=
  rfl

theorem httpParse_fixed (req : HttpReq) (head : List UInt8) :
    (httpParse strtod req head).2.fixed = (reqClear req).fixed := by
  unfold httpParse
  dsimp only
  split_ifs
  all_goals simp only [httpParseheaders_fixed, httpParseUri_fixed, HttpReq.terminate_fixed]
  all_goals rfl

/-! ## Strings -/

theorem cstr_eq {b : List UInt8} {i : ℕ} {s v : List UInt8} (h : b.drop i = s ++ 0 :: v)
    (hs : 0 ∉ s) : cstr b i = s := by
  have hne : ∀ a ∈ s, (a != 0) = true := fun a ha => by
    rw [bne_iff_ne]
    exact fun h0 => hs (h0 ▸ ha)
  rw [cstr, h, List.takeWhile_append_of_pos hne, List.takeWhile_cons_of_neg (by simp),
    List.append_nil]

/-- What was stored is behind what was there. -/
theorem drop_of_stored {b b' t : List UInt8} {d : ℕ} (h : Stored b d t b') (hd : d ≤ b.length) :
    ∃ v, b'.drop d = t ++ v := by
  have hlen : (b.take d).length = d := by
    rw [List.length_take, Nat.min_eq_left hd]
  have hb' := List.take_append_drop (d + t.length) b'
  rw [h.take, List.append_assoc] at hb'
  exact ⟨_, by rw [← hb', List.drop_left' hlen]⟩

/-- A string was stored with its NUL. -/
theorem cstr_of_stored {b b' t : List UInt8} {d : ℕ} (h : Stored b d (t ++ [0]) b')
    (hd : d ≤ b.length) (h0 : 0 ∉ t) : cstr b' d = t := by
  obtain ⟨v, hv⟩ := drop_of_stored h hd
  exact cstr_eq (by rw [hv, List.append_assoc, List.singleton_append]) h0

theorem cstr_spec (b : List UInt8) (i : ℕ) :
    0 ∉ cstr b i ∧ (b.drop i = cstr b i ∨ ∃ v, b.drop i = cstr b i ++ 0 :: v) := by
  unfold cstr
  induction b.drop i with
  | nil => exact ⟨by simp, .inl rfl⟩
  | cons a l ih =>
    by_cases ha : a = 0
    · rw [List.takeWhile_cons_of_neg (by simp [ha]), ha]
      exact ⟨by simp, .inr ⟨l, rfl⟩⟩
    · rw [List.takeWhile_cons_of_pos (by simpa using ha)]
      obtain ⟨h0, heq | ⟨v, heq⟩⟩ := ih
      · exact ⟨by simpa [h0] using Ne.symm ha, .inl (congrArg (a :: ·) heq)⟩
      · exact ⟨by simpa [h0] using Ne.symm ha, .inr ⟨v, congrArg (a :: ·) heq⟩⟩

/-- A string ends at a NUL, the first one. -/
theorem length_cstr_le {b : List UInt8} {i z : ℕ} (hiz : i ≤ z) (hz : b[z]? = some 0) :
    i + (cstr b i).length ≤ z ∧ b[i + (cstr b i).length]? = some 0 := by
  have hdrop : (b.drop i)[z - i]? = some 0 := by
    rw [List.getElem?_drop, ← hz]
    congr 1
    omega
  obtain ⟨h0, heq | ⟨v, heq⟩⟩ := cstr_spec b i
  · rw [heq] at hdrop
    exact absurd (List.mem_of_getElem? hdrop) h0
  · refine ⟨?_, by rw [← List.getElem?_drop, heq]; simp⟩
    by_contra hlt
    rw [heq, List.getElem?_append_left (by omega)] at hdrop
    exact h0 (List.mem_of_getElem? hdrop)

/-! ## Writes that stay inside a string -/

/-- `m'` is `m` but for the bytes from `lo` to `z`, and a NUL at `z` stays. -/
structure Within (lo z : ℕ) (m m' : List UInt8) : Prop where
  length_eq : m'.length = m.length
  other : ∀ i, i < lo ∨ z < i → m'[i]? = m[i]?
  nul : m[z]? = some 0 → m'[z]? = some 0

namespace Within

variable {lo z lo' z' : ℕ} {m m' m'' : List UInt8}

theorem refl (m : List UInt8) : Within lo z m m :=
  ⟨rfl, fun _ _ => rfl, id⟩

theorem trans (h : Within lo z m m') (h' : Within lo z m' m'') : Within lo z m m'' :=
  ⟨h'.length_eq.trans h.length_eq, fun i hi => (h'.other i hi).trans (h.other i hi),
    fun hz => h'.nul (h.nul hz)⟩

theorem mono (h : Within lo' z' m m') (hlo : lo ≤ lo') (hz : z' ≤ z) : Within lo z m m' where
  length_eq := h.length_eq
  other := fun i hi => h.other i (by omega)
  nul := fun h0 => by
    rcases Nat.lt_or_eq_of_le hz with hlt | rfl
    · rw [h.other z (.inr hlt), h0]
    · exact h.nul h0

theorem set {i : ℕ} (a : UInt8) (hi : lo ≤ i) (hz : i < z) : Within lo z m (m.set i a) where
  length_eq := List.length_set
  other := fun j hj => List.getElem?_set_ne (by omega)
  nul := fun h0 => by rw [List.getElem?_set_ne (by omega), h0]

theorem setNul {i : ℕ} (hi : lo ≤ i) (hz : i ≤ z) : Within lo z m (m.set i 0) where
  length_eq := List.length_set
  other := fun j hj => List.getElem?_set_ne (by omega)
  nul := fun h0 => by
    rcases Nat.lt_or_eq_of_le hz with hlt | rfl
    · rw [List.getElem?_set_ne (by omega), h0]
    · rw [List.getElem?_set_self (List.getElem?_eq_some_iff.mp h0).1]

theorem copyTo {i : ℕ} {src : List UInt8} (hi : lo ≤ i) (hz : i + src.length ≤ z)
    (hm : z ≤ m.length) : Within lo z m (Arr.copyTo m i src) := by
  have htake : (m.take i).length = i := by
    rw [List.length_take]
    omega
  have hother : ∀ j, j < lo ∨ z ≤ j → (Arr.copyTo m i src)[j]? = m[j]? := by
    intro j hj
    unfold Arr.copyTo
    obtain hj | hj := hj
    · rw [List.append_assoc, List.getElem?_append_left (by omega), List.getElem?_take_of_lt
        (by omega)]
    · rw [List.getElem?_append_right (by simp only [List.length_append, htake]; omega),
        List.length_append, htake, List.getElem?_drop]
      congr 1
      omega
  refine ⟨?_, fun j hj => hother j (by omega), fun h0 => by rw [hother z (.inr le_rfl), h0]⟩
  simp only [Arr.copyTo, List.length_append, htake, List.length_drop]
  omega

/-- The bytes around the string. -/
theorem eq_append (h : Within lo z m m') {A T C : List UInt8} (hm : m = A ++ T ++ C)
    (hlo : lo = A.length) (hz : z + 1 = (A ++ T).length) :
    ∃ T', T'.length = T.length ∧ m' = A ++ T' ++ C := by
  have hlen := h.length_eq
  rw [hm, List.length_append, List.length_append] at hlen
  rw [List.length_append] at hz
  refine ⟨(m'.drop A.length).take T.length, ?_, List.ext_getElem? fun i => ?_⟩
  · rw [List.length_take, List.length_drop]
    omega
  have htl : ((m'.drop A.length).take T.length).length = T.length := by
    rw [List.length_take, List.length_drop]
    omega
  rcases Nat.lt_or_ge i A.length with hi | hi
  · rw [h.other i (.inl (by omega)), hm, List.append_assoc, List.append_assoc,
      List.getElem?_append_left hi, List.getElem?_append_left hi]
  rcases Nat.lt_or_ge i (A.length + T.length) with hi' | hi'
  · rw [List.append_assoc, List.getElem?_append_right hi, List.getElem?_append_left (by omega),
      List.getElem?_take_of_lt (by omega), List.getElem?_drop]
    congr 1
    omega
  · rw [h.other i (.inr (by omega)), hm, List.getElem?_append_right (by simpa using hi'),
      List.getElem?_append_right (by rw [List.length_append, htl]; exact hi')]
    simp only [List.length_append, htl]

end Within

/-! ## Decoding a target -/

theorem uriDecodeLoop_within {lo z dst src : ℕ} {dlen slen : ℤ} (form : Bool) (hlo : lo ≤ dst)
    (hz : dst + dlen ≤ z) :
    ∀ n m s (d : ℕ) err, d ≤ dlen →
      Within lo z m (uriDecodeLoop dst src dlen slen form n m s d err).1 ∧
        (uriDecodeLoop dst src dlen slen form n m s d err).2.2.1 ≤ dlen := by
  intro n
  induction n with
  | zero => exact fun m s d err hd => ⟨.refl m, hd⟩
  | succ n ih =>
    intro m s d err hd
    have step : ∀ s' a err', d < dlen →
        Within lo z m (uriDecodeLoop dst src dlen slen form n (m.set (dst + d) a) s' (d + 1) err').1
          ∧ (uriDecodeLoop dst src dlen slen form n (m.set (dst + d) a) s' (d + 1)
            err').2.2.1 ≤ dlen := by
      intro s' a err' hlt
      obtain ⟨hw, hd'⟩ := ih (m.set (dst + d) a) s' (d + 1) err' (by push_cast; omega)
      exact ⟨(Within.set a (by omega) (by omega)).trans hw, hd'⟩
    rw [uriDecodeLoop]
    dsimp only
    split_ifs with h1 h2 h3 h4 h5
    · exact ⟨.refl m, hd⟩
    · exact step _ _ _ (by omega)
    · exact step _ _ _ (by omega)
    · exact ih _ _ _ _ hd
    · exact step _ _ _ (by omega)
    · exact ⟨.refl m, hd⟩

/-- Decoding in place, of a string with its NUL. -/
theorem uriDecode_within {m : List UInt8} {o k : ℕ} (hm : m[o + k]? = some 0) :
    Within o (o + k) m (uriDecode m o (k + 1) o (k + 1) false).2 := by
  have hlt := (List.getElem?_eq_some_iff.mp hm).1
  unfold uriDecode
  dsimp only
  rw [show (k : ℤ) + 1 - 1 = k by omega]
  by_cases h0 : (k : ℤ) ≤ 0
  · rw [if_pos h0]
    exact .refl m
  rw [if_neg h0]
  have hloop :
      Within o (o + k) m (uriDecodeLoop o o k (k + 1) false ((k : ℤ) + 1).toNat m 0 0 0).1 ∧
      (uriDecodeLoop o o k (k + 1) false ((k : ℤ) + 1).toNat m 0 0 0).2.2.1 ≤ (k : ℤ) :=
    uriDecodeLoop_within false le_rfl (by push_cast; exact le_rfl) _ m 0 0 0 (by omega)
  obtain ⟨hw, hd⟩ := hloop
  generalize uriDecodeLoop o o k (k + 1) false ((k : ℤ) + 1).toNat m 0 0 0 = r at hw hd
  obtain ⟨m', s, d, err⟩ := r
  dsimp only at hw hd ⊢
  have hlen := hw.length_eq
  split_ifs with hr
  · obtain ⟨-, -, hr⟩ := hr
    refine hw.trans ((Within.copyTo (by omega) ?_ (by omega)).trans (.setNul (by omega) ?_))
    · rw [List.length_take]
      omega
    · omega
  · exact hw.trans (.setNul (by omega) (by omega))

theorem decodeAt_within {m : List UInt8} {o : Option ℕ} {lo z : ℕ} (hm : m[z]? = some 0)
    (ho : ∀ i ∈ o, lo ≤ i ∧ i ≤ z) : Within lo z m (decodeAt m o) := by
  cases o with
  | none => exact .refl m
  | some i =>
    obtain ⟨hlo, hz⟩ := ho i rfl
    obtain ⟨hle, hnul⟩ := length_cstr_le hz hm
    exact (uriDecode_within hnul).mono hlo hle

theorem cutAt_within {m : List UInt8} {uri z : ℕ} (delim : UInt8) (hle : uri ≤ z)
    (hm : m[z]? = some 0) :
    Within uri z m (cutAt m uri delim).2 ∧ ∀ i ∈ (cutAt m uri delim).1, uri < i ∧ i ≤ z := by
  have hlen := (length_cstr_le hle hm).1
  unfold cutAt
  dsimp only
  split_ifs with hk
  · refine ⟨.setNul (by omega) (by omega), fun i hi => ?_⟩
    rw [Option.mem_def, Option.some.injEq] at hi
    omega
  · exact ⟨.refl m, fun i hi => by cases hi⟩

/-- Decoding the path of a target that is cut there : after a cut the length is negative, and
nothing is decoded. -/
theorem decodePath_within {m : List UInt8} {uri z : ℕ} {hash query : Option ℕ} (hle : uri ≤ z)
    (hm : m[z]? = some 0) (hhash : ∀ i ∈ hash, uri < i ∧ i ≤ z)
    (hquery : ∀ i ∈ query, uri < i ∧ i ≤ z) :
    Within uri z m (uriDecode m uri
      (query.elim (hash.elim ((z : ℤ) - uri + 1) fun ch => (uri : ℤ) - ch) fun ch => (uri : ℤ) - ch)
      uri (query.elim (hash.elim ((z : ℤ) - uri + 1) fun ch => (uri : ℤ) - ch)
        fun ch => (uri : ℤ) - ch) false).2 := by
  have hneg : ∀ ch : ℕ, uri < ch → (uriDecode m uri ((uri : ℤ) - ch) uri ((uri : ℤ) - ch)
      false).2 = m := fun ch hch => by rw [uriDecode, if_pos (by omega)]
  cases query with
  | some ch =>
    rw [Option.elim_some, hneg ch (hquery ch rfl).1]
    exact .refl m
  | none =>
    rw [Option.elim_none]
    cases hash with
    | some ch =>
      rw [Option.elim_some, hneg ch (hhash ch rfl).1]
      exact .refl m
    | none =>
      obtain ⟨k, rfl⟩ := Nat.exists_eq_add_of_le hle
      rw [Option.elim_none, show ((uri + k : ℕ) : ℤ) - uri + 1 = k + 1 by omega]
      exact uriDecode_within hm

/-- The target and the NUL put behind it, at `z`, are all that its decoding changes. -/
theorem httpParseUri_within {req : HttpReq} {uri z : ℕ} (hle : uri ≤ z) (hz : z < req.buf.length)
    (ht : httpTerminatetoken req.buf uri = ((z : ℤ) - uri + 1, req.buf.set z 0)) :
    Within uri z req.buf (httpParseUri req uri).buf ∧
      (httpParseUri req uri).buf[z]? = some 0 := by
  have h0 : (req.buf.set z 0)[z]? = some 0 := List.getElem?_set_self hz
  obtain ⟨hw₁, hi₁⟩ := cutAt_within 35 hle h0
  unfold httpParseUri
  rw [ht]
  dsimp only
  generalize cutAt (req.buf.set z 0) uri 35 = r₁ at hw₁ hi₁
  obtain ⟨hash, b₁⟩ := r₁
  dsimp only at hw₁ hi₁ ⊢
  have h1 := hw₁.nul h0
  obtain ⟨hw₂, hi₂⟩ := cutAt_within 63 hle h1
  generalize cutAt b₁ uri 63 = r₂ at hw₂ hi₂
  obtain ⟨query, b₂⟩ := r₂
  dsimp only at hw₂ hi₂ ⊢
  have h2 := hw₂.nul h1
  have hdec := decodePath_within hle h2 hi₁ hi₂
  have h3 := hdec.nul h2
  have hw₃ := decodeAt_within h3 fun i hi => ⟨(hi₁ i hi).1.le, (hi₁ i hi).2⟩
  have h4 := hw₃.nul h3
  have hw₄ := decodeAt_within h4 fun i hi => ⟨(hi₂ i hi).1.le, (hi₂ i hi).2⟩
  exact ⟨(Within.setNul hle le_rfl).trans (hw₁.trans (hw₂.trans (hdec.trans (hw₃.trans hw₄)))),
    hw₄.nul h4⟩

end Webxs
