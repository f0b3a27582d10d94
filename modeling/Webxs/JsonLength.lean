import Webxs.Json
import Webxs.Scanning

/-!
# The JSON reader and its length

The reader gets a length, but the scans of a call stop at a NUL only. With `d` for the first
`mend` bytes, a call stays inside `d` (`CallInside`) if the spaces it skips, its scan, and the
spaces behind a key or a scalar end at a byte of `d`. The spaces behind a closer may run out of
`d` : the text ends there in any case.

The results of the calls do not depend on what is behind `d` if and only if every call stays
inside (`jsonCalls_eq_iff`).
-/

namespace Webxs

/-- The return values and the tags of calls with the flags `permissive`. A call that reads outside
the memory is `none`, and the last. -/
def jsonCalls (m : List UInt8) (mend : ℕ) :
    Json → List Bool → List (Option (JsonResult × Option JsonTag))
  | _, [] => []
  | js, permissive :: flags =>
    match jsonNext m mend js permissive with
    | none => [none]
    | some (r, tag, js') => some (r, tag) :: jsonCalls m mend js' flags

/-! ## Staying inside -/

/-- The loop of `xs_JSONReadString` stops at a byte of the list. -/
def scanEnds (hasstart : Bool) : List UInt8 → Bool
  | [] => false
  | a :: l =>
    if a = 0 then true
    else if a = 92 then
      match l with
      | [] => false
      | _ :: l => scanEnds hasstart l
    else if a = 34 ∨ hasstart = false ∧ (a = 58 ∨ a = 44) then true
    else scanEnds hasstart l

/-- Where the search for a colon or a comma begins, if there is one. -/
def lookStart (d : List UInt8) (js : Json) (tag : JsonTag) (permissive : Bool) (sptr nptr : ℕ)
    (a : UInt8) : Option ℕ :=
  if js.mstate = .minusOne then none
  else if js.mstate = .objectStart ∧ a ≠ 125 then
    if a = 34 ∨ permissive = true then some nptr else none
  else if a = 123 ∨ a = 125 ∨ a = 91 ∨ a = 93 then none
  else if (js.mstate = .arrayStart ∨ js.mstate = .value) ∧ js.mstack ≠ [] then
    if a = 34 then some nptr
    else (jsonBare d tag permissive sptr nptr).bind Prod.snd
  else none

/-- The scans of the call end at bytes of `d`. -/
def CallInside (d : List UInt8) (js : Json) (permissive : Bool) : Prop :=
  d.length ≤ js.mptr ∨ ∃ sptr a, skipspaces d js.mptr = some sptr ∧ d[sptr]? = some a ∧
    scanEnds (a == 34) (d.drop (if a == 34 then sptr + 1 else sptr)) = true ∧
    ∀ nptr e k, jsonReadString (d ++ [0]) sptr 34 34 92 = some (some nptr, e) → sptr < nptr →
      lookStart d (js.implicit permissive a) (.clear e) permissive sptr nptr a = some k →
      (skipspaces d k).isSome

/-- Every call with the flags stays inside. -/
def CallsInside (d : List UInt8) : Json → List Bool → Prop
  | _, [] => True
  | js, permissive :: flags => CallInside d js permissive ∧
      ∀ r tag js', jsonNext (d ++ [0]) d.length js permissive = some (r, tag, js') →
        CallsInside d js' flags

/-! ## Reads of an extension -/

variable {d x t : List UInt8}

theorem skipspacesLoop_append_some {l : List UInt8} {i q : ℕ} (h : skipspacesLoop l i = some q) :
    skipspacesLoop (l ++ x) i = some q := by
  induction l generalizing i with
  | nil => cases h
  | cons a l ih =>
    rw [List.cons_append, skipspacesLoop]
    rw [skipspacesLoop] at h
    split_ifs at h ⊢
    · exact ih h
    · exact h

theorem lt_length_of_skipspaces {p q : ℕ} (h : skipspaces d p = some q) : p < d.length := by
  by_contra hp
  rw [skipspaces, List.drop_of_length_le (by omega)] at h
  cases h

theorem skipspaces_append {p q : ℕ} (h : skipspaces d p = some q) :
    skipspaces (d ++ x) p = some q := by
  have hp := lt_length_of_skipspaces h
  rw [skipspaces, List.drop_append_of_le_length (by omega)]
  exact skipspacesLoop_append_some h

/-- Every result of `f` is one of `f'`. -/
def Below {α : Type*} (f f' : Option α) : Prop :=
  ∀ r, f = some r → f' = some r

theorem Below.bind {α β : Type*} {f f' : Option α} {g g' : α → Option β} (h : Below f f')
    (hg : ∀ a, Below (g a) (g' a)) : Below (f.bind g) (f'.bind g') := by
  intro r hr
  obtain ⟨a, ha, hr⟩ := Option.bind_eq_some_iff.mp hr
  rw [h a ha, Option.bind_some]
  exact hg a r hr

theorem Below.refl {α : Type*} (f : Option α) : Below f f :=
  fun _ h => h

theorem below_getElem? (i : ℕ) : Below d[i]? (d ++ x)[i]? :=
  fun _ h => getElem?_append_some h

theorem below_skipspaces (p : ℕ) : Below (skipspaces d p) (skipspaces (d ++ x) p) :=
  fun _ h => skipspaces_append h

theorem below_strncmpCase (i : ℕ) (w : List UInt8) (n : ℕ) :
    Below (strncmpCase d i w n) (strncmpCase (d ++ x) i w n) := by
  induction n generalizing i w with
  | zero => exact Below.refl _
  | succ n ih =>
    cases w with
    | nil => exact Below.refl _
    | cons b w =>
      refine (below_getElem? i).bind fun a => ?_
      split_ifs
      · exact Below.refl _
      · exact Below.refl _
      · exact ih _ _

theorem below_jsonSlice (tag : JsonTag) (permissive : Bool) (sptr nptr : ℕ) :
    Below (jsonSlice d tag permissive sptr nptr) (jsonSlice (d ++ x) tag permissive sptr nptr) := by
  refine (below_getElem? _).bind fun a => (below_getElem? _).bind fun b => ?_
  split_ifs
  any_goals exact Below.refl _
  all_goals exact (below_getElem? _).bind fun c => Below.refl _

theorem below_jsonKey (js : Json) (tag : JsonTag) (permissive : Bool) (sptr nptr : ℕ) :
    Below (jsonKey d js tag permissive sptr nptr)
      (jsonKey (d ++ x) js tag permissive sptr nptr) := by
  refine (below_jsonSlice _ _ _ _).bind fun o => ?_
  cases o with
  | none => exact Below.refl _
  | some r =>
    exact (below_skipspaces _).bind fun v => (below_getElem? _).bind fun c => Below.refl _

theorem below_jsonBare (tag : JsonTag) (permissive : Bool) (sptr nptr : ℕ) :
    Below (jsonBare d tag permissive sptr nptr) (jsonBare (d ++ x) tag permissive sptr nptr) := by
  refine (below_getElem? _).bind fun a => ?_
  dsimp only
  split_ifs
  · refine (below_strncmpCase _ _ _).bind fun b1 => ?_
    split_ifs
    · exact Below.refl _
    · refine (below_strncmpCase _ _ _).bind fun b2 => ?_
      split_ifs
      · exact Below.refl _
      · exact (below_strncmpCase _ _ _).bind fun b3 => Below.refl _
  · exact Below.refl _
  · exact Below.refl _

theorem below_jsonScalar (tag : JsonTag) (permissive : Bool) (sptr nptr : ℕ) :
    Below (jsonScalar d tag permissive sptr nptr)
      (jsonScalar (d ++ x) tag permissive sptr nptr) := by
  refine (below_getElem? _).bind fun a => ?_
  split_ifs
  · exact below_jsonBare _ _ _ _
  · exact (below_jsonSlice _ _ _ _).bind fun o => Below.refl _

theorem below_jsonAfterScalar (js : Json) (nptr : ℕ) :
    Below (jsonAfterScalar d js nptr) (jsonAfterScalar (d ++ x) js nptr) := by
  unfold jsonAfterScalar
  split_ifs
  · exact (below_skipspaces _).bind fun v => (below_getElem? _).bind fun c => Below.refl _
  · exact Below.refl _

theorem below_jsonValue (js : Json) (tag : JsonTag) (permissive : Bool) (sptr nptr : ℕ) :
    Below (jsonValue d js tag permissive sptr nptr)
      (jsonValue (d ++ x) js tag permissive sptr nptr) := by
  unfold jsonValue
  split_ifs
  · refine (below_jsonScalar _ _ _ _).bind fun r => ?_
    obtain ⟨tag', o⟩ := r
    cases o with
    | none => exact Below.refl _
    | some k => exact (below_jsonAfterScalar _ _).bind fun o => Below.refl _
  · exact Below.refl _

/-! ## Where scans stop -/

/-- The scan of a token that begins at `q` stopped at `n`, behind a quote or at another stop. -/
def Stopped (m : List UInt8) (q n : ℕ) : Prop :=
  (q < n ∧ m[n - 1]? = some 34) ∨
    (q ≤ n ∧ ∃ c, m[n]? = some c ∧ (c = 0 ∨ c = 58 ∨ c = 44))

/-- A byte that stops the scan is at or behind the first byte of the token. -/
theorem Stopped.exists_stop {m : List UInt8} {q n : ℕ} (h : Stopped m q n) :
    ∃ j c, q ≤ j ∧ n ≤ j + 1 ∧ m[j]? = some c ∧ (c = 0 ∨ c = 34 ∨ c = 58 ∨ c = 44) := by
  obtain ⟨hlt, h⟩ | ⟨hle, c, h, hc⟩ := h
  · exact ⟨n - 1, 34, by omega, by omega, h, by simp⟩
  · exact ⟨n, c, hle, by omega, h, hc.imp_right .inr⟩

theorem Stopped.le_length {m : List UInt8} {q n : ℕ} (h : Stopped m q n) : n ≤ m.length := by
  obtain ⟨j, c, -, hn, hj, -⟩ := h.exists_stop
  have := (List.getElem?_eq_some_iff.mp hj).1
  omega

/-- A scan that ends in `l` does so whatever follows. -/
theorem loop_of_scanEnds {hasstart : Bool} (l : List UInt8) (e : Bool)
    (h : scanEnds hasstart l = true) :
    ∃ ret k e', ((0 < k ∧ l[k - 1]? = some 34) ∨
        ¬(hasstart = true ∧ ret = true) ∧ ∃ c, l[k]? = some c ∧ (c = 0 ∨ c = 58 ∨ c = 44)) ∧
      ∀ i t, t ≠ [] → jsonReadStringLoop 34 92 hasstart (l ++ t) i e = some (ret, i + k, e') := by
  fun_induction scanEnds hasstart l generalizing e with
  | case1 => cases h
  | case2 l =>
    exact ⟨false, 0, e, .inr ⟨by simp, 0, rfl, .inl rfl⟩, fun i t ht => by
      rw [List.cons_append, jsonReadStringLoop_cons, if_pos rfl, Nat.add_zero]⟩
  | case3 => cases h
  | case4 b l h0 ih =>
    obtain ⟨ret, k, e', hstop, hloop⟩ := ih true h
    refine ⟨ret, k + 2, e', ?_, fun i t ht => ?_⟩
    · obtain ⟨hk, hq⟩ | hc := hstop
      · refine .inl ⟨by omega, ?_⟩
        rw [show k + 2 - 1 = k - 1 + 2 by omega]
        exact hq
      · exact .inr hc
    · rw [List.cons_append, jsonReadStringLoop_cons, if_neg h0, if_pos rfl]
      exact (hloop (i + 2) t ht).trans (by rw [Nat.add_assoc, Nat.add_comm 2 k])
  | case5 a l h0 h92 hstop =>
    obtain rfl | ⟨hst, hc⟩ := hstop
    · refine ⟨true, 1, e, .inl ⟨by omega, rfl⟩, fun i t ht => ?_⟩
      obtain ⟨b, f, hf⟩ := List.exists_cons_of_ne_nil (l := l ++ t) (by simp [ht])
      rw [List.cons_append, jsonReadStringLoop_cons, hf]
      rfl
    · refine ⟨true, 0, e, .inr ⟨by simp [hst], a, rfl, .inr hc⟩, fun i t ht => ?_⟩
      have h34 : a ≠ 34 := by obtain rfl | rfl := hc <;> decide
      rw [List.cons_append, jsonReadStringLoop_cons, if_neg h0, if_neg h92, if_neg h34,
        if_pos ⟨hst, hc⟩, Nat.add_zero]
  | case6 a l h0 h92 hstop ih =>
    obtain ⟨ret, k, e', hk, hloop⟩ := ih e h
    obtain ⟨h34, hcs⟩ := not_or.mp hstop
    refine ⟨ret, k + 1, e', ?_, fun i t ht => ?_⟩
    · obtain ⟨hk, hq⟩ | hc := hk
      · refine .inl ⟨by omega, ?_⟩
        rw [show k + 1 - 1 = k - 1 + 1 by omega]
        exact hq
      · exact .inr hc
    · rw [List.cons_append, jsonReadStringLoop_cons, if_neg h0, if_neg h92, if_neg h34, if_neg hcs,
        hloop (i + 1) t ht, Nat.add_assoc, Nat.add_comm 1 k]

/-- A scan that does not end in `l` runs into an escape, or an escape takes it over the next
byte. -/
theorem loop_of_not_scanEnds {hasstart : Bool} (l : List UInt8) (h : scanEnds hasstart l = false) :
    (scanEnds hasstart (l ++ [0]) = true ∧
        ∀ i e, jsonReadStringLoop 34 92 hasstart (l ++ [92, 0]) i e = none) ∨
      (scanEnds hasstart (l ++ [0, 0]) = true ∧
        ∀ i e, jsonReadStringLoop 34 92 hasstart (l ++ [0]) i e = none) := by
  fun_induction scanEnds hasstart l with
  | case1 =>
    refine .inl ⟨by simp [scanEnds], fun i e => ?_⟩
    rw [List.nil_append, jsonReadStringLoop_cons, if_neg (by decide), if_pos rfl]
    rfl
  | case2 => cases h
  | case3 h0 =>
    refine .inr ⟨by simp [scanEnds], fun i e => ?_⟩
    rw [List.singleton_append, jsonReadStringLoop_cons, if_neg h0, if_pos rfl]
    rfl
  | case4 b l h0 ih =>
    have hstep : ∀ t i e, jsonReadStringLoop 34 92 hasstart (92 :: b :: l ++ t) i e =
        jsonReadStringLoop 34 92 hasstart (l ++ t) (i + 2) true := fun t i e => by
      rw [List.cons_append, jsonReadStringLoop_cons, if_neg h0, if_pos rfl]
      rfl
    have hends : ∀ t, scanEnds hasstart (92 :: b :: l ++ t) = scanEnds hasstart (l ++ t) :=
      fun t => by simp [scanEnds]
    simp only [hstep, hends]
    obtain ⟨h1, h2⟩ | ⟨h1, h2⟩ := ih h
    · exact .inl ⟨h1, fun i _ => h2 _ _⟩
    · exact .inr ⟨h1, fun i _ => h2 _ _⟩
  | case5 => cases h
  | case6 a l h0 h92 hstop ih =>
    obtain ⟨h34, hcs⟩ := not_or.mp hstop
    have hstep : ∀ t i e, jsonReadStringLoop 34 92 hasstart (a :: l ++ t) i e =
        jsonReadStringLoop 34 92 hasstart (l ++ t) (i + 1) e := fun t i e => by
      rw [List.cons_append, jsonReadStringLoop_cons, if_neg h0, if_neg h92, if_neg h34, if_neg hcs]
    have hends : ∀ t, scanEnds hasstart (a :: l ++ t) = scanEnds hasstart (l ++ t) := fun t => by
      rw [List.cons_append, scanEnds.eq_def]
      simp only [h0, h92, hstop, if_false]
    simp only [hstep, hends]
    obtain ⟨h1, h2⟩ | ⟨h1, h2⟩ := ih h
    · exact .inl ⟨h1, fun i e => h2 _ _⟩
    · exact .inr ⟨h1, fun i e => h2 _ _⟩

theorem skipspacesLoop_isSome {l : List UInt8} {a : UInt8} (ha : a ∈ l) (hsp : isspace a = false)
    (i : ℕ) : ∃ q, skipspacesLoop l i = some q := by
  induction l generalizing i with
  | nil => cases ha
  | cons b l ih =>
    rw [skipspacesLoop]
    split_ifs with hb
    · obtain rfl | ha := List.mem_cons.mp ha
      · rw [hb] at hsp
        cases hsp
      · exact ih ha (i + 1)
    · exact ⟨i, rfl⟩

theorem skipspaces_isSome {m : List UInt8} {p j : ℕ} {a : UInt8} (ha : m[j]? = some a)
    (hsp : isspace a = false) (hpj : p ≤ j) : ∃ q, skipspaces m p = some q := by
  refine skipspacesLoop_isSome (a := a) (List.mem_of_getElem? (i := j - p) ?_) hsp p
  rw [List.getElem?_drop, show p + (j - p) = j by omega, ha]

/-- Behind `d` there is a byte that is no space. -/
theorem skipspaces_append_isSome (ht : 0 ∈ t) {p : ℕ} (hp : p ≤ d.length) :
    ∃ q, skipspaces (d ++ t) p = some q := by
  obtain ⟨j, hj⟩ := List.getElem?_of_mem ht
  refine skipspaces_isSome (j := d.length + j) (a := 0) ?_ rfl (by omega)
  rw [List.getElem?_append_right (by omega), show d.length + j - d.length = j by omega, hj]

/-- The scan of a token stays in `d`. -/
theorem jsonReadString_inside {q : ℕ} {a : UInt8} (ha : d[q]? = some a) (hsp : isspace a = false)
    (h : scanEnds (a == 34) (d.drop (if a == 34 then q + 1 else q)) = true) :
    ∃ o e, (∀ t, t ≠ [] → jsonReadString (d ++ t) q 34 34 92 = some (o, e)) ∧
      ∀ n, o = some n → Stopped d q n ∧ (a = 34 → d[n - 1]? = some 34) := by
  have hq : q < d.length := (List.getElem?_eq_some_iff.mp ha).1
  obtain ⟨ret, k, e, hstop, hloop⟩ := loop_of_scanEnds _ false h
  set s := if a == 34 then q + 1 else q with hs
  have hsle : q ≤ s ∧ s ≤ d.length := by
    rw [hs]
    split_ifs <;> omega
  have hskip : skipspaces d q = some q := by
    rw [skipspaces, List.drop_eq_getElem_cons hq, skipspacesLoop, if_neg]
    obtain ⟨_, rfl⟩ := List.getElem?_eq_some_iff.mp ha
    simp [hsp]
  refine ⟨if ret = true ∨ (a == 34) = false then some (s + k) else none, e, fun t ht => ?_, ?_⟩
  · unfold jsonReadString
    simp only [skipspaces_append hskip, Option.bind_eq_bind, Option.bind_some,
      getElem?_append_some ha]
    rw [← hs, List.drop_append_of_le_length hsle.2, hloop s t ht]
    rfl
  · intro n hn
    split_ifs at hn with hret
    obtain rfl := Option.some.inj hn
    obtain ⟨hk, h34⟩ | ⟨hne, c, hc, hcs⟩ := hstop
    · rw [List.getElem?_drop, show s + (k - 1) = s + k - 1 by omega] at h34
      exact ⟨.inl ⟨by omega, h34⟩, fun _ => h34⟩
    · rw [List.getElem?_drop] at hc
      refine ⟨.inr ⟨by omega, c, hc, hcs⟩, fun h34 => ?_⟩
      subst h34
      exact absurd ⟨rfl, hret.resolve_right (by simp)⟩ hne

/-! ## Calls that stay inside -/

theorem jsonSlice_isSome {m : List UInt8} {q n : ℕ} {a : UInt8} (ha : m[q]? = some a) (hqn : q < n)
    (h : Stopped m q n) (tag : JsonTag) (permissive : Bool) :
    ∃ o, jsonSlice m tag permissive q n = some o ∧
      (∀ tag' n', o = some (tag', n') → n' = n ∧ (a = 34 ∨ permissive = true)) ∧
      ((a = 34 → m[n - 1]? = some 34) → a = 34 ∨ permissive = true → o ≠ none) := by
  have hb : ∃ b, m[n - 1]? = some b := exists_getElem? (by have := h.le_length; omega)
  obtain ⟨b, hb⟩ := hb
  unfold jsonSlice
  simp only [ha, hb, Option.bind_eq_bind, Option.bind_some, Option.some.injEq]
  rw [if_neg (by omega)]
  by_cases hperm : a ≠ 34 ∧ permissive = false
  · rw [if_pos hperm]
    refine ⟨none, rfl, by simp, fun _ h => ?_⟩
    obtain h | h := h <;> simp [h] at hperm
  · have hperm' : a = 34 ∨ permissive = true := by
      rcases Classical.em (a = 34) with h34 | h34
      · exact .inl h34
      · exact .inr (by simpa [h34] using hperm)
    rw [if_neg hperm]
    by_cases h1 : b ≠ 34 ∧ permissive = false
    · rw [if_pos h1]
      exact ⟨none, rfl, by simp, fun hq _ _ => h1.1 (hq (hperm'.resolve_right (by simp [h1.2])))⟩
    · rw [if_neg h1]
      by_cases h34 : b = 34
      · have hn : n - 1 + 1 = n := by omega
        simp only [h34, ne_eq, not_true_eq_false, if_false, hb, Option.bind_some, if_true, hn]
        exact ⟨_, rfl, fun tag' n' ho => ⟨(Prod.mk.inj (Option.some.inj ho)).2.symm, hperm'⟩,
          by simp⟩
      · -- no quote before the stop
        obtain ⟨-, hquote⟩ | ⟨-, c, hc, hcs⟩ := h
        · exact absurd (Option.some.inj (hb.symm.trans hquote)) h34
        · have hc34 : c ≠ 34 := by obtain rfl | rfl | rfl := hcs <;> decide
          have hn : n - 1 + 1 = n := by omega
          simp only [ne_eq, h34, not_false_eq_true, if_true, hn, hc, Option.bind_some, hc34,
            if_false]
          exact ⟨_, rfl, fun tag' n' ho => ⟨(Prod.mk.inj (Option.some.inj ho)).2.symm, hperm'⟩,
            by simp⟩

/-- A word is compared inside : a byte that stops a scan is no letter. -/
theorem strncmpCase_isSome {m : List UInt8} {j : ℕ} {c : UInt8} (hj : m[j]? = some c)
    (hc : c = 0 ∨ c = 34 ∨ c = 58 ∨ c = 44) {w : List UInt8}
    (hw : ∀ b ∈ w, b ≠ 0 ∧ lower b ≠ 0 ∧ lower b ≠ 34 ∧ lower b ≠ 58 ∧ lower b ≠ 44) {i : ℕ}
    (hij : i ≤ j) :
    ∃ r, strncmpCase m i w w.length = some r ∧ (r = true → i + w.length ≤ j) := by
  induction w generalizing i with
  | nil => exact ⟨true, rfl, fun _ => by simpa using hij⟩
  | cons b w ih =>
    obtain ⟨a, ha⟩ := exists_getElem? (l := m) (i := i)
      (by have := (List.getElem?_eq_some_iff.mp hj).1; omega)
    obtain ⟨hb0, hb1, hb2, hb3, hb4⟩ := hw b (by simp)
    rw [List.length_cons, strncmpCase]
    simp only [ha, Option.bind_eq_bind, Option.bind_some]
    by_cases hab : lower a = lower b
    · have hne : i ≠ j := by
        rintro rfl
        obtain rfl := Option.some.inj (ha.symm.trans hj)
        obtain rfl | rfl | rfl | rfl := hc
        · exact hb1 hab.symm
        · exact hb2 hab.symm
        · exact hb3 hab.symm
        · exact hb4 hab.symm
      have ha0 : a ≠ 0 := by
        rintro rfl
        exact hb1 hab.symm
      rw [if_neg (by simp [hab]), if_neg (by simp [ha0, hb0])]
      obtain ⟨r, hr, hle⟩ := ih (fun x hx => hw x (by simp [hx])) (show i + 1 ≤ j by omega)
      exact ⟨r, hr, fun h => by have := hle h; omega⟩
    · rw [if_pos hab]
      exact ⟨false, rfl, by simp⟩

theorem jsonBare_isSome {m : List UInt8} {q n : ℕ} {a : UInt8} (ha : m[q]? = some a)
    (h : Stopped m q n) (tag : JsonTag) (permissive : Bool) :
    ∃ tag' o, jsonBare m tag permissive q n = some (tag', o) ∧
      ∀ k, o = some k → k = n ∨ ∃ j c, m[j]? = some c ∧ k ≤ j ∧ isspace c = false := by
  obtain ⟨j, c, hqj, -, hj, hc⟩ := h.exists_stop
  have hcs : isspace c = false := by obtain rfl | rfl | rfl | rfl := hc <;> rfl
  obtain ⟨r1, h1, hle1⟩ := strncmpCase_isSome hj hc (w := ascii "true") (by decide +kernel) hqj
  obtain ⟨r2, h2, hle2⟩ := strncmpCase_isSome hj hc (w := ascii "false") (by decide +kernel) hqj
  obtain ⟨r3, h3, hle3⟩ := strncmpCase_isSome hj hc (w := ascii "null") (by decide +kernel) hqj
  unfold jsonBare
  simp only [ha, Option.bind_eq_bind, Option.bind_some]
  rw [show strncmpCase m q (ascii "true") 4 = some r1 from h1,
    show strncmpCase m q (ascii "false") 5 = some r2 from h2,
    show strncmpCase m q (ascii "null") 4 = some r3 from h3]
  simp only [Option.bind_some]
  split_ifs with hword hr1 hr2 hr3 hperm
  · exact ⟨_, _, rfl, fun k hk => .inr ⟨j, c, hj, Option.some.inj hk ▸ hle1 hr1, hcs⟩⟩
  · exact ⟨_, _, rfl, fun k hk => .inr ⟨j, c, hj, Option.some.inj hk ▸ hle2 hr2, hcs⟩⟩
  · exact ⟨_, _, rfl, fun k hk => .inr ⟨j, c, hj, Option.some.inj hk ▸ hle3 hr3, hcs⟩⟩
  · exact ⟨_, _, rfl, by simp⟩
  · exact ⟨_, _, rfl, fun k hk => .inl (Option.some.inj hk).symm⟩
  · exact ⟨_, _, rfl, fun k hk => .inl (Option.some.inj hk).symm⟩

/-- The readers differ at most in where behind the first `n` bytes they are. -/
structure Json.Same (n : ℕ) (js js' : Json) : Prop where
  mstate_eq : js.mstate = js'.mstate
  mstack_eq : js.mstack = js'.mstack
  mptr_eq : js.mptr = js'.mptr ∨ n ≤ js.mptr ∧ n ≤ js'.mptr

theorem Json.Same.refl (n : ℕ) (js : Json) : js.Same n js :=
  ⟨rfl, rfl, .inl rfl⟩

theorem Json.Same.trans {n : ℕ} {js js' js'' : Json} (h : js.Same n js') (h' : js''.Same n js') :
    js.Same n js'' where
  mstate_eq := h.mstate_eq.trans h'.mstate_eq.symm
  mstack_eq := h.mstack_eq.trans h'.mstack_eq.symm
  mptr_eq := by
    have := h.mptr_eq
    have := h'.mptr_eq
    omega

/-- What a call gives does not depend on the bytes `t` behind `d`. -/
def Agrees (d : List UInt8) (f : List UInt8 → Option (JsonResult × Option JsonTag × Json)) : Prop :=
  ∃ r tag js₀, ∀ t, 0 ∈ t → ∃ js', f t = some (r, tag, js') ∧ js'.Same d.length js₀

theorem agrees_const {f : List UInt8 → Option (JsonResult × Option JsonTag × Json)}
    {r : JsonResult} {tag : Option JsonTag} {js : Json}
    (h : ∀ t, 0 ∈ t → f t = some (r, tag, js)) : Agrees d f :=
  ⟨r, tag, js, fun t ht => ⟨js, h t ht, .refl _ _⟩⟩

theorem agrees_of_below {f : List UInt8 → Option (JsonResult × Option JsonTag × Json)}
    (f₀ : Option (JsonResult × Option JsonTag × Json)) (h : f₀.isSome) (hf : ∀ t, Below f₀ (f t)) :
    Agrees d f := by
  obtain ⟨⟨r, tag, js⟩, h⟩ := Option.isSome_iff_exists.mp h
  exact agrees_const fun t _ => hf t _ h

variable {js : Json} {tag : JsonTag} {permissive : Bool} {q n : ℕ} {a : UInt8}

theorem jsonEnd_agrees (hq : q < d.length) (start : JsonState) (type : JsonType) :
    Agrees d fun t => jsonEnd (d ++ t) js tag start type q := by
  unfold jsonEnd
  obtain ⟨mptr, mstate, mstack⟩ := js
  obtain _ | ⟨sv, _ | ⟨last, rest⟩⟩ := mstack
  · exact agrees_const fun t _ => rfl
  · dsimp only
    split_ifs <;> exact agrees_const fun t _ => rfl
  · dsimp only
    split_ifs
    · exact agrees_const fun t _ => rfl
    · cases hv : skipspaces d (q + 1) with
      | some v =>
        obtain ⟨-, b, hb, -⟩ := skipspaces_spec hv
        simp only [skipspaces_append hv, getElem?_append_some hb, Option.bind_eq_bind,
          Option.bind_some]
        exact agrees_const fun t _ => rfl
      | none =>
        -- the spaces run out of `d`, and so does the text
        refine ⟨.success, some { tag with type := type }, ⟨d.length, last, last :: rest⟩,
          fun t ht => ?_⟩
        obtain ⟨v, hv'⟩ := skipspaces_append_isSome ht (show q + 1 ≤ d.length by omega)
        obtain ⟨hle, b, hb, hsp⟩ := skipspaces_spec hv'
        have hlen : d.length ≤ v := by
          by_contra hlt
          rw [List.getElem?_append_left (by omega)] at hb
          obtain ⟨u, hu⟩ := skipspaces_isSome hb hsp hle
          exact absurd (hu.symm.trans hv) (by simp)
        refine ⟨⟨if b = 44 then v + 1 else v, last, last :: rest⟩, ?_, rfl, rfl, .inr ⟨?_, le_rfl⟩⟩
        · simp only [hv', hb, Option.bind_eq_bind, Option.bind_some]
        dsimp only
        split_ifs <;> omega

theorem jsonScalar_isSome (ha : d[q]? = some a) (hqn : q < n) (h : Stopped d q n) (tag : JsonTag)
    (permissive : Bool) :
    ∃ tag' o, jsonScalar d tag permissive q n = some (tag', o) ∧
      ∀ k, o = some k → (k = n ∨ ∃ j c, d[j]? = some c ∧ k ≤ j ∧ isspace c = false) ∧
        (if a = 34 then some n else (jsonBare d tag permissive q n).bind Prod.snd) = some k := by
  unfold jsonScalar
  simp only [ha, Option.bind_eq_bind, Option.bind_some]
  by_cases h34 : a = 34
  · obtain ⟨o, ho, hn, -⟩ := jsonSlice_isSome ha hqn h tag permissive
    simp only [h34, ne_eq, not_true_eq_false, if_false, ho, Option.bind_some, if_true]
    cases o with
    | none => exact ⟨_, _, rfl, by simp⟩
    | some r =>
      obtain ⟨rfl, -⟩ := hn _ _ rfl
      exact ⟨_, _, rfl, fun k hk => ⟨.inl (Option.some.inj hk).symm, hk⟩⟩
  · obtain ⟨tag', o, ho, hk⟩ := jsonBare_isSome ha h tag permissive
    simp only [h34, ne_eq, not_false_eq_true, if_true, ho, if_false, Option.bind_some]
    exact ⟨tag', o, rfl, fun k hko => ⟨hk k hko, hko⟩⟩

theorem jsonAfterScalar_isSome {m : List UInt8} {k : ℕ} (h : (skipspaces m k).isSome) :
    ∃ o, jsonAfterScalar m js k = some o := by
  unfold jsonAfterScalar
  split_ifs
  · obtain ⟨v, hv⟩ := Option.isSome_iff_exists.mp h
    obtain ⟨-, b, hb, -⟩ := skipspaces_spec hv
    simp only [hv, hb, Option.bind_eq_bind, Option.bind_some]
    split_ifs <;> exact ⟨_, rfl⟩
  · exact ⟨_, rfl⟩

theorem jsonValue_agrees (ha : d[q]? = some a) (hqn : q < n) (h : Stopped d q n)
    (hlook : (js.mstate = .arrayStart ∨ js.mstate = .value) ∧ js.mstack ≠ [] → ∀ k,
      (if a = 34 then some n else (jsonBare d tag permissive q n).bind Prod.snd) = some k →
        (skipspaces d k).isSome) :
    Agrees d fun t => jsonValue (d ++ t) js tag permissive q n := by
  obtain ⟨tag', o, ho, hk⟩ := jsonScalar_isSome ha hqn h tag permissive
  have hot : ∀ t, jsonScalar (d ++ t) tag permissive q n = some (tag', o) := fun t =>
    below_jsonScalar _ _ _ _ _ ho
  have hle := h.le_length
  unfold jsonValue
  split_ifs with hst
  · simp only [hot, Option.bind_eq_bind, Option.bind_some]
    cases o with
    | none => exact agrees_const fun t _ => rfl
    | some k =>
      obtain ⟨hkn, hk⟩ := hk k rfl
      dsimp only
      by_cases hstack : js.mstack = []
      · -- whatever follows, the call fails
        refine ⟨.errSyntax, some tag', js, fun t ht => ⟨js, ?_, .refl _ _⟩⟩
        have hkd : k ≤ d.length := by
          obtain rfl | ⟨j, c, hj, hkj, -⟩ := hkn
          · exact hle
          · have := (List.getElem?_eq_some_iff.mp hj).1
            omega
        obtain ⟨v, hv⟩ := skipspaces_append_isSome ht hkd
        obtain ⟨o, ho⟩ : ∃ o, jsonAfterScalar (d ++ t) js k = some o :=
          jsonAfterScalar_isSome (by rw [hv]; rfl)
        beta_reduce
        rw [ho, Option.bind_some, hstack]
        cases o <;> rfl
      · have hafter : ∃ o, jsonAfterScalar d js k = some o := by
          obtain hst | hst | ⟨hzero, -⟩ := hst
          · exact jsonAfterScalar_isSome (hlook ⟨.inl hst, hstack⟩ k hk)
          · exact jsonAfterScalar_isSome (hlook ⟨.inr hst, hstack⟩ k hk)
          · exact ⟨some k, if_neg (by simp [hzero])⟩
        obtain ⟨o, ho⟩ := hafter
        simp only [below_jsonAfterScalar _ _ _ ho, Option.bind_some]
        cases o with
        | none => exact agrees_const fun t _ => rfl
        | some k' =>
          cases hs : js.mstack with
          | nil => exact absurd hs hstack
          | cons last rest => exact agrees_const fun t _ => rfl
  · exact agrees_const fun t _ => rfl

theorem jsonKey_agrees (ha : d[q]? = some a) (hqn : q < n) (h : Stopped d q n)
    (hlook : a = 34 ∨ permissive = true → (skipspaces d n).isSome) :
    Agrees d fun t => jsonKey (d ++ t) js tag permissive q n := by
  refine agrees_of_below (jsonKey d js tag permissive q n) ?_ fun t => below_jsonKey _ _ _ _ _
  obtain ⟨o, ho, hn, -⟩ := jsonSlice_isSome ha hqn h tag permissive
  unfold jsonKey
  rw [ho]
  cases o with
  | none => rfl
  | some r =>
    obtain ⟨rfl, hperm⟩ := hn r.1 r.2 rfl
    obtain ⟨v, hv⟩ := Option.isSome_iff_exists.mp (hlook hperm)
    obtain ⟨-, b, hb, -⟩ := skipspaces_spec hv
    simp only [Option.bind_eq_bind, Option.bind_some, hv, hb]
    split_ifs <;> rfl

theorem jsonDispatch_agrees (js : Json) (tag : JsonTag) (permissive : Bool) (ha : d[q]? = some a)
    (hqn : q < n) (h : Stopped d q n)
    (hlook : ∀ k, lookStart d js tag permissive q n a = some k → (skipspaces d k).isSome) :
    Agrees d fun t => jsonDispatch (d ++ t) js tag permissive q n a := by
  have hq : q < d.length := (List.getElem?_eq_some_iff.mp ha).1
  unfold lookStart at hlook
  unfold jsonDispatch
  split_ifs with h1 h2 h3 h4 h5 h6
  · exact agrees_const fun t _ => rfl
  · rw [if_neg h1, if_pos h2] at hlook
    exact jsonKey_agrees ha hqn h fun hk => hlook n (if_pos hk)
  · exact agrees_const fun t _ => rfl
  · exact jsonEnd_agrees hq _ _
  · exact agrees_const fun t _ => rfl
  · exact jsonEnd_agrees hq _ _
  · have hother : ¬(a = 123 ∨ a = 125 ∨ a = 91 ∨ a = 93) := by
      simp only [h3, h4, h5, h6, or_self, not_false_eq_true]
    rw [if_neg h1, if_neg h2, if_neg hother] at hlook
    refine jsonValue_agrees ha hqn h fun hst k hk => hlook k ?_
    rw [if_pos hst, hk]

theorem Json.Same.eq_of_lt {k : ℕ} {js' : Json} (h : js'.Same k js) (hlt : js.mptr < k) :
    js' = js := by
  obtain ⟨mptr, mstate, mstack⟩ := js
  obtain ⟨mptr', mstate', mstack'⟩ := js'
  obtain ⟨rfl, rfl, hptr⟩ := h
  obtain rfl | ⟨-, hle⟩ := hptr
  · rfl
  · exact absurd hlt (by omega)

theorem noToken_same {k : ℕ} {js' : Json} (h : js'.Same k js) :
    js'.noToken = ((js.noToken).1, none, js') := by
  rw [Json.noToken, h.mstack_eq]
  rfl

theorem jsonNext_noToken {m : List UInt8} {mend : ℕ} {o : Option ℕ} {e : Bool}
    (hs : skipspaces m js.mptr = some q) (hscan : jsonReadString m q 34 34 92 = some (o, e))
    (ho : ∀ n, o = some n → n ≤ q) : jsonNext m mend js permissive = some js.noToken := by
  unfold jsonNext
  split_ifs
  · rfl
  · simp only [Option.bind_eq_bind, hs, Option.bind_some, hscan]
    cases o with
    | none => rfl
    | some n => exact if_pos (ho n rfl)

/-- A call that stays inside gives the same whatever follows. -/
theorem jsonNext_agrees (h : CallInside d js permissive) :
    ∃ r tag js₀, ∀ t, 0 ∈ t → ∀ js₁ : Json, js₁.Same d.length js →
      ∃ js', jsonNext (d ++ t) d.length js₁ permissive = some (r, tag, js') ∧
        js'.Same d.length js₀ := by
  obtain hend | ⟨q, a, hs, ha, hscan, hlook⟩ := h
  · refine ⟨js.noToken.1, none, js, fun t _ js₁ h₁ => ⟨js₁, ?_, h₁⟩⟩
    have hle : d.length ≤ js₁.mptr := by
      have := h₁.mptr_eq
      omega
    rw [jsonNext, if_pos hle, noToken_same h₁]
  · have hlt := lt_length_of_skipspaces hs
    obtain ⟨-, b, hb, hsp⟩ := skipspaces_spec hs
    obtain rfl := Option.some.inj (ha.symm.trans hb)
    obtain ⟨o, e, hread, hstop⟩ := jsonReadString_inside ha hsp hscan
    have hne : ∀ t : List UInt8, 0 ∈ t → t ≠ [] := fun t ht => List.ne_nil_of_mem ht
    by_cases hn : ∃ n, o = some n ∧ q < n
    · obtain ⟨n, rfl, hqn⟩ := hn
      obtain ⟨r, tag, js₀, hagree⟩ := jsonDispatch_agrees (js.implicit permissive a) (.clear e)
        permissive ha hqn (hstop n rfl).1 fun k hk => hlook n e k (hread [0] (by simp)) hqn hk
      refine ⟨r, tag, js₀, fun t ht js₁ h₁ => ?_⟩
      rw [h₁.eq_of_lt hlt, jsonNext_token hlt (skipspaces_append hs) (getElem?_append_some ha)
        (hread t (hne t ht)) hqn]
      exact hagree t ht
    · refine ⟨js.noToken.1, none, js, fun t ht js₁ h₁ => ⟨js₁, ?_, h₁⟩⟩
      obtain rfl := h₁.eq_of_lt hlt
      rw [jsonNext_noToken (skipspaces_append hs) (hread t (hne t ht)) fun n hn' => ?_]
      · rfl
      · by_contra hlt'
        exact hn ⟨n, hn', by omega⟩

/-! ## Calls that do not -/

theorem jsonScalar_of_end (ha : d[q]? = some a) (hqn : q < n) (h : Stopped d q n)
    (hquote : a = 34 → d[n - 1]? = some 34) {k : ℕ}
    (hk : (if a = 34 then some n else (jsonBare d tag permissive q n).bind Prod.snd) = some k) :
    ∃ tag', jsonScalar d tag permissive q n = some (tag', some k) := by
  unfold jsonScalar
  simp only [ha, Option.bind_eq_bind, Option.bind_some]
  by_cases h34 : a = 34
  · rw [if_pos h34] at hk
    obtain rfl := Option.some.inj hk
    obtain ⟨o, ho, hn, hsome⟩ := jsonSlice_isSome ha hqn h tag permissive
    rw [if_neg (by simp [h34]), ho]
    cases o with
    | none => exact absurd rfl (hsome hquote (.inl h34))
    | some r =>
      obtain ⟨hn', -⟩ := hn r.1 r.2 rfl
      exact ⟨{ r.1 with type := .value, stype := .string }, by rw [← hn']; rfl⟩
  · rw [if_neg h34] at hk
    rw [if_pos h34]
    obtain ⟨⟨tag', o⟩, hbare, rfl⟩ := Option.bind_eq_some_iff.mp hk
    exact ⟨tag', hbare⟩

/-- Only spaces are left in `d`. -/
theorem skipspaces_append_none {p : ℕ} (h : skipspaces d p = none) (hp : p ≤ d.length) {b : UInt8}
    (hb : isspace b = false) : skipspaces (d ++ b :: t) p = some d.length := by
  have hall : ∀ c ∈ d.drop p, isspace c = true := by
    intro c hc
    by_contra hsp
    obtain ⟨u, hu⟩ := skipspacesLoop_isSome hc (by simpa using hsp) p
    rw [skipspaces, hu] at h
    cases h
  rw [skipspaces, List.drop_append_of_le_length hp, skipspacesLoop_append hall, skipspacesLoop,
    if_neg (by simp [hb]), List.length_drop, Nat.add_sub_cancel' hp]

/-- What of a call is seen. -/
def outcome (m : List UInt8) (mend : ℕ) (js : Json) (permissive : Bool) :
    Option (JsonResult × Option JsonTag) :=
  (jsonNext m mend js permissive).map fun r => (r.1, r.2.1)

theorem jsonKey_outcomes (js : Json) (tag : JsonTag) (ha : d[q]? = some a) (hqn : q < n)
    (h : Stopped d q n)
    (hquote : a = 34 → d[n - 1]? = some 34) (hperm : a = 34 ∨ permissive = true)
    (hskip : skipspaces d n = none) :
    (jsonKey (d ++ [0]) js tag permissive q n).map Prod.fst = some .errSyntax ∧
      (jsonKey (d ++ [58, 0]) js tag permissive q n).map Prod.fst = some .success := by
  obtain ⟨o, ho, hn, hsome⟩ := jsonSlice_isSome ha hqn h tag permissive
  cases o with
  | none => exact absurd rfl (hsome hquote hperm)
  | some r =>
    obtain ⟨hn', -⟩ := hn r.1 r.2 rfl
    unfold jsonKey
    simp only [below_jsonSlice _ _ _ _ _ ho, Option.bind_eq_bind, Option.bind_some, hn',
      skipspaces_append_none hskip h.le_length (b := 0) rfl,
      skipspaces_append_none hskip h.le_length (b := 58) rfl]
    constructor <;> simp

theorem jsonValue_outcomes (js : Json) (hst : js.mstate = .arrayStart ∨ js.mstate = .value)
    (hstack : js.mstack ≠ []) {tag' : JsonTag} {k : ℕ}
    (hscalar : jsonScalar d tag permissive q n = some (tag', some k)) (hk : k ≤ d.length)
    (hskip : skipspaces d k = none) :
    (jsonValue (d ++ [0]) js tag permissive q n).map Prod.fst = some .errSyntax ∧
      (jsonValue (d ++ [44, 0]) js tag permissive q n).map Prod.fst = some .success := by
  obtain ⟨last, rest, hs⟩ := List.exists_cons_of_ne_nil hstack
  have hzero : js.mstate ≠ .zero := by obtain h | h := hst <;> simp [h]
  unfold jsonValue jsonAfterScalar
  simp only [below_jsonScalar _ _ _ _ _ hscalar, Option.bind_eq_bind, Option.bind_some,
    skipspaces_append_none hskip hk (b := 0) rfl, skipspaces_append_none hskip hk (b := 44) rfl,
    if_pos (show js.mstate = .arrayStart ∨ js.mstate = .value ∨ js.mstate = .zero ∧
      permissive = true from hst.imp_right .inl), if_pos hzero, hs]
  constructor <;> simp

theorem lookStart_isSome {L k : ℕ} (ha : d[q]? = some a) (h : Stopped d q n) (hn : n ≤ L)
    (hlast : d[L]? = some 0) (hk : lookStart d js tag permissive q n a = some k) :
    (skipspaces d k).isSome := by
  have hL : ∀ k, k ≤ L → (skipspaces d k).isSome := fun k hk => by
    obtain ⟨u, hu⟩ := skipspaces_isSome hlast rfl hk
    rw [hu]
    rfl
  unfold lookStart at hk
  split_ifs at hk
  · exact Option.some.inj hk ▸ hL n hn
  · exact Option.some.inj hk ▸ hL n hn
  · obtain ⟨⟨tag', o⟩, hbare, rfl⟩ := Option.bind_eq_some_iff.mp hk
    obtain ⟨tag'', o', hbare', hle⟩ := jsonBare_isSome ha h tag permissive
    obtain ⟨-, rfl⟩ := Prod.mk.inj (Option.some.inj (hbare.symm.trans hbare'))
    obtain rfl | ⟨j, c, hj, hkj, hsp⟩ := hle k rfl
    · exact hL _ hn
    · obtain ⟨u, hu⟩ := skipspaces_isSome hj hsp hkj
      rw [hu]
      rfl

/-- A call whose scan ends in front of a NUL reads inside the memory. -/
theorem jsonNext_isSome {mend : ℕ} (hlt : js.mptr < mend) (hs : skipspaces d js.mptr = some q)
    (ha : d[q]? = some a)
    (hscan : scanEnds (a == 34) (d.drop (if a == 34 then q + 1 else q)) = true)
    (hlast : d.getLast? = some 0) : (jsonNext (d ++ [0]) mend js permissive).isSome := by
  obtain ⟨-, b, hb, hsp⟩ := skipspaces_spec hs
  obtain rfl := Option.some.inj (ha.symm.trans hb)
  obtain ⟨o, e, hread, hstop⟩ := jsonReadString_inside ha hsp hscan
  by_cases hn : ∃ n, o = some n ∧ q < n
  · obtain ⟨n, rfl, hqn⟩ := hn
    have hstop := (hstop n rfl).1
    rw [List.getLast?_eq_getElem?] at hlast
    have hnL : n ≤ d.length - 1 := by
      obtain ⟨-, h34⟩ | ⟨-, c, hc, -⟩ := hstop
      · have hlen := (List.getElem?_eq_some_iff.mp h34).1
        have hne : n - 1 ≠ d.length - 1 := by
          intro hne
          rw [hne, hlast] at h34
          cases h34
        omega
      · have := (List.getElem?_eq_some_iff.mp hc).1
        omega
    obtain ⟨r, tag, js₀, hagree⟩ := jsonDispatch_agrees (js.implicit permissive a) (.clear e)
      permissive ha hqn hstop fun k hk => lookStart_isSome ha hstop hnL hlast hk
    obtain ⟨js', hnext, -⟩ := hagree [0] (by simp)
    beta_reduce at hnext
    rw [jsonNext_token hlt (skipspaces_append hs) (getElem?_append_some ha) (hread [0] (by simp))
      hqn, hnext]
    rfl
  · rw [jsonNext_noToken (skipspaces_append hs) (hread [0] (by simp)) fun n hn' => ?_]
    · rfl
    · by_contra hlt'
      exact hn ⟨n, hn', by omega⟩

theorem jsonNext_eq_none {mend : ℕ} (hlt : js.mptr < mend) {m : List UInt8}
    (hs : skipspaces m js.mptr = some q) (hscan : jsonReadString m q 34 34 92 = none) :
    jsonNext m mend js permissive = none := by
  rw [jsonNext, if_neg (by omega)]
  simp [hs, hscan]

theorem outcome_ne {m m' : List UInt8} {mend : ℕ} (r r' : JsonResult) (hne : r ≠ r')
    (h : (jsonNext m mend js permissive).map Prod.fst = some r)
    (h' : (jsonNext m' mend js permissive).map Prod.fst = some r') :
    outcome m mend js permissive ≠ outcome m' mend js permissive := by
  intro heq
  have hfst : ∀ m, (outcome m mend js permissive).map Prod.fst =
      (jsonNext m mend js permissive).map Prod.fst := fun m => by
    rw [outcome, Option.map_map]
    rfl
  have := congrArg (Option.map Prod.fst) heq
  rw [hfst, hfst, h, h'] at this
  exact hne (Option.some.inj this)

theorem outcome_ne_of_isSome {m m' : List UInt8} {mend : ℕ}
    (h : (jsonNext m mend js permissive).isSome) (h' : jsonNext m' mend js permissive = none) :
    outcome m mend js permissive ≠ outcome m' mend js permissive := by
  obtain ⟨R, hR⟩ := Option.isSome_iff_exists.mp h
  simp [outcome, hR, h']

/-- A call that does not stay inside gives different results for some bytes behind `d`. -/
theorem exists_outcome_ne (h : ¬CallInside d js permissive) :
    js.mptr < d.length ∧ ∃ t t', 0 ∈ t ∧ 0 ∈ t' ∧
      outcome (d ++ t) d.length js permissive ≠ outcome (d ++ t') d.length js permissive := by
  have hlt : js.mptr < d.length := by
    by_contra hle
    exact h (.inl (by omega))
  refine ⟨hlt, ?_⟩
  cases hs : skipspaces d js.mptr with
  | none =>
    -- only spaces are left : the token is the one behind `d`
    refine ⟨[0], [92, 0], by simp, by simp, outcome_ne_of_isSome ?_ (jsonNext_eq_none hlt
      (skipspaces_append_none hs hlt.le (b := 92) rfl) ?_)⟩
    · rw [jsonNext_noToken (o := some d.length) (e := false)
        (skipspaces_append_none hs hlt.le (b := 0) rfl) ?_ (by simp)]
      · rfl
      · simp [jsonReadString, skipspaces, skipspacesLoop, isspace, jsonReadStringLoop_cons]
    · simp [jsonReadString, skipspaces, skipspacesLoop, isspace, jsonReadStringLoop_cons,
        jsonReadStringLoop]
  | some q =>
    obtain ⟨-, a, ha, hsp⟩ := skipspaces_spec hs
    have hq : q < d.length := (List.getElem?_eq_some_iff.mp ha).1
    have hdrop : ∀ t, (d ++ t).drop (if a == 34 then q + 1 else q) =
        d.drop (if a == 34 then q + 1 else q) ++ t := fun t =>
      List.drop_append_of_le_length (by split_ifs <;> omega)
    cases hscan : scanEnds (a == 34) (d.drop (if a == 34 then q + 1 else q)) with
    | false =>
      have hnone : ∀ t, (∀ i e, jsonReadStringLoop 34 92 (a == 34)
          (d.drop (if a == 34 then q + 1 else q) ++ t) i e = none) →
          jsonNext (d ++ t) d.length js permissive = none := fun t ht => by
        refine jsonNext_eq_none hlt (skipspaces_append hs) ?_
        have hself : skipspaces (d ++ t) q = some q := by
          rw [skipspaces, List.drop_append_of_le_length (by omega), List.drop_eq_getElem_cons hq,
            List.cons_append, skipspacesLoop, if_neg]
          obtain ⟨_, rfl⟩ := List.getElem?_eq_some_iff.mp ha
          simp [hsp]
        rw [jsonReadString, hself]
        simp only [Option.bind_eq_bind, Option.bind_some, getElem?_append_some ha, hdrop, ht]
        rfl
      have hsome : ∀ t, scanEnds (a == 34) (d.drop (if a == 34 then q + 1 else q) ++ t) = true →
          (d ++ t).getLast? = some 0 →
          (jsonNext (d ++ (t ++ [0])) d.length js permissive).isSome := fun t ht hlast => by
        rw [← List.append_assoc]
        exact jsonNext_isSome hlt (skipspaces_append hs) (getElem?_append_some ha)
          (by rw [hdrop, ht]) hlast
      obtain ⟨h1, h2⟩ | ⟨h1, h2⟩ := loop_of_not_scanEnds _ hscan
      · exact ⟨[0] ++ [0], [92, 0], by simp, by simp,
          outcome_ne_of_isSome (hsome [0] h1 (by simp)) (hnone _ h2)⟩
      · exact ⟨[0, 0] ++ [0], [0], by simp, by simp,
          outcome_ne_of_isSome (hsome [0, 0] h1 (by simp)) (hnone _ h2)⟩
    | true =>
      obtain ⟨n, e, k, hread, hqn, hk, hskip⟩ : ∃ n e k,
          jsonReadString (d ++ [0]) q 34 34 92 = some (some n, e) ∧ q < n ∧
            lookStart d (js.implicit permissive a) (.clear e) permissive q n a = some k ∧
            skipspaces d k = none := by
        by_contra hno
        refine h (.inr ⟨q, a, hs, ha, hscan, fun n e k hread hqn hk => ?_⟩)
        by_contra hskip
        exact hno ⟨n, e, k, hread, hqn, hk, Option.not_isSome_iff_eq_none.mp hskip⟩
      obtain ⟨o, e', hreads, hstop⟩ := jsonReadString_inside ha hsp hscan
      obtain ⟨rfl, rfl⟩ := Prod.mk.inj (Option.some.inj ((hreads [0] (by simp)).symm.trans hread))
      obtain ⟨hstop, hquote⟩ := hstop n rfl
      have hnext : ∀ t, t ≠ [] → jsonNext (d ++ t) d.length js permissive =
          jsonDispatch (d ++ t) (js.implicit permissive a) (.clear e') permissive q n a :=
        fun t ht => jsonNext_token hlt (skipspaces_append hs) (getElem?_append_some ha)
          (hreads t ht) hqn
      unfold lookStart at hk
      split_ifs at hk with h1 h2 h3 h4 h5 h6
      · obtain rfl := Option.some.inj hk
        obtain ⟨herr, hok⟩ := jsonKey_outcomes (js.implicit permissive a) (.clear e') ha hqn hstop
          hquote h3 hskip
        refine ⟨[0], [58, 0], by simp, by simp, outcome_ne .errSyntax .success
          (by simp) ?_ ?_⟩
        · rw [hnext _ (by simp), jsonDispatch, if_neg h1, if_pos h2, herr]
        · rw [hnext _ (by simp), jsonDispatch, if_neg h1, if_pos h2, hok]
      all_goals
        have hend : (if a = 34 then some n
            else (jsonBare d (.clear e') permissive q n).bind Prod.snd) = some k := by
          simpa [h6] using hk
        obtain ⟨tag', o, hscalar, hle⟩ := jsonScalar_isSome ha hqn hstop (.clear e') permissive
        obtain ⟨tag'', hscalar'⟩ := jsonScalar_of_end ha hqn hstop hquote hend
        obtain ⟨rfl, rfl⟩ := Prod.mk.inj (Option.some.inj (hscalar.symm.trans hscalar'))
        have hkd : k ≤ d.length := by
          obtain ⟨rfl | ⟨j, c, hj, hkj, -⟩, -⟩ := hle k rfl
          · exact hstop.le_length
          · have := (List.getElem?_eq_some_iff.mp hj).1
            omega
        obtain ⟨herr, hok⟩ := jsonValue_outcomes (js.implicit permissive a) h5.1 h5.2 hscalar
          hkd hskip
        have hval : ∀ t, jsonDispatch (d ++ t) (js.implicit permissive a) (.clear e') permissive q
            n a = jsonValue (d ++ t) (js.implicit permissive a) (.clear e') permissive q n :=
          fun t => by
            obtain ⟨h123, h125, h91, h93⟩ : a ≠ 123 ∧ a ≠ 125 ∧ a ≠ 91 ∧ a ≠ 93 := by
              simpa only [not_or] using h4
            rw [jsonDispatch, if_neg h1, if_neg h2, if_neg h123, if_neg h125, if_neg h91,
              if_neg h93]
        refine ⟨[0], [44, 0], by simp, by simp, outcome_ne .errSyntax .success
          (by simp) ?_ ?_⟩
        · rw [hnext _ (by simp), hval, herr]
        · rw [hnext _ (by simp), hval, hok]

/-! ## Whole texts -/

theorem jsonCalls_cons {m : List UInt8} {mend : ℕ} {flags : List Bool} {r : JsonResult}
    {t : Option JsonTag} {js' : Json}
    (h : jsonNext m mend js permissive = some (r, t, js')) :
    jsonCalls m mend js (permissive :: flags) = some (r, t) :: jsonCalls m mend js' flags := by
  rw [jsonCalls, h]

theorem head?_jsonCalls (m : List UInt8) (mend : ℕ) (flags : List Bool) :
    (jsonCalls m mend js (permissive :: flags)).head? = some (outcome m mend js permissive) := by
  rw [jsonCalls, outcome]
  cases jsonNext m mend js permissive <;> rfl

/-- Calls that all stay inside give the same results whatever follows. -/
theorem jsonCalls_of_inside {flags : List Bool} (h : CallsInside d js flags) {t t' : List UInt8}
    (ht : 0 ∈ t) (ht' : 0 ∈ t') {js₁ js₂ : Json} (h₁ : js₁.Same d.length js)
    (h₂ : js₂.Same d.length js) :
    jsonCalls (d ++ t) d.length js₁ flags = jsonCalls (d ++ t') d.length js₂ flags := by
  induction flags generalizing js js₁ js₂ with
  | nil => rfl
  | cons permissive flags ih =>
    obtain ⟨hcall, hrest⟩ := h
    obtain ⟨r, tag, js₀, hagree⟩ := jsonNext_agrees hcall
    obtain ⟨js₁', hnext₁, hsame₁⟩ := hagree t ht js₁ h₁
    obtain ⟨js₂', hnext₂, hsame₂⟩ := hagree t' ht' js₂ h₂
    obtain ⟨js', hnext, hsame⟩ := hagree [0] (by simp) js (.refl _ _)
    rw [jsonCalls_cons hnext₁, jsonCalls_cons hnext₂]
    rw [ih (hrest r tag js' hnext) (hsame₁.trans hsame) (hsame₂.trans hsame)]

/-- At the first call that does not stay inside, some bytes behind `d` make a difference. -/
theorem exists_jsonCalls_ne {flags : List Bool} (h : ¬CallsInside d js flags) :
    ∃ t t', 0 ∈ t ∧ 0 ∈ t' ∧ ∀ js₁ js₂ : Json, js₁.Same d.length js → js₂.Same d.length js →
      jsonCalls (d ++ t) d.length js₁ flags ≠ jsonCalls (d ++ t') d.length js₂ flags := by
  induction flags generalizing js with
  | nil => exact absurd trivial h
  | cons permissive flags ih =>
    by_cases hcall : CallInside d js permissive
    · obtain ⟨r, tag, js₀, hagree⟩ := jsonNext_agrees hcall
      obtain ⟨js', hnext, hsame⟩ := hagree [0] (by simp) js (.refl _ _)
      have hrest : ¬CallsInside d js' flags := fun hrest => h ⟨hcall, fun r' t' js'' h'' => by
        cases hnext.symm.trans h''
        exact hrest⟩
      obtain ⟨t, t', ht, ht', hne⟩ := ih hrest
      refine ⟨t, t', ht, ht', fun js₁ js₂ h₁ h₂ heq => ?_⟩
      obtain ⟨js₁', hnext₁, hsame₁⟩ := hagree t ht js₁ h₁
      obtain ⟨js₂', hnext₂, hsame₂⟩ := hagree t' ht' js₂ h₂
      rw [jsonCalls_cons hnext₁, jsonCalls_cons hnext₂] at heq
      exact hne js₁' js₂' (hsame₁.trans hsame) (hsame₂.trans hsame) (List.cons.inj heq).2
    · obtain ⟨hlt, t, t', ht, ht', hne⟩ := exists_outcome_ne hcall
      refine ⟨t, t', ht, ht', fun js₁ js₂ h₁ h₂ heq => hne ?_⟩
      obtain rfl := h₁.eq_of_lt hlt
      obtain rfl := h₂.eq_of_lt hlt
      have := congrArg List.head? heq
      rw [head?_jsonCalls, head?_jsonCalls] at this
      exact Option.some.inj this

/-- What the calls with some flags give does not depend on the bytes behind the first `mend` if and
only if every call stays inside these. -/
theorem jsonCalls_eq_iff (d : List UInt8) (flags : List Bool) :
    (∀ t t' : List UInt8, 0 ∈ t → 0 ∈ t' → jsonCalls (d ++ t) d.length jsonCreate flags =
      jsonCalls (d ++ t') d.length jsonCreate flags) ↔ CallsInside d jsonCreate flags := by
  constructor
  · intro h
    by_contra hnot
    obtain ⟨t, t', ht, ht', hne⟩ := exists_jsonCalls_ne hnot
    exact hne _ _ (.refl _ _) (.refl _ _) (h t t' ht ht')
  · exact fun h t t' ht ht' => jsonCalls_of_inside h ht ht' (.refl _ _) (.refl _ _)

/-- The two bytes `[1`, followed by a NUL and by a comma. -/
theorem not_jsonCalls_eq :
    ¬∀ (d : List UInt8) (flags : List Bool) (t t' : List UInt8), 0 ∈ t → 0 ∈ t' →
      jsonCalls (d ++ t) d.length jsonCreate flags =
        jsonCalls (d ++ t') d.length jsonCreate flags := by
  intro h
  have h' := h [91, 49] [false, false] [0] [44, 0] (by simp) (by simp)
  revert h'
  decide

end Webxs
