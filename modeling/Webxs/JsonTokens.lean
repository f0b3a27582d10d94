import Webxs.Json
import Webxs.Preorder

/-!
# What the JSON reader accepts

The state of a reader and its stack say where it is in a tree (`Json.At`), and a call that
returns 0 takes the step of its tag, with one exception : the closers are handled before the
state is looked at, so behind the colon of a key `}` ends the object (`jsonNext_step`).

So a text that is read to its end gave the tags of a tree if and only if no call found `}` where
the value of a key had to come (`jsonTokens_tree_iff`).
-/

namespace Webxs

/-- The token of a tag. -/
def JsonTag.token (tag : JsonTag) : Option (Token JsonTag JsonTag) :=
  match tag.type with
  | .key => some (.key tag)
  | .value => some (.scalar tag)
  | .objectStart => some .objectStart
  | .objectEnd => some .objectEnd
  | .arrayStart => some .arrayStart
  | .arrayEnd => some .arrayEnd
  | _ => none

/-- The next byte that is no space is `}` although a value has to come. -/
def Json.ValueMissing (m : List UInt8) (js : Json) : Prop :=
  js.mstate = .value ∧ ∃ sptr, skipspaces m js.mptr = some sptr ∧ m[sptr]? = some 125

namespace Json

/-! ## Where a reader is -/

/-- What is on the stack for a container. -/
def frame : Frame → JsonState
  | .object => .objectStart
  | .array => .arrayStart

/-- The stack for the containers that are open. -/
def frames (fs : List Frame) : List JsonState :=
  fs.map frame ++ [.minusOne]

/-- The reader is at `p`. -/
def At (js : Json) : Pos → Prop
  | .value [] => js.mstate = .zero ∧ js.mstack = frames []
  | .value (.object :: fs) => js.mstate = .value ∧ js.mstack = frames (.object :: fs)
  | .value (.array :: _) => False
  | .inObject fs => js.mstate = .objectStart ∧ js.mstack = frames (.object :: fs)
  | .inArray fs => js.mstate = .arrayStart ∧ js.mstack = frames (.array :: fs)
  | .done => js.mstate = .minusOne ∧ js.mstack = frames []

theorem at_create : jsonCreate.At (.value []) :=
  ⟨rfl, rfl⟩

/-- Behind a value the state is the top of the stack. -/
theorem at_after {js : Json} {fs : List Frame} {last : JsonState} {rest : List JsonState}
    (h : frames fs = last :: rest) (hst : js.mstate = last) (hstack : js.mstack = last :: rest) :
    js.At (.after fs) := by
  obtain _ | ⟨_ | _, fs⟩ := fs
  all_goals
    obtain ⟨rfl, rfl⟩ := List.cons.inj h
    exact ⟨hst, hstack⟩

theorem frames_cons_inj {f : Frame} {fs : List Frame} {last start : JsonState}
    {rest : List JsonState} (h : frames (f :: fs) = start :: last :: rest) :
    start = frame f ∧ frames fs = last :: rest := by
  obtain ⟨rfl, hfs⟩ := List.cons.inj h
  exact ⟨rfl, hfs⟩

theorem frame_injective {f f' : Frame} (h : frame f = frame f') : f = f' := by
  cases f <;> cases f' <;> trivial

/-- Where a value may come, its first token is read in the containers on the stack. -/
theorem At.value {js : Json} {p : Pos} (hat : js.At p) (hst : js.mstate ≠ .minusOne)
    (hobj : js.mstate ≠ .objectStart) :
    ∃ fs, js.mstack = frames fs ∧
      ∀ tok : Token JsonTag JsonTag, tok ≠ .arrayEnd → p.step tok = Pos.stepValue fs tok := by
  cases p with
  | value fs =>
    obtain _ | ⟨_ | _, fs⟩ := fs
    · exact ⟨[], hat.2, fun _ _ => rfl⟩
    · exact ⟨.object :: fs, hat.2, fun _ _ => rfl⟩
    · exact hat.elim
  | inObject fs => exact absurd hat.1 hobj
  | inArray fs =>
    refine ⟨.array :: fs, hat.2, fun tok htok => ?_⟩
    cases tok <;> trivial
  | done => exact absurd hat.1 hst

theorem At.inObject {js : Json} {p : Pos} (hat : js.At p) (hst : js.mstate = .objectStart) :
    ∃ fs, p = .inObject fs ∧ js.mstack = frames (.object :: fs) := by
  cases p with
  | value fs =>
    obtain _ | ⟨_ | _, fs⟩ := fs
    · cases hst.symm.trans hat.1
    · cases hst.symm.trans hat.1
    · exact hat.elim
  | inObject fs => exact ⟨fs, rfl, hat.2⟩
  | inArray fs => cases hst.symm.trans hat.1
  | done => cases hst.symm.trans hat.1

/-! ## The steps -/

/-- The type of the tag that opens a container. -/
def startType : Frame → JsonType
  | .object => .objectStart
  | .array => .arrayStart

/-- The type of the tag that ends it. -/
def endType : Frame → JsonType
  | .object => .objectEnd
  | .array => .arrayEnd

/-- What a call that returns 0 does to the state and the stack, at the first byte `a` of its
token. -/
inductive Move (js js' : Json) (tag : JsonTag) (a : UInt8) : Prop
  | key (hst : js.mstate = .objectStart) (ha : a ≠ 125) (htag : tag.type = .key)
      (hst' : js'.mstate = .value) (hstack : js'.mstack = js.mstack)
  | start (f : Frame) (hst : js.mstate ≠ .minusOne) (hobj : js.mstate ≠ .objectStart)
      (ha : a ≠ 125) (htag : tag.type = startType f) (hst' : js'.mstate = frame f)
      (hstack : js'.mstack = frame f :: js.mstack)
  | close (f : Frame) (last : JsonState) (rest : List JsonState) (ha : a = 125 ↔ f = .object)
      (hst : js.mstate ≠ .minusOne) (hopen : js.mstate = .objectStart → f = .object)
      (htag : tag.type = endType f) (hstack : js.mstack = frame f :: last :: rest)
      (hst' : js'.mstate = last) (hstack' : js'.mstack = last :: rest)
  | scalar (last : JsonState) (rest : List JsonState) (ha : a ≠ 125)
      (hst : js.mstate = .arrayStart ∨ js.mstate = .value) (htag : tag.type = .value)
      (hstack : js.mstack = last :: rest) (hst' : js'.mstate = last)
      (hstack' : js'.mstack = last :: rest)

end Json

open Json

variable {m : List UInt8} {mend : ℕ} {js js' : Json} {p : Pos} {t : Option JsonTag}

theorem jsonDispatch_move {tag : JsonTag} {sptr nptr : ℕ} {a : UInt8}
    (h : jsonDispatch m js tag false sptr nptr a = some (.success, t, js')) :
    ∃ tag', t = some tag' ∧ Move js js' tag' a := by
  unfold jsonDispatch at h
  split_ifs at h with h1 h2 h3 h4 h5 h6
  · simp at h
  · obtain ⟨⟨tag', rfl, htag⟩, hst, hstack⟩ := jsonKey_success h
    exact ⟨tag', rfl, .key h2.1 h2.2 htag hst hstack⟩
  · obtain ⟨rfl, rfl⟩ : _ ∧ _ := by simpa [jsonStart] using h
    have hobj : js.mstate ≠ .objectStart := fun ho => h2 ⟨ho, by rw [h3]; decide⟩
    exact ⟨_, rfl, .start .object h1 hobj (by rw [h3]; decide) rfl rfl rfl⟩
  · obtain ⟨last, rest, hstack, rfl, hst', hstack'⟩ := jsonEnd_success h
    exact ⟨_, rfl, .close .object last rest (by simp [h4]) h1 (fun _ => rfl) rfl hstack hst'
      hstack'⟩
  · obtain ⟨rfl, rfl⟩ : _ ∧ _ := by simpa [jsonStart] using h
    have hobj : js.mstate ≠ .objectStart := fun ho => h2 ⟨ho, h4⟩
    exact ⟨_, rfl, .start .array h1 hobj h4 rfl rfl rfl⟩
  · obtain ⟨last, rest, hstack, rfl, hst', hstack'⟩ := jsonEnd_success h
    have hobj : js.mstate ≠ .objectStart := fun ho => h2 ⟨ho, h4⟩
    exact ⟨_, rfl, .close .array last rest (by simp [h4]) h1 (absurd · hobj) rfl hstack hst'
      hstack'⟩
  · obtain ⟨hst, ⟨tag', n, htag, rfl⟩, last, rest, hstack, hst', hstack'⟩ := jsonValue_success h
    exact ⟨tag', rfl, .scalar last rest h4 (by simpa using hst) (jsonScalar_type htag) hstack hst'
      hstack'⟩

/-- A call that returns 0 takes the step of its tag, but for a value that is missing. -/
theorem jsonNext_step (hat : js.At p)
    (h : jsonNext m mend js false = some (.success, t, js')) :
    ∃ tag tok, t = some tag ∧ tag.token = some tok ∧
      (js.ValueMissing m → p.step tok = none) ∧
      (¬js.ValueMissing m → ∃ p', p.step tok = some p' ∧ js'.At p') := by
  obtain ⟨sptr, nptr, e, a, hs, ha, h⟩ := jsonNext_success h
  obtain ⟨tag, rfl, hmove⟩ := jsonDispatch_move h
  have hmissing : js.ValueMissing m ↔ js.mstate = .value ∧ a = 125 := by
    simp [ValueMissing, hs, ha]
  cases hmove with
  | key hst ha htag hst' hstack =>
    obtain ⟨fs, rfl, hfs⟩ := hat.inObject hst
    refine ⟨tag, .key tag, rfl, by simp [JsonTag.token, htag], by simp [hmissing, hst], ?_⟩
    exact fun _ => ⟨_, rfl, hst', hstack.trans hfs⟩
  | start f hst hobj ha htag hst' hstack =>
    obtain ⟨fs, hfs, hstep⟩ := hat.value hst hobj
    rw [hfs] at hstack
    cases f with
    | object =>
      refine ⟨tag, .objectStart, rfl, by simp [JsonTag.token, htag, startType], ?_, fun _ => ?_⟩
      · exact fun h => absurd (hmissing.mp h).2 ha
      · exact ⟨.inObject fs, hstep _ (by simp), hst', hstack⟩
    | array =>
      refine ⟨tag, .arrayStart, rfl, by simp [JsonTag.token, htag, startType], ?_, fun _ => ?_⟩
      · exact fun h => absurd (hmissing.mp h).2 ha
      · exact ⟨.inArray fs, hstep _ (by simp), hst', hstack⟩
  | close f last rest ha hst hopen htag hstack hst' hstack' =>
    by_cases hm : js.ValueMissing m
    · -- `}` ends the object whatever the state is
      obtain ⟨hval, ha125⟩ := hmissing.mp hm
      obtain rfl := ha.mp ha125
      obtain ⟨fs, -, hstep⟩ := hat.value (by simp [hval]) (by simp [hval])
      refine ⟨tag, .objectEnd, rfl, by simp [JsonTag.token, htag, endType], fun _ => ?_,
        fun h => absurd hm h⟩
      exact hstep _ (by simp)
    · have hne : ¬(js.mstate = .value ∧ a = 125) := fun h => hm (hmissing.mpr h)
      cases p with
      | value fs =>
        obtain _ | ⟨_ | _, fs⟩ := fs
        · exact absurd (hat.2.symm.trans hstack) (by simp [frames])
        · have hf := frame_injective (frames_cons_inj (hat.2.symm.trans hstack)).1
          exact absurd ⟨hat.1, ha.mpr hf⟩ hne
        · exact hat.elim
      | inObject fs =>
        obtain ⟨hf, hfs⟩ := frames_cons_inj (hat.2.symm.trans hstack)
        obtain rfl := frame_injective hf
        refine ⟨tag, .objectEnd, rfl, by simp [JsonTag.token, htag, endType], fun h => absurd h hm,
          fun _ => ?_⟩
        exact ⟨_, rfl, at_after hfs hst' hstack'⟩
      | inArray fs =>
        obtain ⟨hf, hfs⟩ := frames_cons_inj (hat.2.symm.trans hstack)
        obtain rfl := frame_injective hf
        refine ⟨tag, .arrayEnd, rfl, by simp [JsonTag.token, htag, endType], fun h => absurd h hm,
          fun _ => ?_⟩
        exact ⟨_, rfl, at_after hfs hst' hstack'⟩
      | done => exact absurd hat.1 hst
  | scalar last rest ha hst htag hstack hst' hstack' =>
    obtain ⟨fs, hfs, hstep⟩ := hat.value (by obtain h | h := hst <;> simp [h])
      (by obtain h | h := hst <;> simp [h])
    refine ⟨tag, .scalar tag, rfl, by simp [JsonTag.token, htag], ?_, fun _ => ?_⟩
    · exact fun h => absurd (hmissing.mp h).2 ha
    · exact ⟨_, hstep _ (by simp), at_after (hfs.symm.trans hstack) hst' hstack'⟩

/-! ## Whole texts -/

theorem at_endOfFile (hat : js.At p)
    (h : jsonNext m mend js false = some (.endOfFile, t, js')) : p = .value [] ∨ p = .done := by
  have hlen := jsonNext_endOfFile h
  cases p with
  | value fs =>
    obtain _ | ⟨_ | _, fs⟩ := fs
    · exact .inl rfl
    · simp [hat.2, frames] at hlen
    · exact hat.elim
  | inObject fs => simp [hat.2, frames] at hlen
  | inArray fs => simp [hat.2, frames] at hlen
  | done => exact .inr rfl

/-- The tags are read as tokens as long as no value is missing. -/
theorem JsonReads.tokens {toks : List JsonTag} (h : JsonReads m mend js toks)
    (hreached : JsonReached m mend js)
    (hmissing : ∀ js, JsonReached m mend js → ¬js.ValueMissing m) (hat : js.At p)
    (hp : p ≠ .value [] ∨ toks ≠ []) :
    ∃ l : List (Token JsonTag JsonTag),
      toks.map JsonTag.token = l.map some ∧ l.foldlM Pos.step p = some .done := by
  induction toks generalizing js p with
  | nil =>
    obtain ⟨tag, js', h⟩ := h
    obtain rfl := (at_endOfFile hat h).resolve_left (hp.resolve_right (by simp))
    exact ⟨[], rfl, rfl⟩
  | cons tag toks ih =>
    obtain ⟨js', hnext, h⟩ := h
    obtain ⟨tag', tok, ht, htok, -, hstep⟩ := jsonNext_step hat hnext
    obtain rfl := Option.some.inj ht
    obtain ⟨p', hp', hat'⟩ := hstep (hmissing js hreached)
    have hne : p' ≠ .value [] := fun h0 => Pos.step_ne_start (h0 ▸ hp')
    obtain ⟨l, hl, hfold⟩ := ih h (hreached.next hnext) hat' (.inl hne)
    refine ⟨tok :: l, by simp [htok, hl], ?_⟩
    rw [List.foldlM_cons, hp']
    exact hfold

/-- A reader whose remaining tags the reader of tokens accepts. -/
def Accepted (m : List UInt8) (mend : ℕ) (js : Json) : Prop :=
  ∃ toks, ∃ l : List (Token JsonTag JsonTag), ∃ p, JsonReads m mend js toks ∧
    toks.map JsonTag.token = l.map some ∧ js.At p ∧ l.foldlM Pos.step p = some .done

theorem Accepted.not_valueMissing (h : Accepted m mend js) : ¬js.ValueMissing m := by
  obtain ⟨toks, l, p, hreads, hl, hat, hfold⟩ := h
  intro hmissing
  cases toks with
  | nil =>
    obtain ⟨tag, js', hnext⟩ := hreads
    obtain rfl | rfl := at_endOfFile hat hnext <;> cases hmissing.1.symm.trans hat.1
  | cons tag toks =>
    obtain ⟨js', hnext, -⟩ := hreads
    obtain ⟨tag', tok, ht, htok, hstep, -⟩ := jsonNext_step hat hnext
    obtain rfl := Option.some.inj ht
    cases l with
    | nil => simp at hl
    | cons tok' l =>
      obtain ⟨h, -⟩ := List.cons.inj hl
      obtain rfl := Option.some.inj (htok.symm.trans h)
      rw [List.foldlM_cons, hstep hmissing] at hfold
      cases hfold

theorem Accepted.next (h : Accepted m mend js)
    (hnext : jsonNext m mend js false = some (.success, t, js')) : Accepted m mend js' := by
  have hm := h.not_valueMissing
  obtain ⟨toks, l, p, hreads, hl, hat, hfold⟩ := h
  cases toks with
  | nil =>
    obtain ⟨tag, js'', hend⟩ := hreads
    cases hend.symm.trans hnext
  | cons tag toks =>
    obtain ⟨js'', hnext', hreads⟩ := hreads
    cases hnext'.symm.trans hnext
    obtain ⟨tag', tok, ht, htok, -, hstep⟩ := jsonNext_step hat hnext
    obtain rfl := Option.some.inj ht
    obtain ⟨p', hp', hat'⟩ := hstep hm
    cases l with
    | nil => simp at hl
    | cons tok' l =>
      obtain ⟨h, hl'⟩ := List.cons.inj hl
      obtain rfl := Option.some.inj (htok.symm.trans h)
      rw [List.foldlM_cons, hp'] at hfold
      exact ⟨toks, l, p', hreads, hl', hat', hfold⟩

/-- The tags of a text that is read to its end are those of exactly one value if and only if no
call found `}` where the value of a key had to come. -/
theorem jsonTokens_tree_iff {toks : List JsonTag} (h : JsonReads m mend jsonCreate toks)
    (hne : toks ≠ []) :
    (∃! v : Tree JsonTag JsonTag, v.tokens.map some = toks.map JsonTag.token) ↔
      ∀ js, JsonReached m mend js → ¬js.ValueMissing m := by
  constructor
  · rintro ⟨v, hv, -⟩ js hreached
    have haccepted : Accepted m mend js := by
      induction hreached with
      | create => exact ⟨toks, v.tokens, _, h, hv.symm, at_create, v.foldlM_tokens []⟩
      | next _ hnext ih => exact ih.next hnext
    exact haccepted.not_valueMissing
  · intro hmissing
    obtain ⟨l, hl, hfold⟩ := JsonReads.tokens h .create hmissing at_create (.inr hne)
    obtain ⟨v, rfl, hunique⟩ := accepts_iff.mp hfold
    refine ⟨v, hl.symm, fun v' hv' => hunique v' ?_⟩
    exact (List.map_injective_iff.mpr (Option.some_injective _)) (hv'.trans hl)

/-- The text `[]`. -/
theorem jsonTokens_tree_iff_array :
    (∃! v : Tree JsonTag JsonTag, v.tokens.map some =
      [{ JsonTag.clear false with type := .arrayStart },
        { JsonTag.clear false with type := .arrayEnd }].map JsonTag.token) ↔
      ∀ js, JsonReached [91, 93, 0] 2 js → ¬js.ValueMissing [91, 93, 0] :=
  jsonTokens_tree_iff
    ⟨⟨1, .arrayStart, [.arrayStart, .minusOne]⟩, by decide, ⟨2, .minusOne, [.minusOne]⟩, by decide,
      _, _, rfl⟩ (by simp)

/-- The text `{"a":}` is read to its end. -/
theorem not_jsonTokens_tree :
    ¬∀ (text : List UInt8) (toks : List JsonTag), 0 ∉ text →
      JsonReads (text ++ [0]) text.length jsonCreate toks → toks ≠ [] →
      ∃! v : Tree JsonTag JsonTag, v.tokens.map some = toks.map JsonTag.token := by
  intro h
  let key : JsonTag := { JsonTag.clear false with type := .key, ptr := some 2, len := 1 }
  have hreads : JsonReads ([123, 34, 97, 34, 58, 125] ++ [0]) 6 jsonCreate
      [{ JsonTag.clear false with type := .objectStart }, key,
        { JsonTag.clear false with type := .objectEnd }] :=
    ⟨⟨1, .objectStart, [.objectStart, .minusOne]⟩, by decide,
      ⟨5, .value, [.objectStart, .minusOne]⟩, by decide,
      ⟨6, .minusOne, [.minusOne]⟩, by decide, _, _, rfl⟩
  obtain ⟨v, hv, -⟩ := h _ _ (by decide) hreads (by simp)
  have hv' : v.tokens = [.objectStart, .key key, .objectEnd] :=
    List.map_injective_iff.mpr (Option.some_injective _) hv
  have := v.foldlM_tokens []
  rw [hv'] at this
  cases this

end Webxs
