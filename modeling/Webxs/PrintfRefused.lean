import Webxs.PrintfRuns

/-!
# A callback that refuses

A call with a callback that may take less than it is given is compared with the call whose callback
takes everything (`Alike`) : both do the same up to the first block of which less is taken. A flush
inside of the loop leaves it then, but with the number of bytes taken as the index, so that these
bytes are offered once more at the end. `stopsCleanly_iff` says that a call stops as it should if
this does not happen.
-/

namespace Webxs

/-- The callback that takes everything. -/
def acceptAll : Sflush :=
  fun _ block => block.length

/-- The callback reports how many of the bytes it takes. -/
def Sflush.Reports (answer : Sflush) : Prop :=
  ∀ blocks (block : List UInt8), 0 ≤ answer blocks block ∧ answer blocks block ≤ block.length

/-- The bytes that a callback takes of blocks that are offered after the blocks `pre`. -/
def acceptedFrom (answer : Sflush) : List (List UInt8) → List (List UInt8) → List UInt8
  | _, [] => []
  | pre, b :: bs => b.take (answer pre b).toNat ++ acceptedFrom answer (pre ++ [b]) bs

/-- What is delivered begins the text `full`, the result counts it, and behind a block of which
less is taken no byte is offered. -/
def StopsCleanly (answer : Sflush) (len : ℕ) (fmt : List UInt8) (ap : List Arg)
    (full : List UInt8) : Prop :=
  ∃ p, sprintfCore (some answer) none len fmt ap = some p ∧
    acceptedFrom answer [] p.blocks <+: full ∧
    p.result = (acceptedFrom answer [] p.blocks).length ∧
    ∀ pre b post, p.blocks = pre ++ b :: post → answer pre b ≠ b.length → post.flatten = []

/-- A flush inside of the loop is answered with a part of the bytes. -/
def TakesPart (answer : Sflush) (fmt : List UInt8) (ap : List Arg) : Prop :=
  ∃ cc o, (streaming (some answer)).coreLoop (fmt.length + 1) fmt ap
    ⟨List.replicate 1024 0, 0, 0, []⟩ = .error (.refused cc o) ∧ 0 < cc

/-! ## Blocks that are taken -/

/-- The blocks `bs` are taken whole. -/
def Taken (answer : Sflush) : List (List UInt8) → List (List UInt8) → Prop
  | _, [] => True
  | pre, b :: bs => answer pre b = b.length ∧ Taken answer (pre ++ [b]) bs

section Blocks

variable {answer : Sflush} {pre bs bs' : List (List UInt8)} {b : List UInt8}

theorem Taken.append (h : Taken answer pre bs) (h' : Taken answer (pre ++ bs) bs') :
    Taken answer pre (bs ++ bs') := by
  induction bs generalizing pre with
  | nil => rwa [List.append_nil] at h'
  | cons b bs ih => exact ⟨h.1, ih h.2 (by rwa [List.append_assoc])⟩

theorem Taken.single (h : answer pre b = b.length) : Taken answer pre [b] :=
  ⟨h, trivial⟩

/-- Of blocks that are taken all bytes are delivered. -/
theorem Taken.accepted (h : Taken answer pre bs) (more : List (List UInt8)) :
    acceptedFrom answer pre (bs ++ more) =
      bs.flatten ++ acceptedFrom answer (pre ++ bs) more := by
  induction bs generalizing pre with
  | nil => rw [List.append_nil]; rfl
  | cons b bs ih =>
    rw [List.cons_append, acceptedFrom, h.1, Int.toNat_natCast, List.take_length, ih h.2,
      List.flatten_cons, List.append_assoc, List.append_assoc, List.singleton_append]

/-- A block of which less is taken is not among them. -/
theorem Taken.short {pre' post more : List (List UInt8)} (h : Taken answer pre bs)
    (heq : bs ++ more = pre' ++ b :: post) (hb : answer (pre ++ pre') b ≠ b.length) :
    ∃ between, more = between ++ b :: post ∧ pre' = bs ++ between := by
  induction bs generalizing pre pre' with
  | nil => exact ⟨pre', heq, rfl⟩
  | cons a bs ih =>
    cases pre' with
    | nil =>
      obtain ⟨rfl, -⟩ := List.cons.inj heq
      exact absurd h.1 (by rwa [List.append_nil] at hb)
    | cons a' pre' =>
      obtain rfl : a = a' := (List.cons.inj heq).1
      have heq' : bs ++ more = pre' ++ b :: post := (List.cons.inj heq).2
      obtain ⟨between, hmore, rfl⟩ := ih h.2 heq' (by rwa [List.append_assoc])
      exact ⟨between, hmore, rfl⟩

/-- Behind any block, no more bytes are offered than behind the first one. -/
theorem flatten_of_tail {between more post : List (List UInt8)} {b' : List UInt8}
    (h : b :: more = between ++ b' :: post) (hmore : more.flatten = []) : post.flatten = [] := by
  cases between with
  | nil =>
    obtain ⟨-, rfl⟩ := List.cons.inj h
    exact hmore
  | cons a between =>
    obtain ⟨-, heq⟩ : b = a ∧ more = between ++ b' :: post := List.cons.inj h
    rw [heq, List.flatten_append, List.flatten_cons, List.append_eq_nil_iff,
      List.append_eq_nil_iff] at hmore
    exact hmore.2.2

end Blocks

/-! ## Two runs -/

namespace Sink

/-- The index is in the buffer, and what was flushed is counted. -/
structure Good (o : Sink) : Prop where
  ind : o.ind ≤ o.str.length
  tot : o.tot = o.flushed.flatten.length

end Sink

/-- From `o` on, the run that ends in the first result does the same as the one that ends in the
second, whose callback takes everything, up to the first block of which less is taken. -/
inductive Alike (answer : Sflush) (o : Sink) :
    Except Halt Sink → Except Halt Sink → Prop
  | ok {o' : Sink} {bs : List (List UInt8)} (hgood : o'.Good)
      (hflushed : o'.flushed = o.flushed ++ bs) (hbs : Taken answer o.flushed bs) :
      Alike answer o (.ok o') (.ok o')
  | fault : Alike answer o (.error .fault) (.error .fault)
  | refused {o' : Sink} {bs : List (List UInt8)} {b : List UInt8} {r : Except Halt Sink}
      (hflushed : o'.flushed = o.flushed ++ bs ++ [b]) (hbs : Taken answer o.flushed bs)
      (hb : answer (o.flushed ++ bs) b ≠ b.length) (hstr : b <+: o'.str)
      (htot : o'.tot = (o.flushed ++ bs).flatten.length)
      (hrest : ∀ o'', r = .ok o'' → o''.Good ∧ o'.flushed <+: o''.flushed) :
      Alike answer o (.error (.refused (answer (o.flushed ++ bs) b) o')) r

/-- An operation that does not flush. -/
def Quiet (o : Sink) (r : Except Halt Sink) : Prop :=
  r = .error .fault ∨ ∃ o', r = .ok o' ∧ o'.Good ∧ o'.flushed = o.flushed

section Compose

variable {answer : Sflush} {o : Sink} {r r' : Except Halt Sink} {f f' : Sink → Except Halt Sink}

theorem Alike.of_quiet (h : Quiet o r) : Alike answer o r r := by
  obtain rfl | ⟨o', rfl, hgood, hflushed⟩ := h
  · exact .fault
  · exact @Alike.ok answer o o' [] hgood (by rw [hflushed, List.append_nil]) trivial

theorem Alike.refl (h : o.Good) : Alike answer o (.ok o) (.ok o) :=
  .of_quiet (.inr ⟨o, rfl, h, rfl⟩)

theorem Alike.ite {c : Prop} [Decidable c] {r₁ r₁' r₂ r₂' : Except Halt Sink}
    (h₁ : Alike answer o r₁ r₁') (h₂ : Alike answer o r₂ r₂') :
    Alike answer o (if c then r₁ else r₂) (if c then r₁' else r₂') := by
  by_cases hc : c
  · rwa [if_pos hc, if_pos hc]
  · rwa [if_neg hc, if_neg hc]

theorem Alike.mono {o' : Sink} (h : Alike answer o r (.ok o')) :
    o'.Good ∧ o.flushed <+: o'.flushed := by
  generalize hr' : Except.ok o' = r' at h
  cases h with
  | ok hgood hflushed hbs =>
    cases hr'
    exact ⟨hgood, _, hflushed.symm⟩
  | fault => cases hr'
  | refused hflushed hbs hb hstr htot hrest =>
    obtain ⟨hgood, hpre⟩ := hrest o' hr'.symm
    refine ⟨hgood, List.IsPrefix.trans ?_ hpre⟩
    rw [hflushed, List.append_assoc]
    exact List.prefix_append _ _

theorem Alike.bind (h : Alike answer o r r')
    (hf : ∀ o₁ : Sink, o₁.Good → Alike answer o₁ (f o₁) (f' o₁)) :
    Alike answer o (r >>= f) (r' >>= f') := by
  cases h with
  | @ok o₁ bs hgood hflushed hbs =>
    show Alike answer o (f o₁) (f' o₁)
    have hnext := hf o₁ hgood
    generalize f o₁ = r₁ at hnext
    generalize f' o₁ = r₁' at hnext
    cases hnext with
    | ok hgood' hflushed' hbs' =>
      rw [hflushed] at hbs'
      exact .ok hgood' (by rw [hflushed', hflushed, List.append_assoc]) (hbs.append hbs')
    | fault => exact .fault
    | @refused o₂ bs' b _ hflushed' hbs' hb hstr htot hrest =>
      rw [hflushed, List.append_assoc o.flushed bs bs'] at hflushed' hb htot ⊢
      rw [hflushed] at hbs'
      exact .refused hflushed' (hbs.append hbs') hb hstr htot hrest
  | fault => exact .fault
  | refused hflushed hbs hb hstr htot hrest =>
    refine .refused hflushed hbs hb hstr htot fun o'' hr => ?_
    cases r' with
    | error e => cases hr
    | ok o₁ =>
      obtain ⟨hgood, hpre⟩ := hrest o₁ rfl
      have hnext := hf o₁ hgood
      rw [show f' o₁ = .ok o'' from hr] at hnext
      exact ⟨hnext.mono.1, hpre.trans hnext.mono.2⟩

end Compose

/-! ## The operations -/

section Operations

variable {answer : Sflush} {o : Sink} {sroom len : ℕ}

/-- A setup with a callback. -/
def calling (answer : Sflush) (sroom len : ℕ) : Setup :=
  ⟨some answer, sroom, len⟩

theorem quiet_put (h : o.Good) (c : UInt8) : Quiet o (o.put c) := by
  unfold Sink.put
  split_ifs with hlt
  · exact .inr ⟨_, rfl, ⟨by rw [List.length_set]; exact hlt, h.tot⟩, rfl⟩
  · exact .inl rfl

theorem quiet_copy (h : o.Good) (p : List UInt8) : Quiet o (o.copy p) := by
  unfold Sink.copy
  split_ifs with hle
  · refine .inr ⟨_, rfl, ⟨?_, h.tot⟩, rfl⟩
    simp only [Arr.copyTo, List.length_append, List.length_take, List.length_drop]
    omega
  · exact .inl rfl

theorem Quiet.bind {r : Except Halt Sink} {f : Sink → Except Halt Sink} (h : Quiet o r)
    (hf : ∀ o₁ : Sink, o₁.Good → Quiet o₁ (f o₁)) : Quiet o (r.bind f) := by
  obtain rfl | ⟨o₁, rfl, hgood, hflushed⟩ := h
  · exact .inl rfl
  · obtain hr | ⟨o₂, hr, hgood', hflushed'⟩ := hf o₁ hgood
    · exact .inl hr
    · exact .inr ⟨o₂, hr, hgood', hflushed'.trans hflushed⟩

theorem quiet_fill (h : o.Good) (c : UInt8) (n : ℕ) : Quiet o (o.fill c n) := by
  induction n generalizing o with
  | zero => exact .inr ⟨o, rfl, h, rfl⟩
  | succ n ih => exact (quiet_put h c).bind fun o₁ h₁ => ih h₁

theorem quiet_zeros (h : o.Good) (n : ℕ) : Quiet o (o.zeros len n) := by
  induction n generalizing o with
  | zero => exact .inr ⟨o, rfl, h, rfl⟩
  | succ n ih =>
    rw [Sink.zeros]
    split_ifs
    · exact (quiet_put h 48).bind fun o₁ h₁ => ih h₁
    · exact .inr ⟨o, rfl, h, rfl⟩

theorem quiet_digits (h : o.Good) (s : List UInt8) (i : ℕ) : Quiet o (o.digits s i) := by
  induction i generalizing o with
  | zero => exact .inl rfl
  | succ i ih =>
    rw [Sink.digits]
    cases s[i]? with
    | none => exact .inl rfl
    | some d =>
      refine (quiet_put h d).bind fun o₁ h₁ => ?_
      split_ifs
      · exact .inr ⟨o₁, rfl, h₁, rfl⟩
      · exact ih h₁

theorem Sink.Good.rewind (h : o.Good) : o.rewind.Good where
  ind := Nat.zero_le _
  tot := by
    have := h.ind
    simp only [Sink.rewind, List.flatten_append, List.flatten_singleton, List.length_append,
      List.length_take, h.tot]
    omega

/-- A flush is the same if the block is taken, and ends the run if not. -/
theorem alike_flush (h : o.Good) :
    Alike answer o ((calling answer sroom len).flush o)
      ((calling acceptAll sroom len).flush o) := by
  have hlen : (o.str.take o.ind).length = o.ind := by
    have := h.ind
    rw [List.length_take]
    omega
  have hall : (calling acceptAll sroom len).flush o = .ok o.rewind :=
    if_neg (not_not.mpr (by rw [acceptAll, hlen]))
  rw [hall]
  by_cases hcc : answer o.flushed (o.str.take o.ind) = o.ind
  · have hsame : (calling answer sroom len).flush o = .ok o.rewind := if_neg (not_not.mpr hcc)
    rw [hsame]
    exact .ok h.rewind rfl (.single (by rw [hcc, hlen]))
  · have hrefused : (calling answer sroom len).flush o =
        .error (.refused (answer (o.flushed ++ []) (o.str.take o.ind))
          { o with flushed := o.flushed ++ [o.str.take o.ind] }) := by
      rw [List.append_nil]
      exact if_pos hcc
    rw [hrefused]
    refine .refused (by rw [List.append_nil]) trivial ?_ (List.take_prefix _ _)
      (by rw [List.append_nil]; exact h.tot) fun o'' hr => ?_
    · rwa [List.append_nil, hlen]
    · cases hr
      exact ⟨h.rewind, List.prefix_rfl⟩

theorem alike_flushIf (h : o.Good) (b : Prop) [Decidable b] :
    Alike answer o ((calling answer sroom len).flushIf b o)
      ((calling acceptAll sroom len).flushIf b o) :=
  .ite (alike_flush h) (.refl h)

theorem alike_pad (h : o.Good) (w j : ℤ) (c : UInt8) :
    Alike answer o ((calling answer sroom len).pad w j c o)
      ((calling acceptAll sroom len).pad w j c o) :=
  (alike_flushIf h _).bind fun _ h₁ => .of_quiet (quiet_fill h₁ c _)

theorem alike_copyLoop (h : o.Good) (fuel : ℕ) (p : List UInt8) :
    Alike answer o ((calling answer sroom len).copyLoop fuel p o)
      ((calling acceptAll sroom len).copyLoop fuel p o) := by
  induction fuel generalizing p o with
  | zero => exact .fault
  | succ fuel ih =>
    refine (alike_flush h).bind fun o₁ h₁ => ?_
    exact (Alike.of_quiet (quiet_copy h₁ _)).bind fun o₂ h₂ => .ite (.refl h₂) (ih h₂ _)

theorem alike_writeBlock (h : o.Good) (p : List UInt8) :
    Alike answer o ((calling answer sroom len).writeBlock p o)
      ((calling acceptAll sroom len).writeBlock p o) :=
  .ite (alike_copyLoop h _ p) (.of_quiet (quiet_copy h p))

theorem alike_writeText (h : o.Good) (l : List UInt8) :
    Alike answer o ((calling answer sroom len).writeText l o)
      ((calling acceptAll sroom len).writeText l o) := by
  unfold Setup.writeText
  split
  · exact .of_quiet (quiet_put h _)
  · exact alike_writeBlock h _

theorem alike_writeBody (h : o.Good) (vs : ℤ) (p : List UInt8) :
    Alike answer o ((calling answer sroom len).writeBody vs p o)
      ((calling acceptAll sroom len).writeBody vs p o) :=
  .ite (.refl h) (alike_writeBlock h _)

theorem alike_writeStr (h : o.Good) (left : Bool) (w pr vs : ℤ) (p : List UInt8) :
    Alike answer o ((calling answer sroom len).writeStr left w pr vs p o)
      ((calling acceptAll sroom len).writeStr left w pr vs p o) := by
  -- what follows the padding in front
  have htail : ∀ (l : ℕ) (j : ℤ) (o₁ : Sink), o₁.Good → Alike answer o₁
      (do
        let o ← (calling answer sroom len).flushIf (sroom < l + o₁.ind) o₁
        let o ← (calling answer sroom len).writeBody vs (p.take l) o
        (calling answer sroom len).pad w j 32 o)
      (do
        let o ← (calling acceptAll sroom len).flushIf (sroom < l + o₁.ind) o₁
        let o ← (calling acceptAll sroom len).writeBody vs (p.take l) o
        (calling acceptAll sroom len).pad w j 32 o) := fun l j o₁ h₁ =>
    (alike_flushIf h₁ _).bind fun o₂ h₂ =>
      (alike_writeBody h₂ _ _).bind fun o₃ h₃ => alike_pad h₃ _ _ _
  unfold Setup.writeStr
  dsimp only
  refine Alike.ite ?_ ?_
  · exact (Alike.refl h).bind fun o₁ h₁ => htail _ _ o₁ h₁
  · exact (alike_pad h _ _ _).bind fun o₁ h₁ => htail _ _ o₁ h₁

theorem alike_writeSign (h : o.Good) (s : IntConv) :
    Alike answer o ((calling answer sroom len).writeSign s o)
      ((calling acceptAll sroom len).writeSign s o) := by
  -- what follows the `0` of a prefix
  have htail : ∀ o₁ : Sink, o₁.Good → Alike answer o₁
      (do
        let o ← (calling answer sroom len).flushIf (o₁.ind = sroom) o₁
        if s.r = 16 ∧ o.ind < len then o.put s.c else .ok o)
      (do
        let o ← (calling acceptAll sroom len).flushIf (o₁.ind = sroom) o₁
        if s.r = 16 ∧ o.ind < len then o.put s.c else .ok o) := fun o₁ h₁ =>
    (alike_flushIf h₁ _).bind fun o₂ h₂ => .ite (.of_quiet (quiet_put h₂ _)) (.refl h₂)
  refine .ite (.of_quiet (quiet_put h _)) (.ite (.of_quiet (quiet_put h _))
    (.ite (.of_quiet (quiet_put h _)) (.ite ?_ (.refl h))))
  refine Alike.ite ?_ ?_
  · exact (Alike.of_quiet (quiet_put h _)).bind htail
  · exact (Alike.refl h).bind htail

theorem alike_writeDigits (h : o.Good) (s : IntConv) (w pr : ℤ) :
    Alike answer o ((calling answer sroom len).writeDigits s w pr o)
      ((calling acceptAll sroom len).writeDigits s w pr o) := by
  have htail : ∀ (i : ℕ) (j : ℤ) (o₃ : Sink), o₃.Good → Alike answer o₃
      (do
        let o ← (calling answer sroom len).flushIf (sroom < i + o₃.ind) o₃
        let o ← o.digits s.backwards i
        (calling answer sroom len).pad w j s.padByte o)
      (do
        let o ← (calling acceptAll sroom len).flushIf (sroom < i + o₃.ind) o₃
        let o ← o.digits s.backwards i
        (calling acceptAll sroom len).pad w j s.padByte o) := fun i j o₃ h₃ =>
    (alike_flushIf h₃ _).bind fun o₄ h₄ =>
      (Alike.of_quiet (quiet_digits h₄ _ _)).bind fun o₅ h₅ => alike_pad h₅ _ _ _
  refine (alike_flushIf h _).bind fun o₁ h₁ => ?_
  refine Alike.bind (.of_quiet (quiet_zeros h₁ _)) fun o₂ h₂ => ?_
  dsimp only
  refine Alike.ite ?_ ?_
  · exact (Alike.refl h₂).bind fun o₃ h₃ => htail _ _ o₃ h₃
  · exact (alike_pad h₂ _ _ _).bind fun o₃ h₃ => htail _ _ o₃ h₃

theorem alike_writeItem (h : o.Good) (item : Item) :
    Alike answer o ((calling answer sroom len).writeItem item o)
      ((calling acceptAll sroom len).writeItem item o) := by
  cases item with
  | text l => exact alike_writeText h l
  | chr c => exact .of_quiet (quiet_put h c)
  | nothing => exact .refl h
  | str left w pr vs p => exact alike_writeStr h left _ _ vs p
  | int s =>
    refine (alike_writeSign h s).bind fun o₁ h₁ => .ite (.refl h₁) ?_
    exact (alike_flushIf h₁ _).bind fun o₂ h₂ => alike_writeDigits h₂ s _ _

/-- So the whole loop does the same up to the first block of which less is taken. -/
theorem alike_coreLoop (h : o.Good) (fuel : ℕ) (fmt : List UInt8) (ap : List Arg) :
    Alike answer o ((calling answer sroom len).coreLoop fuel fmt ap o)
      ((calling acceptAll sroom len).coreLoop fuel fmt ap o) := by
  induction fuel generalizing fmt ap o with
  | zero => exact .fault
  | succ fuel ih =>
    refine .ite (.refl h) ((alike_flushIf h _).bind fun o₁ h₁ => ?_)
    cases readItem fmt ap with
    | none => exact .fault
    | some next =>
      exact (alike_writeItem h₁ next.1).bind fun o₂ h₂ => ih h₂ next.2.1 next.2.2

end Operations

/-! ## The end of a call -/

/-- What `xs_sprintf_core` makes of the end of its loop. -/
def finish (answer : Sflush) : Except Halt Sink → Option Printed
  | .ok o => sprintfEnd (some answer) o.ind o
  | .error (.refused cc o) => sprintfEnd (some answer) cc o
  | .error .fault => none

section Calls

variable {answer : Sflush} {len : ℕ} {fmt : List UInt8} {ap : List Arg} {o : Sink}
  {bs : List (List UInt8)} {b : List UInt8} {r : Except Halt Sink}

theorem sprintfCore_calling (answer : Sflush) (len : ℕ) (fmt : List UInt8) (ap : List Arg) :
    sprintfCore (some answer) none len fmt ap = finish answer
      ((calling answer 1024 INT_MAX).coreLoop (fmt.length + 1) fmt ap
        ⟨List.replicate 1024 0, 0, 0, []⟩) :=
  rfl

/-- The end offers what is in the buffer. -/
theorem sprintfEnd_answer {ind : ℕ} (h : ind ≤ o.str.length) :
    sprintfEnd (some answer) ind o =
      some ⟨answer o.flushed (o.str.take ind) + o.tot, o.flushed ++ [o.str.take ind], o.str⟩ :=
  if_pos ⟨Int.natCast_nonneg ind, Int.ofNat_le.mpr h⟩

/-- Where everything is taken, no flush is refused. -/
theorem Alike.ne_refused {start : Sink} {cc : ℤ} (h : Alike acceptAll start r r) :
    r ≠ .error (.refused cc o) := by
  rintro rfl
  generalize hr : Except.error (Halt.refused cc o) = r' at h
  cases h with
  | ok hgood hflushed hbs => cases hr
  | fault => cases hr
  | refused hflushed hbs hb hstr htot hrest => exact hb rfl

/-- A call whose loop ends delivers what is offered, but for the rest of the last block. -/
theorem stopsCleanly_of_ok {p : Printed} (hanswer : answer.Reports) (hgood : o.Good)
    (htaken : Taken answer [] o.flushed)
    (hrun : sprintfCore (some answer) none len fmt ap = finish answer (.ok o))
    (hfull : finish acceptAll (.ok o) = some p) :
    StopsCleanly answer len fmt ap p.blocks.flatten := by
  have hend := @sprintfEnd_answer answer o o.ind hgood.ind
  obtain rfl := Option.some.inj ((sprintfEnd_answer hgood.ind).symm.trans hfull)
  generalize o.str.take o.ind = block at *
  obtain ⟨h0, hle⟩ := hanswer o.flushed block
  have haccepted : acceptedFrom answer [] (o.flushed ++ [block]) =
      o.flushed.flatten ++ block.take (answer o.flushed block).toNat := by
    rw [htaken.accepted, List.nil_append, acceptedFrom, acceptedFrom, List.append_nil]
  refine ⟨_, hrun.trans hend, ?_, ?_, fun pre b post heq hb => ?_⟩
  · dsimp only
    rw [haccepted, List.flatten_append, List.flatten_singleton]
    exact (List.prefix_append_right_inj _).mpr (List.take_prefix _ _)
  · dsimp only
    rw [haccepted, List.length_append, List.length_take, hgood.tot]
    omega
  · obtain ⟨between, hmore, rfl⟩ := htaken.short heq (by rwa [List.nil_append])
    exact flatten_of_tail hmore rfl

/-- A call that a flush ends delivers the blocks before and, if none of the last is taken, nothing
of it; if a part of it is taken, this part is offered again. -/
theorem stopsCleanly_refused {full : List UInt8} (hanswer : answer.Reports)
    (hflushed : o.flushed = bs ++ [b]) (htaken : Taken answer [] bs)
    (hb : answer bs b ≠ b.length) (hstr : b <+: o.str) (htot : o.tot = bs.flatten.length)
    (hrun : sprintfCore (some answer) none len fmt ap =
      finish answer (.error (.refused (answer bs b) o)))
    (hfull : o.flushed.flatten <+: full) :
    StopsCleanly answer len fmt ap full ↔ ¬0 < answer bs b := by
  obtain ⟨h0, hle⟩ := hanswer bs b
  obtain ⟨n, hn⟩ := Int.eq_ofNat_of_zero_le h0
  have hlen := hstr.length_le
  have hend : finish answer (.error (.refused (answer bs b) o)) = _ :=
    (congrArg (fun c => sprintfEnd (some answer) c o) hn).trans
      (sprintfEnd_answer (by omega : n ≤ o.str.length))
  rw [hend, hflushed, List.append_assoc, List.singleton_append] at hrun
  constructor
  · rintro ⟨p, hp, -, -, hshort⟩ hpos
    obtain rfl := Option.some.inj (hrun.symm.trans hp)
    have hempty := congrArg List.length (hshort bs b [o.str.take n] rfl hb)
    rw [List.flatten_singleton, List.length_take, List.length_nil] at hempty
    omega
  · intro hzero
    obtain rfl : n = 0 := by omega
    rw [List.take_zero] at hrun
    have hnil : answer (bs ++ [b]) [] = 0 := by
      have := hanswer (bs ++ [b]) []
      rw [List.length_nil] at this
      omega
    have haccepted : acceptedFrom answer [] (bs ++ [b, []]) = bs.flatten := by
      rw [htaken.accepted, List.nil_append, acceptedFrom, acceptedFrom, acceptedFrom, hn]
      simp
    refine ⟨_, hrun, ?_, ?_, fun pre b' post heq hb' => ?_⟩
    · dsimp only
      rw [haccepted]
      refine List.IsPrefix.trans ?_ hfull
      rw [hflushed, List.flatten_append]
      exact List.prefix_append _ _
    · dsimp only
      rw [haccepted, hnil, htot, zero_add]
    · obtain ⟨between, hmore, rfl⟩ := htaken.short heq (by rwa [List.nil_append])
      exact flatten_of_tail hmore rfl

/-- A call that goes through if everything is taken stops as it should if and only if no flush
inside of the loop is answered with a part of the bytes. -/
theorem stopsCleanly_iff {p : Printed} (hanswer : answer.Reports)
    (hfull : sprintfCore (some acceptAll) none len fmt ap = some p) :
    StopsCleanly answer len fmt ap p.blocks.flatten ↔ ¬TakesPart answer fmt ap := by
  have hstart : Sink.Good ⟨List.replicate 1024 0, 0, 0, []⟩ := ⟨Nat.zero_le _, rfl⟩
  have hall := @alike_coreLoop acceptAll _ 1024 INT_MAX hstart (fmt.length + 1) fmt ap
  have hrun := @alike_coreLoop answer _ 1024 INT_MAX hstart (fmt.length + 1) fmt ap
  have hcore := sprintfCore_calling answer len fmt ap
  have hpart : TakesPart answer fmt ap ↔ ∃ cc o, (calling answer 1024 INT_MAX).coreLoop
      (fmt.length + 1) fmt ap ⟨List.replicate 1024 0, 0, 0, []⟩ = .error (.refused cc o) ∧
        0 < cc := Iff.rfl
  rw [sprintfCore_calling] at hfull
  rw [hpart]
  generalize (calling acceptAll 1024 INT_MAX).coreLoop _ _ _ _ = r' at *
  generalize (calling answer 1024 INT_MAX).coreLoop _ _ _ _ = r at *
  cases hrun with
  | @ok o bs hgood hflushed hbs =>
    rw [List.nil_append] at hflushed
    refine iff_of_true (stopsCleanly_of_ok hanswer hgood (hflushed ▸ hbs) hcore hfull) ?_
    rintro ⟨cc, o', hr, -⟩
    cases hr
  | fault => cases hfull
  | @refused o bs b _ hflushed hbs hb hstr htot hrest =>
    rw [List.nil_append] at hflushed hb htot hcore
    have hprefix : o.flushed.flatten <+: p.blocks.flatten := by
      cases r' with
      | ok o' =>
        obtain ⟨hgood, hpre⟩ := hrest o' rfl
        obtain rfl := Option.some.inj ((sprintfEnd_answer hgood.ind).symm.trans hfull)
        obtain ⟨more, hmore⟩ := hpre.trans (List.prefix_append o'.flushed [o'.str.take o'.ind])
        rw [← hmore, List.flatten_append]
        exact List.prefix_append _ _
      | error e =>
        cases e with
        | fault => cases hfull
        | refused cc o' => exact absurd rfl hall.ne_refused
    refine (stopsCleanly_refused hanswer hflushed hbs hb hstr htot hcore hprefix).trans
      (not_congr ⟨fun h => ⟨_, o, rfl, h⟩, ?_⟩)
    rintro ⟨cc, o', hr, h⟩
    cases hr
    exact h

/-- `"hi"`, refused at the end. -/
theorem stopsCleanly_iff_hi : ∃ p,
    sprintfCore (some acceptAll) none 0 [104, 105] [] = some p ∧
      (StopsCleanly (fun _ _ => 0) 0 [104, 105] [] p.blocks.flatten ↔
        ¬TakesPart (fun _ _ => 0) [104, 105] []) := by
  obtain ⟨p, hp⟩ : ∃ p, sprintfCore (some acceptAll) none 0 [104, 105] [] = some p :=
    Option.isSome_iff_exists.mp (by decide +kernel)
  exact ⟨p, hp, stopsCleanly_iff (fun _ block => ⟨le_rfl, Int.natCast_nonneg _⟩) hp⟩

/-- Takes one byte of the block that is full. -/
def takesOne : Sflush :=
  fun _ block => if block.length = 1024 then 1 else block.length

theorem takesOne_reports : takesOne.Reports := by
  intro blocks block
  unfold takesOne
  split_ifs <;> omega

/-- The one byte that is taken of the first 1024 is offered and taken once more. -/
theorem not_stopsCleanly_one : takesOne.Reports ∧ ∃ p,
    sprintfCore (some acceptAll) none 0 (List.replicate 1025 97) [] = some p ∧
      ¬StopsCleanly takesOne 0 (List.replicate 1025 97) [] p.blocks.flatten := by
  refine ⟨takesOne_reports, ?_⟩
  obtain ⟨p, hp⟩ : ∃ p, sprintfCore (some acceptAll) none 0 (List.replicate 1025 97) [] = some p :=
    Option.isSome_iff_exists.mp (by decide +kernel)
  refine ⟨p, hp, ?_⟩
  rintro ⟨p', hp', -, -, hshort⟩
  have hblocks : (sprintfCore (some takesOne) none 0 (List.replicate 1025 97) []).map
      Printed.blocks = some ([[]] ++ List.replicate 1024 97 :: [[97]]) := by
    decide +kernel
  rw [hp', Option.map_some, Option.some.injEq] at hblocks
  have hempty := hshort _ _ _ hblocks (by decide +kernel)
  cases hempty

end Calls

end Webxs
