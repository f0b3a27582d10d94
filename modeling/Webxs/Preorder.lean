import Mathlib.Data.List.Basic

/-!
# Trees of objects and arrays, in pre-order

A tree has scalars at its leaves; an object holds a key for each of its values, an array values
only. Its tokens are the start of a container, what is in it, and its end.

A reader of tokens keeps the open containers on a stack (`Pos`, `Pos.step`). It accepts exactly
the token lists of trees, and a list is the tokens of one tree at most (`accepts_iff`).
-/

namespace Webxs

universe u v

variable {κ : Type u} {σ : Type v}

/-- Tokens of trees with keys in `κ` and scalars in `σ`. -/
inductive Token (κ : Type u) (σ : Type v)
  | key (k : κ)
  | scalar (s : σ)
  | objectStart
  | objectEnd
  | arrayStart
  | arrayEnd
  deriving DecidableEq

mutual

/-- A value. -/
inductive Tree (κ : Type u) (σ : Type v)
  | scalar (s : σ)
  | object (ms : Members κ σ)
  | array (es : Elements κ σ)

/-- What an object holds. -/
inductive Members (κ : Type u) (σ : Type v)
  | nil
  | cons (k : κ) (v : Tree κ σ) (ms : Members κ σ)

/-- What an array holds. -/
inductive Elements (κ : Type u) (σ : Type v)
  | nil
  | cons (v : Tree κ σ) (es : Elements κ σ)

end

mutual

def Tree.tokens : Tree κ σ → List (Token κ σ)
  | .scalar s => [.scalar s]
  | .object ms => .objectStart :: ms.tokens ++ [.objectEnd]
  | .array es => .arrayStart :: es.tokens ++ [.arrayEnd]

def Members.tokens : Members κ σ → List (Token κ σ)
  | .nil => []
  | .cons k v ms => .key k :: v.tokens ++ ms.tokens

def Elements.tokens : Elements κ σ → List (Token κ σ)
  | .nil => []
  | .cons v es => v.tokens ++ es.tokens

end

/-! ## Unique reading -/

mutual

theorem Tree.tokens_unique : ∀ (t t' : Tree κ σ) {r r' : List (Token κ σ)},
    t.tokens ++ r = t'.tokens ++ r' → t = t' ∧ r = r'
  | .scalar s, t', r, r', h => by
    cases t' <;> simp_all [Tree.tokens]
  | .object ms, t', r, r', h => by
    cases t' with
    | object ms' =>
      simp only [Tree.tokens, List.cons_append, List.append_assoc, List.cons.injEq, true_and,
        List.nil_append] at h
      obtain ⟨rfl, rfl⟩ := ms.tokens_unique ms' h
      exact ⟨rfl, rfl⟩
    | _ => simp [Tree.tokens] at h
  | .array es, t', r, r', h => by
    cases t' with
    | array es' =>
      simp only [Tree.tokens, List.cons_append, List.append_assoc, List.cons.injEq, true_and,
        List.nil_append] at h
      obtain ⟨rfl, rfl⟩ := es.tokens_unique es' h
      exact ⟨rfl, rfl⟩
    | _ => simp [Tree.tokens] at h

theorem Members.tokens_unique : ∀ (ms ms' : Members κ σ) {r r' : List (Token κ σ)},
    ms.tokens ++ .objectEnd :: r = ms'.tokens ++ .objectEnd :: r' → ms = ms' ∧ r = r'
  | .nil, ms', r, r', h => by
    cases ms' <;> simp_all [Members.tokens]
  | .cons k v ms, ms', r, r', h => by
    cases ms' with
    | nil => simp [Members.tokens] at h
    | cons k' v' ms' =>
      simp only [Members.tokens, List.cons_append, List.append_assoc, List.cons.injEq,
        Token.key.injEq] at h
      obtain ⟨rfl, h⟩ := h
      obtain ⟨rfl, hms⟩ := v.tokens_unique v' h
      obtain ⟨rfl, rfl⟩ := ms.tokens_unique ms' hms
      exact ⟨rfl, rfl⟩

theorem Elements.tokens_unique : ∀ (es es' : Elements κ σ) {r r' : List (Token κ σ)},
    es.tokens ++ .arrayEnd :: r = es'.tokens ++ .arrayEnd :: r' → es = es' ∧ r = r'
  | .nil, es', r, r', h => by
    cases es' with
    | nil => simp_all [Elements.tokens]
    | cons v' es' => cases v' <;> simp [Elements.tokens, Tree.tokens] at h
  | .cons v es, es', r, r', h => by
    cases es' with
    | nil => cases v <;> simp [Elements.tokens, Tree.tokens] at h
    | cons v' es' =>
      simp only [Elements.tokens, List.append_assoc] at h
      obtain ⟨rfl, hes⟩ := v.tokens_unique v' h
      obtain ⟨rfl, rfl⟩ := es.tokens_unique es' hes
      exact ⟨rfl, rfl⟩

end

theorem Tree.tokens_injective {t t' : Tree κ σ} (h : t.tokens = t'.tokens) : t = t' :=
  (t.tokens_unique t' (congrArg (· ++ []) h)).1

/-! ## The reader -/

/-- An open container. -/
inductive Frame
  | object
  | array
  deriving DecidableEq

/-- Where a reader is, with the containers that are open, the innermost first : a value has to
come, or it is between the values of the object or array inside `fs`, or the tree has ended. -/
inductive Pos
  | value (fs : List Frame)
  | inObject (fs : List Frame)
  | inArray (fs : List Frame)
  | done
  deriving DecidableEq

namespace Pos

/-- Behind a value. -/
def after : List Frame → Pos
  | [] => done
  | .object :: fs => inObject fs
  | .array :: fs => inArray fs

/-- The first token of a value. -/
def stepValue (fs : List Frame) : Token κ σ → Option Pos
  | .scalar _ => some (after fs)
  | .objectStart => some (inObject fs)
  | .arrayStart => some (inArray fs)
  | _ => none

/-- One token. -/
def step : Pos → Token κ σ → Option Pos
  | value fs, t => stepValue fs t
  | inObject fs, .key _ => some (value (.object :: fs))
  | inObject fs, .objectEnd => some (after fs)
  | inArray fs, .arrayEnd => some (after fs)
  | inArray fs, t => stepValue (.array :: fs) t
  | _, _ => none

theorem step_ne_start {p : Pos} {t : Token κ σ} : p.step t ≠ some (value []) := by
  have hafter : ∀ fs, after fs ≠ value [] := by
    rintro (_ | ⟨_ | _, _⟩) <;> exact fun h => nomatch h
  intro h
  cases p <;> cases t <;> simp_all [step, stepValue]

end Pos

open Pos

/-- In an array, the tokens of a value are read as where a value has to come. -/
theorem foldlM_inArray (fs : List Frame) (v : Tree κ σ) :
    v.tokens.foldlM step (inArray fs) = v.tokens.foldlM step (value (.array :: fs)) := by
  cases v <;> rfl

mutual

theorem Tree.foldlM_tokens : ∀ (t : Tree κ σ) (fs : List Frame),
    t.tokens.foldlM step (value fs) = some (after fs)
  | .scalar s, fs => rfl
  | .object ms, fs => by
    rw [Tree.tokens, List.cons_append, List.foldlM_cons]
    change (ms.tokens ++ [Token.objectEnd]).foldlM step (inObject fs) = _
    rw [List.foldlM_append, ms.foldlM_tokens fs]
    rfl
  | .array es, fs => by
    rw [Tree.tokens, List.cons_append, List.foldlM_cons]
    change (es.tokens ++ [Token.arrayEnd]).foldlM step (inArray fs) = _
    rw [List.foldlM_append, es.foldlM_tokens fs]
    rfl

theorem Members.foldlM_tokens : ∀ (ms : Members κ σ) (fs : List Frame),
    ms.tokens.foldlM step (inObject fs) = some (inObject fs)
  | .nil, fs => rfl
  | .cons k v ms, fs => by
    rw [Members.tokens, List.cons_append, List.foldlM_cons]
    change (v.tokens ++ ms.tokens).foldlM step (value (.object :: fs)) = _
    rw [List.foldlM_append, v.foldlM_tokens (.object :: fs)]
    exact ms.foldlM_tokens fs

theorem Elements.foldlM_tokens : ∀ (es : Elements κ σ) (fs : List Frame),
    es.tokens.foldlM step (inArray fs) = some (inArray fs)
  | .nil, fs => rfl
  | .cons v es, fs => by
    rw [Elements.tokens, List.foldlM_append, foldlM_inArray, v.foldlM_tokens (.array :: fs)]
    exact es.foldlM_tokens fs

end

/-- What ends the open containers. -/
def Closes : List Frame → List (Token κ σ) → Prop
  | [], toks => toks = []
  | .object :: fs, toks =>
    ∃ ms : Members κ σ, ∃ r, toks = ms.tokens ++ .objectEnd :: r ∧ Closes fs r
  | .array :: fs, toks =>
    ∃ es : Elements κ σ, ∃ r, toks = es.tokens ++ .arrayEnd :: r ∧ Closes fs r

/-- What a reader has still to read. -/
def Pos.Owes : Pos → List (Token κ σ) → Prop
  | value fs, toks => ∃ t : Tree κ σ, ∃ r, toks = t.tokens ++ r ∧ Closes fs r
  | inObject fs, toks => Closes (.object :: fs) toks
  | inArray fs, toks => Closes (.array :: fs) toks
  | done, toks => toks = []

theorem owes_after {fs : List Frame} {toks : List (Token κ σ)} :
    (after fs).Owes toks ↔ Closes fs toks := by
  obtain _ | ⟨_ | _, _⟩ := fs <;> rfl

/-- The tokens of a value, read up to `p`, and what `p` owes. -/
theorem owes_of_stepValue {fs : List Frame} {p : Pos} {t : Token κ σ} {toks : List (Token κ σ)}
    (h : stepValue fs t = some p) (ho : p.Owes toks) :
    ∃ v : Tree κ σ, ∃ r, t :: toks = v.tokens ++ r ∧ Closes fs r := by
  cases t with
  | scalar s =>
    cases h
    exact ⟨.scalar s, toks, rfl, owes_after.mp ho⟩
  | objectStart =>
    cases h
    obtain ⟨ms, r, rfl, hr⟩ := ho
    exact ⟨.object ms, r, by simp [Tree.tokens], hr⟩
  | arrayStart =>
    cases h
    obtain ⟨es, r, rfl, hr⟩ := ho
    exact ⟨.array es, r, by simp [Tree.tokens], hr⟩
  | _ => cases h

theorem owes_of_step {p p' : Pos} {t : Token κ σ} {toks : List (Token κ σ)}
    (h : step p t = some p') (ho : p'.Owes toks) : p.Owes (t :: toks) := by
  cases p with
  | value fs => exact owes_of_stepValue h ho
  | inObject fs =>
    cases t with
    | key k =>
      cases h
      obtain ⟨v, r, rfl, ms, r', rfl, hr⟩ := ho
      exact ⟨.cons k v ms, r', by simp [Members.tokens], hr⟩
    | objectEnd =>
      cases h
      exact ⟨.nil, toks, rfl, owes_after.mp ho⟩
    | _ => cases h
  | inArray fs =>
    -- an end, or the first token of one more value
    have hv : stepValue (.array :: fs) t = some p' → Pos.Owes (inArray fs) (t :: toks) := by
      intro h
      obtain ⟨v, r, hr, es, r', rfl, hc⟩ := owes_of_stepValue h ho
      exact ⟨.cons v es, r', by simpa [Elements.tokens] using hr, hc⟩
    cases t with
    | arrayEnd =>
      cases h
      exact ⟨.nil, toks, rfl, owes_after.mp ho⟩
    | _ => exact hv h
  | done => cases t <;> cases h

theorem owes_of_foldlM {toks : List (Token κ σ)} {p : Pos} (h : toks.foldlM step p = some done) :
    p.Owes toks := by
  induction toks generalizing p with
  | nil =>
    cases h
    exact rfl
  | cons t toks ih =>
    rw [List.foldlM_cons] at h
    obtain ⟨p', hp', h⟩ := Option.bind_eq_some_iff.mp h
    exact owes_of_step hp' (ih h)

/-- The reader accepts the tokens of trees, and of one tree each. -/
theorem accepts_iff {toks : List (Token κ σ)} :
    toks.foldlM step (value []) = some done ↔ ∃! t : Tree κ σ, t.tokens = toks := by
  constructor
  · intro h
    obtain ⟨t, r, rfl, hr⟩ := owes_of_foldlM h
    obtain rfl : r = [] := hr
    exact ⟨t, by simp, fun t' h' => Tree.tokens_injective (by simpa using h')⟩
  · rintro ⟨t, rfl, -⟩
    exact t.foldlM_tokens []

end Webxs
