import Webxs.ChunkSize
import Webxs.CopyBounds
import Webxs.JsonText
import Webxs.Storing

/-!
# Unescaping

`xs_json_unescape` (`xs_json.h`) on the body of a string. At a `u` it looks for the four digits from
the `u` on, not behind it, so that it takes no such escape. `jsonUnescapes_iff` says when it does
what it is to do.

Reads of the body and stores are checked.
-/

namespace Webxs

/-- What the `switch` stores for the character behind a backslash, `u` apart. -/
def jsonEscape (c : UInt8) : Option UInt8 :=
  if c = 114 then some 13
  else if c = 110 then some 10
  else if c = 102 then some 12
  else if c = 98 then some 8
  else if c = 116 then some 9
  else if c = 34 then some 34
  else if c = 92 then some 92
  else if c = 47 then some 47
  else none

/-- The loop of `xs_json_unescape` at `s` and `d`, with `e` the end, if it ends in `n` turns. -/
def jsonUnescapeLoop (src : List UInt8) (e : ℕ) :
    ℕ → ℕ → ℕ → List UInt8 → Option (ℤ × List UInt8)
  | 0, _, _, _ => none
  | n + 1, s, d, dst =>
    if e ≤ s then some (0, dst)
    else do
      let a ← src[s]?
      if a = 0 then some (0, dst)
      else if a = 92 then
        let s := s + 1
        if e ≤ s then some (-2, dst)
        else do
          let c ← src[s]?
          match jsonEscape c with
          | some b => (InCopy.store dst d b).bind (jsonUnescapeLoop src e n (s + 1) (d + 1))
          | none =>
            if c = 117 then
              if e ≤ s + 3 then some (-2, dst)
              else do
                let ha := fromhex (← src[s]?)
                if ha < 0 then some (-2, dst) else
                let hb := fromhex (← src[s + 1]?)
                if hb < 0 then some (-2, dst) else
                let hc := fromhex (← src[s + 2]?)
                if hc < 0 then some (-2, dst) else
                let hd := fromhex (← src[s + 3]?)
                if hd < 0 then some (-2, dst) else
                (InCopy.store dst d (UInt8.ofInt (ha * 4096 + hb * 256 + hc * 16 + hd))).bind
                  (jsonUnescapeLoop src e n (s + 4) (d + 1))
            else some (-2, dst)
      else (InCopy.store dst d a).bind (jsonUnescapeLoop src e n (s + 1) (d + 1))

/-- `xs_json_unescape` of the body `src` into the buffer `dst` : what it returns, and the buffer. -/
def jsonUnescape (dst src : List UInt8) : Option (ℤ × List UInt8) :=
  if src.length = 0 ∨ dst.length = 0 then some (0, dst)
  else
    let e := if dst.length < src.length then dst.length else src.length
    jsonUnescapeLoop src e (e + 1) 0 0 dst

/-! ## What it is to do -/

namespace StringChar

/-- The byte that a character of a string stands for, if it is below 128. -/
def byte : StringChar → UInt8
  | plain a _ => a
  | escape a _ => (jsonEscape a).getD 0
  | unicode a b c d _ => UInt8.ofNat (hexValue [a, b, c, d])

def isUnicode : StringChar → Bool
  | unicode .. => true
  | _ => false

/-- A `u` escape stands for a character from 1 to 127. -/
def Ascii : StringChar → Prop
  | unicode a b c d _ => 1 ≤ hexValue [a, b, c, d] ∧ hexValue [a, b, c, d] ≤ 127
  | _ => True

end StringChar

/-- A body with an escape that is unknown or cut. -/
inductive BadEscape : List UInt8 → Prop
  | here {x : List UInt8} (h : ∀ c : StringChar, c.isEscape = true → ¬c.text <+: 92 :: x) :
      BadEscape (92 :: x)
  | byte {a : UInt8} {x : List UInt8} (ha : a ≠ 92) (hx : BadEscape x) : BadEscape (a :: x)
  | escape {c : StringChar} {x : List UInt8} (hc : c.isEscape = true) (hx : BadEscape x) :
      BadEscape (c.text ++ x)

/-- The call stays inside; a valid body that has room is unescaped, and one with a bad escape is a
syntax error. -/
def JsonUnescapes (dst src : List UInt8) : Prop :=
  ∃ v dst', jsonUnescape dst src = some (v, dst') ∧ dst'.length = dst.length ∧
    (∀ s, src = stringBody s → (∀ c ∈ s, c.Ascii) → src.length ≤ dst.length →
      v = 0 ∧ s.map StringChar.byte <+: dst') ∧
    (BadEscape src → v = -2)

/-! ## What it does -/

/-- Before a NUL, some escape is not one of the two-character escapes. -/
def stops : List UInt8 → Bool
  | [] => false
  | a :: x =>
    if a = 0 then false
    else if a = 92 then
      match x with
      | [] => true
      | c :: y => (jsonEscape c).isNone || stops y
    else stops x

/-- What is written before. -/
def unescaped : List UInt8 → List UInt8
  | [] => []
  | a :: x =>
    if a = 0 then []
    else if a = 92 then
      match x with
      | [] => []
      | c :: y => (jsonEscape c).elim [] fun b => b :: unescaped y
    else a :: unescaped x

variable {src dst rest : List UInt8} {e n s d : ℕ}

theorem stops_byte {a : UInt8} (h0 : a ≠ 0) (ha : a ≠ 92) : stops (a :: rest) = stops rest := by
  cases rest with
  | nil => exact (if_neg h0).trans (if_neg ha)
  | cons c rest => exact (if_neg h0).trans (if_neg ha)

theorem stops_nul (rest : List UInt8) : stops (0 :: rest) = false := by
  cases rest <;> rfl

theorem stops_escape (c : UInt8) :
    stops (92 :: c :: rest) = ((jsonEscape c).isNone || stops rest) :=
  rfl

theorem unescaped_byte {a : UInt8} (h0 : a ≠ 0) (ha : a ≠ 92) :
    unescaped (a :: rest) = a :: unescaped rest := by
  cases rest with
  | nil => exact (if_neg h0).trans (if_neg ha)
  | cons c rest => exact (if_neg h0).trans (if_neg ha)

theorem unescaped_nul (rest : List UInt8) : unescaped (0 :: rest) = [] := by
  cases rest <;> rfl

theorem unescaped_escape (c : UInt8) :
    unescaped (92 :: c :: rest) = (jsonEscape c).elim [] fun b => b :: unescaped rest :=
  rfl

/-- A byte of the part that is read. -/
theorem getElem?_of_take_drop {a : UInt8} (h : (src.take e).drop s = a :: rest) :
    s < e ∧ src[s]? = some a ∧ (src.take e).drop (s + 1) = rest := by
  obtain ⟨hget, hdrop⟩ := getElem?_of_drop h
  have hlt : s < e := by
    have := (List.getElem?_eq_some_iff.mp hget).1
    rw [List.length_take] at this
    omega
  rw [List.getElem?_take_of_lt hlt] at hget
  exact ⟨hlt, hget, hdrop⟩

theorem jsonUnescapeLoop_end (h : e ≤ s) :
    jsonUnescapeLoop src e (n + 1) s d dst = some (0, dst) :=
  if_pos h

theorem jsonUnescapeLoop_nul (hs : s < e) (h : src[s]? = some 0) :
    jsonUnescapeLoop src e (n + 1) s d dst = some (0, dst) := by
  rw [jsonUnescapeLoop, if_neg (by omega), h]
  rfl

theorem jsonUnescapeLoop_byte {a : UInt8} (hs : s < e) (h : src[s]? = some a) (h0 : a ≠ 0)
    (ha : a ≠ 92) (hd : d < dst.length) :
    jsonUnescapeLoop src e (n + 1) s d dst =
      jsonUnescapeLoop src e n (s + 1) (d + 1) (dst.set d a) := by
  rw [jsonUnescapeLoop, if_neg (by omega), h]
  simp only [Option.bind_eq_bind, Option.bind_some, if_neg h0, if_neg ha]
  rw [InCopy.store, if_pos hd, Option.bind_some]

theorem jsonUnescapeLoop_cut (hs : s < e) (h : src[s]? = some 92) (hend : e ≤ s + 1) :
    jsonUnescapeLoop src e (n + 1) s d dst = some (-2, dst) := by
  rw [jsonUnescapeLoop, if_neg (by omega), h]
  simp only [Option.bind_eq_bind, Option.bind_some, if_neg (by decide : ¬(92 : UInt8) = 0),
    if_true, if_pos hend]

theorem jsonUnescapeLoop_escape {c b : UInt8} (hs : s + 1 < e) (h : src[s]? = some 92)
    (hc : src[s + 1]? = some c) (hb : jsonEscape c = some b) (hd : d < dst.length) :
    jsonUnescapeLoop src e (n + 1) s d dst =
      jsonUnescapeLoop src e n (s + 2) (d + 1) (dst.set d b) := by
  rw [jsonUnescapeLoop, if_neg (by omega), h]
  simp only [Option.bind_eq_bind, Option.bind_some, if_neg (by decide : ¬(92 : UInt8) = 0),
    if_true, if_neg (by omega : ¬e ≤ s + 1), hc, hb]
  rw [InCopy.store, if_pos hd, Option.bind_some]

/-- A `u` is no hexadecimal digit, and so no escape but the short ones is taken. -/
theorem jsonUnescapeLoop_bad {c : UInt8} (hs : s + 1 < e) (h : src[s]? = some 92)
    (hc : src[s + 1]? = some c) (hb : jsonEscape c = none) :
    jsonUnescapeLoop src e (n + 1) s d dst = some (-2, dst) := by
  rw [jsonUnescapeLoop, if_neg (by omega), h]
  simp only [Option.bind_eq_bind, Option.bind_some, if_neg (by decide : ¬(92 : UInt8) = 0),
    if_true, if_neg (by omega : ¬e ≤ s + 1), hc, hb]
  split_ifs with hu hend hdigit
  · rfl
  · rfl
  · exact absurd (by rw [hu]; decide) hdigit
  · rfl

/-- The loop reads up to the end, a NUL or an escape that it does not take. -/
theorem jsonUnescapeLoop_spec (he : e ≤ src.length) (hdrop : (src.take e).drop s = rest)
    (hn : rest.length < n) (hd : d + rest.length ≤ dst.length) :
    ∃ dst', jsonUnescapeLoop src e n s d dst = some (if stops rest then -2 else 0, dst') ∧
      Stored dst d (unescaped rest) dst' := by
  induction n generalizing s d dst rest with
  | zero => omega
  | succ n ih =>
    cases rest with
    | nil =>
      have hend := List.drop_eq_nil_iff.mp hdrop
      rw [List.length_take, Nat.min_eq_left he] at hend
      exact ⟨dst, jsonUnescapeLoop_end hend, .nil _ _⟩
    | cons a rest =>
      obtain ⟨hs, hget, hdrop₁⟩ := getElem?_of_take_drop hdrop
      rw [List.length_cons] at hn hd
      by_cases h0 : a = 0
      · subst h0
        rw [stops_nul, unescaped_nul]
        exact ⟨dst, jsonUnescapeLoop_nul hs hget, .nil _ _⟩
      by_cases ha : a = 92
      · subst ha
        cases rest with
        | nil =>
          have hend := List.drop_eq_nil_iff.mp hdrop₁
          rw [List.length_take, Nat.min_eq_left he] at hend
          exact ⟨dst, jsonUnescapeLoop_cut hs hget hend, .nil _ _⟩
        | cons c rest =>
          obtain ⟨hs₁, hget₁, hdrop₂⟩ := getElem?_of_take_drop hdrop₁
          rw [List.length_cons] at hn hd
          rw [stops_escape, unescaped_escape]
          cases hc : jsonEscape c with
          | none => exact ⟨dst, jsonUnescapeLoop_bad hs₁ hget hget₁ hc, .nil _ _⟩
          | some b =>
            have hset := Stored.set (by omega : d < dst.length) b
            obtain ⟨dst', hr, hs'⟩ := ih (d := d + 1) hdrop₂ (by omega) (by rw [hset.length]; omega)
            exact ⟨dst', (jsonUnescapeLoop_escape hs₁ hget hget₁ hc (by omega)).trans hr,
              hset.trans hs'⟩
      · have hset := Stored.set (by omega : d < dst.length) a
        obtain ⟨dst', hr, hs'⟩ := ih (d := d + 1) hdrop₁ (by omega) (by rw [hset.length]; omega)
        rw [stops_byte h0 ha, unescaped_byte h0 ha]
        exact ⟨dst', (jsonUnescapeLoop_byte hs hget h0 ha (by omega)).trans hr, hset.trans hs'⟩

/-- What the call does with the bytes that it looks at. -/
theorem jsonUnescape_spec (dst src : List UInt8) :
    ∃ dst', jsonUnescape dst src =
        some (if stops (src.take dst.length) then -2 else 0, dst') ∧
      Stored dst 0 (unescaped (src.take dst.length)) dst' := by
  unfold jsonUnescape
  by_cases hempty : src.length = 0 ∨ dst.length = 0
  · have hnil : src.take dst.length = [] := by
      rw [List.take_eq_nil_iff, ← List.length_eq_zero_iff]
      exact hempty.symm
    rw [if_pos hempty, hnil]
    exact ⟨dst, rfl, .nil _ _⟩
  rw [if_neg hempty]
  dsimp only
  have hmin : (if dst.length < src.length then dst.length else src.length) =
      min dst.length src.length := by
    split_ifs <;> omega
  have htake : src.take (min dst.length src.length) = src.take dst.length := by
    rw [List.take_eq_take_iff]
    omega
  rw [hmin, ← htake]
  have hlen : (src.take (min dst.length src.length)).length = min dst.length src.length := by
    rw [List.length_take]
    omega
  exact jsonUnescapeLoop_spec (Nat.min_le_right _ _) List.drop_zero (by omega) (by omega)

/-! ## Valid bodies -/

theorem jsonEscape_some {a : UInt8} (h : a ∈ ascii "\"\\/bfnrt") :
    ∃ b, jsonEscape a = some b := by
  have hall : ∀ a ∈ ascii "\"\\/bfnrt", (jsonEscape a).isSome := by decide +kernel
  exact Option.isSome_iff_exists.mp (hall a h)

/-- A valid body stops the loop at a `u` escape only. -/
theorem stops_stringBody (s : List StringChar) :
    stops (stringBody s) = s.any StringChar.isUnicode := by
  induction s with
  | nil => rfl
  | cons c s ih =>
    rw [List.any_cons, ← ih]
    cases c with
    | plain a h =>
      have h0 : a ≠ 0 := fun h0 => absurd h.1 (by rw [h0]; decide)
      exact stops_byte h0 h.2.2
    | escape a h =>
      obtain ⟨b, hb⟩ := jsonEscape_some h
      refine (stops_escape a).trans ?_
      rw [hb]
      rfl
    | unicode a b c d h => rfl

theorem unescaped_stringBody {s : List StringChar} (h : s.any StringChar.isUnicode = false) :
    unescaped (stringBody s) = s.map StringChar.byte := by
  induction s with
  | nil => rfl
  | cons c s ih =>
    rw [List.any_cons, Bool.or_eq_false_iff] at h
    obtain ⟨hc, hrest⟩ := h
    rw [List.map_cons, ← ih hrest]
    cases c with
    | plain a h =>
      have h0 : a ≠ 0 := fun h0 => absurd h.1 (by rw [h0]; decide)
      exact unescaped_byte h0 h.2.2
    | escape a h =>
      obtain ⟨b, hb⟩ := jsonEscape_some h
      refine (unescaped_escape a).trans ?_
      rw [StringChar.byte, hb]
      rfl
    | unicode a b c d h => cases hc

/-- The call does what it is to do exactly if a valid body that has room has no `u` escape, and a
bad escape is not the first that is not taken among those that are looked at. -/
theorem jsonUnescapes_iff (dst src : List UInt8) :
    JsonUnescapes dst src ↔
      (∀ s, src = stringBody s → (∀ c ∈ s, c.Ascii) → src.length ≤ dst.length →
        s.any StringChar.isUnicode = false) ∧
      (BadEscape src → stops (src.take dst.length) = true) := by
  obtain ⟨dst', hr, hs⟩ := jsonUnescape_spec dst src
  unfold JsonUnescapes
  constructor
  · rintro ⟨v, dst'', hr', -, hvalid, hbad⟩
    rw [hr] at hr'
    cases hr'
    refine ⟨fun s hsrc hascii hroom => ?_, fun h => ?_⟩
    · have hv := (hvalid s hsrc hascii hroom).1
      rw [List.take_of_length_le hroom] at hv
      split_ifs at hv with hstop
      rw [← stops_stringBody, ← hsrc]
      exact Bool.eq_false_of_not_eq_true hstop
    · have hv := hbad h
      split_ifs at hv with hstop
      exact hstop
  · rintro ⟨hvalid, hbad⟩
    refine ⟨_, dst', hr, hs.length, fun s hsrc hascii hroom => ?_, fun h => if_pos (hbad h)⟩
    have hplain := hvalid s hsrc hascii hroom
    have hstop := stops_stringBody s
    rw [hplain, ← hsrc] at hstop
    rw [List.take_of_length_le hroom] at hs ⊢
    rw [hsrc, unescaped_stringBody hplain] at hs
    refine ⟨if_neg (by rw [hstop]; decide), ?_⟩
    obtain ⟨v, hv⟩ := drop_of_stored hs (Nat.zero_le _)
    exact ⟨v, by rw [← hv]; rfl⟩

/-- The escape of the letter `A`. -/
theorem not_jsonUnescapes_unicode :
    ¬JsonUnescapes (List.replicate 6 0) (ascii "\\u0041") := by
  intro h
  obtain ⟨v, dst', hr, -, hvalid, -⟩ := h
  have hhex : isHex 48 ∧ isHex 48 ∧ isHex 52 ∧ isHex 49 := by
    unfold isHex
    decide +kernel
  have htext : ascii "\\u0041" = [92, 117, 48, 48, 52, 49] := by decide +kernel
  have hbody : ascii "\\u0041" = stringBody [.unicode 48 48 52 49 hhex] := htext
  have hvalue : 1 ≤ hexValue [48, 48, 52, 49] ∧ hexValue [48, 48, 52, 49] ≤ 127 := by
    decide +kernel
  have hascii : ∀ c ∈ [StringChar.unicode 48 48 52 49 hhex], c.Ascii :=
    List.forall_mem_singleton.mpr hvalue
  have hv := (hvalid _ hbody hascii (by decide)).1
  have hcall : jsonUnescape (List.replicate 6 0) (ascii "\\u0041") =
      some (-2, List.replicate 6 0) := by decide +kernel
  rw [hr] at hcall
  cases hcall
  cases hv

end Webxs
