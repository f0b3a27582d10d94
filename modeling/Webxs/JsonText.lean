import Webxs.Json

/-!
# JSON texts

The grammar of JSON as trees that keep what is written : the whitespace, the bytes of strings and
numbers, and where an object or an array is empty. `JsonText.text` is what such a tree is written
as and `JsonText.tags` the tags of its tokens, with the slice of each scalar.

`JsonText.CommaBehind` says that every number, `true`, `false` and `null` is followed by a comma
at once.
-/

namespace Webxs

/-! ## Scalars -/

/-- Whitespace. -/
structure Blank where
  text : List UInt8
  isspace_of_mem : ∀ a ∈ text, a = 32 ∨ a = 9 ∨ a = 10 ∨ a = 13

/-- A digit. -/
def isDigit (a : UInt8) : Prop :=
  a ∈ ascii "0123456789"

/-- A hexadecimal digit. -/
def isHex (a : UInt8) : Prop :=
  a ∈ ascii "0123456789ABCDEFabcdef"

/-- A character of a string, or a byte of one : which bytes from 128 on follow each other does not
matter. -/
inductive StringChar
  | plain (a : UInt8) (h : 32 ≤ a ∧ a ≠ 34 ∧ a ≠ 92)
  | escape (a : UInt8) (h : a ∈ ascii "\"\\/bfnrt")
  | unicode (a b c d : UInt8) (h : isHex a ∧ isHex b ∧ isHex c ∧ isHex d)

namespace StringChar

def text : StringChar → List UInt8
  | plain a _ => [a]
  | escape a _ => [92, a]
  | unicode a b c d _ => [92, 117, a, b, c, d]

def isEscape : StringChar → Bool
  | plain _ _ => false
  | _ => true

end StringChar

/-- What is between the quotes. -/
def stringBody (s : List StringChar) : List UInt8 :=
  s.flatMap StringChar.text

/-- A string with its quotes. -/
def stringText (s : List StringChar) : List UInt8 :=
  34 :: stringBody s ++ [34]

/-- The tag of a string at `q` : its slice is between the quotes. -/
def stringTag (type stype : JsonType) (q : ℕ) (s : List StringChar) : JsonTag where
  type := type
  stype := stype
  hasEscape := s.any StringChar.isEscape
  ptr := some (q + 1)
  len := (stringBody s).length
  i := 0

/-- One digit or more. -/
structure Digits where
  text : List UInt8
  ne_nil : text ≠ []
  isDigit_of_mem : ∀ a ∈ text, isDigit a

/-- A number : the integer part is zero or does not begin with one. -/
structure Number where
  minus : Bool
  int : Digits
  int_zero : int.text.head? = some 48 → int.text = [48]
  frac : Option Digits
  /-- The letter of the exponent, its sign and its digits. -/
  exp : Option (Bool × Option Bool × Digits)

def Number.text (n : Number) : List UInt8 :=
  (if n.minus then [45] else []) ++ n.int.text ++
    (n.frac.elim [] fun d => 46 :: d.text) ++
    (n.exp.elim [] fun e => (if e.1 then 69 else 101) ::
      ((e.2.1.elim [] fun plus => [if plus then 43 else 45]) ++ e.2.2.text))

/-- A scalar without quotes. -/
inductive Bare
  | number (n : Number)
  | true
  | false
  | null

namespace Bare

def text : Bare → List UInt8
  | number n => n.text
  | true => ascii "true"
  | false => ascii "false"
  | null => ascii "null"

def stype : Bare → JsonType
  | number _ => .number
  | true => .boolean
  | false => .boolean
  | null => .null

def tag (b : Bare) (q : ℕ) : JsonTag where
  type := .value
  stype := b.stype
  hasEscape := Bool.false
  ptr := some q
  len := b.text.length
  i := match b with
    | true => 1
    | _ => 0

end Bare

/-! ## Values -/

/-- A key with the whitespace around it, up to its colon. -/
structure KeyColon where
  before : Blank
  key : List StringChar
  after : Blank

def KeyColon.text (k : KeyColon) : List UInt8 :=
  k.before.text ++ (stringText k.key ++ (k.after.text ++ [58]))

def KeyColon.tag (k : KeyColon) (q : ℕ) : JsonTag :=
  stringTag .key .zero (q + k.before.text.length) k.key

mutual

/-- A value, without the whitespace around it. -/
inductive JsonText
  | string (s : List StringChar)
  | bare (b : Bare)
  | object (blank : Blank)
  | objectOf (ms : JsonMembers)
  | array (blank : Blank)
  | arrayOf (es : JsonElements)

/-- What is between the braces of an object that is not empty. -/
inductive JsonMembers
  | one (k : KeyColon) (before : Blank) (v : JsonText) (after : Blank)
  | cons (k : KeyColon) (before : Blank) (v : JsonText) (after : Blank) (ms : JsonMembers)

/-- What is between the brackets of an array that is not empty. -/
inductive JsonElements
  | one (before : Blank) (v : JsonText) (after : Blank)
  | cons (before : Blank) (v : JsonText) (after : Blank) (es : JsonElements)

end

mutual

def JsonText.text : JsonText → List UInt8
  | .string s => stringText s
  | .bare b => b.text
  | .object blank => 123 :: (blank.text ++ [125])
  | .objectOf ms => 123 :: (ms.text ++ [125])
  | .array blank => 91 :: (blank.text ++ [93])
  | .arrayOf es => 91 :: (es.text ++ [93])

def JsonMembers.text : JsonMembers → List UInt8
  | .one k before v after => k.text ++ (before.text ++ (v.text ++ after.text))
  | .cons k before v after ms =>
    k.text ++ (before.text ++ (v.text ++ (after.text ++ 44 :: ms.text)))

def JsonElements.text : JsonElements → List UInt8
  | .one before v after => before.text ++ (v.text ++ after.text)
  | .cons before v after es => before.text ++ (v.text ++ (after.text ++ 44 :: es.text))

end

/-- The tag of a start or an end. -/
def markTag (type : JsonType) : JsonTag :=
  { JsonTag.clear false with type := type }

mutual

/-- The tags of a value at `q`. -/
def JsonText.tags : JsonText → ℕ → List JsonTag
  | .string s, q => [stringTag .value .string q s]
  | .bare b, q => [b.tag q]
  | .object _, _ => [markTag .objectStart, markTag .objectEnd]
  | .objectOf ms, q => markTag .objectStart :: (ms.tags (q + 1) ++ [markTag .objectEnd])
  | .array _, _ => [markTag .arrayStart, markTag .arrayEnd]
  | .arrayOf es, q => markTag .arrayStart :: (es.tags (q + 1) ++ [markTag .arrayEnd])

def JsonMembers.tags : JsonMembers → ℕ → List JsonTag
  | .one k before v _, q => k.tag q :: v.tags (q + k.text.length + before.text.length)
  | .cons k before v after ms, q =>
    k.tag q :: (v.tags (q + k.text.length + before.text.length) ++
      ms.tags (q + k.text.length + before.text.length + v.text.length + after.text.length + 1))

def JsonElements.tags : JsonElements → ℕ → List JsonTag
  | .one before v _, q => v.tags (q + before.text.length)
  | .cons before v after es, q =>
    v.tags (q + before.text.length) ++
      es.tags (q + before.text.length + v.text.length + after.text.length + 1)

end

/-! ## Commas -/

/-- The value is a number, `true`, `false` or `null`. -/
def JsonText.IsBare : JsonText → Prop
  | .bare _ => True
  | _ => False

/-- The value is an object or an array. -/
def JsonText.IsContainer : JsonText → Prop
  | .string _ => False
  | .bare _ => False
  | _ => True

mutual

/-- A comma follows every number, `true`, `false` and `null` at once. -/
def JsonText.CommaBehind : JsonText → Prop
  | .objectOf ms => ms.CommaBehind
  | .arrayOf es => es.CommaBehind
  | _ => True

def JsonMembers.CommaBehind : JsonMembers → Prop
  | .one _ _ v _ => v.CommaBehind ∧ ¬v.IsBare
  | .cons _ _ v after ms => v.CommaBehind ∧ (v.IsBare → after.text = []) ∧ ms.CommaBehind

def JsonElements.CommaBehind : JsonElements → Prop
  | .one _ v _ => v.CommaBehind ∧ ¬v.IsBare
  | .cons _ v after es => v.CommaBehind ∧ (v.IsBare → after.text = []) ∧ es.CommaBehind

end

/-! ## Documents -/

/-- A document whose top level is an object or an array. -/
structure JsonDocument where
  before : Blank
  value : JsonText
  isContainer : value.IsContainer
  after : Blank

def JsonDocument.text (d : JsonDocument) : List UInt8 :=
  d.before.text ++ (d.value.text ++ d.after.text)

def JsonDocument.tags (d : JsonDocument) : List JsonTag :=
  d.value.tags d.before.text.length

end Webxs
