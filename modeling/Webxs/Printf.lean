import Webxs.Write

/-!
# Formatted output

`xs_sprintf_core` (`xs_printf.h`) reads a format and its arguments and writes to a buffer. With
a null buffer it writes to a staging array of 1024 bytes, which it hands to a callback and
rewinds when there is no room (`flush`); without callback it rewinds all the same and only
counts. With the caller's buffer `sroom` and `len` are its size, and there is no callback.

A piece of the format is read to an `Item` first (`readItem`) and written then (`writeItem`).
Reading and writing alternate in the source and here (`coreLoop`), but what is read does not
depend on what was written. An argument that is missing or has the wrong type has no item. The
floating point conversions are place holders that take an integer and write nothing, and what
`%n` stores is left out.

A store outside the buffer, a read outside the digits, and a loop that does not end are a
`fault`. C strings are the bytes before the NUL, and shorter than 2³¹ bytes. An `int` of the
format or the arguments is 32 bits wide, and so is the difference of a precision and a number
of digits; the sums of the room tests are integers, which overflow only near a buffer of 2³⁰
bytes or a width of −2³¹. An `unsigned long` has 64 bits.
-/

namespace Webxs

/-! ## Reading -/

/-- An argument of `xs_sprintf`. -/
inductive Arg
  | int (v : BitVec 32)
  | int64 (v : BitVec 64)
  | str (p : List UInt8)
  /-- For `%n`. -/
  | ptr
  deriving DecidableEq

/-- The bits of `f`. -/
structure Flags where
  zero : Bool
  left : Bool
  plus : Bool
  space : Bool
  alt : Bool
  deriving DecidableEq

/-- An integer conversion with its argument, which is `v64` if `vs` is 8 and `v` if not. -/
structure IntConv where
  f : Flags
  w : BitVec 32
  pr : BitVec 32
  vs : ℤ
  r : ℕ
  c : UInt8
  v : BitVec 64
  v64 : BitVec 64
  deriving DecidableEq

/-- What one turn of the loop writes. -/
inductive Item
  /-- Static text up to the next `%`. -/
  | text (l : List UInt8)
  /-- A single byte: `%%`, `%c`, or the byte of an unknown conversion. -/
  | chr (c : UInt8)
  /-- Nothing: a wide `%c`, `%n`, a floating point conversion, or the end of the format inside a
  conversion. -/
  | nothing
  /-- `%s`. -/
  | str (left : Bool) (w pr : BitVec 32) (vs : ℤ) (p : List UInt8)
  /-- `%d` and the like. -/
  | int (s : IntConv)
  deriving DecidableEq

/-- The flags; `c` is the head of the list, and the end of the list is the NUL. -/
def readFlags (f : Flags) : List UInt8 → Flags × List UInt8
  | [] => (f, [])
  | c :: fmt =>
    if c = 48 then readFlags { f with zero := true } fmt
    else if c = 45 then readFlags { f with left := true } fmt
    else if c = 43 then readFlags { f with plus := true } fmt
    else if c = 32 then readFlags { f with space := true } fmt
    else if c = 35 then readFlags { f with alt := true } fmt
    else (f, c :: fmt)

/-- The decimal digits of a width or a precision. -/
def readDigits (w : BitVec 32) : List UInt8 → BitVec 32 × List UInt8
  | [] => (w, [])
  | c :: fmt =>
    if 48 ≤ c ∧ c ≤ 57 then readDigits (w * 10 + (c.toBitVec.setWidth 32 - 48)) fmt
    else (w, c :: fmt)

/-- A width, or a precision behind its point: an argument for `*`, or digits. -/
def readWidth (fmt : List UInt8) (ap : List Arg) :
    Option (BitVec 32 × List UInt8 × List Arg) :=
  match fmt with
  | 42 :: fmt =>
    match ap with
    | .int v :: ap => some (v, fmt, ap)
    | _ => none
  | fmt => some ((readDigits 0 fmt).1, (readDigits 0 fmt).2, ap)

/-- A precision, -1 if there is none. -/
def readPrecision (fmt : List UInt8) (ap : List Arg) :
    Option (BitVec 32 × List UInt8 × List Arg) :=
  match fmt with
  | 46 :: fmt => readWidth fmt ap
  | fmt => some (-1, fmt, ap)

/-- The modifiers, as `vs`. A misspelt `I64` or `I32` sets `c` to 0, which ends the format. -/
def readModifier : List UInt8 → ℤ × List UInt8
  | 104 :: 104 :: fmt => (1, fmt)
  | 104 :: fmt => (2, fmt)
  | 76 :: fmt => (-16, fmt)
  | 108 :: 108 :: fmt => (8, fmt)
  | 108 :: fmt => (4, fmt)
  | 73 :: 54 :: 52 :: fmt => (8, fmt)
  | 73 :: 54 :: _ => (4, [])
  | 73 :: 51 :: 50 :: fmt => (4, fmt)
  | 73 :: 51 :: _ => (4, [])
  | 73 :: fmt => (4, fmt)
  | 122 :: fmt => (8, fmt)
  | fmt => (4, fmt)

/-- The radix of an integer conversion. -/
def radix (c : UInt8) : Option ℕ :=
  if c = 98 then some 2
  else if c = 111 then some 8
  else if c = 105 ∨ c = 100 ∨ c = 117 then some 10
  else if c = 88 ∨ c = 120 ∨ c = 112 then some 16
  else none

/-- The argument of an integer conversion; the size of a `long double` takes none. -/
def readInt (s : IntConv) (ap : List Arg) : Option (Item × List Arg) :=
  if s.vs = 8 then
    match ap with
    | .int64 v64 :: ap => some (.int { s with v64 }, ap)
    | _ => none
  else if s.vs = 4 ∨ s.vs = 2 ∨ s.vs = 1 then
    match ap with
    | .int v :: ap => some (.int { s with v := v.signExtend 64 }, ap)
    | _ => none
  else some (.int s, ap)

/-- The conversion `c`. -/
def readConversion (f : Flags) (w pr : BitVec 32) (vs : ℤ) (c : UInt8) (ap : List Arg) :
    Option (Item × List Arg) :=
  if c = 97 ∨ c = 65 ∨ c = 101 ∨ c = 69 ∨ c = 102 ∨ c = 103 then
    match ap with
    | .int64 _ :: ap => if vs = 8 then some (.nothing, ap) else none
    | .int _ :: ap => if vs = 8 then none else some (.nothing, ap)
    | _ => none
  else if c = 110 then
    match ap with
    | .ptr :: ap => some (.nothing, ap)
    | _ => none
  else if c = 115 then
    match ap with
    | .str p :: ap => some (.str f.left w pr vs p, ap)
    | _ => none
  else if c = 99 then
    if vs = 8 then some (.nothing, ap)
    else
      match ap with
      | .int v :: ap => some (.chr (UInt8.ofBitVec (v.setWidth 8)), ap)
      | _ => none
  else
    match radix c with
    | some r => readInt ⟨f, w, pr, if c = 112 then 8 else vs, r, c, 0, 0⟩ ap
    | none => some (.chr c, ap)

/-- A conversion behind its `%`. -/
def readSpec (fmt : List UInt8) (ap : List Arg) : Option (Item × List UInt8 × List Arg) := do
  let f := readFlags ⟨false, false, false, false, false⟩ fmt
  let w ← readWidth f.2 ap
  let pr ← readPrecision w.2.1 w.2.2
  let m := readModifier pr.2.1
  match m.2 with
  | [] => some (.nothing, [], pr.2.2)
  | c :: fmt =>
    let i ← readConversion f.1 w.1 pr.1 m.1 c pr.2.2
    some (i.1, fmt, i.2)

/-- What one turn of the loop reads. -/
def readItem (fmt : List UInt8) (ap : List Arg) : Option (Item × List UInt8 × List Arg) :=
  match fmt with
  | 37 :: 37 :: fmt => some (.chr 37, fmt, ap)
  | 37 :: fmt => readSpec fmt ap
  | fmt => some (.text (fmt.takeWhile (· ≠ 37)), fmt.dropWhile (· ≠ 37), ap)

/-! ## The buffer -/

/-- The answer of a callback to the blocks it had before and the block it is given. -/
abbrev Sflush := List (List UInt8) → List UInt8 → ℤ

/-- What does not change during a call : the callback, `sroom` and `len`. -/
structure Setup where
  sflush : Option Sflush
  sroom : ℕ
  len : ℕ

/-- The buffer and the counts. -/
structure Sink where
  str : List UInt8
  ind : ℕ
  tot : ℕ
  /-- History : the blocks flushed; a callback was given them. -/
  flushed : List (List UInt8)
  deriving DecidableEq

/-- What ends the writing. -/
inductive Halt
  | fault
  /-- `goto END` with `ind=cc`. -/
  | refused (cc : ℤ) (o : Sink)
  deriving DecidableEq

namespace Sink

/-- `str[ind++]=c`. -/
def put (c : UInt8) (o : Sink) : Except Halt Sink :=
  if o.ind < o.str.length then .ok { o with str := o.str.set o.ind c, ind := o.ind + 1 }
  else .error .fault

/-- `memcpy (str+ind, p, l); ind += l`. -/
def copy (p : List UInt8) (o : Sink) : Except Halt Sink :=
  if o.ind + p.length ≤ o.str.length then
    .ok { o with str := Arr.copyTo o.str o.ind p, ind := o.ind + p.length }
  else .error .fault

/-- `tot+=ind; ind=0`, with the block in the history. -/
def rewind (o : Sink) : Sink :=
  { o with tot := o.tot + o.ind, ind := 0, flushed := o.flushed ++ [o.str.take o.ind] }

/-- `c` stored `n` times. -/
def fill (c : UInt8) : ℕ → Sink → Except Halt Sink
  | 0, o => .ok o
  | n + 1, o => (o.put c).bind (fill c n)

/-- `while (ind<len && pr-->0) str[ind++]='0'` for a `pr` of `n`. -/
def zeros (len : ℕ) : ℕ → Sink → Except Halt Sink
  | 0, o => .ok o
  | n + 1, o => if o.ind < len then (o.put 48).bind (zeros len n) else .ok o

/-- `do str[ind++] = s[--i]; while(i)`. -/
def digits (s : List UInt8) : ℕ → Sink → Except Halt Sink
  | 0, _ => .error .fault
  | i + 1, o =>
    match s[i]? with
    | none => .error .fault
    | some d => (o.put d).bind fun o => if i = 0 then .ok o else digits s i o

end Sink

namespace Setup

variable (u : Setup)

/-- `_xspf_flush`. -/
def flush (o : Sink) : Except Halt Sink :=
  match u.sflush with
  | none => .ok o.rewind
  | some answer =>
    let cc := answer o.flushed (o.str.take o.ind)
    if cc ≠ o.ind then
      .error (.refused cc { o with flushed := o.flushed ++ [o.str.take o.ind] })
    else .ok o.rewind

/-- `if (b) _xspf_flush`. -/
def flushIf (b : Prop) [Decidable b] (o : Sink) : Except Halt Sink :=
  if b then u.flush o else .ok o

/-- The loop over blocks of a text that has no room. -/
def copyLoop : ℕ → List UInt8 → Sink → Except Halt Sink
  | 0, _, _ => .error .fault
  | fuel + 1, p, o => do
    let o ← u.flush o
    let i := if u.sroom < p.length then u.sroom else p.length
    let o ← o.copy (p.take i)
    if (p.drop i).length = 0 then .ok o else copyLoop fuel (p.drop i) o

/-- The padding of a field of width `w` behind `j` bytes. -/
def pad (w j : ℤ) (c : UInt8) (o : Sink) : Except Halt Sink := do
  let o ← u.flushIf ((u.sroom : ℤ) < w - j + o.ind) o
  o.fill c (w - j).toNat

/-- A width or a precision is at most `sroom`. -/
def cap (w : ℤ) : ℤ :=
  if (u.sroom : ℤ) < w then u.sroom else w

/-- `l` bytes at once, or block by block. -/
def writeBlock (p : List UInt8) (o : Sink) : Except Halt Sink :=
  if u.sroom < p.length + o.ind then u.copyLoop p.length p o else o.copy p

/-- Static text. -/
def writeText (l : List UInt8) (o : Sink) : Except Halt Sink :=
  match l with
  | [c] => o.put c
  | l => u.writeBlock l o

/-- The bytes of a string; those of a wide string are left out. -/
def writeBody (vs : ℤ) (p : List UInt8) (o : Sink) : Except Halt Sink :=
  if vs = 8 then .ok o else u.writeBlock p o

/-- `%s`. -/
def writeStr (left : Bool) (w pr : ℤ) (vs : ℤ) (p : List UInt8) (o : Sink) :
    Except Halt Sink := do
  let l := if 0 ≤ pr then min p.length pr.toNat else p.length
  let l := min (u.len - o.ind) l
  let o ← if left then .ok o else u.pad w l 32 o
  let j : ℤ := if left then l else max (l : ℤ) w + 1
  let o ← u.flushIf (u.sroom < l + o.ind) o
  let o ← u.writeBody vs (p.take l) o
  u.pad w j 32 o

end Setup

/-- `convert_i64_to_backwards_str` and `convert_i32_to_backwards_str`, which differ in nothing
where an `unsigned long` has 64 bits : the digits of `v` from the last to the first. -/
def convertToBackwardsStr : ℕ → ℕ → ℕ → UInt8 → List UInt8
  | 0, _, _, _ => []
  | ssize + 1, v, r, c =>
    let d := v % r
    let b := if 9 < d then UInt8.ofNat (d - 10) + (if c = 120 then 97 else 65)
      else UInt8.ofNat d + 48
    b :: if v / r = 0 then [] else convertToBackwardsStr ssize (v / r) r c

namespace IntConv

variable (s : IntConv)

/-- `neg`. -/
def neg : Bool :=
  if s.vs = 8 then s.v64 &&& 0x8000000000000000 ≠ 0 else s.v &&& 0x80000000 ≠ 0

/-- The number without its sign. -/
def magnitude : ℕ :=
  if s.vs = 8 then (if s.neg then 0 - s.v64 else s.v64).toNat
  else (if s.neg then 0 - s.v else s.v).toNat

/-- The scratch array `s`. -/
def backwards : List UInt8 :=
  convertToBackwardsStr 64 s.magnitude s.r s.c

/-- Nothing is written behind the sign of a zero with precision 0. -/
def Silent (pr : ℤ) : Prop :=
  s.neg = false ∧ pr = 0 ∧ s.v = 0 ∧ s.v64 = 0

instance (pr : ℤ) : Decidable (s.Silent pr) :=
  inferInstanceAs (Decidable (_ ∧ _))

/-- `pr-i` for `i` digits. -/
def fillCount (pr : ℤ) : ℤ :=
  (pr - s.backwards.length).bmod (2 ^ 32)

/-- The byte of the padding. -/
def padByte : UInt8 :=
  if s.f.zero then 48 else 32

end IntConv

namespace Setup

variable (u : Setup)

/-- The sign, or the prefix of `#`. -/
def writeSign (s : IntConv) (o : Sink) : Except Halt Sink :=
  if s.neg then o.put 45
  else if s.f.plus then o.put 43
  else if s.f.space then o.put 32
  else if s.f.alt ∧ s.v ≠ 0 then do
    let o ← if s.r = 8 ∨ s.r = 16 then o.put 48 else .ok o
    let o ← u.flushIf (o.ind = u.sroom) o
    if s.r = 16 ∧ o.ind < u.len then o.put s.c else .ok o
  else .ok o

/-- The digits of a number with its padding. -/
def writeDigits (s : IntConv) (w pr : ℤ) (o : Sink) : Except Halt Sink := do
  let o ← u.flushIf (0 ≤ s.fillCount pr ∧ (u.sroom : ℤ) < s.fillCount pr + o.ind) o
  let o ← o.zeros u.len (s.fillCount pr).toNat
  let i := min (u.len - o.ind) s.backwards.length
  let o ← if s.f.left then .ok o else u.pad w i s.padByte o
  let j : ℤ := if s.f.left then i else max (i : ℤ) w + 1
  let o ← u.flushIf (u.sroom < i + o.ind) o
  let o ← o.digits s.backwards i
  u.pad w j s.padByte o

/-- The conversion of an integer. -/
def writeInt (s : IntConv) (w pr : ℤ) (o : Sink) : Except Halt Sink := do
  let o ← u.writeSign s o
  if s.Silent pr then .ok o
  else do
    let o ← u.flushIf (o.ind = u.sroom) o
    u.writeDigits s w pr o

/-- What one turn of the loop writes. -/
def writeItem : Item → Sink → Except Halt Sink
  | .text l, o => u.writeText l o
  | .chr c, o => o.put c
  | .nothing, o => .ok o
  | .str left w pr vs p, o => u.writeStr left (u.cap w.toInt) (u.cap pr.toInt) vs p o
  | .int s, o => u.writeInt s (u.cap s.w.toInt) (u.cap s.pr.toInt) o

/-- The loop of `xs_sprintf_core`. -/
def coreLoop : ℕ → List UInt8 → List Arg → Sink → Except Halt Sink
  | 0, _, _, _ => .error .fault
  | fuel + 1, fmt, ap, o =>
    if fmt = [] ∨ u.len ≤ o.ind then .ok o
    else do
      let o ← u.flushIf (o.ind = u.sroom) o
      match readItem fmt ap with
      | none => .error .fault
      | some (item, fmt, ap) =>
        let o ← u.writeItem item o
        coreLoop fuel fmt ap o

end Setup

/-! ## The calls -/

/-- What `xs_sprintf_core` returns, the blocks the callback was given, and the buffer. -/
structure Printed where
  result : ℤ
  blocks : List (List UInt8)
  str : List UInt8
  deriving DecidableEq

/-- `END` with `ind`, which a callback that refused has set. -/
def sprintfEnd (sflush : Option Sflush) (ind : ℤ) (o : Sink) : Option Printed :=
  match sflush with
  | none => some ⟨ind + o.tot, [], o.str⟩
  | some answer =>
    if 0 ≤ ind ∧ ind ≤ o.str.length then
      let block := o.str.take ind.toNat
      some ⟨answer o.flushed block + o.tot, o.flushed ++ [block], o.str⟩
    else none

/-- `xs_sprintf_core`; `none` is a fault. -/
def sprintfCore (sflush : Option Sflush) (str : Option (List UInt8)) (len : ℕ)
    (fmt : List UInt8) (ap : List Arg) : Option Printed :=
  let run (u : Setup) (str : List UInt8) :=
    match u.coreLoop (fmt.length + 1) fmt ap ⟨str, 0, 0, []⟩ with
    | .ok o => sprintfEnd u.sflush o.ind o
    | .error (.refused cc o) => sprintfEnd u.sflush cc o
    | .error .fault => none
  match str with
  | none => run ⟨sflush, 1024, INT_MAX⟩ (List.replicate 1024 0)
  | some str => if len = 0 then some ⟨0, [], str⟩ else run ⟨sflush, len, len⟩ str

/-- `xs_sprintf` to the buffer `str`, all of it : the result and the buffer. -/
def sprintf (str : List UInt8) (fmt : List UInt8) (ap : List Arg) :
    Option (ℤ × List UInt8) :=
  (sprintfCore none (some str) (str.length - 1) fmt ap).map fun (p : Printed) =>
    (p.result,
      if 0 ≤ p.result ∧ p.result < (str.length : ℤ) then p.str.set p.result.toNat 0
      else p.str.set 0 0)

end Webxs
