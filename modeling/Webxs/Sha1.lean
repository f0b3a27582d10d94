import Mathlib.Algebra.Group.Nat.Defs
import Mathlib.Data.Fin.Basic
import Webxs.BlockStream

/-!
# SHA-1

The secure hash standard defines the hash of a message by the words of its padded blocks : the
schedule of a block has eighty words, of which all but the first sixteen come from earlier ones,
and each goes into one round (`Sha1.compress`). `xs_sha1.h` computes the same in place. Its schedule
is a ring of sixteen words, which it reads in the byte order of the host and swaps as it goes;
its rounds do not move the five variables but take them in turn, and data come in pieces of any
length, of which it keeps what is not a whole block.

A context is left as it was allocated but for the state and the counts (`SHA1Init`); the block
that is hashed and the clearing of memory at the ends are left out.
-/

namespace Webxs

namespace Sha1

/-! ## The standard -/

/-- The word of four bytes, the first one highest. -/
def beWord (b₀ b₁ b₂ b₃ : UInt8) : BitVec 32 :=
  b₀.toBitVec ++ b₁.toBitVec ++ b₂.toBitVec ++ b₃.toBitVec

/-- The bytes of a word, the highest one first. -/
def beBytes (w : BitVec 32) : List UInt8 :=
  [⟨w.extractLsb' 24 8⟩, ⟨w.extractLsb' 16 8⟩, ⟨w.extractLsb' 8 8⟩, ⟨w.extractLsb' 0 8⟩]

/-- The words of a block. -/
def blockWord (b : List UInt8) (t : ℕ) : BitVec 32 :=
  beWord (b.getD (4 * t) 0) (b.getD (4 * t + 1) 0) (b.getD (4 * t + 2) 0) (b.getD (4 * t + 3) 0)

/-- The schedule of a block. -/
def schedule (b : List UInt8) (t : ℕ) : BitVec 32 :=
  if t < 16 then blockWord b t
  else (schedule b (t - 3) ^^^ schedule b (t - 8) ^^^ schedule b (t - 14) ^^^
    schedule b (t - 16)).rotateLeft 1

/-- The function of round `t`. -/
def roundFn (t : ℕ) (x y z : BitVec 32) : BitVec 32 :=
  if t < 20 then (x &&& y) ^^^ (~~~x &&& z)
  else if t < 40 then x ^^^ y ^^^ z
  else if t < 60 then (x &&& y) ^^^ (x &&& z) ^^^ (y &&& z)
  else x ^^^ y ^^^ z

/-- The constant of round `t`. -/
def roundConst (t : ℕ) : BitVec 32 :=
  if t < 20 then 0x5A827999
  else if t < 40 then 0x6ED9EBA1
  else if t < 60 then 0x8F1BBCDC
  else 0xCA62C1D6

/-- Five words. -/
abbrev State := Vector (BitVec 32) 5

/-- Round `t` of the compression, with the word `w` of the schedule. -/
def specRound (w : BitVec 32) (t : ℕ) (h : State) : State :=
  #v[h[0].rotateLeft 5 + roundFn t h[1] h[2] h[3] + h[4] + roundConst t + w,
    h[0], h[1].rotateLeft 30, h[2], h[3]]

/-- The hash of one more block. -/
def compress (h : State) (b : List UInt8) : State :=
  Vector.zipWith (· + ·) h ((List.range 80).foldl (fun v t => specRound (schedule b t) t v) h)

/-- The hash of no blocks. -/
def initial : State :=
  #v[0x67452301, 0xEFCDAB89, 0x98BADCFE, 0x10325476, 0xC3D2E1F0]

/-- The padding of a message of `n` bytes. -/
def padding (n : ℕ) : List UInt8 :=
  0x80 :: List.replicate ((119 - n % 64) % 64) 0 ++
    (beBytes (BitVec.ofNat 32 (8 * n / 2 ^ 32)) ++ beBytes (BitVec.ofNat 32 (8 * n)))

/-- The hash of a message. -/
def hash (msg : List UInt8) : State :=
  (BlockStream.absorb compress 64 initial (msg ++ padding msg.length)).1

/-- The digest of a message. -/
def sha1 (msg : List UInt8) : List UInt8 :=
  (hash msg).toList.flatMap beBytes

/-! ## The rounds of `xs_sha1.h` -/

/-- `rol`. -/
def rol (value : BitVec 32) (bits : ℕ) : BitVec 32 :=
  (value <<< bits) ||| (value >>> (32 - bits))

/-- A `union char64long16`, by its words. -/
abbrev Block := Vector (BitVec 32) 16

/-- The words of 64 bytes, as the host reads them. -/
def loadBlock (isBigEndian : Bool) (buffer : List UInt8) : Block :=
  Vector.ofFn fun t =>
    let b (k : ℕ) : UInt8 := buffer.getD (4 * t + k) 0
    if isBigEndian then beWord (b 0) (b 1) (b 2) (b 3) else beWord (b 3) (b 2) (b 1) (b 0)

/-- `blk0` : the block after it, and its value. -/
def blk0 (isBigEndian : Bool) (block : Block) (i : Fin 16) : Block × BitVec 32 :=
  let block := if isBigEndian then block
    else block.set i
      ((rol (block.get i) 24 &&& 0xFF00FF00) ||| (rol (block.get i) 8 &&& 0x00FF00FF))
  (block, block.get i)

/-- `i&15`. -/
def ringIdx (i : ℕ) : Fin 16 :=
  ⟨i &&& 15, Nat.lt_of_le_of_lt Nat.and_le_right (by decide)⟩

/-- `blk`. -/
def blk (block : Block) (i : ℕ) : Block × BitVec 32 :=
  let block := block.set (ringIdx i)
    (rol (block.get (ringIdx (i + 13)) ^^^ block.get (ringIdx (i + 8)) ^^^
      block.get (ringIdx (i + 2)) ^^^ block.get (ringIdx i)) 1)
  (block, block.get (ringIdx i))

/-- The variables `a` to `e`, and the block. -/
structure Work where
  vars : State
  block : Block

/-- One of the macros `R0` to `R4` on the variables from number `v` on, with the function `f`, the
constant `k` and the word that `blk` or `blk0` returns. -/
def roundMacro (f : BitVec 32 → BitVec 32 → BitVec 32 → BitVec 32) (k : BitVec 32)
    (word : Block × BitVec 32) (v : Fin 5) (r : Work) : Work :=
  let w := r.vars.get (v + 1)
  let x := r.vars.get (v + 2)
  let y := r.vars.get (v + 3)
  let z := r.vars.get (v + 4)
  let vars := r.vars.set (v + 4 : Fin 5) (z + (f w x y + word.2 + k + rol (r.vars.get v) 5))
  ⟨vars.set (v + 1 : Fin 5) (rol w 30), word.1⟩

/-- `R0`. -/
def R0 (isBigEndian : Bool) (v : Fin 5) (i : Fin 16) (r : Work) : Work :=
  roundMacro (fun w x y => (w &&& (x ^^^ y)) ^^^ y) 0x5A827999 (blk0 isBigEndian r.block i) v r

/-- `R1`. -/
def R1 (v : Fin 5) (i : ℕ) (r : Work) : Work :=
  roundMacro (fun w x y => (w &&& (x ^^^ y)) ^^^ y) 0x5A827999 (blk r.block i) v r

/-- `R2`. -/
def R2 (v : Fin 5) (i : ℕ) (r : Work) : Work :=
  roundMacro (fun w x y => w ^^^ x ^^^ y) 0x6ED9EBA1 (blk r.block i) v r

/-- `R3`. -/
def R3 (v : Fin 5) (i : ℕ) (r : Work) : Work :=
  roundMacro (fun w x y => ((w ||| x) &&& y) ||| (w &&& x)) 0x8F1BBCDC (blk r.block i) v r

/-- `R4`. -/
def R4 (v : Fin 5) (i : ℕ) (r : Work) : Work :=
  roundMacro (fun w x y => w ^^^ x ^^^ y) 0xCA62C1D6 (blk r.block i) v r

/-- The first variable of round `i` : `a`, `e`, `d`, `c`, `b`, and again `a`. -/
def firstVar (i : ℕ) : Fin 5 :=
  -(Fin.ofNat 5 i)

/-- Round `i` of the eighty. -/
def round (isBigEndian : Bool) (r : Work) (i : ℕ) : Work :=
  if i < 16 then R0 isBigEndian (firstVar i) (ringIdx i) r
  else if i < 20 then R1 (firstVar i) i r
  else if i < 40 then R2 (firstVar i) i r
  else if i < 60 then R3 (firstVar i) i r
  else R4 (firstVar i) i r

/-- `SHA1Transform`. -/
def SHA1Transform (isBigEndian : Bool) (state : State) (buffer : List UInt8) : State :=
  let r := (List.range 80).foldl (round isBigEndian) ⟨state, loadBlock isBigEndian buffer⟩
  Vector.zipWith (· + ·) state r.vars

/-! ## The context -/

/-- An `SHA1_CTX`. -/
structure Ctx where
  state : State
  count0 : BitVec 32
  count1 : BitVec 32
  buffer : List UInt8

/-- `SHA1Init`. -/
def SHA1Init (context : Ctx) : Ctx :=
  { context with
    state := #v[0x67452301, 0xEFCDAB89, 0x98BADCFE, 0x10325476, 0xC3D2E1F0]
    count0 := 0
    count1 := 0 }

/-- `memcpy` of `src` to `dst[i]`. -/
def copyTo (dst : List UInt8) (i : ℕ) (src : List UInt8) : List UInt8 :=
  dst.take i ++ src ++ dst.drop (i + src.length)

/-- `for ( ; i + 63 < len; i += 64) SHA1Transform(context->state, &data[i]);`, to the state and
`i`. -/
def updateLoop (isBigEndian : Bool) (data : List UInt8) (state : State) (i : ℕ) : State × ℕ :=
  if i + 63 < data.length then
    updateLoop isBigEndian data (SHA1Transform isBigEndian state ((data.drop i).take 64)) (i + 64)
  else (state, i)
termination_by data.length - i

/-- `SHA1Update` of all of `data`; its length is an `unsigned int`. -/
def SHA1Update (isBigEndian : Bool) (context : Ctx) (data : List UInt8) : Ctx :=
  let len := BitVec.ofNat 32 data.length
  let j := context.count0
  let count0 := context.count0 + (len <<< 3)
  let count1 := if count0 < j then context.count1 + 1 else context.count1
  let count1 := count1 + (len >>> 29)
  let j := (j >>> 3) &&& 63
  if 63 < j + len then
    let i := 64 - j.toNat
    let buffer := copyTo context.buffer j.toNat (data.take i)
    let (state, i) := updateLoop isBigEndian data (SHA1Transform isBigEndian context.state buffer) i
    ⟨state, count0, count1, copyTo buffer 0 (data.drop i)⟩
  else
    ⟨context.state, count0, count1, copyTo context.buffer j.toNat data⟩

/-- `while ((context->count[0] & 504) != 448)` of `SHA1Final`, for a number of turns. -/
def padLoop (isBigEndian : Bool) : ℕ → Ctx → Option Ctx
  | 0, _ => none
  | turns + 1, context =>
    if context.count0 &&& 504 ≠ 448 then
      padLoop isBigEndian turns (SHA1Update isBigEndian context [0])
    else some context

/-- Byte `i` of two words, `(words[i >> 2] >> ((3-(i & 3)) * 8)) & 255`. -/
def byteOf (word : ℕ → BitVec 32) (i : ℕ) : UInt8 :=
  ⟨((word (i >>> 2) >>> ((3 - (i &&& 3)) * 8)) &&& 255).setWidth 8⟩

/-- `SHA1Final`. -/
def SHA1Final (isBigEndian : Bool) (context : Ctx) : Option (List UInt8) := do
  let finalcount := (List.range 8).map
    (byteOf fun i => if i = 1 then context.count0 else context.count1)
  let context := SHA1Update isBigEndian context [0o200]
  let context ← padLoop isBigEndian 64 context
  let context := SHA1Update isBigEndian context finalcount
  some ((List.range 20).map (byteOf fun i => context.state.get (Fin.ofNat 5 i)))

end Sha1

end Webxs
