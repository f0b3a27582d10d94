import Mathlib.Data.Nat.Bitwise
import Webxs.OpenAddressing

/-!
# The hash table of khash

`KHASH_MAP_INIT_STR` (`khash.h`) is where `xs_fileinfo.h` keeps its entries. A table has
`n_buckets` slots, none at first and then a power of two. The state of a slot is two bits of
`flags`, sixteen slots to a word; its key and its value stand at the same index of two more blocks.
Probing is triangular.

`kh_resize` rehashes in place : the old table and the new one share the blocks of the keys and the
values, and a key that a place in the new table belongs to throws out the old key that is still
there, which is then the next to be placed.

An access outside a block and a read of a key that was never written end in `none`, and so does a
loop that takes more turns than there are slots. Allocation succeeds. `n * __ac_HASH_UPPER + 0.5`
is computed in floating point; for a power of two below 2³² its integer part is `acUpper n`.
-/

namespace Webxs

namespace Khash

/-! ## The flags -/

/-- The bits `m` of the flags of slot `i`, `(flag[i>>4]>>((i&0xfU)<<1))&m`, are not all 0. -/
def acTest (m : BitVec 32) (flag : List (BitVec 32)) (i : ℕ) : Option Bool :=
  (flag[i >>> 4]?).map fun (f : BitVec 32) => decide ((f >>> ((i &&& 0xf) <<< 1)) &&& m ≠ 0#32)

/-- `flag[i>>4]&=~(m<<((i&0xfU)<<1))`. -/
def acClear (m : BitVec 32) (flag : List (BitVec 32)) (i : ℕ) : Option (List (BitVec 32)) :=
  (flag[i >>> 4]?).map fun (f : BitVec 32) =>
    flag.set (i >>> 4) (f &&& ~~~(m <<< ((i &&& 0xf) <<< 1)))

/-- `flag[i>>4]|=m<<((i&0xfU)<<1)`. -/
def acSet (m : BitVec 32) (flag : List (BitVec 32)) (i : ℕ) : Option (List (BitVec 32)) :=
  (flag[i >>> 4]?).map fun (f : BitVec 32) =>
    flag.set (i >>> 4) (f ||| (m <<< ((i &&& 0xf) <<< 1)))

/-- `__ac_isempty`. -/
def acIsempty : List (BitVec 32) → ℕ → Option Bool :=
  acTest 2

/-- `__ac_isdel`. -/
def acIsdel : List (BitVec 32) → ℕ → Option Bool :=
  acTest 1

/-- `__ac_iseither`. -/
def acIseither : List (BitVec 32) → ℕ → Option Bool :=
  acTest 3

/-- `__ac_set_isempty_false`. -/
def acSetIsemptyFalse : List (BitVec 32) → ℕ → Option (List (BitVec 32)) :=
  acClear 2

/-- `__ac_set_isboth_false`. -/
def acSetIsbothFalse : List (BitVec 32) → ℕ → Option (List (BitVec 32)) :=
  acClear 3

/-- `__ac_set_isdel_true`. -/
def acSetIsdelTrue : List (BitVec 32) → ℕ → Option (List (BitVec 32)) :=
  acSet 1

/-- `__ac_fsize`. -/
def acFsize (m : ℕ) : ℕ :=
  if m < 16 then 1 else m >>> 4

/-- Flags that `memset` has filled with 0xaa : every slot empty. -/
def emptyFlags (n : ℕ) : List (BitVec 32) :=
  List.replicate (acFsize n) 0xaaaaaaaa

/-! ## The table -/

/-- `kroundup32`. -/
def kroundup32 (x : BitVec 32) : BitVec 32 :=
  let x := x - 1
  let x := x ||| (x >>> 1)
  let x := x ||| (x >>> 2)
  let x := x ||| (x >>> 4)
  let x := x ||| (x >>> 8)
  let x := x ||| (x >>> 16)
  x + 1

/-- `(khint_t)(n * __ac_HASH_UPPER + 0.5)`. -/
def acUpper (n : ℕ) : ℕ :=
  (77 * n + 50) / 100

end Khash

open Khash

/-- A `kh_statptr_t`. -/
structure Khash (K V : Type) where
  nBuckets : ℕ
  size : ℕ
  nOccupied : ℕ
  upperBound : ℕ
  flags : List (BitVec 32)
  keys : List (Option K)
  vals : List (Option V)

namespace Khash

variable {K V : Type}

/-- `a[i] = x`. -/
def store {α : Type} (a : List α) (i : ℕ) (x : α) : Option (List α) :=
  if i < a.length then some (a.set i x) else none

/-- `krealloc` of a block to `n` elements. -/
def krealloc {α : Type} (a : List (Option α)) (n : ℕ) : List (Option α) :=
  a.take n ++ List.replicate (n - a.length) none

/-- `kh_init`. -/
def khInit : Khash K V where
  nBuckets := 0
  size := 0
  nOccupied := 0
  upperBound := 0
  flags := []
  keys := []
  vals := []

/-- `kh_clear`; the flags are null as long as there are no slots. -/
def khClear (h : Khash K V) : Khash K V :=
  if h.flags = [] then h
  else { h with flags := emptyFlags h.nBuckets, size := 0, nOccupied := 0 }

section Search

variable [DecidableEq K]

/-- `!__ac_isempty(flags, i) && (__ac_isdel(flags, i) || !__hash_equal(keys[i], key))`. -/
def passes (h : Khash K V) (key : K) (i : ℕ) : Option Bool := do
  if ← acIsempty h.flags i then
    some false
  else if ← acIsdel h.flags i then
    some true
  else
    let k ← (h.keys[i]?).join
    some (decide (k ≠ key))

/-- The loop of `kh_get`, with what it returns. -/
def getLoop (h : Khash K V) (key : K) (mask last : ℕ) : ℕ → ℕ → ℕ → Option ℕ
  | 0, _, _ => none
  | turns + 1, i, step => do
    if ← h.passes key i then
      let i := (i + (step + 1)) &&& mask
      if i = last then some h.nBuckets else h.getLoop key mask last turns i (step + 1)
    else
      let e ← acIseither h.flags i
      some (if e then h.nBuckets else i)

/-- `kh_get`, with `hash` for `__hash_func`. -/
def khGet (hash : K → BitVec 32) (h : Khash K V) (key : K) : Option ℕ :=
  if h.nBuckets ≠ 0 then
    let mask := h.nBuckets - 1
    let i := (hash key).toNat &&& mask
    h.getLoop key mask i h.nBuckets i 0
  else
    some 0

end Search

/-! ## Rehashing -/

/-- What the rehashing of `kh_resize` works on. -/
structure Rehash (K V : Type) where
  flags : List (BitVec 32)
  newFlags : List (BitVec 32)
  keys : List (Option K)
  vals : List (Option V)

/-- `while (!__ac_isempty(new_flags, i)) i = (i + (++step)) & new_mask;`. -/
def freeLoop (newFlags : List (BitVec 32)) (newMask : ℕ) : ℕ → ℕ → ℕ → Option ℕ
  | 0, _, _ => none
  | turns + 1, i, step => do
    if ← acIsempty newFlags i then some i
    else freeLoop newFlags newMask turns ((i + (step + 1)) &&& newMask) (step + 1)

/-- `i < h->n_buckets && __ac_iseither(h->flags, i) == 0`. -/
def stillOld (nBuckets : ℕ) (flags : List (BitVec 32)) (i : ℕ) : Option Bool :=
  if i < nBuckets then (acIseither flags i).map (! ·) else some false

/-- The kick-out process : `key` and `val` are to be placed. -/
def kickOut (hash : K → BitVec 32) (nBuckets newN : ℕ) :
    ℕ → Rehash K V → K → Option V → Option (Rehash K V)
  | 0, _, _, _ => none
  | turns + 1, r, key, val => do
    let newMask := newN - 1
    let i ← freeLoop r.newFlags newMask newN ((hash key).toNat &&& newMask) 0
    let newFlags ← acSetIsemptyFalse r.newFlags i
    if ← stillOld nBuckets r.flags i then
      -- kick out the existing element
      let key' ← (r.keys[i]?).join
      let val' ← r.vals[i]?
      let keys ← store r.keys i (some key)
      let vals ← store r.vals i val
      let flags ← acSetIsdelTrue r.flags i
      kickOut hash nBuckets newN turns ⟨flags, newFlags, keys, vals⟩ key' val'
    else
      let keys ← store r.keys i (some key)
      let vals ← store r.vals i val
      some ⟨r.flags, newFlags, keys, vals⟩

/-- One turn of the loop over the slots of the old table. -/
def rehashSlot (hash : K → BitVec 32) (nBuckets newN : ℕ) (r : Rehash K V) (j : ℕ) :
    Option (Rehash K V) := do
  if ← acIseither r.flags j then
    some r
  else
    let key ← (r.keys[j]?).join
    let val ← r.vals[j]?
    let flags ← acSetIsdelTrue r.flags j
    kickOut hash nBuckets newN (nBuckets + 1) { r with flags := flags } key val

/-- `kh_resize`. -/
def khResize (hash : K → BitVec 32) (h : Khash K V) (newNBuckets : BitVec 32) :
    Option (Khash K V) := do
  let newN := (kroundup32 newNBuckets).toNat
  let newN := if newN < 4 then 4 else newN
  if acUpper newN ≤ h.size then
    -- requested size is too small
    some h
  else
    let grow := decide (h.nBuckets < newN)
    let r : Rehash K V := {
      flags := h.flags
      newFlags := emptyFlags newN
      keys := if grow then krealloc h.keys newN else h.keys
      vals := if grow then krealloc h.vals newN else h.vals }
    let r ← (List.range h.nBuckets).foldlM (rehashSlot hash h.nBuckets newN) r
    let shrink := decide (newN < h.nBuckets)
    some {
      nBuckets := newN
      size := h.size
      nOccupied := h.size
      upperBound := acUpper newN
      flags := r.newFlags
      keys := if shrink then krealloc r.keys newN else r.keys
      vals := if shrink then krealloc r.vals newN else r.vals }

/-! ## Insertion and deletion -/

section Put

variable [DecidableEq K]

/-- The loop of `kh_put`, to `x`, `i` and `site`. -/
def putLoop (h : Khash K V) (key : K) (mask last : ℕ) : ℕ → ℕ → ℕ → ℕ → Option (ℕ × ℕ × ℕ)
  | 0, _, _, _ => none
  | turns + 1, i, step, site => do
    if ← h.passes key i then
      let site := if ← acIsdel h.flags i then i else site
      let i := (i + (step + 1)) &&& mask
      if i = last then some (site, i, site)
      else h.putLoop key mask last turns i (step + 1) site
    else
      some (h.nBuckets, i, site)

/-- The slot `x` of `kh_put`. -/
def putSlot (hash : K → BitVec 32) (h : Khash K V) (key : K) : Option ℕ := do
  let mask := h.nBuckets - 1
  let site := h.nBuckets
  let i := (hash key).toNat &&& mask
  if ← acIsempty h.flags i then
    some i
  else
    let (x, i, site) ← h.putLoop key mask i h.nBuckets i 0 site
    if x = h.nBuckets then
      let e ← acIsempty h.flags i
      some (if e ∧ site ≠ h.nBuckets then site else i)
    else
      some x

/-- The resizing at the head of `kh_put`. -/
def putRoom (hash : K → BitVec 32) (h : Khash K V) : Option (Khash K V) :=
  if h.upperBound ≤ h.nOccupied then
    if h.size <<< 1 < h.nBuckets then
      khResize hash h (BitVec.ofNat 32 h.nBuckets - 1)
    else
      khResize hash h (BitVec.ofNat 32 h.nBuckets + 1)
  else
    some h

/-- `kh_put` : the table, the slot, and `*ret`. -/
def khPut (hash : K → BitVec 32) (h : Khash K V) (key : K) : Option (Khash K V × ℕ × ℕ) := do
  let h ← putRoom hash h
  let x ← putSlot hash h key
  if ← acIsempty h.flags x then
    let keys ← store h.keys x (some key)
    let flags ← acSetIsbothFalse h.flags x
    some ({ h with keys := keys, flags := flags, size := h.size + 1,
                   nOccupied := h.nOccupied + 1 }, x, 1)
  else if ← acIsdel h.flags x then
    let keys ← store h.keys x (some key)
    let flags ← acSetIsbothFalse h.flags x
    some ({ h with keys := keys, flags := flags, size := h.size + 1 }, x, 2)
  else
    some (h, x, 0)

end Put

/-- `kh_del`. -/
def khDel (h : Khash K V) (x : ℕ) : Option (Khash K V) := do
  if x ≠ h.nBuckets then
    if ← acIseither h.flags x then
      some h
    else
      let flags ← acSetIsdelTrue h.flags x
      some { h with flags := flags, size := h.size - 1 }
  else
    some h

/-- `kh_val(h, x) = val`. -/
def setVal (h : Khash K V) (x : ℕ) (val : V) : Option (Khash K V) := do
  let vals ← store h.vals x (some val)
  some { h with vals := vals }

/-- `kh_val(h, x)`; a value that was never written cannot be read. -/
def khVal (h : Khash K V) (x : ℕ) : Option V :=
  (h.vals[x]?).join

end Khash

/-- `__ac_X31_hash_string` of the characters of a string; a `char` is signed. -/
def acX31HashString : List UInt8 → BitVec 32
  | [] => 0
  | c :: s =>
    s.foldl (fun h c => (h <<< 5) - h + c.toBitVec.signExtend 32) (c.toBitVec.signExtend 32)

end Webxs
