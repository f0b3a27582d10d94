import Webxs.Codec
import Webxs.Frames

/-!
# Compression

`xs_compress.h` wraps zlib. `xs_compress_in` keeps where the input is, for the gzip decompressor
behind the header, which it stages in `xc->out` until it has all of it. `xs_compress_out` lets the
codec fill the array `xc->out`, block by block, and copies from there.

The codecs of zlib and `xs_crc32` are parameters. Whatever is stored outside of `xc->out`, or read
outside of what is there, has no result.
-/

namespace Webxs

/-- `XS_CHUNK_SIZE`, the size of `xc->out`. -/
def XS_CHUNK_SIZE : ℕ := 8192

/-- `Z_DATA_ERROR`. -/
def Z_DATA_ERROR : ℤ := -3

/-- The codecs, with a block of `XS_CHUNK_SIZE` bytes; the flag is for `Z_FINISH`. -/
structure Zlib (κ : Type*) where
  deflate : Bool → κ → List UInt8 → Codec.Turn κ UInt8
  inflate : Bool → κ → List UInt8 → Codec.Turn κ UInt8
  crc32 : UInt32 → List UInt8 → UInt32

/-- `struct xs_compress`. `z` is the state of the codec, `nextIn` the input from `z.next_in` on, of
which the codec may take `availIn` bytes. -/
structure Compress (κ : Type*) where
  out : List UInt8
  z : κ
  nextIn : List UInt8
  availIn : ℕ
  outavail : ℕ
  rtotal : ℕ
  wtotal : ℕ
  headermin : ℕ
  crc : UInt32
  errnum : ℤ
  outoffset : ℕ
  headeroffset : ℕ
  isLast : ℕ
  isZlib : Bool
  isGzip : Bool
  isCompress : Bool

/-- The types of `xs_compress_create`. -/
inductive CompressType
  | decompressZlib
  | decompressGzip
  | decompressRaw
  | compressZlib
  | compressGzip
  | compressRaw

/-- `is_compress`. -/
def CompressType.isCompress : CompressType → Bool
  | compressZlib | compressGzip | compressRaw => true
  | decompressZlib | decompressGzip | decompressRaw => false

/-- `is_zlib`. -/
def CompressType.isZlib : CompressType → Bool
  | compressZlib | decompressZlib => true
  | compressGzip | decompressGzip | compressRaw | decompressRaw => false

/-- `is_gzip`. -/
def CompressType.isGzip : CompressType → Bool
  | compressGzip | decompressGzip => true
  | compressZlib | decompressZlib | compressRaw | decompressRaw => false

/-- `xs_compress_create`; `z` is what `deflateInit2` or `inflateInit2` makes. -/
def compressCreate {κ : Type*} (t : CompressType) (z : κ) : Compress κ where
  out := List.replicate XS_CHUNK_SIZE 0
  z := z
  nextIn := []
  availIn := 0
  outavail := 0
  rtotal := 0
  wtotal := 0
  headermin := 0
  crc := 0
  errnum := 0
  outoffset := 0
  headeroffset := 0
  isLast := 0
  isZlib := t.isZlib
  isGzip := t.isGzip
  isCompress := t.isCompress

/-! ## The header of gzip -/

/-- How a look at the staged header ends : it needs `a` bytes, it is none, or it ends at `offset`,
which is also how a part of it ends. -/
inductive HeaderScan
  | more (a : ℕ)
  | bad
  | done (offset : ℕ)
deriving DecidableEq

/-- `_check_gz_hdr`, with `rtotal` bytes staged. -/
def checkGzHdr (rtotal a : ℕ) (scan : Option HeaderScan) : Option HeaderScan :=
  if a > rtotal then some (.more a) else scan

/-- Go on where a part of the header ended. -/
def HeaderScan.andThen (scan : Option HeaderScan) (f : ℕ → Option HeaderScan) :
    Option HeaderScan :=
  match scan with
  | some (.done offset) => f offset
  | r => r

/-- The part `f` of the header is there if `flag` is set. -/
def gzPart (flag : Bool) (f : ℕ → Option HeaderScan) (offset : ℕ) : Option HeaderScan :=
  if flag then f offset else some (.done offset)

/-- The extra field : its length, and its bytes. -/
def gzExtra (out : List UInt8) (rtotal offset : ℕ) : Option HeaderScan :=
  checkGzHdr rtotal (offset + 2) do
    let hi ← out[offset + 1]?
    let lo ← out[offset]?
    some (.done (offset + hi.toNat * 256 + lo.toNat + 2))

/-- The loop over a string of the header, from `offset` on, where `out` begins. -/
def gzSkip (rtotal : ℕ) : List UInt8 → ℕ → Option HeaderScan
  | [], _ => none
  | a :: out, offset =>
    if a ≠ 0 then checkGzHdr rtotal (offset + 1) (gzSkip rtotal out (offset + 1))
    else some (.done (offset + 1))

/-- The file name, or the comment. -/
def gzString (out : List UInt8) (rtotal offset : ℕ) : Option HeaderScan :=
  checkGzHdr rtotal (offset + 1) (gzSkip rtotal (out.drop offset) offset)

/-- The parts of the header that come in any case, or by its flags. -/
def gzScan (out : List UInt8) (rtotal : ℕ) : Option HeaderScan :=
  checkGzHdr rtotal 4 do
    let id1 ← out[0]?
    let id2 ← out[1]?
    let cm ← out[2]?
    let flags ← out[3]?
    if id1 ≠ 0x1f ∨ id2 ≠ 0x8b ∨ cm ≠ 0x08 then some .bad
    else
      let start := if flags &&& 0x02 ≠ 0 then 12 else 10
      HeaderScan.andThen (gzPart (flags &&& 0x04 ≠ 0) (gzExtra out rtotal) start) fun offset =>
      HeaderScan.andThen (gzPart (flags &&& 0x08 ≠ 0) (gzString out rtotal) offset) fun offset =>
      HeaderScan.andThen (gzPart (flags &&& 0x10 ≠ 0) (gzString out rtotal) offset) fun offset =>
      checkGzHdr rtotal offset (some (.done offset))

variable {κ : Type*}

namespace Compress

/-- The input that the codec may take. -/
def input (xc : Compress κ) : List UInt8 :=
  xc.nextIn.take xc.availIn

/-- The part of `xs_compress_in` that hands the input on. `avail_in` has 32 bits. -/
def hand (xc : Compress κ) (buf : List UInt8) (isLastInput : Bool) : Compress κ :=
  { xc with
    availIn := buf.length % 2 ^ 32
    nextIn := buf
    isLast := if isLastInput then 1 else 0
    rtotal := xc.rtotal + buf.length }

/-- Stage input up to `headermin` bytes : what is staged then, and how many bytes were taken. -/
def stage (xc : Compress κ) (buf : List UInt8) : Option (Compress κ × ℕ) :=
  let xc := { xc with headermin := if xc.headermin = 0 then 10 else xc.headermin }
  if xc.rtotal < xc.headermin then
    let outlen := if buf.length + xc.rtotal > xc.headermin then xc.headermin - xc.rtotal
      else buf.length
    (writeBytes xc.out xc.rtotal (buf.take outlen)).map fun out =>
      ({ xc with out := out, rtotal := xc.rtotal + outlen }, outlen)
  else some (xc, 0)

/-- The loop of `xs_compress_in` over the header, from `REPEAT` on, with the first `pos` bytes of
the input taken. -/
def header : ℕ → Compress κ → List UInt8 → ℕ → Bool → Option (ℤ × Compress κ)
  | 0, _, _, _, _ => none
  | fuel + 1, xc, buf, pos, isLastInput =>
    (xc.stage (buf.drop pos)).bind fun (xc, n) =>
      (gzScan xc.out xc.rtotal).bind fun
        | .more a =>
          let xc := { xc with headermin := a }
          if pos + n < buf.length then header fuel xc buf (pos + n) isLastInput
          else if isLastInput then some (Z_DATA_ERROR, { xc with errnum := Z_DATA_ERROR })
          else some (0, xc)
        | .bad => some (Z_DATA_ERROR, { xc with errnum := Z_DATA_ERROR })
        | .done offset =>
          -- `buf` goes on by `offset-xc->rtotal`, which is not positive
          if xc.rtotal ≤ pos + n + offset then
            some (0, { xc with headeroffset := offset }.hand
              (buf.drop (pos + n + offset - xc.rtotal)) isLastInput)
          else none

end Compress

/-- `xs_compress_in`. Each turn of the loop takes a byte. -/
def compressIn (Z : Zlib κ) (xc : Compress κ) (buf : List UInt8) (isLastInput : Bool) :
    Option (ℤ × Compress κ) :=
  if xc.isGzip = true ∧ xc.isCompress = true then
    some (0, { xc with crc := Z.crc32 xc.crc buf }.hand buf isLastInput)
  else if xc.isGzip = true ∧ xc.headeroffset = 0 then
    xc.header (buf.length + 1) buf 0 isLastInput
  else some (0, xc.hand buf isLastInput)

/-! ## Output -/

/-- The variables of `xs_compress_out` : what was stored in `buf`, the room left there, and the
return code of the codec. -/
structure OutState (κ : Type*) where
  xc : Compress κ
  written : List UInt8
  len : ℕ
  ret : ℤ

/-- The header that `xs_compress_out` writes. -/
def gzHdr : List UInt8 :=
  [0x1f, 0x8b, 0x08, 0, 0, 0, 0, 0, 0, 0]

/-- Four bytes, the lowest first. -/
def le32 (v : ℕ) : List UInt8 :=
  [UInt8.ofNat v, UInt8.ofNat (v / 2 ^ 8), UInt8.ofNat (v / 2 ^ 16), UInt8.ofNat (v / 2 ^ 24)]

/-- The number in four bytes. -/
def ofLE32 (ch : List UInt8) : ℕ :=
  (ch.take 4).foldr (fun a v => v * 2 ^ 8 + a.toNat) 0

namespace OutState

/-- The header of gzip. -/
def header (s : OutState κ) : OutState κ :=
  if s.xc.wtotal < gzHdr.length ∧ s.xc.isCompress = true ∧ s.xc.isGzip = true then
    let outlen := if s.len < gzHdr.length - s.xc.wtotal then s.len else gzHdr.length - s.xc.wtotal
    { s with
      xc := { s.xc with wtotal := s.xc.wtotal + outlen }
      written := s.written ++ (gzHdr.drop s.xc.wtotal).take outlen
      len := s.len - outlen }
  else s

/-- Copy what the codec left in `xc->out`. -/
def staged (Z : Zlib κ) (s : OutState κ) : Option (OutState κ) :=
  let outlen := if s.xc.outavail ≥ s.len then s.len else s.xc.outavail
  (readBytes s.xc.out s.xc.outoffset outlen).map fun bytes =>
    { s with
      xc := { s.xc with
        crc := if s.xc.isGzip = true ∧ s.xc.isCompress = false then Z.crc32 s.xc.crc bytes
          else s.xc.crc
        outavail := s.xc.outavail - outlen
        wtotal := s.xc.wtotal + outlen }
      written := s.written ++ bytes
      len := s.len - outlen }

/-- There is no room left, but perhaps some output. -/
def full (s : OutState κ) (outlen : ℕ) : OutState κ :=
  if s.xc.outavail ≠ 0 then { s with xc := { s.xc with outoffset := s.xc.outoffset + outlen } }
  else s

/-- Call the codec. -/
def codec (Z : Zlib κ) (s : OutState κ) : OutState κ :=
  let turn := if s.xc.isCompress = true then Z.deflate (s.xc.isLast ≠ 0) s.xc.z s.xc.input
    else Z.inflate (s.xc.isLast ≠ 0) s.xc.z s.xc.input
  { s with
    xc := { s.xc with
      outoffset := 0
      z := turn.state
      nextIn := s.xc.nextIn.drop turn.consumed
      availIn := s.xc.availIn - turn.consumed
      out := turn.produced ++ s.xc.out.drop turn.produced.length
      outavail := turn.produced.length
      errnum := if turn.ret < 0 then turn.ret else s.xc.errnum }
    ret := if turn.produced.length = XS_CHUNK_SIZE then 1000 else turn.ret }

/-- The second half of a round : the state after it, and whether the loop goes on. -/
def next (Z : Zlib κ) (s : OutState κ) : OutState κ × Bool :=
  if s.ret ≠ 0 ∨ s.xc.availIn = 0 then (s, false) else (s.codec Z, true)

/-- One round of the loop. -/
def round (Z : Zlib κ) (s : OutState κ) : Option (OutState κ × Bool) :=
  if s.xc.outavail ≠ 0 then
    (s.staged Z).map fun t => if t.len = 0 then (t.full s.len, false) else t.next Z
  else some (s.next Z)

/-- The loop. -/
def loop (Z : Zlib κ) : ℕ → OutState κ → Option (OutState κ)
  | 0, _ => none
  | fuel + 1, s => (s.round Z).bind fun (t, go) => if go then loop Z fuel t else some t

/-- The footer of gzip : it is written, or compared. -/
def footer (s : OutState κ) : Option (OutState κ) :=
  if s.xc.isLast ≠ 0 ∧ s.written = [] then
    let xc := if s.xc.isLast = 1 then { s.xc with outoffset := 0, isLast := 2 } else s.xc
    let ftr := le32 xc.crc.toNat ++ le32 xc.rtotal
    if s.len ≠ 0 ∧ s.ret = 0 ∧ xc.outoffset < ftr.length ∧ xc.isCompress = true ∧
        xc.isGzip = true then
      let outlen := if s.len < ftr.length - xc.outoffset then s.len else ftr.length - xc.outoffset
      some { s with
        xc := { xc with wtotal := xc.wtotal + outlen, outoffset := xc.outoffset + outlen }
        written := s.written ++ (ftr.drop xc.outoffset).take outlen
        len := s.len - outlen }
    else if xc.isCompress = false ∧ xc.isGzip = true then
      (readBytes xc.nextIn 0 8).map fun ch =>
        let wrong := xc.availIn < 8 ∨ ofLE32 ch ≠ xc.crc.toNat ∨ ofLE32 (ch.drop 4) ≠ xc.wtotal
        { s with xc := { xc with errnum := if wrong then Z_DATA_ERROR else xc.errnum } }
    else some { s with xc := xc }
  else some s

end OutState

/-- `xs_compress_out` : what it stores in `buf`. A round of the loop takes input or makes output, or
is one of the last two. -/
def compressOut (Z : Zlib κ) (xc : Compress κ) (len : ℕ) : Option (List UInt8 × Compress κ) :=
  if len = 0 then some ([], { xc with errnum := -50 })
  else
    let s := (OutState.mk xc [] len 0).header
    let looped := if s.len ≠ 0 ∧ s.xc.isLast < 2 then s.loop Z (2 * (xc.availIn + len) + 3)
      else some s
    (looped.bind OutState.footer).map fun s => (s.written, s.xc)

end Webxs
