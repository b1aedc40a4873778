/-!
# `Multicast.Digest.Xxh3`: the 128-bit XXH3 digest of bytes

The digest of a byte string with seed 0 and the standard secret. Short strings
have rules of their own by length: none, up to 3, up to 8, up to 16, up to 128,
up to 240. Longer ones go through eight accumulators in stripes of 64 bytes,
scrambled after every sixteen stripes.

All arithmetic is on words of 64 bits and wraps.
-/

set_option autoImplicit false

namespace Multicast.Xxh3

/-- The standard secret. -/
def secret : Array UInt8 := #[
  0xb8, 0xfe, 0x6c, 0x39, 0x23, 0xa4, 0x4b, 0xbe, 0x7c, 0x01, 0x81, 0x2c, 0xf7, 0x21, 0xad, 0x1c,
  0xde, 0xd4, 0x6d, 0xe9, 0x83, 0x90, 0x97, 0xdb, 0x72, 0x40, 0xa4, 0xa4, 0xb7, 0xb3, 0x67, 0x1f,
  0xcb, 0x79, 0xe6, 0x4e, 0xcc, 0xc0, 0xe5, 0x78, 0x82, 0x5a, 0xd0, 0x7d, 0xcc, 0xff, 0x72, 0x21,
  0xb8, 0x08, 0x46, 0x74, 0xf7, 0x43, 0x24, 0x8e, 0xe0, 0x35, 0x90, 0xe6, 0x81, 0x3a, 0x26, 0x4c,
  0x3c, 0x28, 0x52, 0xbb, 0x91, 0xc3, 0x00, 0xcb, 0x88, 0xd0, 0x65, 0x8b, 0x1b, 0x53, 0x2e, 0xa3,
  0x71, 0x64, 0x48, 0x97, 0xa2, 0x0d, 0xf9, 0x4e, 0x38, 0x19, 0xef, 0x46, 0xa9, 0xde, 0xac, 0xd8,
  0xa8, 0xfa, 0x76, 0x3f, 0xe3, 0x9c, 0x34, 0x3f, 0xf9, 0xdc, 0xbb, 0xc7, 0xc7, 0x0b, 0x4f, 0x1d,
  0x8a, 0x51, 0xe0, 0x4b, 0xcd, 0xb4, 0x59, 0x31, 0xc8, 0x9f, 0x7e, 0xc9, 0xd9, 0x78, 0x73, 0x64,
  0xea, 0xc5, 0xac, 0x83, 0x34, 0xd3, 0xeb, 0xc3, 0xc5, 0x81, 0xa0, 0xff, 0xfa, 0x13, 0x63, 0xeb,
  0x17, 0x0d, 0xdd, 0x51, 0xb7, 0xf0, 0xda, 0x49, 0xd3, 0x16, 0x55, 0x26, 0x29, 0xd4, 0x68, 0x9e,
  0x2b, 0x16, 0xbe, 0x58, 0x7d, 0x47, 0xa1, 0xfc, 0x8f, 0xf8, 0xb8, 0xd1, 0x7a, 0xd0, 0x31, 0xce,
  0x45, 0xcb, 0x3a, 0x8f, 0x95, 0x16, 0x04, 0x28, 0xaf, 0xd7, 0xfb, 0xca, 0xbb, 0x4b, 0x40, 0x7e]

def prime32a : UInt64 := 0x9E3779B1
def prime32b : UInt64 := 0x85EBCA77
def prime32c : UInt64 := 0xC2B2AE3D
def prime64a : UInt64 := 0x9E3779B185EBCA87
def prime64b : UInt64 := 0xC2B2AE3D27D4EB4F
def prime64c : UInt64 := 0x165667B19E3779F9
def prime64d : UInt64 := 0x85EBCA77C2B2AE63
def prime64e : UInt64 := 0x27D4EB2F165667C5
def primeMixA : UInt64 := 0x165667919E3779F9
def primeMixB : UInt64 := 0x9FB21C651E98DF25

/-- A value of 128 bits as two words. -/
structure Wide where
  low : UInt64
  high : UInt64
deriving DecidableEq

/-- The byte at a place, zero outside. -/
def byteAt (data : Array UInt8) (i : Nat) : UInt64 :=
  match data[i]? with
  | some b => b.toUInt64
  | none => 0

/-- The four bytes at a place as a number, least significant first. -/
def word32 (data : Array UInt8) (i : Nat) : UInt64 :=
  byteAt data i ||| (byteAt data (i + 1) <<< 8) ||| (byteAt data (i + 2) <<< 16) |||
    (byteAt data (i + 3) <<< 24)

/-- The eight bytes at a place as a number, least significant first. -/
def word64 (data : Array UInt8) (i : Nat) : UInt64 :=
  word32 data i ||| (word32 data (i + 4) <<< 32)

/-- The lower half of a word. -/
def lower32 (x : UInt64) : UInt64 := x &&& 0xFFFFFFFF

/-- The lower half with its bytes reversed. -/
def swap32 (x : UInt64) : UInt64 :=
  let byte (n : UInt64) : UInt64 := (x >>> n) &&& 0xFF
  (byte 0 <<< 24) ||| (byte 8 <<< 16) ||| (byte 16 <<< 8) ||| byte 24

/-- A word with its bytes reversed. -/
def swap64 (x : UInt64) : UInt64 :=
  (swap32 x <<< 32) ||| swap32 (x >>> 32)

/-- The lower half turned left. -/
def rotateLeft32 (x n : UInt64) : UInt64 :=
  lower32 ((lower32 x <<< n) ||| (lower32 x >>> (32 - n)))

/-- The full product of two words. -/
def multiply (a b : UInt64) : Wide :=
  let p := a.toNat * b.toNat
  ⟨UInt64.ofNat p, UInt64.ofNat (p / UInt64.size)⟩

/-- The two halves of a product, combined. -/
def fold (a b : UInt64) : UInt64 :=
  let p := multiply a b
  p.low ^^^ p.high

/-- A word combined with itself shifted right. -/
def xorShift (x n : UInt64) : UInt64 :=
  x ^^^ (x >>> n)

/-- The final mixing of most lengths. -/
def avalanche (x : UInt64) : UInt64 :=
  xorShift (xorShift x 37 * primeMixA) 32

/-- The final mixing of the shortest lengths. -/
def avalancheShort (x : UInt64) : UInt64 :=
  xorShift (xorShift (xorShift x 33 * prime64b) 29 * prime64c) 32

/-- No bytes. -/
def digestEmpty : Wide :=
  ⟨avalancheShort (word64 secret 64 ^^^ word64 secret 72),
   avalancheShort (word64 secret 80 ^^^ word64 secret 88)⟩

/-- One to three bytes. -/
def digestTo3 (data : Array UInt8) : Wide :=
  let len := data.size
  let low := (byteAt data 0 <<< 16) ||| (byteAt data (len / 2) <<< 24) |||
    byteAt data (len - 1) ||| (UInt64.ofNat len <<< 8)
  let high := rotateLeft32 (swap32 low) 13
  ⟨avalancheShort (low ^^^ word32 secret 0 ^^^ word32 secret 4),
   avalancheShort (high ^^^ word32 secret 8 ^^^ word32 secret 12)⟩

/-- Four to eight bytes. -/
def digestTo8 (data : Array UInt8) : Wide :=
  let len := data.size
  let input := word32 data 0 + (word32 data (len - 4) <<< 32)
  let keyed := input ^^^ word64 secret 16 ^^^ word64 secret 24
  let m := multiply keyed (prime64a + (UInt64.ofNat len <<< 2))
  let high := m.high + (m.low <<< 1)
  let low := m.low ^^^ (high >>> 3)
  ⟨xorShift (xorShift low 35 * primeMixB) 28, avalanche high⟩

/-- Nine to sixteen bytes. -/
def digestTo16 (data : Array UInt8) : Wide :=
  let len := data.size
  let inputLow := word64 data 0
  let inputHigh := word64 data (len - 8)
  let m := multiply (inputLow ^^^ inputHigh ^^^ word64 secret 32 ^^^ word64 secret 40) prime64a
  let low := m.low + (UInt64.ofNat (len - 1) <<< 54)
  let keyed := inputHigh ^^^ word64 secret 48 ^^^ word64 secret 56
  let high := m.high + (keyed + lower32 keyed * (prime32b - 1))
  let h := multiply (low ^^^ swap64 high) prime64b
  ⟨avalanche h.low, avalanche (h.high + high * prime64b)⟩

/-- Sixteen bytes combined with sixteen bytes of the secret. -/
def mix16 (data : Array UInt8) (i key : Nat) : UInt64 :=
  fold (word64 data i ^^^ word64 secret key) (word64 data (i + 8) ^^^ word64 secret (key + 8))

/-- Two runs of sixteen bytes mixed into the accumulated value. -/
def mix32 (data : Array UInt8) (acc : Wide) (i j key : Nat) : Wide :=
  ⟨(acc.low + mix16 data i key) ^^^ (word64 data j + word64 data (j + 8)),
   (acc.high + mix16 data j (key + 16)) ^^^ (word64 data i + word64 data (i + 8))⟩

/-- The end of the middle lengths. -/
def finishMiddle (len : Nat) (acc : Wide) : Wide :=
  ⟨avalanche (acc.low + acc.high),
   0 - avalanche (acc.low * prime64a + acc.high * prime64d + UInt64.ofNat len * prime64b)⟩

/-- Seventeen to 128 bytes: pairs of runs from both ends, the inner ones first. -/
def digestTo128 (data : Array UInt8) : Wide :=
  let len := data.size
  let pairs := (len - 1) / 32
  let acc := (List.range (pairs + 1)).reverse.foldl (fun acc k =>
    mix32 data acc (16 * k) (len - 16 * (k + 1)) (32 * k)) ⟨UInt64.ofNat len * prime64a, 0⟩
  finishMiddle len acc

/-- 129 to 240 bytes: pairs of runs from the front, and one from the end. -/
def digestTo240 (data : Array UInt8) : Wide :=
  let len := data.size
  let front := (List.range 4).foldl (fun acc k => mix32 data acc (32 * k) (32 * k + 16) (32 * k))
    ⟨UInt64.ofNat len * prime64a, 0⟩
  let middle := (List.range (len / 32 - 4)).foldl (fun acc k =>
    mix32 data acc (128 + 32 * k) (144 + 32 * k) (3 + 32 * k))
    ⟨avalanche front.low, avalanche front.high⟩
  finishMiddle len (mix32 data middle (len - 16) (len - 32) 103)

/-- The accumulators at the start. -/
def accumulators : Array UInt64 :=
  #[prime32c, prime64a, prime64b, prime64c, prime64d, prime32b, prime64e, prime32a]

/-- The accumulator at a place. -/
def lane (acc : Array UInt64) (i : Nat) : UInt64 :=
  match acc[i]? with
  | some x => x
  | none => 0

/-- Takes in a stripe of 64 bytes. Each word goes to the neighbouring accumulator, and its product
with its keyed self to its own. -/
def accumulate (data : Array UInt8) (acc : Array UInt64) (i key : Nat) : Array UInt64 :=
  (Array.range 8).map fun k =>
    let keyed := word64 data (i + 8 * k) ^^^ word64 secret (key + 8 * k)
    let neighbour := if k % 2 = 0 then k + 1 else k - 1
    lane acc k + word64 data (i + 8 * neighbour) + lower32 keyed * (keyed >>> 32)

/-- Scrambles the accumulators after a block of sixteen stripes. -/
def scramble (acc : Array UInt64) : Array UInt64 :=
  (Array.range 8).map fun k =>
    let x := lane acc k
    (xorShift x 47 ^^^ word64 secret (128 + 8 * k)) * prime32a

/-- Takes in a number of stripes from a place on. -/
def stripes (data : Array UInt8) (acc : Array UInt64) (start count : Nat) : Array UInt64 :=
  (List.range count).foldl (fun acc k => accumulate data acc (start + 64 * k) (8 * k)) acc

/-- Folds the accumulators into one word. -/
def mergeLanes (acc : Array UInt64) (key : Nat) (start : UInt64) : UInt64 :=
  avalanche <| (List.range 4).foldl (fun sum k =>
    sum + fold (lane acc (2 * k) ^^^ word64 secret (key + 16 * k))
      (lane acc (2 * k + 1) ^^^ word64 secret (key + 16 * k + 8))) start

/-- More than 240 bytes. -/
def digestLong (data : Array UInt8) : Wide :=
  let len := data.size
  let blocks := (len - 1) / 1024
  let full := (List.range blocks).foldl (fun acc b => scramble (stripes data acc (1024 * b) 16))
    accumulators
  let rest := stripes data full (1024 * blocks) ((len - 1 - 1024 * blocks) / 64)
  let acc := accumulate data rest (len - 64) 121
  ⟨mergeLanes acc 11 (UInt64.ofNat len * prime64a),
   mergeLanes acc 117 (~~~ (UInt64.ofNat len * prime64b))⟩

/-- The digest of a byte string. -/
def digest (data : Array UInt8) : Wide :=
  if data.size = 0 then digestEmpty
  else if data.size ≤ 3 then digestTo3 data
  else if data.size ≤ 8 then digestTo8 data
  else if data.size ≤ 16 then digestTo16 data
  else if data.size ≤ 128 then digestTo128 data
  else if data.size ≤ 240 then digestTo240 data
  else digestLong data

end Multicast.Xxh3
