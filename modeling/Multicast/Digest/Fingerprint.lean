import Multicast.Digest.Xxh3
import Multicast.Table.Encoding

/-!
# `Multicast.Digest.Fingerprint`: fingerprints of bytes and tables

A fingerprint is the sixteen bytes of an XXH3 digest, least significant first,
written as hexadecimal digits. Equal tables have equal bytes and so equal
fingerprints.
-/

set_option autoImplicit false

namespace Multicast

/-- Sixteen bytes that stand for a byte string. -/
structure Fingerprint where
  bytes : List UInt8
deriving DecidableEq

namespace Fingerprint

/-- The digit of a number below sixteen. -/
def hexDigit (n : Nat) : Char :=
  if n < 10 then Char.ofNat (48 + n) else Char.ofNat (87 + n)

/-- A byte as two hexadecimal digits. -/
def hexByte (b : UInt8) : List Char :=
  [hexDigit (b.toNat / 16), hexDigit (b.toNat % 16)]

/-- The fingerprint of a byte string. -/
def ofBytes (bytes : List UInt8) : Fingerprint :=
  let d := Xxh3.digest bytes.toArray
  ⟨Encoding.littleEndian 8 d.low.toNat ++ Encoding.littleEndian 8 d.high.toNat⟩

/-- The fingerprint of routing tables. -/
def ofTables (t : Tables) : Fingerprint :=
  ofBytes (Encoding.tables t)

/-- All digits. -/
def text (f : Fingerprint) : String :=
  String.ofList (f.bytes.flatMap hexByte)

/-- The digits of the first two bytes, and two dots for the rest. -/
def brief (f : Fingerprint) : String :=
  String.ofList ((f.bytes.take 2).flatMap hexByte) ++ ".."

end Fingerprint

end Multicast
