/-!
# `Multicast.Text.Digit`: digits of numbers

Digits of bases up to sixteen, with letters in either case. Only the digits of
ASCII count.
-/

set_option autoImplicit false

namespace Multicast.Digit

/-- The value of a digit, less than sixteen. -/
def value? (c : Char) : Option Nat :=
  if '0' ≤ c ∧ c ≤ '9' then some (c.toNat - 48)
  else if 'a' ≤ c ∧ c ≤ 'f' then some (c.toNat - 87)
  else if 'A' ≤ c ∧ c ≤ 'F' then some (c.toNat - 55)
  else none

/-- Whether a character is a digit of a base. -/
def isDigit (base : Nat) (c : Char) : Bool :=
  match value? c with
  | some n => decide (n < base)
  | none => false

/-- The number that digits write; characters that are no digits count as zero. -/
def number (base : Nat) (digits : List Char) : Nat :=
  digits.foldl (fun n c => n * base + (value? c).getD 0) 0

/-- The digit of a value less than sixteen, with letters in lower case. -/
def ofValue (n : Nat) : Char :=
  if n < 10 then Char.ofNat (48 + n) else Char.ofNat (87 + n)

end Multicast.Digit
