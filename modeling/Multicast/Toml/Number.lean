import Multicast.Text.Decimal
import Multicast.Text.Scan
import Multicast.Toml.Clash
import Multicast.Toml.Value

/-!
# `Multicast.Toml.Number`: numbers, dates and times

Integers have 64 bits. A float too large for a double is refused, one too small
below zero is minus infinity. Dates must exist in the calendar; a minute may
have a leap second. What can only go on in one way, such as a number after its
point or a date after its first hyphen, goes on so or ends the reading.
-/

set_option autoImplicit false

namespace Multicast.Toml

open Scan

/-- Digits of a base, single underscores between them allowed; an underscore must have a digit
behind it. -/
def digitRun (base : Nat) : Scan Clash (List Char) := do
  let digit := Scan.satisfy (Digit.isDigit base)
  let first ← digit
  let rest ← Scan.many (digit <|> (do Scan.char '_'; Scan.commit digit))
  return first :: rest

/-- A sign, if there is one; says whether it is a minus. -/
def sign : Scan Clash Bool := do
  if ← Scan.accept '-' then return true
  else
    let _ ← Scan.accept '+'
    return false

/-- Decimal digits without a zero in front of others. -/
def wholeDigits : Scan Clash (List Char) := do
  if ← Scan.accept '0' then return ['0'] else digitRun 10

/-- An exponent. -/
def exponentPart : Scan Clash Int := do
  let _ ← Scan.satisfy fun c => c == 'e' || c == 'E'
  let negative ← sign
  let n : Int := Digit.number 10 (← Scan.commit (digitRun 10))
  return if negative then -n else n

/-- A point and digits. -/
def fractionDigits : Scan Clash (List Char) := do
  Scan.char '.'
  Scan.commit (digitRun 10)

/-- What follows the whole digits of a float: an exponent, or a fraction and perhaps an
exponent. -/
def floatTail : Scan Clash (List Char × Int) :=
  (do return ([], ← exponentPart)) <|>
  (do
    let fraction ← fractionDigits
    let exponent ← Scan.optional exponentPart
    return (fraction, exponent.getD 0))

/-- A float in digits. -/
def decimalFloat : Scan Clash Float := do
  let negative ← sign
  let whole ← wholeDigits
  let (fraction, exponent) ← floatTail
  let x := (Decimal.ofDigits negative whole fraction exponent).toFloat
  Scan.commit (Scan.require (x.isFinite || negative))
  return x

/-- Infinity or not a number, by name. -/
def namedFloat : Scan Clash Float := do
  let negative ← sign
  let x ← (do Scan.literal ['i', 'n', 'f']; return 1.0 / 0.0) <|>
    (do Scan.literal ['n', 'a', 'n']; return 0.0 / 0.0)
  return if negative then -x else x

/-- A float. -/
def float : Scan Clash Value := do
  return .float (← decimalFloat <|> namedFloat)

/-- An integer in another base, after a zero and the letter of the base. -/
def basedInteger (letter : Char) (base : Nat) : Scan Clash Int := do
  Scan.literal ['0', letter]
  return Digit.number base (← Scan.commit (digitRun base))

/-- An integer in decimal. -/
def decimalInteger : Scan Clash Int := do
  let negative ← sign
  let n : Int := Digit.number 10 (← wholeDigits)
  return if negative then -n else n

/-- An integer. -/
def integer : Scan Clash Value := do
  let n ← basedInteger 'x' 16 <|> basedInteger 'o' 8 <|> basedInteger 'b' 2 <|> decimalInteger
  Scan.require (decide (Int64.minValue.toInt ≤ n ∧ n ≤ Int64.maxValue.toInt))
  return .integer n

/-- The given number of digits, as a number within limits. -/
def fixedNumber (digits least most : Nat) : Scan Clash Nat := do
  let n := Digit.number 10 (← Scan.exactly (Digit.isDigit 10) digits)
  Scan.require (decide (least ≤ n ∧ n ≤ most))
  return n

/-- Whether a year has 29 February. -/
def isLeapYear (year : Nat) : Bool :=
  year % 4 == 0 && (year % 100 != 0 || year % 400 == 0)

/-- The number of days of a month. -/
def daysIn (year month : Nat) : Nat :=
  if month = 2 then (if isLeapYear year then 29 else 28)
  else if month = 4 ∨ month = 6 ∨ month = 9 ∨ month = 11 then 30
  else 31

/-- A date. -/
def date : Scan Clash Unit := do
  let year ← fixedNumber 4 0 9999
  Scan.char '-'
  Scan.commit do
    let month ← fixedNumber 2 1 12
    Scan.char '-'
    let _ ← fixedNumber 2 1 (daysIn year month)

/-- A time of day. -/
def time : Scan Clash Unit := do
  let _ ← fixedNumber 2 0 23
  Scan.char ':'
  Scan.commit do
    let _ ← fixedNumber 2 0 59
    Scan.char ':'
    let _ ← fixedNumber 2 0 60
    let _ ← Scan.optional (do Scan.char '.'; Scan.takeSome (Digit.isDigit 10))

/-- A distance from universal time. -/
def zone : Scan Clash Unit :=
  (do let _ ← Scan.satisfy fun c => c == 'Z' || c == 'z') <|>
  (do
    let _ ← Scan.satisfy fun c => c == '+' || c == '-'
    Scan.commit do
      let _ ← fixedNumber 2 0 23
      Scan.char ':'
      let _ ← fixedNumber 2 0 59)

/-- A time after a date. -/
def timeOfDate : Scan Clash Unit := do
  let _ ← Scan.satisfy fun c => c == 'T' || c == 't' || c == ' '
  time
  let _ ← Scan.optional zone

/-- A date, a time, or both. -/
def moment : Scan Clash Value := do
  (do date; let _ ← Scan.optional timeOfDate) <|> time
  return .moment

/-- A number, a date or a time. -/
def numeral : Scan Clash Value :=
  moment <|> float <|> integer

end Multicast.Toml
