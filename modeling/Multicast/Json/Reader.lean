import Multicast.Json.Value
import Multicast.Text.Scan

/-!
# `Multicast.Json.Reader`: reading JSON

The reader takes the JSON grammar as it stands: no comments, no trailing commas,
no leading zeros, no control characters in strings, nothing after the value.
Values may be nested to any depth.
-/

set_option autoImplicit false

namespace Multicast.Json

open Scan

/-- Whether a character may stand between tokens. -/
def isBlank (c : Char) : Bool :=
  c == ' ' || c == '\n' || c == '\t' || c == '\r'

/-- Passes over the space between tokens. -/
def blanks : Scan Empty Unit := do
  let _ ← Scan.takeWhile isBlank

/-- A part of a string: a character, or an escaped code unit. -/
inductive Piece where
  | char (c : Char)
  | codeUnit (n : Nat)

/-- What the character after a backslash stands for. -/
def escaped? : Char → Option Char
  | '"' => some '"'
  | '\\' => some '\\'
  | '/' => some '/'
  | 'b' => some '\x08'
  | 'f' => some '\x0c'
  | 'n' => some '\n'
  | 'r' => some '\r'
  | 't' => some '\t'
  | _ => none

/-- An escape, after its backslash. -/
def escape : Scan Empty Piece := do
  let c ← Scan.satisfy fun _ => true
  if c == 'u' then
    let digits ← Scan.exactly (Digit.isDigit 16) 4
    return .codeUnit (Digit.number 16 digits)
  else
    match escaped? c with
    | some meant => return .char meant
    | none => failure

/-- One part of a string. -/
def piece : Scan Empty Piece := do
  let c ← Scan.satisfy fun c => c != '"' && decide (32 ≤ c.toNat)
  if c == '\\' then escape else return .char c

/-- Whether a code unit is the first of a pair. -/
def isLeading (n : Nat) : Bool := decide (0xD800 ≤ n ∧ n < 0xDC00)

/-- Whether a code unit is the second of a pair. -/
def isTrailing (n : Nat) : Bool := decide (0xDC00 ≤ n ∧ n < 0xE000)

/-- The characters of pieces; escaped code units outside the basic plane come in pairs. -/
def assemble : List Piece → Option (List Char)
  | [] => some []
  | .char c :: rest => (assemble rest).map (c :: ·)
  | .codeUnit a :: .codeUnit b :: rest =>
    if isLeading a then
      if isTrailing b then
        (assemble rest).map (Char.ofNat (0x10000 + (a - 0xD800) * 1024 + (b - 0xDC00)) :: ·)
      else none
    else if isTrailing a then none
    else (assemble (.codeUnit b :: rest)).map (Char.ofNat a :: ·)
  | .codeUnit a :: rest =>
    if isLeading a || isTrailing a then none else (assemble rest).map (Char.ofNat a :: ·)

/-- A string with its quotes. -/
def quoted : Scan Empty (Option String) := do
  Scan.char '"'
  let pieces ← Scan.many piece
  Scan.char '"'
  return (assemble pieces).map String.ofList

/-- The digits before the point: no zero in front of others. -/
def wholeDigits : Scan Empty (List Char) := do
  let first ← Scan.satisfy (Digit.isDigit 10)
  if first == '0' then return [first]
  else
    let rest ← Scan.takeWhile (Digit.isDigit 10)
    return first :: rest

/-- A point and at least one digit, or nothing. -/
def fractionDigits : Scan Empty (List Char) := do
  if ← Scan.accept '.' then Scan.takeSome (Digit.isDigit 10) else return []

/-- The letter `e`, a sign or none, and digits; or nothing. -/
def exponentPart : Scan Empty (Option Int) := do
  match ← Scan.peek with
  | some c =>
    if c == 'e' || c == 'E' then
      Scan.char c
      let negative ← Scan.accept '-'
      if !negative then
        let _ ← Scan.accept '+'
      let digits ← Scan.takeSome (Digit.isDigit 10)
      let n : Int := Digit.number 10 digits
      return some (if negative then -n else n)
    else return none
  | none => return none

/-- A number. -/
def number : Scan Empty Value := do
  let negative ← Scan.accept '-'
  let whole ← wholeDigits
  let fraction ← fractionDigits
  let exponent ← exponentPart
  return .number (fraction.isEmpty && exponent.isNone)
    (Decimal.ofDigits negative whole fraction (exponent.getD 0))

/-- Items between brackets, separated by commas. -/
def bracketed {α : Type} (opening closing : Char) (item : Scan Empty α) :
    Scan Empty (List α) := do
  Scan.char opening
  blanks
  if ← Scan.accept closing then return []
  else
    let first ← item
    let rest ← Scan.many (do Scan.char ','; item)
    Scan.char closing
    return first :: rest

/-- A field of an object. -/
def field (value : Scan Empty Value) : Scan Empty (Option String × Value) := do
  blanks
  let name ← quoted
  blanks
  Scan.char ':'
  let v ← value
  return (name, v)

/-- A word that stands for a value. -/
def word (letters : List Char) (v : Value) : Scan Empty Value := do
  Scan.literal letters
  return v

/-- A value and the space around it. `depth` bounds how deep values are nested. -/
def value : Nat → Scan Empty Value
  | 0 => failure
  | depth + 1 => do
    blanks
    let v ← match ← Scan.peek with
      | some '"' => Value.text <$> quoted
      | some '[' => Value.list <$> bracketed '[' ']' (value depth)
      | some '\x7b' => Value.object <$> bracketed '\x7b' '\x7d' (field (value depth))
      | some 't' => word ['t', 'r', 'u', 'e'] (.boolean true)
      | some 'f' => word ['f', 'a', 'l', 's', 'e'] (.boolean false)
      | some 'n' => word ['n', 'u', 'l', 'l'] .null
      | _ => number
    blanks
    return v

/-- Reads a text that is one value. -/
def read? (text : String) : Option Value :=
  (Scan.read (value (text.length + 1)) text).toOption

end Multicast.Json
