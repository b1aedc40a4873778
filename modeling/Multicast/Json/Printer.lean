import Multicast.Json.Value

/-!
# `Multicast.Json.Printer`: writing JSON

Values are written without any space. In strings the quote, the backslash and
control characters are escaped, with the short escape where there is one.
-/

set_option autoImplicit false

namespace Multicast.Json

/-- A control character as an escaped code unit. -/
def escapeControl (c : Char) : List Char :=
  ['\\', 'u', '0', '0', Digit.ofValue (c.toNat / 16), Digit.ofValue (c.toNat % 16)]

/-- A character as it is written in a string. -/
def escapeChar (c : Char) : List Char :=
  if c == '"' then ['\\', '"']
  else if c == '\\' then ['\\', '\\']
  else if c == '\x08' then ['\\', 'b']
  else if c == '\x0c' then ['\\', 'f']
  else if c == '\n' then ['\\', 'n']
  else if c == '\r' then ['\\', 'r']
  else if c == '\t' then ['\\', 't']
  else if c.toNat < 32 then escapeControl c
  else [c]

/-- A string with its quotes. -/
def quote (s : String) : String :=
  String.ofList ('"' :: s.toList.flatMap escapeChar ++ ['"'])

/-- A number with its digits in full and its power of ten as an exponent, if it has one. -/
def numberText (d : Decimal) : String :=
  (if d.negative then "-" else "") ++ toString d.digits ++
    (if d.exponent = 0 then "" else "e" ++ toString d.exponent)

/-- Texts with commas between them. -/
def commas (texts : List String) : String :=
  String.intercalate "," texts

mutual

/-- A value as text. -/
def Value.compact : Value → String
  | .null => "null"
  | .boolean true => "true"
  | .boolean false => "false"
  | .number _ d => numberText d
  | .text none => "null"
  | .text (some s) => quote s
  | .list items => "[" ++ commas (compactItems items) ++ "]"
  | .object fields => "\x7b" ++ commas (compactFields fields) ++ "\x7d"

/-- The items of a list as texts. -/
def compactItems : List Value → List String
  | [] => []
  | v :: rest => v.compact :: compactItems rest

/-- The fields of an object as texts. -/
def compactFields : List (Option String × Value) → List String
  | [] => []
  | (name, v) :: rest => (quote (name.getD "") ++ ":" ++ v.compact) :: compactFields rest

end

end Multicast.Json
