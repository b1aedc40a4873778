import Multicast.Text.Digit
import Multicast.Text.Scan
import Multicast.Toml.Clash

/-!
# `Multicast.Toml.Lexeme`: keys, strings and space

Text may hold tabs and every character from the space on, except for the delete
character. Lines end with a line feed, with or without a carriage return in
front. What begins with a double quote, or with three quotes of either kind, is
a string or the end of the reading.
-/

set_option autoImplicit false

namespace Multicast.Toml

open Scan

/-- Space within a line. -/
def isBlank (c : Char) : Bool := c == ' ' || c == '\t'

/-- A character that may stand in a comment or a string. -/
def isPlain (c : Char) : Bool :=
  c == '\t' || (decide (32 ≤ c.toNat) && c != '\x7f')

/-- A character of a key without quotes. -/
def isBare (c : Char) : Bool :=
  c.isAlphanum || c == '-' || c == '_'

/-- Passes over space within a line. -/
def blanks : Scan Clash Unit := do
  let _ ← Scan.takeWhile isBlank

/-- The end of a line. -/
def newline : Scan Clash Unit :=
  Scan.char '\n' <|> Scan.literal ['\r', '\n']

/-- A comment, up to the end of its line. -/
def comment : Scan Clash Unit := do
  Scan.char '#'
  let _ ← Scan.takeWhile isPlain

/-- The rest of a line: space, perhaps a comment, and its end or the end of the text. -/
def lineEnd : Scan Clash Unit := do
  blanks
  let _ ← Scan.optional comment
  newline <|> Scan.finished

/-- Passes over space, comments and ends of lines. -/
def gaps : Scan Clash Unit := do
  let _ ← Scan.many ((do let _ ← Scan.takeSome isBlank) <|> newline <|> (do comment; newline))

/-- What the letter of a short escape stands for. -/
def shortEscape? : Char → Option Char
  | 'b' => some '\x08'
  | 't' => some '\t'
  | 'n' => some '\n'
  | 'f' => some '\x0c'
  | 'r' => some '\r'
  | '"' => some '"'
  | '\\' => some '\\'
  | _ => none

/-- The character with a number of so many hexadecimal digits. Surrogates are no characters. -/
def codePoint (digits : Nat) : Scan Clash Char := do
  let n := Digit.number 16 (← Scan.exactly (Digit.isDigit 16) digits)
  Scan.require (decide (n.isValidChar))
  return Char.ofNat n

/-- An escape, after its backslash. -/
def escape : Scan Clash Char := do
  let c ← Scan.satisfy fun _ => true
  if c == 'u' then codePoint 4
  else if c == 'U' then codePoint 8
  else
    match shortEscape? c with
    | some meant => return meant
    | none => failure

/-- A character of a string with escapes. -/
def basicChar : Scan Clash Char := do
  let c ← Scan.satisfy fun c => isPlain c && c != '"'
  if c == '\\' then escape else return c

/-- A string between double quotes, with escapes. -/
def basicString : Scan Clash String := do
  Scan.char '"'
  Scan.commit do
    let cs ← Scan.many basicChar
    Scan.char '"'
    return String.ofList cs

/-- A string between single quotes, as it stands. -/
def literalString : Scan Clash String := do
  Scan.char '\''
  let cs ← Scan.takeWhile fun c => isPlain c && c != '\''
  Scan.char '\''
  return String.ofList cs

/-- A backslash at the end of a line: all space up to the next text falls away. -/
def lineContinuation : Scan Clash (List Char) := do
  Scan.char '\\'
  blanks
  newline
  let _ ← Scan.many ((do let _ ← Scan.satisfy isBlank) <|> newline)
  return []

/-- The end of a line within a string is a line feed. -/
def newlineText : Scan Clash (List Char) := do
  newline
  return ['\n']

/-- One or two quotes within a string between three. -/
def innerQuotes (quote : Char) : Scan Clash (List Char) := do
  let quotes ← Scan.takeSome (· == quote)
  Scan.require (decide (quotes.length ≤ 2))
  return quotes

/-- Three quotes that end a string, after up to two that belong to it. -/
def closingQuotes (quote : Char) : Scan Clash (List Char) := do
  let quotes ← Scan.atMost (· == quote) 5
  Scan.require (decide (3 ≤ quotes.length))
  return quotes.drop 3

/-- A string between three quotes. A line end right after the first three is left out. -/
def multiline (quote : Char) (content : Scan Clash (List Char)) : Scan Clash String := do
  Scan.literal [quote, quote, quote]
  Scan.commit do
    let _ ← Scan.optional newline
    let parts ← Scan.many (content <|> innerQuotes quote)
    let last ← closingQuotes quote
    return String.ofList (parts.flatten ++ last)

/-- A part of a string between three double quotes. -/
def basicPart : Scan Clash (List Char) :=
  newlineText <|> lineContinuation <|> (do return [← basicChar])

/-- A part of a string between three single quotes. -/
def literalPart : Scan Clash (List Char) :=
  newlineText <|> (do return [← Scan.satisfy fun c => isPlain c && c != '\''])

/-- A string of any kind. -/
def string : Scan Clash String :=
  multiline '"' basicPart <|> basicString <|> multiline '\'' literalPart <|> literalString

/-- One key, with or without quotes. -/
def simpleKey : Scan Clash String := do
  match ← Scan.peek with
  | some '"' => basicString
  | some '\'' => literalString
  | _ => return String.ofList (← Scan.takeSome isBare)

/-- A key with the space around it. -/
def spacedKey : Scan Clash String := do
  blanks
  let key ← simpleKey
  blanks
  return key

/-- A dotted key has at most this many keys. -/
def longestPath : Nat := 79

/-- A dotted key: the keys in front and the last one. -/
def keyPath : Scan Clash (List String × String) := do
  let first ← spacedKey
  let rest ← Scan.many (do Scan.char '.'; spacedKey)
  let keys := first :: rest
  Scan.require (decide (keys.length ≤ longestPath))
  return (keys.dropLast, keys.getLast?.getD first)

end Multicast.Toml
