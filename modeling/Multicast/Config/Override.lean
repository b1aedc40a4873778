import Multicast.Machine.Settings
import Multicast.Text.Blank
import Multicast.Text.Digit

/-!
# `Multicast.Config.Override`: lists of dead chips and links

What is dead is written as a list of groups of numbers, or more compactly as a
text: numbers separated by commas, groups by colons, with space around either
and blank groups left out. Both forms mean the same groups.
-/

set_option autoImplicit false

namespace Multicast

/-- What is wrong with a number in a text. -/
inductive NumberFault where
  | empty
  | notDigit
  | tooLarge
deriving DecidableEq

/-- What is wrong, in words. -/
def NumberFault.text : NumberFault → String
  | empty => "cannot parse integer from empty string"
  | notDigit => "invalid digit found in string"
  | tooLarge => "number too large to fit in target type"

/-- What is wrong with a list of groups. -/
inductive OverrideFault where
  /-- A number of a group in a text. -/
  | number (group : String) (fault : NumberFault)
  /-- A group in a text with too many or too few numbers. -/
  | count (group : String) (expected found : Nat)
  /-- A group in a list with too many or too few numbers. -/
  | length (expected found : Nat)
  /-- A link number that does not fit into a byte. -/
  | link (number : Nat)
deriving DecidableEq

/-- What is wrong, in words. -/
def OverrideFault.message : OverrideFault → String
  | number group fault => s!"invalid number in '{group}': {fault.text}"
  | count group expected found => s!"expected {expected} values in '{group}', found {found}"
  | length expected found =>
    let form := s!"a ':'-separated string or a list of {expected}-element lists"
    s!"invalid length {found}, expected {form}"
  | link n => s!"link id {n} out of range"

namespace Override

/-- Numbers in overrides are smaller than this. -/
def numberLimit : Nat := UInt32.size

/-- Reads digits behind those read so far. -/
def readDigits (soFar : Nat) : List Char → Except NumberFault Nat
  | [] => .ok soFar
  | c :: rest =>
    if Digit.isDigit 10 c then
      let n := soFar * 10 + (Digit.value? c).getD 0
      if n < numberLimit then readDigits n rest else .error .tooLarge
    else .error .notDigit

/-- Reads a number: a plus sign or none, then digits. -/
def readNumber : List Char → Except NumberFault Nat
  | [] => .error .empty
  | ['+'] => .error .notDigit
  | '+' :: rest => readDigits 0 rest
  | digits => readDigits 0 digits

/-- The parts of a text between separators; there is one more than there are separators. -/
def split (separator : Char) : List Char → List (List Char)
  | [] => [[]]
  | c :: rest =>
    if c = separator then [] :: split separator rest
    else
      match split separator rest with
      | [] => [[c]]
      | first :: others => (c :: first) :: others

/-- Reads numbers one after another, up to the first that is wrong. -/
def readNumbers : List (List Char) → Except NumberFault (List Nat)
  | [] => .ok []
  | part :: rest => do
    let n ← readNumber (trim part)
    let others ← readNumbers rest
    return n :: others

variable {α : Type}

/-- Something written as a group of numbers: how many it takes, and what they stand for. -/
structure Form (α : Type) where
  arity : Nat
  build? : List Nat → Option α

/-- A chip is two numbers. -/
def chip : Form Chip :=
  { arity := 2
    build? := fun
      | [x, y] => some ⟨x, y⟩
      | _ => none }

/-- A link is a chip and a link number. -/
def downLink : Form DownLink :=
  { arity := 3
    build? := fun
      | [x, y, link] => some ⟨⟨x, y⟩, link⟩
      | _ => none }

/-- Reads a group in a text, given without space around it. -/
def readGroup (form : Form α) (group : List Char) : Except OverrideFault α :=
  match readNumbers (split ',' group) with
  | .error fault => .error (.number (String.ofList group) fault)
  | .ok numbers =>
    match form.build? numbers with
    | some a => .ok a
    | none => .error (.count (String.ofList group) form.arity numbers.length)

/-- Reads groups one after another, up to the first that is wrong. -/
def readGroups (form : Form α) : List (List Char) → Except OverrideFault (List α)
  | [] => .ok []
  | group :: rest => do
    let a ← readGroup form group
    let others ← readGroups form rest
    return a :: others

/-- The groups of a text without the space around them; blank ones are left out. -/
def groupsOf (text : List Char) : List (List Char) :=
  ((split ':' text).map trim).filter fun group => !group.isEmpty

/-- Reads the compact form. -/
def ofText (form : Form α) (text : String) : Except OverrideFault (List α) :=
  readGroups form (groupsOf text.toList)

/-- Reads a group given as a list of numbers. -/
def ofNumbers (form : Form α) (numbers : List Nat) : Except OverrideFault α :=
  match form.build? numbers with
  | some a => .ok a
  | none => .error (.length form.arity numbers.length)

/-- Refuses a link number that does not fit into a byte. -/
def checkLinks : List DownLink → Except OverrideFault (List DownLink)
  | [] => .ok []
  | l :: rest =>
    if l.link < 256 then do
      let others ← checkLinks rest
      return l :: others
    else .error (.link l.link)

end Override

end Multicast
