import Multicast.Text.Decimal

/-!
# `Multicast.Json.Value`: JSON values

A string may hold an escaped surrogate without its partner. Such a string stands
for no text: it can be passed over, but not used.
-/

set_option autoImplicit false

namespace Multicast.Json

/-- A JSON value. Objects keep every field, repeated ones too, in order. -/
inductive Value where
  | null
  | boolean (b : Bool)
  /-- A number; `isWhole` says that it is written without a fraction and an exponent. -/
  | number (isWhole : Bool) (d : Decimal)
  /-- A string; `none` where it stands for no text. -/
  | text (s : Option String)
  | list (items : List Value)
  | object (fields : List (Option String × Value))
deriving Inhabited

namespace Value

/-- A string. -/
def ofString (s : String) : Value := .text (some s)

/-- A whole number. -/
def ofInt (n : Int) : Value := .number true ⟨decide (n < 0), n.natAbs, 0⟩

/-- A whole number. -/
def ofNat (n : Nat) : Value := .number true ⟨false, n, 0⟩

/-- An object with named fields. -/
def record (fields : List (String × Value)) : Value :=
  .object (fields.map fun f => (some f.1, f.2))

/-- The whole number a value is. Zero with a sign is not one. -/
def int? : Value → Option Int
  | number true d =>
    if d.negative then (if d.digits = 0 then none else some (-d.digits)) else some d.digits
  | _ => none

end Value

end Multicast.Json
