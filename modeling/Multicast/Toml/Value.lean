/-!
# `Multicast.Toml.Value`: TOML values

Tables keep the order of their keys. Dates and times are recognised and told
apart from everything else, but their parts are not kept.
-/

set_option autoImplicit false

namespace Multicast.Toml

/-- A TOML value. -/
inductive Value where
  | text (s : String)
  | integer (n : Int)
  | float (x : Float)
  | boolean (b : Bool)
  /-- A date, a time or both. -/
  | moment
  | list (items : List Value)
  | table (fields : List (String × Value))
deriving Inhabited

/-- The kind of a value, in words. -/
def Value.kind : Value → String
  | .text _ => "string"
  | .integer _ => "integer"
  | .float _ => "float"
  | .boolean _ => "boolean"
  | .moment => "datetime"
  | .list _ => "array"
  | .table _ => "inline table"

end Multicast.Toml
