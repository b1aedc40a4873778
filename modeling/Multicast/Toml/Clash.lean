/-!
# `Multicast.Toml.Clash`: keys that cannot mean what they are given

A text can be well formed line by line and still give a key a meaning that
clashes with an earlier one. A clash names the keys in question as they are
meant, not as they are written, so a line end in a quoted key is a line end in
the message.
-/

set_option autoImplicit false

namespace Multicast.Toml

/-- Why a key cannot be given a meaning. -/
inductive Clash where
  /-- An assigned key has a value already; where the assignment stands on a line of its own, the
  keys of the header above it come along. -/
  | assigned (key : String) (header : Option (List String))
  /-- A dotted key runs through, or ends in, a table that dotted keys may not change. -/
  | closed (key : String)
  /-- The last key of a header has a meaning that it cannot be given again; what comes along are
  the keys in front of it. -/
  | headed (path : List String)
  /-- The last of some keys has to be a table and is a value of another kind. -/
  | notTable (path : List String) (kind : String)
deriving DecidableEq

namespace Clash

/-- Keys with points between them. -/
def dotted (path : List String) : String :=
  ".".intercalate path

/-- The table that some keys name. -/
def place : List String → String
  | [] => "document root"
  | path => s!"table `{dotted path}`"

/-- A clash in words. The last key of a header is left out: it would be written on one line, with
escapes where it needs them. -/
def message : Clash → String
  | assigned key none => s!"duplicate key `{key}`"
  | assigned key (some header) => s!"duplicate key `{key}` in {place header}"
  | closed key => s!"duplicate key `{key}`"
  | headed path => s!"duplicate key in {place path}"
  | notTable path kind =>
    s!"dotted key `{dotted path}` attempted to extend non-table type ({kind})"

end Clash

end Multicast.Toml
