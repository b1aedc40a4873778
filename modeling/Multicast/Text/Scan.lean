/-!
# `Multicast.Text.Scan`: reading text from the front

A scan takes characters off the front of a text and answers a value, or fails.
Scans are put together with `do`. A failure is tentative or final: `p <|> q`
tries `q` from the same place when `p` fails tentatively, and a repetition stops
before what fails so, while a final failure ends the reading. `commit` makes
every failure of a scan final. A failure may carry a cause, which `refuse`
gives.
-/

set_option autoImplicit false

namespace Multicast

/-- How a scan fails: whether nothing else may be tried, and why, if there is more to say than
that the text does not fit. -/
structure Scan.Failure (ε : Type) where
  isFinal : Bool
  cause : Option ε

/-- A reader of the front of a text, with causes of a type. -/
def Scan (ε α : Type) := List Char → Except (Scan.Failure ε) (α × List Char)

namespace Scan

variable {ε α : Type}

instance : Monad (Scan ε) where
  pure a := fun s => .ok (a, s)
  bind p next := fun s =>
    match p s with
    | .error failure => .error failure
    | .ok (a, rest) => next a rest

instance : Alternative (Scan ε) where
  failure := fun _ => .error ⟨false, none⟩
  orElse p other := fun s =>
    match p s with
    | .ok result => .ok result
    | .error failure => if failure.isFinal then .error failure else other () s

/-- Fails for a cause. -/
def refuse (cause : ε) : Scan ε α :=
  fun _ => .error ⟨false, some cause⟩

/-- The same scan, whose failures are final. -/
def commit (p : Scan ε α) : Scan ε α :=
  fun s => (p s).mapError fun failure => { failure with isFinal := true }

/-- The next character, which stays. -/
def peek : Scan ε (Option Char) :=
  fun s => .ok (s.head?, s)

/-- A character of a class. -/
def satisfy (p : Char → Bool) : Scan ε Char
  | [] => .error ⟨false, none⟩
  | c :: rest => if p c then .ok (c, rest) else .error ⟨false, none⟩

/-- A given character. -/
def char (c : Char) : Scan ε Unit := do
  let _ ← satisfy (· == c)

/-- Takes a given character if it comes next, and says whether it did. -/
def accept (c : Char) : Scan ε Bool
  | [] => .ok (false, [])
  | d :: rest => if d == c then .ok (true, rest) else .ok (false, d :: rest)

/-- A given text. -/
def literal : List Char → Scan ε Unit
  | [] => pure ()
  | c :: rest => do
    char c
    literal rest

/-- Every character of a class that follows, up to the first of another class. -/
def takeWhile (p : Char → Bool) : Scan ε (List Char) :=
  fun s => .ok (s.takeWhile p, s.dropWhile p)

/-- Like `takeWhile`, but at least one character. -/
def takeSome (p : Char → Bool) : Scan ε (List Char) := do
  let first ← satisfy p
  let rest ← takeWhile p
  return first :: rest

/-- The given number of characters of a class. -/
def exactly (p : Char → Bool) : Nat → Scan ε (List Char)
  | 0 => pure []
  | n + 1 => do
    let first ← satisfy p
    let rest ← exactly p n
    return first :: rest

/-- Characters of a class that follow, but no more than the given number. -/
def atMost (p : Char → Bool) (limit : Nat) : Scan ε (List Char) :=
  fun s =>
    let taken := (s.take limit).takeWhile p
    .ok (taken, s.drop taken.length)

/-- Repeats a scan up to a tentative failure, at most once for each character of a text; `read`
holds what was read before, latest first. -/
def repeated (p : Scan ε α) : List Char → List α → Scan ε (List α)
  | [], read => pure read.reverse
  | _ :: allowed, read => fun s =>
    match p s with
    | .error failure => if failure.isFinal then .error failure else .ok (read.reverse, s)
    | .ok (a, rest) => repeated p allowed (a :: read) rest

/-- Repeats a scan that takes something each time, up to a tentative failure. -/
def many (p : Scan ε α) : Scan ε (List α) :=
  fun s => repeated p s [] s

/-- Items with a separator between them, perhaps none. -/
def separated (separator : Scan ε Unit) (item : Scan ε α) : Scan ε (List α) :=
  (do
    let first ← item
    let rest ← many (do separator; item)
    return first :: rest) <|> pure []

/-- What a scan reads, if it does not fail. -/
def optional (p : Scan ε α) : Scan ε (Option α) :=
  (do return some (← p)) <|> pure none

/-- Goes on only if a condition holds. -/
def require (condition : Bool) : Scan ε Unit :=
  if condition then pure () else failure

/-- Nothing is left. -/
def finished : Scan ε Unit
  | [] => .ok ((), [])
  | _ :: _ => .error ⟨false, none⟩

/-- Reads the whole of a text, or says why it cannot be read, where there is a cause. -/
def read (p : Scan ε α) (text : String) : Except (Option ε) α :=
  match (do let a ← p; finished; return a : Scan ε α) text.toList with
  | .ok (a, _) => .ok a
  | .error failure => .error failure.cause

end Scan

end Multicast
