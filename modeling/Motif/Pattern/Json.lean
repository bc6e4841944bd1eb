import Motif.Pattern.Basic
import Motif.Json.Reader
import Motif.Json.Writer

/-!
# Patterns in JSON

A pattern is written as an object with one field, `required`, that lists the required positions of
each position. A list with these lists as its only value stands for the same pattern. What is read has
to make a pattern: the lists are checked, and put in order, like any others.
-/

namespace Motif.Pattern

/-- Why a JSON text is not a pattern. -/
inductive ReadFault where
  /-- It cannot be read as lists of positions. -/
  | json (fault : Json.Fault)
  /-- The lists make no pattern. -/
  | pattern (cause : Refusal)
deriving DecidableEq, Repr

def ReadFault.message : ReadFault → String
  | json fault => fault.message
  | pattern cause => cause.message

def toJson (p : Pattern) : List Char :=
  Json.writeObject
    [("required", Json.writeList (p.required.map fun l => Json.writeList (l.map Json.writeNat)))]

def positionsReader : Json.Reader (List (List Nat)) := Json.list (Json.list Json.word)

/-- The reader of a field's value, once the name of the field has been read. The field that holds the
positions comes at most once. -/
def field (found : Option (List (List Nat))) (name : List Char) :
    Except Json.Fault (Json.Reader (Option (List (List Nat)))) :=
  if name = "required".toList then
    match found with
    | some _ => .error .mismatched
    | none => .ok (positionsReader.map some)
  else .ok (Json.ignored found)

def readPositions (text : List Char) : Except Json.Fault (List (List Nat) × List Char) :=
  match Json.skipBlank text with
  | '[' :: rest => do
    match ← Json.nextItem true rest with
    | none => .error .mismatched
    | some start =>
      let (positions, rest) ← positionsReader.read start
      return (positions, ← Json.closeList rest)
  | '{' :: rest => do
    match ← Json.readFields field none true rest with
    | (none, _) => .error .mismatched
    | (some positions, rest) => return (positions, rest)
  | text => .error (Json.misfit text)

/-- The pattern that a JSON text stands for. The positions are checked before the end of the text is
looked at. -/
def ofJson (text : List Char) : Except ReadFault Pattern := do
  let (positions, rest) ← (readPositions text).mapError .json
  let pattern ← (ofLists positions).mapError .pattern
  (Json.atEnd rest).mapError .json
  return pattern

end Motif.Pattern
