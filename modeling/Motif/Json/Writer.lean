import Motif.Decimal

/-!
# Writing JSON

Values are written without blanks: lists in brackets, objects in braces with their fields in a fixed
order, and commas in between. The names and texts that the library writes need no escapes.
-/

namespace Motif.Json

def commas (pieces : List (List Char)) : List Char := List.intercalate [','] pieces

def writeList (values : List (List Char)) : List Char := '[' :: commas values ++ [']']

/-- A text that needs no escapes, in quotes. -/
def writeName (name : String) : List Char := '"' :: name.toList ++ ['"']

/-- An object with the given fields, each of them a name and a written value. -/
def writeObject (fields : List (String × List Char)) : List Char :=
  '{' :: commas (fields.map fun (name, value) => writeName name ++ ':' :: value) ++ ['}']

def writeNat (n : Nat) : List Char := Decimal.render n

end Motif.Json
