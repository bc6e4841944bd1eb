import Motif.Settings.Basic
import Motif.Json.Reader
import Motif.Json.Writer

/-!
# Settings in JSON

Settings are written as an object with three fields. Reading takes the fields in any order, ignores
fields with other names, and takes the standard value for a field that is missing. A list of up to
three values gives the fields in the order they are written in.
-/

namespace Motif.Settings

def reuseNames : List (List Char × Reuse) :=
  [("none".toList, .allowed), ("exclude-visited".toList, .forbidden)]

def methodNames : List (List Char × Method) :=
  [("intersect".toList, .intersect), ("count".toList, .tally)]

def reuseName : Reuse → String
  | .allowed => "none"
  | .forbidden => "exclude-visited"

def methodName : Method → String
  | .intersect => "intersect"
  | .tally => "count"

def toJson (s : Settings) : List Char :=
  Json.writeObject
    [("num-threads", Json.writeNat s.workers), ("mask-mode", Json.writeName (reuseName s.reuse)),
      ("strategy", Json.writeName (methodName s.method))]

/-- The fields that a text states. -/
structure Stated where
  workers : Option Nat
  reuse : Option Reuse
  method : Option Method
deriving DecidableEq, Repr

namespace Stated

def nothing : Stated := ⟨none, none, none⟩

/-- The settings with the standard value for each field that is not stated. -/
def settings (s : Stated) : Settings :=
  ⟨s.workers.getD standard.workers, s.reuse.getD standard.reuse, s.method.getD standard.method⟩

end Stated

/-- The reader of a field's value, once the name of the field has been read. No field that has a
meaning comes twice. -/
def field (stated : Stated) (name : List Char) : Except Json.Fault (Json.Reader Stated) :=
  if name = "num-threads".toList then
    if stated.workers.isSome then .error .mismatched
    else .ok (Json.word.map fun workers => { stated with workers := some workers })
  else if name = "mask-mode".toList then
    if stated.reuse.isSome then .error .mismatched
    else .ok ((Json.name reuseNames).map fun reuse => { stated with reuse := some reuse })
  else if name = "strategy".toList then
    if stated.method.isSome then .error .mismatched
    else .ok ((Json.name methodNames).map fun method => { stated with method := some method })
  else .ok (Json.ignored stated)

/-- The readers of the values in a list, given the fields stated before each of them. -/
def inOrder : List (Stated → Json.Reader Stated) :=
  [fun stated => Json.word.map fun workers => { stated with workers := some workers },
    fun stated => (Json.name reuseNames).map fun reuse => { stated with reuse := some reuse },
    fun stated => (Json.name methodNames).map fun method => { stated with method := some method }]

/-- Reads the values of a list with the given readers, up to its end. -/
def readInOrder (stated : Stated) (isFirst : Bool) :
    List (Stated → Json.Reader Stated) → List Char → Except Json.Fault (Stated × List Char)
  | [], text => do return (stated, ← Json.closeList text)
  | reader :: readers, text => do
    match ← Json.nextItem isFirst text with
    | none => return (stated, ← Json.closeList text)
    | some start =>
      let (stated, rest) ← (reader stated).read start
      readInOrder stated false readers rest

def readStated (text : List Char) : Except Json.Fault (Stated × List Char) :=
  match Json.skipBlank text with
  | '[' :: rest => readInOrder .nothing true inOrder rest
  | '{' :: rest => Json.readFields field .nothing true rest
  | text => .error (Json.misfit text)

def ofJson (text : List Char) : Except Json.Fault Settings := do
  let (stated, rest) ← readStated text
  Json.atEnd rest
  return stated.settings

end Motif.Settings
