import Motif.Decimal
import Motif.Text.Blank
import Motif.Text.Quoted

/-!
# Edge lists

A graph is given as text with one edge per line: the source and the target, two numbers with blanks in
between. A number sign starts a comment that goes on to the end of the line, and a line with nothing
else on it states no edge. The first line that is neither is reported by its number, counted from one.
-/

namespace Motif.EdgeList

/-- What keeps a line from stating an edge. -/
inductive LineFault where
  /-- There are not two fields; the line is given without blanks around it. -/
  | fieldCount (line : List Char)
  | source (cause : Decimal.Fault)
  | target (cause : Decimal.Fault)
deriving DecidableEq, Repr

structure Fault where
  line : Nat
  cause : LineFault
deriving DecidableEq, Repr

/-- The wording of a fault, from what was being done to what went wrong. -/
def Fault.chain (f : Fault) : List String :=
  match f.cause with
  | .fieldCount line =>
    [s!"line {f.line}: expected `u v`, got " ++ String.ofList (Text.quote line)]
  | .source cause => [s!"line {f.line}: source vertex", cause.message]
  | .target cause => [s!"line {f.line}: target vertex", cause.message]

/-- A line without its comment and without blanks around what is left. -/
def content (line : List Char) : List Char := Text.trim (Text.before '#' line)

/-- The edge that a line states, if it states one. -/
def readLine (line : List Char) : Except LineFault (Option (Nat × Nat)) :=
  match Text.fields (content line) with
  | [] => return none
  | [source, target] => do
    let u ← (Decimal.readWord source).mapError .source
    let v ← (Decimal.readWord target).mapError .target
    return some (u, v)
  | _ => .error (.fieldCount (content line))

/-- The edges that lines state, the first of them having the given number. -/
def readLines (number : Nat) : List (List Char) → Except Fault (List (Nat × Nat))
  | [] => return []
  | line :: lines => do
    let edge ← (readLine line).mapError (Fault.mk number)
    let edges ← readLines (number + 1) lines
    return edge.toList ++ edges

def read (text : List Char) : Except Fault (List (Nat × Nat)) := readLines 1 (Text.lines text)

end Motif.EdgeList
