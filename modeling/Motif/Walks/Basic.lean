import Motif.Rows.Basic
import Motif.Sorted

/-!
# Tables of partial matches

A partial match of a pattern, a *walk*, binds each of the positions `0`, …, `a - 1` to a vertex. It is
stored as pairs of a position and a vertex, sorted by vertex rather than by position: that order is
what lets the search drop the vertices of a walk from a list of candidates in one pass. The number
`a` of positions is the *arity*, and a `Walks` table holds walks of one arity.

There are two tables to start a search from. `Walks.singles` binds position `0` to each vertex in
turn, and `Walks.ofSeeds` takes rows that a caller gives in the order of positions. `Walk.writeTo`
goes the other way and puts the vertices of a walk back into that order.
-/

namespace Motif

/-- One partial match: vertices in ascending order, and the position each of them is bound to. -/
structure Walk where
  vertices : List Nat
  positions : List Nat
deriving DecidableEq, Repr

namespace Walk

/-- The positions with their vertices, in the order they are stored. -/
def pairs (w : Walk) : List (Nat × Nat) := w.positions.zip w.vertices

def length (w : Walk) : Nat := w.vertices.length

def vertexAt (w : Walk) (p : Nat) : Option Nat := w.pairs.lookup p

/-- Writes each vertex into the cell of its position. -/
def writeTo (w : Walk) (cells : Array Nat) : Result (Array Nat) :=
  w.pairs.foldlM (fun cells (p, v) => if p < cells.size then .ok (cells.setIfInBounds p v)
    else breach .bounds) cells

end Walk

/-- A table of walks that all bind the same positions. -/
structure Walks where
  arity : Nat
  vertices : Rows Nat
  /-- The positions, in step with the values of `vertices`. -/
  positions : Array Nat
deriving DecidableEq, Repr

namespace Walks

def count (t : Walks) : Nat := t.vertices.count

/-- Walk `i`; empty when there is no such walk. -/
def walk (t : Walks) (i : Nat) : Walk where
  vertices := t.vertices.row i
  positions := (t.positions.extract (t.vertices.start i) (t.vertices.start (i + 1))).toList

/-- Walk `i`, which has to exist. -/
def walkAt (t : Walks) (i : Nat) : Result Walk := do
  let (_, stop) ← t.vertices.rowRange i
  rely (stop ≤ t.positions.size) .bounds
  return t.walk i

def toList (t : Walks) : List Walk := (List.range t.count).map t.walk

/-! ### Tables to start from -/

/-- One walk for each vertex below `n`, binding position `0`. -/
def singles (n : Nat) : Result Walks := do
  Word.reserve n
  let vertices ← Rows.uniform 1 (Array.range n)
  Word.reserve n
  return ⟨1, vertices, Array.replicate n 0⟩

/-- The vertices of a row in ascending order, each with its place in the row. Where a vertex repeats,
the earlier place comes first. -/
def byVertex (row : List Nat) : List (Nat × Nat) :=
  Sorted.sortBy (fun a b => decide (a.1 ≤ b.1)) row.zipIdx

/-- The number and the length of the first row that has not the given length; the rows are counted
from `i`. -/
def firstOfOtherLength (length i : Nat) : List (List Nat) → Option (Nat × Nat)
  | [] => none
  | row :: rows =>
    if row.length = length then firstOfOtherLength length (i + 1) rows else some (i, row.length)

/-- The walks that bind position `j` to entry `j` of each row. The rows have to be of one length,
which is not zero. -/
def ofSeeds (seeds : Rows Nat) : Result Walks :=
  match seeds.toLists with
  | [] => refuse (.mismatch .noSeeds)
  | first :: rest => do
    let arity := first.length
    require (arity ≠ 0) (.mismatch .emptySeeds)
    match firstOfOtherLength arity 1 rest with
    | some (i, length) => refuse (.mismatch (.seedLength i length arity))
    | none =>
      Word.reserve (← Word.mulFor "seed walk table" seeds.count arity)
      let sorted := (first :: rest).flatMap byVertex
      let vertices ← Rows.uniform arity (sorted.map (·.1)).toArray
      return ⟨arity, vertices, (sorted.map (·.2)).toArray⟩

/-- Takes sorted pairs as a table of walks of one arity. -/
def ofSorted (arity : Nat) (vertices positions : Array Nat) : Result Walks := do
  require (vertices.size = positions.size) (.mismatch (.pairing vertices.size positions.size))
  return ⟨arity, ← Rows.uniform arity vertices, positions⟩

end Walks

end Motif
