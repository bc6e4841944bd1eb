import Motif.Walks.Basic
import Motif.Span
import Motif.Pool
import Motif.Scatter

/-!
# Extending a table of walks

The last phase of a step makes the next table of walks: one walk for each candidate of each row, in
order, holding the pairs of the old walk and the candidate at the new position. Every span of rows is
written by one task. The number of its candidates, known from the offsets of the candidate table, says
which slice of the new table it fills.

The spans have to end where the rows end. Whether they leave rows out before that is not looked at:
such rows have no walks in the new table, and the cells at its end stay zero.
-/

namespace Motif

namespace Walk

/-- Binds position `p` to `v` as well. The new pair goes before the first vertex that is not smaller. -/
def insert (w : Walk) (p v : Nat) : Walk :=
  let smaller := (w.vertices.takeWhile fun u => decide (u < v)).length
  { vertices := w.vertices.take smaller ++ v :: w.vertices.drop smaller
    positions := w.positions.take smaller ++ p :: w.positions.drop smaller }

end Walk

namespace Walks

/-- What one task writes to the two buffers of the new table. -/
structure Writes where
  vertices : List Write
  positions : List Write
deriving DecidableEq, Repr

/-- The walks that extend row `i` of the table. -/
def extensions (t : Walks) (candidates : Rows Nat) (i : Nat) : Result (List Walk) := do
  let walk ← t.walkAt i
  return (← candidates.rowAt i).map (walk.insert t.arity)

/-- Writes walks of the given arity one after another, from cell `first` of a slice on. -/
def place (arity : Nat) (slice : Slice) : List Walk → (first : Nat) → Result Writes
  | [], _ => return ⟨[], []⟩
  | walk :: walks, first => do
    let window ← slice.window first arity
    let vertices ← window.copy walk.vertices
    let positions ← window.copy walk.positions
    let rest ← place arity slice walks (first + arity)
    return ⟨vertices ++ rest.vertices, positions ++ rest.positions⟩

/-- The writes of the task that extends a span of rows. -/
def writes (t : Walks) (candidates : Rows Nat) (span : Span) (slice : Slice) : Result Writes := do
  let walks ← span.rows.mapM (t.extensions candidates)
  place (t.arity + 1) slice walks.flatten 0

/-- The number of cells that the extensions of a span of rows take up. -/
def width (candidates : Rows Nat) (arity : Nat) (span : Span) : Result Nat :=
  match candidates.offsets[span.hi]?, candidates.offsets[span.lo]? with
  | some stop, some start => return Word.mul (Word.sub stop start) arity
  | _, _ => breach .bounds

/-- The table that extends each walk by each of its candidates. -/
def extend (pool : Pool) (spans : List Span) (t : Walks) (candidates : Rows Nat) :
    Result Walks := do
  require (candidates.count = t.count) (.mismatch (.candidateRows candidates.count t.count))
  require (Span.last spans = candidates.count) (.mismatch .uncoveredRows)
  let arity := t.arity + 1
  let total ← Word.mulFor "walk table" candidates.size arity
  Word.reserve total
  let widths ← spans.mapM (width candidates arity)
  let slices ← Slice.cut 0 total widths
  let written ← Pool.settle (pool.runAll (spans.zip slices) fun _ (span, slice) =>
    t.writes candidates span slice)
  ofSorted arity (Scatter.commit total (written.map (·.vertices)))
    (Scatter.commit total (written.map (·.positions)))

end Walks

end Motif
