import Motif.Rows.Basic
import Motif.Span
import Motif.Pool

/-!
# Mapping rows in blocks

The first phase of a step produces one list of values for each row of a table. Every span of rows is
mapped by one task into a `Block` of its own, row after row, so the tasks share nothing that changes. A
task carries a private state from row to row; it starts out the same for every span.

A row that stops ends its task. What other tasks did is then thrown away, and the first span with a row
that was refused gives the answer.
-/

namespace Motif

/-- The values produced for a span of rows: row `i` of the block belongs to row `span.lo + i`. -/
structure Block where
  span : Span
  rows : Rows Nat
deriving DecidableEq, Repr

namespace Block

variable {σ : Type}

def size (b : Block) : Nat := b.rows.size

/-- Appends one row for each of the given row numbers, passing the state on from each to the next. -/
def pushRows (transform : Nat → σ → Array Nat → Appended Nat σ) :
    List Nat → σ → Rows Nat → Result (Rows Nat)
  | [], _, rows => .ok rows
  | i :: is, state, rows =>
    match rows.pushWith (transform i state) with
    | (rows, .ok state) => pushRows transform is state rows
    | (_, .error stop) => .error stop

def ofSpan (transform : Nat → σ → Array Nat → Appended Nat σ) (fresh : σ) (span : Span) :
    Result Block := do
  let rows ← Rows.withRoom span.length span.length
  return ⟨span, ← pushRows transform span.rows fresh rows⟩

/-- The blocks of all spans, each mapped by a task of the pool. -/
def ofSpans (pool : Pool) (spans : List Span) (transform : Nat → σ → Array Nat → Appended Nat σ)
    (fresh : σ) : Result (List Block) :=
  Pool.settle (pool.runAll spans fun _ span => ofSpan transform fresh span)

end Block

end Motif
