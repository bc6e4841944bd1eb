import Motif.Block.Basic
import Motif.Scatter

/-!
# Joining blocks

The second phase of a step joins the blocks of all spans into one table, block after block. Where each
block goes is known from the sizes of the blocks before it: its values move behind theirs, and its
offsets grow by their number.
-/

namespace Motif.Block

/-- What one task writes to the two buffers of the joined table. -/
structure Writes where
  offsets : List Write
  values : List Write
deriving DecidableEq, Repr

/-- The writes that put a block into its slices. The offset at which a block starts belongs to the
block before it and is left out. -/
def writes (b : Block) (offsets values : Slice) : Result Writes := do
  let ends := b.rows.offsets.toList.tail.map (· + values.start)
  return ⟨offsets.spread ends, ← values.copy b.rows.values.toList⟩

/-- Each block with the slices it is written to. -/
def placed (blocks : List Block) : Result (List (Block × Slice × Slice)) := do
  let counts := blocks.map (·.rows.count)
  let sizes := blocks.map size
  let offsets ← Slice.cut 1 (Word.total counts) counts
  let values ← Slice.cut 0 (Word.total sizes) sizes
  return blocks.zip (offsets.zip values)

/-- The table whose rows are the rows of all blocks, in order. -/
def concat (pool : Pool) (blocks : List Block) : Result (Rows Nat) := do
  let rows := Word.total (blocks.map (·.rows.count))
  let values := Word.total (blocks.map size)
  let offsets ← Word.addFor "candidate offsets" rows 1
  Word.reserve offsets
  Word.reserve values
  let tasks ← placed blocks
  let written ← Pool.settle (pool.runAll tasks fun _ (block, offsets, values) =>
    block.writes offsets values)
  match Rows.ofParts (Scatter.commit offsets (written.map (·.offsets)))
      (Scatter.commit values (written.map (·.values))) with
  | .ok rows => return rows
  | .error cause => refuse (.mismatch cause)

end Motif.Block
