import Motif.Failure

/-!
# Scattering into one buffer

Two phases of a step collect what their tasks produced in one large buffer. The buffer is cut into
slices, one for each task, before any task runs, and a task writes to the cells of its own slice only.
So no two tasks meet in a cell, and the order in which their writes happen does not matter.

A task is described by the list of its writes, each to a single cell. `Scatter.commit` carries the
writes of all tasks out on a buffer of zeros.
-/

namespace Motif

structure Write where
  cell : Nat
  value : Nat
deriving DecidableEq, Repr

structure Slice where
  start : Nat
  length : Nat
deriving DecidableEq, Repr

namespace Slice

def cells (s : Slice) : List Nat := List.range' s.start s.length

/-- Cuts `room` cells, of which `start` is the first, into slices of the given lengths. The lengths
must not exceed the room. -/
def cut (start room : Nat) : List Nat → Result (List Slice)
  | [] => return []
  | length :: lengths => do
    rely (length ≤ room) .bounds
    return ⟨start, length⟩ :: (← cut (start + length) (room - length) lengths)

/-- The `length` cells of a slice from the given one on, which have to lie inside it. -/
def window (s : Slice) (first length : Nat) : Result Slice :=
  if first + length ≤ s.length then return ⟨s.start + first, length⟩ else breach .bounds

/-- Writes one value to each cell of a slice; there have to be as many of them. -/
def copy (s : Slice) (values : List Nat) : Result (List Write) :=
  if values.length = s.length then return List.zipWith Write.mk s.cells values else breach .bounds

/-- Writes values to the cells of a slice until either runs out. -/
def spread (s : Slice) (values : List Nat) : List Write := List.zipWith Write.mk s.cells values

end Slice

namespace Scatter

def write (buffer : Array Nat) (w : Write) : Array Nat := buffer.setIfInBounds w.cell w.value

def writeAll (buffer : Array Nat) (writes : List Write) : Array Nat := writes.foldl write buffer

/-- A buffer of `size` zeros after the writes of all tasks. -/
def commit (size : Nat) (tasks : List (List Write)) : Array Nat :=
  tasks.foldl writeAll (Array.replicate size 0)

end Scatter

end Motif
