import Motif.Walks.Basic
import Motif.Graph.Basic
import Motif.Pattern.Basic
import Motif.Settings.Basic

/-!
# Admitting walks to a search

A search may start from any table of walks whose vertices are vertices of the graph, whose arity is no
larger than the pattern, and whose walks have every edge the pattern requires among the positions they
bind. Where vertices may not be reused the walks have to be injective as well, since a search never
looks back at the part of a match it was given.

The checks run from the table as a whole to the single walk, and the first failure is the one
reported. Walks are put into the order of positions in one array that serves for all of them.
-/

namespace Motif.Walks

/-- The first required edge that a tuple lacks, by the position it leads to and then by the position
it comes from. Positions are counted from `target`, and the lists say what each of them requires. -/
def firstMissingEdge (g : Graph) (tuple : Array Nat) (target : Nat) :
    List (List Nat) → Result (Option (Nat × Nat))
  | [] => return none
  | sources :: required => do
    let missing ← sources.findSomeM? fun source => do
      match tuple[source]?, tuple[target]? with
      | some u, some v => return if ← g.hasEdge u v then none else some (source, target)
      | _, _ => breach .bounds
    match missing with
    | some edge => return some edge
    | none => firstMissingEdge g tuple (target + 1) required

/-- Checks that a walk holds no vertex twice, unless it may. Equal vertices stand side by side. -/
def checkRepeats (reuse : Reuse) (i : Nat) (walk : Walk) : Result Unit :=
  match reuse, Sorted.firstRepeat walk.vertices with
  | .forbidden, some v => refuse (.seedRepeat i v)
  | _, _ => return ()

/-- Checks one walk, and leaves its vertices in `tuple` for the next one to overwrite. -/
def checkWalk (g : Graph) (p : Pattern) (reuse : Reuse) (arity i : Nat) (walk : Walk)
    (tuple : Array Nat) : Result (Array Nat) := do
  checkRepeats reuse i walk
  let tuple ← walk.writeTo tuple
  match ← firstMissingEdge g tuple 0 (p.required.take arity) with
  | some (source, target) => refuse (.seedEdge i source target)
  | none => return tuple

def checkFrom (g : Graph) (p : Pattern) (reuse : Reuse) (arity i : Nat) :
    List Walk → Array Nat → Result Unit
  | [], _ => return ()
  | walk :: walks, tuple => do
    let tuple ← checkWalk g p reuse arity i walk tuple
    checkFrom g p reuse arity (i + 1) walks tuple

/-- Checks that a search for `p` in `g` may start from the walks of the table. -/
def check (t : Walks) (g : Graph) (p : Pattern) (reuse : Reuse) : Result Unit := do
  require (t.arity ≤ p.size) (.mismatch (.tooManyPositions t.arity p.size))
  match t.vertices.values.toList.find? (fun v => decide (g.order ≤ v)) with
  | some v => refuse (.mismatch (.vertexOutOfRange v g.order))
  | none => checkFrom g p reuse t.arity 0 t.toList (Array.replicate t.arity 0)

end Motif.Walks
