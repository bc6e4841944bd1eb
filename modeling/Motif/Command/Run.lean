import Motif.Command.Load
import Motif.Search.Basic

/-!
# A run of the command

A run loads what its options name, settings first and the graph last, searches, and prints either one
line for each match, with the vertices in the order of positions, or the number of matches alone.
-/

namespace Motif.Command

/-- How a run ends. -/
inductive Ending where
  | printed (text : List Char)
  /-- The arguments had a mistake in usage. -/
  | misused
  | halted (cause : Halt)
deriving DecidableEq, Repr

def tupleLine (tuple : List Nat) : List Char :=
  List.intercalate [' '] (tuple.map Decimal.render) ++ ['\n']

def matchLines (found : Matches) : List Char := found.toList.flatMap tupleLine

/-- What a run with the given options prints, on a machine that can run `available` workers. -/
def perform (disk : Disk) (available : Nat) (o : Options) : Except Halt (List Char) := do
  let settings ← loadSettings disk o
  let pattern ← loadPattern disk o.pattern
  let graph ← loadGraph disk o.graph o.nodes
  let graph ← if o.symmetric then graph.symmetrize.mapError (Halt.ofStop .refused) else pure graph
  let search := Search.ofSettings settings available
  if o.countOnly then
    let counted ← (search.count graph pattern).mapError (Halt.ofStop .refused)
    return Decimal.render counted.count ++ ['\n']
  else
    let found ← (search.find graph pattern).mapError (Halt.ofStop .refused)
    return matchLines found

def run (disk : Disk) (available : Nat) (args : List String) : Ending :=
  match Options.ofArguments args with
  | none => .misused
  | some options =>
    match perform disk available options with
    | .ok text => .printed text
    | .error halt => .halted halt

/-- The files that a run with the given options may read. -/
def files (o : Options) : List String := o.config.toList ++ [o.pattern, o.graph]

end Motif.Command
