import Motif.Search.Profile
import Motif.Sorted

/-!
# What a search finds

The matches of a pattern are tuples of vertices, entry `j` of a tuple being the vertex at position
`j`. They are kept in one buffer, tuple after tuple, and two results are the same when their tuples
are; how they were found does not count. A search that only counts gives a `Tally`.
-/

namespace Motif

/-- The matches of a pattern, in one buffer. -/
structure Matches where
  arity : Nat
  /-- The tuples, one after another. -/
  values : Array Nat
  profile : Profile
deriving Repr

namespace Matches

instance : BEq Matches := ⟨fun a b => a.arity == b.arity && a.values == b.values⟩

def count (m : Matches) : Nat := m.values.size / m.arity

def isEmpty (m : Matches) : Bool := m.values.isEmpty

/-- Tuple `i`, if there is one. Its two ends are computed as words, and a start that is not a word
lies past every tuple. -/
def get? (m : Matches) (i : Nat) : Option (List Nat) :=
  let start := i * m.arity
  if start < Word.bound then
    let stop := Word.add start m.arity
    if start ≤ stop ∧ stop ≤ m.values.size then some (m.values.extract start stop).toList else none
  else none

def toList (m : Matches) : List (List Nat) :=
  (List.range m.count).map fun i => (m.values.extract (i * m.arity) ((i + 1) * m.arity)).toList

def sorted (m : Matches) : List (List Nat) := Sorted.sortBy Sorted.precedes m.toList

end Matches

structure Tally where
  count : Nat
  profile : Profile
deriving Repr

namespace Tally

instance : BEq Tally := ⟨fun a b => a.count == b.count⟩

end Tally

end Motif
