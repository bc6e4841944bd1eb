import Motif.Word

/-!
# Settings of a search

How many workers share the work, whether a match may use a vertex twice, and which of two methods
finds the vertices that extend a partial match. The number of workers and the method never change
what is found.
-/

namespace Motif

/-- Whether a match may hold the same vertex at two positions. -/
inductive Reuse where
  | allowed
  /-- Matches are injective. -/
  | forbidden
deriving DecidableEq, Repr

/-- How the vertices that extend a partial match are found. -/
inductive Method where
  /-- Filter the shortest list of neighbours by all the others. -/
  | intersect
  /-- Count how often each vertex occurs in the lists of neighbours. -/
  | tally
deriving DecidableEq, Repr

structure Settings where
  /-- The number of workers; zero leaves the choice to the machine. -/
  workers : Nat
  reuse : Reuse
  method : Method
deriving DecidableEq, Repr

namespace Settings

/-- The settings that hold where nothing else is asked for. -/
def standard : Settings := ⟨0, .forbidden, .intersect⟩

instance : Inhabited Settings := ⟨standard⟩

def withWorkers (s : Settings) (workers : Nat) : Settings := { s with workers }

def withReuse (s : Settings) (reuse : Reuse) : Settings := { s with reuse }

def withMethod (s : Settings) (method : Method) : Settings := { s with method }

/-- The number of workers to start on a machine that can run `available` at once. -/
def workersOn (s : Settings) (available : Nat) : Nat :=
  if s.workers = 0 then max available 1 else s.workers

end Settings

end Motif
