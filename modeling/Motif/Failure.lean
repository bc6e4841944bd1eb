/-!
# How a computation stops

Two things keep an operation of this library from returning a value. It may *refuse* its input: the
caller gets a `Refusal`, which says what is wrong, and can go on. Or the caller may have *broken* a
condition the operation relies on, such as asking for a row that does not exist: that is a `Breach`,
which no answer can repair. A `Stop` is either of the two, and `Result` is the type of every
operation that can stop.

Refusals are causes, kept as data. Their wording lives in the `message` functions at the end of each
type, so that a proof speaks about causes and only the outermost layer speaks about texts.
-/

namespace Motif

/-- Why memory was not available. -/
inductive Shortage where
  /-- The request exceeds what can be addressed at all. -/
  | beyondLimit
  /-- The request can be addressed, but there is not that much memory. -/
  | exhausted
deriving DecidableEq, Repr

namespace Shortage

def message : Shortage → String
  | beyondLimit =>
    "memory allocation failed because the computed capacity exceeded the collection's maximum"
  | exhausted => "memory allocation failed because the memory allocator returned an error"

end Shortage

/-- Two things that should fit together do not. -/
inductive Mismatch where
  | noOffsets
  | firstOffset (found : Nat)
  | offsetsDecrease (row : Nat)
  | lastOffset (found values : Nat)
  | zeroWidth
  | unevenWidth (values width : Nat)
  | noSeeds
  | emptySeeds
  | seedLength (row found expected : Nat)
  | pairing (vertices positions : Nat)
  | tooManyPositions (bound size : Nat)
  | vertexOutOfRange (vertex nodes : Nat)
  | unboundPositions (bound needed : Nat)
  | candidateRows (rows walks : Nat)
  | uncoveredRows
  /-- A mismatch that a caller's own step reports, in the caller's words. -/
  | reported (text : String)
deriving DecidableEq, Repr

namespace Mismatch

def message : Mismatch → String
  | noOffsets => "offsets must have length rows + 1"
  | firstOffset found => s!"offsets must start at 0, found {found}"
  | offsetsDecrease row => s!"offsets decrease at row {row}"
  | lastOffset found values => s!"last offset {found} does not match {values} values"
  | zeroWidth => "zero-width rows cannot hold values"
  | unevenWidth values width => s!"{values} values do not split into rows of width {width}"
  | noSeeds => "no seed walks given"
  | emptySeeds => "seed walks must bind at least position 0"
  | seedLength row found expected => s!"seed walk {row} binds {found} positions, expected {expected}"
  | pairing vertices positions => s!"{vertices} vertices but {positions} positions"
  | tooManyPositions bound size => s!"walks bind {bound} positions but the pattern has {size}"
  | vertexOutOfRange vertex nodes => s!"walk vertex {vertex} is out of bounds for n={nodes}"
  | unboundPositions bound needed => s!"walk binds {bound} of {needed} required positions"
  | candidateRows rows walks => s!"{rows} candidate rows for {walks} walks"
  | uncoveredRows => "partitions do not cover the candidate rows"
  | reported text => text

end Mismatch

/-- What keeps rows of numbers from being the adjacency of a graph. -/
inductive GraphFault where
  | malformedRows (cause : Mismatch)
  | notAscending (row left right : Nat)
  | edgeOutOfRange (source target nodes : Nat)
deriving DecidableEq, Repr

namespace GraphFault

def message : GraphFault → String
  | malformedRows cause => "dimension mismatch: " ++ cause.message
  | notAscending row left right => s!"row {row} is not strictly ascending at {left} -> {right}"
  | edgeOutOfRange source target nodes =>
    s!"edge {source}->{target} is out of bounds for n={nodes}"

end GraphFault

/-- What leaves a pattern, or one step of it, without anything to hold on to. -/
inductive Degeneracy where
  | noPositions
  | unanchored (position : Nat)
  | noAnchor
deriving DecidableEq, Repr

namespace Degeneracy

def message : Degeneracy → String
  | noPositions => "pattern has no positions"
  | unanchored position => s!"position {position} has no required predecessor"
  | noAnchor => "candidate generation needs at least one required predecessor"

end Degeneracy

/-- What makes the lists of a pattern contradictory. -/
inductive PatternFault where
  | notEarlier (position required : Nat)
  | repeated (position required : Nat)
  | shortCycle (size : Nat)
deriving DecidableEq, Repr

namespace PatternFault

def message : PatternFault → String
  | notEarlier position required =>
    s!"position {position} requires position {required}, which is not a predecessor"
  | repeated position required => s!"position {position} lists predecessor {required} twice"
  | shortCycle size => s!"a cycle needs at least 3 positions, got {size}"

end PatternFault

/-- The reasons for which an operation turns its input down. -/
inductive Refusal where
  | allocation (cause : Shortage)
  /-- The size of a buffer is not a machine word. -/
  | capacity (buffer : String)
  | graph (cause : GraphFault)
  | degenerate (cause : Degeneracy)
  | pattern (cause : PatternFault)
  | mismatch (cause : Mismatch)
  | seedEdge (row source target : Nat)
  /-- A seed binds one vertex twice while matches are injective. -/
  | seedRepeat (row vertex : Nat)
deriving DecidableEq, Repr

namespace Refusal

def message : Refusal → String
  | allocation cause => "buffer allocation failed: " ++ cause.message
  | capacity buffer => "capacity overflow while sizing " ++ buffer
  | graph cause => "invalid adjacency: " ++ cause.message
  | degenerate cause => "degenerate pattern: " ++ cause.message
  | pattern cause => "invalid pattern: " ++ cause.message
  | mismatch cause => "dimension mismatch: " ++ cause.message
  | seedEdge row source target =>
    s!"seed walk {row} violates required edge {source} -> {target}"
  | seedRepeat row vertex => s!"seed walk {row} repeats vertex {vertex}"

end Refusal

/-- The conditions a caller can break. -/
inductive Breach where
  /-- A vertex was looked up that the graph does not have. -/
  | node (vertex : Nat)
  /-- A row was looked up that does not exist. -/
  | row (index : Nat)
  /-- A cell was read or written outside its buffer. -/
  | bounds
  /-- A collection was asked for whose size cannot be addressed. -/
  | oversize
deriving DecidableEq, Repr

namespace Breach

def message? : Breach → Option String
  | node vertex => some s!"node {vertex} out of bounds"
  | row index => some s!"row {index} out of bounds"
  | bounds => none
  | oversize => none

end Breach

/-- Why an operation returned no value. -/
inductive Stop where
  | refused (cause : Refusal)
  | broken (cause : Breach)
deriving DecidableEq, Repr

abbrev Result (α : Type) := Except Stop α

/-- A computation in two parts gives a value when both parts do. -/
theorem bind_eq_ok {ε α β : Type} {x : Except ε α} {f : α → Except ε β} {b : β} :
    (x >>= f) = .ok b ↔ ∃ a, x = .ok a ∧ f a = .ok b := by
  cases x <;> simp [bind, Except.bind]

def refuse {α : Type} (cause : Refusal) : Result α := .error (.refused cause)

/-- Turns the input down unless a condition holds. -/
def require (condition : Prop) [Decidable condition] (cause : Refusal) : Result Unit :=
  if condition then .ok () else refuse cause

/-- Turns the input down for the cause that a check found. -/
def orRefuse {α : Type} (checked : Except Refusal α) : Result α := checked.mapError .refused

def breach {α : Type} (cause : Breach) : Result α := .error (.broken cause)

/-- Relies on a condition to hold. -/
def rely (condition : Prop) [Decidable condition] (cause : Breach) : Result Unit :=
  if condition then .ok () else breach cause

theorem require_eq_ok {condition : Prop} [Decidable condition] {cause : Refusal} :
    require condition cause = .ok () ↔ condition := by
  unfold require
  split <;> simp_all [refuse]

theorem rely_eq_ok {condition : Prop} [Decidable condition] {cause : Breach} :
    rely condition cause = .ok () ↔ condition := by
  unfold rely
  split <;> simp_all [breach]

end Motif
