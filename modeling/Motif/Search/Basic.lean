import Motif.Walks.Check
import Motif.Walks.Extend
import Motif.Block.Concat
import Motif.Extender
import Motif.Search.Matches

/-!
# Searching a graph for a pattern

A search starts from a table of walks and binds one more position in each step until every position is
bound. One step, `Search.bindNext`, maps each walk to its candidates, joins these into one table, and
extends the walks by them; each of the three phases is shared out among the workers of a pool. A step
that finds no candidate ends the search, and so does the last step of a search that only counts, for
the number of candidates is the number of matches.

`Search.run` goes from state to state: from one `State.binding` to the next or to the end, or through
`State.reading`, which puts each walk into the order of positions. It ends because each step leads to a
higher position, and none is higher than the size of the pattern.
-/

namespace Motif

/-- A number of workers with the settings they follow. -/
structure Search where
  settings : Settings
  pool : Pool

/-- Whether the matches are wanted or only their number. -/
inductive Goal where
  | listing
  | number
deriving DecidableEq, Repr

/-- What to look for, and where. -/
structure Query where
  graph : Graph
  pattern : Pattern
  goal : Goal

inductive Outcome where
  /-- A step found no candidate. -/
  | nothing
  /-- The matches, one after another. -/
  | listing (values : Array Nat)
  | number (count : Nat)
deriving DecidableEq, Repr

inductive State where
  /-- The walks bind the positions below `position`, which is to be bound next. -/
  | binding (position : Nat) (walks : Walks)
  /-- The walks bind every position. -/
  | reading (walks : Walks)
  | ended (outcome : Outcome)
deriving DecidableEq, Repr

inductive Advance where
  | ended (outcome : Outcome)
  | grown (walks : Walks)
deriving DecidableEq, Repr

namespace State

/-- A bound on the number of states that follow, for a pattern of the given size. -/
def rank (size : Nat) : State → Nat
  | binding position _ => size - position + 2
  | reading _ => 1
  | ended _ => 0

def outcome? : State → Option Outcome
  | ended outcome => some outcome
  | _ => none

theorem rank_ne_zero {state : State} {size : Nat} (h : state.outcome? = none) :
    state.rank size ≠ 0 := by
  cases state with
  | binding position walks => simp [rank]
  | reading walks => simp [rank]
  | ended outcome => simp [outcome?] at h

end State

namespace Search

/-- A search with the given settings, on a machine that can run `available` workers at once. -/
def ofSettings (settings : Settings) (available : Nat) : Search :=
  ⟨settings, Pool.ofWorkers (settings.workersOn available)⟩

def candidates (s : Search) (x : Extender) (walks : Walks) (spans : List Span) :
    Result (List Block) :=
  Block.ofSpans s.pool spans (fun i space buffer =>
    match walks.walkAt i with
    | .ok walk => x.candidates walk space buffer
    | .error stop => ⟨.error stop, space, buffer⟩) Workspace.fresh

/-- Binds one more position in every walk. -/
def bindNext (s : Search) (q : Query) (position : Nat) (walks : Walks) : Result (Level × Advance) := do
  let required ← q.pattern.requiredAt position
  let x ← Extender.ofRequired q.graph required s.settings.reuse s.settings.method
  let spans := Span.split walks.count s.pool.workers
  let blocks ← s.candidates x walks spans
  let found := Word.total (blocks.map Block.size)
  let record := Level.untimed position walks.count found
  if found = 0 then return (record, .ended .nothing)
  else if q.goal = .number ∧ position + 1 = q.pattern.size then
    return (record, .ended (.number found))
  else
    let joined ← Block.concat s.pool blocks
    return (record, .grown (← Walks.extend s.pool spans walks joined))

/-- The vertices of all walks, each walk in the order of positions. -/
def readOut (walks : Walks) : Result (Array Nat) := do
  Word.reserve (← Word.mulFor "tuple relation" walks.count walks.arity)
  let tuples ← (List.range walks.count).mapM fun i => do
    (← walks.walkAt i).writeTo (Array.replicate walks.arity 0)
  return tuples.foldl (· ++ ·) #[]

/-- The state that follows, with the records of the steps that lead to it. -/
def step (s : Search) (q : Query) : State → Result (State × List Level)
  | .binding position walks =>
    if q.pattern.size ≤ position then
      match q.goal with
      | .listing => return (.reading walks, [])
      | .number => return (.ended (.number walks.count), [])
    else do
      let (record, advance) ← s.bindNext q position walks
      match advance with
      | .ended outcome => return (.ended outcome, [record])
      | .grown walks => return (.binding (position + 1) walks, [record])
  | .reading walks => do return (.ended (.listing (← readOut walks)), [])
  | .ended outcome => return (.ended outcome, [])

theorem rank_step {s : Search} {q : Query} {state next : State} {records : List Level}
    (hrank : state.rank q.pattern.size ≠ 0) (h : s.step q state = .ok (next, records)) :
    next.rank q.pattern.size < state.rank q.pattern.size := by
  cases state with
  | binding position walks =>
    rw [step] at h
    split at h
    · split at h <;> cases h <;> simp [State.rank]
    · obtain ⟨⟨record, advance⟩, _, h⟩ := bind_eq_ok.mp h
      cases advance with
      | ended outcome =>
        cases h
        simp [State.rank]
      | grown walks =>
        cases h
        simp only [State.rank]
        omega
  | reading walks =>
    obtain ⟨values, _, h⟩ := bind_eq_ok.mp h
    cases h
    simp [State.rank]
  | ended outcome => simp [State.rank] at hrank

/-- Goes from state to state until the search has ended, and collects the records of its steps. -/
def run (s : Search) (q : Query) (state : State) : Result (Outcome × List Level) :=
  match _hended : state.outcome? with
  | some outcome => return (outcome, [])
  | none =>
    match _h : s.step q state with
    | .error stop => .error stop
    | .ok (next, records) => do
      let (outcome, later) ← run s q next
      return (outcome, records ++ later)
termination_by state.rank q.pattern.size
decreasing_by exact rank_step (State.rank_ne_zero _hended) _h

/-! ### Whole searches -/

def profile (s : Search) (levels : List Level) : Profile := ⟨s.pool.workers, levels, .zero⟩

/-- The matches that extend the given walks. -/
def findExtending (s : Search) (g : Graph) (p : Pattern) (walks : Walks) : Result Matches := do
  let (outcome, levels) ← s.run ⟨g, p, .listing⟩ (.binding walks.arity walks)
  let values := match outcome with
    | .listing values => values
    | .nothing | .number _ => #[]
  return ⟨p.size, values, s.profile levels⟩

def countExtending (s : Search) (g : Graph) (p : Pattern) (walks : Walks) : Result Tally := do
  let (outcome, levels) ← s.run ⟨g, p, .number⟩ (.binding walks.arity walks)
  let count := match outcome with
    | .number count => count
    | .listing values => values.size / p.size
    | .nothing => 0
  return ⟨count, s.profile levels⟩

/-- The walks that seeds stand for, once they have been checked; none when there are no seeds. -/
def seedWalks (s : Search) (g : Graph) (p : Pattern) (seeds : Rows Nat) : Result (Option Walks) := do
  if seeds.count = 0 then return none
  else
    let walks ← Walks.ofSeeds seeds
    walks.check g p s.settings.reuse
    return some walks

/-- Every match of a pattern in a graph. -/
def find (s : Search) (g : Graph) (p : Pattern) : Result Matches := do
  s.findExtending g p (← Walks.singles g.order)

def count (s : Search) (g : Graph) (p : Pattern) : Result Tally := do
  s.countExtending g p (← Walks.singles g.order)

/-- The matches that extend seeds, rows that bind the first positions of the pattern in order. -/
def findFrom (s : Search) (g : Graph) (p : Pattern) (seeds : Rows Nat) : Result Matches := do
  match ← s.seedWalks g p seeds with
  | some walks => s.findExtending g p walks
  | none => return ⟨p.size, #[], s.profile []⟩

def countFrom (s : Search) (g : Graph) (p : Pattern) (seeds : Rows Nat) : Result Tally := do
  match ← s.seedWalks g p seeds with
  | some walks => s.countExtending g p walks
  | none => return ⟨0, s.profile []⟩

end Search

end Motif
