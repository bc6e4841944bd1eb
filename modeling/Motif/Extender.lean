import Motif.Walks.Basic
import Motif.Graph.Basic
import Motif.Settings.Basic
import Motif.Lookup

/-!
# Candidates of a walk

One step of a search binds one more position. The vertices it may be bound to, the *candidates* of a
walk, are those that every vertex at a required position has an edge to, without the vertices of the
walk itself where these may not be reused. An `Extender` holds what a step asks for, and
`Extender.candidates` appends the candidates of one walk, ascending, to a buffer.

There are two methods. `Extender.intersect` starts from the shortest list of neighbours and sifts it
through the others; `Extender.tally` counts how many of the lists hold each vertex and keeps those that
all of them hold. Both work in the buffers of a `Workspace`, which is passed from walk to walk so that
its memory is used again. What a workspace holds between two walks never shows in the candidates: its
lists are emptied before they are used, and its counters are back at zero after each walk.
-/

namespace Motif

/-- Buffers that are used again from walk to walk. -/
structure Workspace where
  /-- The vertices of the walk at the required positions. -/
  sources : Array Nat
  kept : Array Nat
  spare : Array Nat
  /-- The vertices whose counter is not zero. -/
  seen : Array Nat
  /-- One counter for each vertex of the graph last counted on. -/
  hits : Array UInt32
deriving DecidableEq, Repr

namespace Workspace

def fresh : Workspace := ⟨#[], #[], #[], #[], #[]⟩

/-- Empties the list of sources and fills it with the given vertices. -/
def refill (space : Workspace) (vertices : List Nat) : Workspace :=
  match space with
  | ⟨sources, kept, spare, seen, hits⟩ => ⟨sources.shrink 0 ++ vertices, kept, spare, seen, hits⟩

@[simp] theorem sources_refill (space : Workspace) (vertices : List Nat) :
    (space.refill vertices).sources = vertices.toArray := by
  simp [refill]

@[simp] theorem hits_refill (space : Workspace) (vertices : List Nat) :
    (space.refill vertices).hits = space.hits := rfl

end Workspace

/-- What the candidates of a step have to satisfy, and how to find them. -/
structure Extender where
  graph : Graph
  /-- The positions whose vertices must have an edge to the candidate. -/
  required : List Nat
  reuse : Reuse
  method : Method
  nonempty : required ≠ []

namespace Extender

/-- The step that requires an edge from each of the given positions, of which there has to be one. -/
def ofRequired (graph : Graph) (required : List Nat) (reuse : Reuse) (method : Method) :
    Result Extender :=
  if h : required = [] then refuse (.degenerate .noAnchor)
  else return ⟨graph, required, reuse, method, h⟩

/-- The vertices of a walk at the required positions, in the order they are stored. -/
def sources (x : Extender) (walk : Walk) : List Nat :=
  (walk.pairs.filter fun (p, _) => x.required.contains p).map (·.2)

/-- The vertices of a walk that are no candidates. -/
def mask (x : Extender) (walk : Walk) : List Nat :=
  match x.reuse with
  | .allowed => []
  | .forbidden => walk.vertices

/-- The vertices by their number of neighbours, fewest first. -/
def byDegree (g : Graph) (sources : List Nat) : List Nat :=
  Sorted.sortBy (fun u v => decide (g.outDegree u ≤ g.outDegree v)) sources

/-- The vertex that a look-up of degrees fails at: the first it comes to that the graph does not have. -/
def absent? (g : Graph) (sources : List Nat) : Option Nat :=
  (Lookup.order g.outDegree sources).find? fun u => decide (g.order ≤ u)

/-! ### Sifting lists of neighbours -/

/-- Sifts `kept` through the neighbours of `next` and of the vertices after it, and appends what is
left to `out`. Nothing more is looked at once `kept` is empty. -/
def narrow (g : Graph) : (next : Nat) → (rest : List Nat) → (kept spare out : Array Nat) →
    Array Nat × Array Nat × Array Nat
  | next, [], kept, spare, out =>
    let out := Sorted.sift .common kept.toList (g.adjacent next) out
    (kept, spare, out)
  | next, after :: rest, kept, spare, out =>
    if kept.isEmpty then (kept, spare, out)
    else narrow g after rest
      (Sorted.sift .common kept.toList (g.adjacent next) (spare.shrink 0)) kept out

/-- Appends the vertices that all of `first` and `rest` have an edge to, without those of `mask`. -/
def intersect (g : Graph) (first : Nat) (rest mask : List Nat) (space : Workspace)
    (out : Array Nat) : Appended Nat Workspace :=
  match rest with
  | [] => ⟨.ok (), space, Sorted.sift .missing (g.adjacent first) mask out⟩
  | next :: rest =>
    match space with
    | ⟨sources, kept, spare, seen, hits⟩ =>
      let kept := Sorted.sift .missing (g.adjacent first) mask (kept.shrink 0)
      let (kept, spare, out) := narrow g next rest kept spare out
      ⟨.ok (), ⟨sources, kept, spare, seen, hits⟩, out⟩

/-! ### Counting neighbours -/

/-- Counts one occurrence of `v`, and notes `v` when it is the first. -/
def strike (counted : Array Nat × Array UInt32) (v : Nat) : Array Nat × Array UInt32 :=
  let (seen, hits) := counted
  (if hits.getD v 0 = 0 then seen.push v else seen, hits.modify v (· + 1))

/-- Takes `v` if it was counted `need` times, and sets its counter back to zero. -/
def gather (need : UInt32) (gathered : Array Nat × Array UInt32) (v : Nat) :
    Array Nat × Array UInt32 :=
  let (kept, hits) := gathered
  (if hits.getD v 0 = need then kept.push v else kept, hits.setIfInBounds v 0)

/-- The count that a vertex of every list reaches. Counters stop being exact at their largest value. -/
def fullCount (lists : Nat) : UInt32 := UInt32.ofNat (min lists (UInt32.size - 1))

/-- Appends the vertices that all of `sources` have an edge to, without those of `mask`. -/
def tally (g : Graph) (sources mask : List Nat) (space : Workspace) (out : Array Nat) :
    Appended Nat Workspace :=
  match space with
  | ⟨held, kept, spare, seen, hits⟩ =>
    let hits := if hits.size = g.order then hits else Array.replicate g.order 0
    let (seen, hits) :=
      sources.foldl (fun counted u => (g.adjacent u).foldl strike counted) (seen.shrink 0, hits)
    let (kept, hits) :=
      seen.toList.foldl (gather (fullCount sources.length)) (kept.shrink 0, hits)
    let out := Sorted.sift .missing (Sorted.sort kept.toList) mask out
    ⟨.ok (), ⟨held, kept, spare, seen, hits⟩, out⟩

/-! ### One step -/

/-- Appends the candidates of a walk whose vertices at the required positions are given, those with the
fewest neighbours first. Where the first of them has none, there are no candidates. -/
def candidatesFrom (x : Extender) (walk : Walk) (sources : List Nat) (space : Workspace)
    (out : Array Nat) : Appended Nat Workspace :=
  match sources with
  | [] => ⟨breach .bounds, space, out⟩
  | first :: rest =>
    if x.graph.outDegree first = 0 then ⟨.ok (), space, out⟩
    else match x.method with
      | .intersect => intersect x.graph first rest (x.mask walk) space out
      | .tally => tally x.graph (first :: rest) (x.mask walk) space out

/-- Appends the candidates of a walk to `out`. The walk has to bind every required position, and to
vertices of the graph, which are looked up while they are put in order of degree. -/
def candidates (x : Extender) (walk : Walk) (space : Workspace) (out : Array Nat) :
    Appended Nat Workspace :=
  let space := space.refill (x.sources walk)
  let sources := space.sources.toList
  if sources.length ≠ x.required.length then
    ⟨refuse (.mismatch (.unboundPositions sources.length x.required.length)), space, out⟩
  else match absent? x.graph sources with
    | some u => ⟨breach (.node u), space, out⟩
    | none =>
      let ordered := byDegree x.graph sources
      x.candidatesFrom walk ordered (space.refill ordered) out

end Extender

end Motif
