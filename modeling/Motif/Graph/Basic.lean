import Motif.Rows.Lemmas
import Motif.Sorted

/-!
# Directed graphs

A graph has the vertices `0`, `1`, …, `n - 1` and a set of directed edges. It is kept as one row per
vertex, holding the vertices its edges lead to in strictly ascending order, so a graph has exactly one
representation and equality of graphs is equality of their rows. Self-loops are allowed.

A `Graph` can be built from an edge list, from one list of neighbours per vertex, or from rows that
are checked to be in the form above; and every graph has a symmetric closure.
-/

namespace Motif

/-- A directed graph on the vertices below `rows.count`. -/
structure Graph where
  /-- The vertices each vertex has an edge to. -/
  rows : Rows Nat
  wf : rows.Wf
  ascending : ∀ u, (rows.row u).Pairwise (· < ·)
  bounded : ∀ u, ∀ v ∈ rows.row u, v < rows.count

namespace Graph

theorem ext_rows {g h : Graph} (hrows : g.rows = h.rows) : g = h := by
  cases g
  cases h
  cases hrows
  rfl

instance : DecidableEq Graph := fun g h =>
  if hrows : g.rows = h.rows then isTrue (ext_rows hrows)
  else isFalse fun heq => hrows (heq ▸ rfl)

/-! ### Looking at a graph -/

/-- The number of vertices. -/
def order (g : Graph) : Nat := g.rows.count

def edgeCount (g : Graph) : Nat := g.rows.size

/-- The vertices `u` has an edge to, ascending; none when `u` is no vertex. -/
def adjacent (g : Graph) (u : Nat) : List Nat := g.rows.row u

/-- The number of edges that leave `u`. -/
def outDegree (g : Graph) (u : Nat) : Nat := g.rows.start (u + 1) - g.rows.start u

/-- Whether there is an edge from `u` to `v`. -/
def linked (g : Graph) (u v : Nat) : Bool :=
  Sorted.search g.rows.values v (g.rows.start u) (g.rows.start (u + 1))

/-- Every edge, in lexicographic order. -/
def edges (g : Graph) : List (Nat × Nat) :=
  (List.range g.order).flatMap fun u => (g.adjacent u).map (u, ·)

/-- The vertex `u`, which has to be one. -/
def vertex (g : Graph) (u : Nat) : Result Nat :=
  if u < g.order then .ok u else breach (.node u)

def neighbors (g : Graph) (u : Nat) : Result (List Nat) := g.adjacent <$> g.vertex u

def degree (g : Graph) (u : Nat) : Result Nat := g.outDegree <$> g.vertex u

def hasEdge (g : Graph) (u v : Nat) : Result Bool := (g.linked · v) <$> g.vertex u

/-! ### Building a graph -/

/-- The graph whose rows are the given ascending lists of vertices. -/
def ofAscending (lists : List (List Nat)) (ascending : ∀ l ∈ lists, l.Pairwise (· < ·))
    (bounded : ∀ l ∈ lists, ∀ v ∈ l, v < lists.length) : Graph where
  rows := Rows.ofLists lists
  wf := Rows.wf_ofLists lists
  ascending u := by
    rw [Rows.row_ofLists, List.getD_eq_getElem?_getD]
    cases h : lists[u]? with
    | none => exact List.Pairwise.nil
    | some l => exact ascending l (List.mem_of_getElem? h)
  bounded u := by
    rw [Rows.row_ofLists, Rows.count_ofLists, List.getD_eq_getElem?_getD]
    cases h : lists[u]? with
    | none => simp
    | some l => exact bounded l (List.mem_of_getElem? h)

def edgeless (n : Nat) : Result Graph := do
  Word.reserve (← Word.addFor "adjacency offsets" n 1)
  return ofAscending (List.replicate n [])
    (by simp +contextual [List.mem_replicate]) (by simp +contextual [List.mem_replicate])

/-- The first edge, row by row, that leads to no vertex below `n`; rows are counted from `u`. -/
def firstStray (n u : Nat) : List (List Nat) → Option GraphFault
  | [] => none
  | l :: lists =>
    match l.find? (fun v => decide (n ≤ v)) with
    | some v => some (.edgeOutOfRange u v n)
    | none => firstStray n (u + 1) lists

theorem lt_of_firstStray {n u : Nat} {lists : List (List Nat)} (h : firstStray n u lists = none) :
    ∀ l ∈ lists, ∀ v ∈ l, v < n := by
  induction lists generalizing u with
  | nil => simp
  | cons l lists ih =>
    rw [firstStray] at h
    split at h
    · contradiction
    · rename_i hl
      intro l' hl' v hv
      rcases List.mem_cons.mp hl' with rfl | hl'
      · simpa using List.find?_eq_none.mp hl v hv
      · exact ih h l' hl' v hv

/-- The graph with the given neighbours of each vertex, in any order and with any repetition. -/
def ofNeighbors (lists : List (List Nat)) : Result Graph := do
  let _room : Rows Nat ← Rows.withRoom lists.length (Word.total (lists.map List.length))
  match h : firstStray lists.length 0 lists with
  | some fault => refuse (.graph fault)
  | none =>
    return ofAscending (lists.map Sorted.normalize)
      (by
        intro l hl
        obtain ⟨l', _, rfl⟩ := List.mem_map.mp hl
        exact Sorted.normalize_ascending l')
      (by
        intro l hl v hv
        obtain ⟨l', hl', rfl⟩ := List.mem_map.mp hl
        rw [List.length_map]
        exact lt_of_firstStray h l' hl' v (Sorted.mem_normalize.mp hv))

def addEdge (lists : Array (List Nat)) (edge : Nat × Nat) : Array (List Nat) :=
  lists.modify edge.1 (edge.2 :: ·)

/-- The targets of the given edges, listed by source. -/
def bySource (n : Nat) (edges : List (Nat × Nat)) : List (List Nat) :=
  (edges.foldl addEdge (Array.replicate n [])).toList

/-- The bytes that the heading of one list of neighbours takes up. -/
def headingBytes : Nat := 24

/-- The graph with `n` vertices and the given edges, in any order and with any repetition. -/
def ofEdges (n : Nat) (edges : List (Nat × Nat)) : Result Graph := do
  Word.fits n headingBytes
  match edges.find? (fun (u, v) => decide (n ≤ u ∨ n ≤ v)) with
  | some (u, v) => refuse (.graph (.edgeOutOfRange u v n))
  | none => ofNeighbors (bySource n edges)

/-- The first row that does not ascend strictly or that leads out of the graph. -/
def firstFault (rows : Rows Nat) : Option GraphFault :=
  (List.range rows.count).findSome? fun u =>
    match Sorted.firstStall (rows.row u) with
    | some (left, right) => some (.notAscending u left right)
    | none =>
      match (rows.row u).getLast? with
      | some v => if v < rows.count then none else some (.edgeOutOfRange u v rows.count)
      | none => none

theorem row_of_firstFault {rows : Rows Nat} (h : firstFault rows = none) (u : Nat) :
    (rows.row u).Pairwise (· < ·) ∧ ∀ v ∈ rows.row u, v < rows.count := by
  rcases Nat.lt_or_ge u rows.count with hu | hu
  · have hu := List.findSome?_eq_none_iff.mp h u (List.mem_range.mpr hu)
    split at hu
    · contradiction
    · rename_i hstall
      have hasc := Sorted.firstStall_eq_none.mp hstall
      refine ⟨hasc, ?_⟩
      intro v hv
      split at hu
      · rename_i last hlast
        obtain ⟨front, hrow⟩ := List.getLast?_eq_some_iff.mp hlast
        split at hu
        · rename_i hbound
          rw [hrow] at hasc hv
          rcases List.mem_append.mp hv with hv | hv
          · have := (List.pairwise_append.mp hasc).2.2 v hv last List.mem_cons_self
            omega
          · rw [List.mem_singleton.mp hv]
            exact hbound
        · contradiction
      · rename_i hlast
        rw [List.getLast?_eq_none_iff.mp hlast] at hv
        contradiction
  · simp [Rows.row_of_count_le hu]

/-- Takes two arrays as the rows of a graph after checking that they are. -/
def ofParts (offsets targets : Array Nat) : Result Graph :=
  match hparts : Rows.ofParts offsets targets with
  | .error cause => refuse (.graph (.malformedRows cause))
  | .ok rows =>
    match hfault : firstFault rows with
    | some fault => refuse (.graph fault)
    | none =>
      return {
        rows
        wf := Rows.wf_of_ofParts hparts
        ascending := fun u => (row_of_firstFault hfault u).1
        bounded := fun u => (row_of_firstFault hfault u).2 }

/-- The graph that has every edge of `g` in both directions. -/
def symmetrize (g : Graph) : Result Graph :=
  ofNeighbors (bySource g.order (g.edges.flatMap fun (u, v) => [(u, v), (v, u)]))

end Graph

end Motif
