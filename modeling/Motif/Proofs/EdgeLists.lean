import Motif.Proofs.Adjacency

/-!
# Graphs from lists of edges

A graph that was made from a list of edges has exactly these edges, in whatever order they are listed and
however often each of them is (`of_ofEdges`). Read the other way, `Graph.edges` lists what `adjacent` says
(`mem_edges`). The symmetric closure is made from such a list as well (`of_symmetrize`).
-/

namespace Motif.Graph

variable {g : Graph} {n u v : Nat} {lists : Array (List Nat)} {edges : List (Nat × Nat)}

theorem mem_edges : (u, v) ∈ g.edges ↔ v ∈ g.adjacent u := by
  rw [Graph.edges, List.mem_flatMap]
  refine ⟨?_, ?_⟩
  · rintro ⟨source, _, hmem⟩
    obtain ⟨target, htarget, heq⟩ := List.mem_map.mp hmem
    cases heq
    exact htarget
  · intro hmem
    have hu := source_lt_order_of_mem_adjacent hmem
    exact ⟨u, List.mem_range.mpr hu, List.mem_map_of_mem hmem⟩

/-! ### Edges by source -/

/-- The targets of the edges that leave `u`, in the order of the list. -/
def targetsOf (edges : List (Nat × Nat)) (u : Nat) : List Nat := (edges.filter (·.1 = u)).map (·.2)

theorem mem_targetsOf : v ∈ targetsOf edges u ↔ (u, v) ∈ edges := by
  rw [targetsOf, List.mem_map]
  refine ⟨?_, fun hmem => ⟨(u, v), List.mem_filter.mpr ⟨hmem, decide_eq_true rfl⟩, rfl⟩⟩
  rintro ⟨⟨source, target⟩, hmem, rfl⟩
  obtain ⟨hedge, hsource⟩ := List.mem_filter.mp hmem
  obtain rfl : source = u := of_decide_eq_true hsource
  exact hedge

theorem size_foldl_addEdge (edges : List (Nat × Nat)) (lists : Array (List Nat)) :
    (edges.foldl addEdge lists).size = lists.size := by
  induction edges generalizing lists with
  | nil => rfl
  | cons edge edges ih => rw [List.foldl_cons, ih, addEdge, Array.size_modify]

theorem getD_addEdge {edge : Nat × Nat} (hu : u < lists.size) :
    (addEdge lists edge).getD u [] =
      if edge.1 = u then edge.2 :: lists.getD u [] else lists.getD u [] := by
  rw [addEdge, Array.getD_eq_getD_getElem?, Array.getElem?_modify, Array.getD_eq_getD_getElem?,
    Array.getElem?_eq_getElem hu]
  split <;> rfl

/-- Each edge goes to the front of the list of its source, so the targets end up in reverse. -/
theorem getD_foldl_addEdge (hu : u < lists.size) :
    (edges.foldl addEdge lists).getD u [] = (targetsOf edges u).reverse ++ lists.getD u [] := by
  induction edges generalizing lists with
  | nil => rfl
  | cons edge edges ih =>
    have hsize : u < (addEdge lists edge).size := by rwa [addEdge, Array.size_modify]
    rw [List.foldl_cons, ih hsize, getD_addEdge hu, targetsOf, targetsOf, List.filter_cons]
    by_cases hsource : edge.1 = u
    · rw [if_pos hsource, if_pos (decide_eq_true hsource), List.map_cons, List.reverse_cons,
        List.append_assoc]
      rfl
    · rw [if_neg hsource, if_neg (by simpa using hsource)]

theorem length_bySource (n : Nat) (edges : List (Nat × Nat)) : (bySource n edges).length = n := by
  rw [bySource, Array.length_toList, size_foldl_addEdge, Array.size_replicate]

theorem bySource_eq (n : Nat) (edges : List (Nat × Nat)) :
    bySource n edges = (List.range n).map fun u => (targetsOf edges u).reverse := by
  apply List.ext_getElem
  · rw [length_bySource, List.length_map, List.length_range]
  · intro u hu hu'
    rw [length_bySource] at hu
    have hsize : u < (Array.replicate n ([] : List Nat)).size := by rwa [Array.size_replicate]
    have hlist := @getD_foldl_addEdge u (Array.replicate n []) edges hsize
    rw [Array.getD_eq_getD_getElem?, Array.getElem?_eq_getElem (by rwa [size_foldl_addEdge])] at hlist
    rw [List.getElem_map, List.getElem_range]
    simpa [bySource, hu, Array.getD_eq_getD_getElem?] using hlist

theorem mem_bySource (hu : u < n) : v ∈ (bySource n edges).getD u [] ↔ (u, v) ∈ edges := by
  rw [bySource_eq, List.getD_eq_getElem?_getD, List.getElem?_map, List.getElem?_range hu]
  exact List.mem_reverse.trans mem_targetsOf

/-! ### Graphs -/

theorem of_ofNeighbors {lists : List (List Nat)} (h : ofNeighbors lists = .ok g) :
    g.order = lists.length ∧ ∀ u v, v ∈ g.adjacent u ↔ v ∈ lists.getD u [] := by
  obtain ⟨_, _, h⟩ := bind_eq_ok.mp h
  split at h
  · contradiction
  · obtain rfl := Except.ok.inj h
    refine ⟨?_, fun u v => ?_⟩
    · exact (Rows.count_ofLists _).trans (List.length_map _)
    · rw [adjacent, ofAscending, Rows.row_ofLists, List.getD_eq_getElem?_getD, List.getElem?_map,
        List.getD_eq_getElem?_getD]
      cases lists[u]? with
      | none => rfl
      | some l => exact Sorted.mem_normalize

/-- The edges are those of the list. -/
theorem of_ofEdges (h : ofEdges n edges = .ok g) :
    g.order = n ∧ ∀ u v, v ∈ g.adjacent u ↔ (u, v) ∈ edges := by
  obtain ⟨_, _, h⟩ := bind_eq_ok.mp h
  split at h
  · contradiction
  · rename_i hinside
    obtain ⟨horder, hadjacent⟩ := of_ofNeighbors h
    rw [length_bySource] at horder
    refine ⟨horder, fun u v => ?_⟩
    rcases Nat.lt_or_ge u n with hu | hu
    · rw [hadjacent, mem_bySource hu]
    · rw [adjacent_of_order_le (horder ▸ hu)]
      refine ⟨fun hmem => absurd hmem List.not_mem_nil, fun hmem => ?_⟩
      have hedge := List.find?_eq_none.mp hinside _ hmem
      simp [hu] at hedge

/-- The symmetric closure has each edge in both directions. -/
theorem of_symmetrize {h : Graph} (hsym : g.symmetrize = .ok h) :
    h.order = g.order ∧ ∀ u v, v ∈ h.adjacent u ↔ v ∈ g.adjacent u ∨ u ∈ g.adjacent v := by
  obtain ⟨horder, hadjacent⟩ := of_ofNeighbors hsym
  rw [length_bySource] at horder
  refine ⟨horder, fun u v => ?_⟩
  rcases Nat.lt_or_ge u g.order with hu | hu
  · rw [hadjacent, mem_bySource hu, List.mem_flatMap]
    refine ⟨?_, ?_⟩
    · rintro ⟨⟨source, target⟩, hedge, hmem⟩
      have hedge := mem_edges.mp hedge
      rcases List.mem_pair.mp hmem with heq | heq
      · obtain ⟨rfl, rfl⟩ := Prod.mk.inj heq
        exact .inl hedge
      · obtain ⟨rfl, rfl⟩ := Prod.mk.inj heq
        exact .inr hedge
    · rintro (hedge | hedge)
      · exact ⟨(u, v), mem_edges.mpr hedge, List.mem_cons_self⟩
      · exact ⟨(v, u), mem_edges.mpr hedge, List.mem_cons_of_mem _ List.mem_cons_self⟩
  · -- what is no vertex has no edges, in either graph and direction
    rw [adjacent_of_order_le (horder ▸ hu), adjacent_of_order_le hu]
    refine ⟨fun hmem => absurd hmem List.not_mem_nil, ?_⟩
    rintro (hmem | hmem)
    · exact absurd hmem List.not_mem_nil
    · exact absurd (lt_order_of_mem_adjacent hmem) (Nat.not_lt.mpr hu)

/-- Every edge goes both ways. -/
def Symmetric (g : Graph) : Prop := ∀ u v, g.Edge u v → g.Edge v u

theorem symmetric_of_symmetrize {sym : Graph} (h : g.symmetrize = .ok sym) : sym.Symmetric := by
  intro u v hedge
  rw [Edge, (of_symmetrize h).2] at hedge ⊢
  exact hedge.symm

end Motif.Graph
