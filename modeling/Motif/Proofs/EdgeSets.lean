import Mathlib.Algebra.BigOperators.Group.Finset.Basic
import Motif.Proofs.EdgeLists
import Motif.Proofs.RowLists
import Motif.Proofs.Yields

/-!
# Graphs as sets of edges

A graph is the set of its edges on a number of vertices: graphs that agree in both are equal (`ext_adjacent`),
and `Graph.edges` lists each edge once (`length_edges`, `nodup_edges`). So the graph of a list of edges does not
depend on the order of the list or on how often an edge is in it (`ofEdges_canonical`). Edges that leave the
vertices are turned down, the first one in the list by name; past that only the memory for the list decides.
-/

namespace Motif.Graph

variable {g h : Graph} {n u v : Nat} {edges : List (Nat × Nat)} {lists : List (List Nat)}

/-! ### Graphs with the same edges -/

theorem ext_adjacent (horder : g.order = h.order)
    (hadjacent : ∀ u v, v ∈ g.adjacent u ↔ v ∈ h.adjacent u) : g = h := by
  have hrow : g.rows.row = h.rows.row := funext fun u =>
    Sorted.eq_of_mem_iff (g.adjacent_ascending u) (h.adjacent_ascending u) (hadjacent u)
  apply ext_rows
  apply g.wf.ext_toLists h.wf
  rw [Rows.toLists, Rows.toLists, hrow]
  exact congrArg (fun count => (List.range count).map h.rows.row) horder

/-- The targets of the edges, one after another, are the values of the rows. -/
theorem map_snd_edges (g : Graph) : g.edges.map Prod.snd = g.rows.values.toList := by
  rw [← g.wf.flatten_toLists, Rows.toLists, edges, List.map_flatMap, ← List.flatMap_def]
  apply List.flatMap_congr
  intro u _
  rw [List.map_map]
  exact List.map_id _

theorem length_edges (g : Graph) : g.edges.length = g.edgeCount := by
  rw [← List.length_map Prod.snd, map_snd_edges, Array.length_toList]
  rfl

theorem nodup_edges (g : Graph) : g.edges.Nodup := by
  rw [edges, List.nodup_flatMap]
  refine ⟨fun u _ => ?_, ?_⟩
  · have hrow : (g.adjacent u).Nodup := (g.adjacent_ascending u).imp Nat.ne_of_lt
    exact hrow.map (Prod.mk_right_injective u)
  · refine List.nodup_range.imp ?_
    -- edges of different vertices have different sources
    intro u u' hne edge hedge hedge'
    obtain ⟨v, _, rfl⟩ := List.mem_map.mp hedge
    obtain ⟨v', _, heq⟩ := List.mem_map.mp hedge'
    exact hne (congrArg Prod.fst heq).symm

theorem edgeCount_eq_card (hedges : ∀ u v, v ∈ g.adjacent u ↔ (u, v) ∈ edges) :
    g.edgeCount = edges.toFinset.card := by
  have hset : g.edges.toFinset = edges.toFinset := by
    ext ⟨u, v⟩
    rw [List.mem_toFinset, List.mem_toFinset, mem_edges, hedges]
  rw [← hset, List.toFinset_card_of_nodup g.nodup_edges, length_edges]

/-! ### Lists of neighbours -/

theorem firstStray_eq_none (h : ∀ l ∈ lists, ∀ v ∈ l, v < n) (u : Nat) : firstStray n u lists = none := by
  induction lists generalizing u with
  | nil => rfl
  | cons l lists ih =>
    have hl : l.find? (fun v => decide (n ≤ v)) = none := by
      simpa using h l List.mem_cons_self
    rw [firstStray, hl]
    exact ih (fun l' hl' => h l' (List.mem_cons_of_mem _ hl')) _

/-- Lists of vertices are the neighbours in a graph, as far as there is memory for them. -/
theorem exists_ofNeighbors (hrows : Word.reserve (lists.length + 1) = .ok ())
    (hinside : ∀ l ∈ lists, ∀ v ∈ l, v < lists.length) :
    ∃ g : Graph, ofNeighbors lists = (fun _ => g) <$> Word.reserve (Word.total (lists.map List.length)) := by
  have hstray := firstStray_eq_none hinside 0
  rw [ofNeighbors, Rows.withRoom_eq_map hrows]
  cases Word.reserve (Word.total (lists.map List.length)) with
  | error stop => exact ⟨ofAscending [] (by simp) (by simp), rfl⟩
  | ok _ =>
    simp only [Functor.map, Except.map, bind, Except.bind]
    split
    · rename_i hfault
      rw [hstray] at hfault
      contradiction
    · exact ⟨_, rfl⟩

/-! ### Lists of edges -/

/-- The edge leads from a vertex below `n` to a vertex below `n`. -/
def Inside (n : Nat) (edge : Nat × Nat) : Prop := edge.1 < n ∧ edge.2 < n

/-- The targets of the edges of each vertex below `n`, in the order of the list. -/
def grouped (n : Nat) (edges : List (Nat × Nat)) : List (List Nat) := (List.range n).map (targetsOf edges)

theorem mem_grouped (hinside : ∀ e ∈ edges, Inside n e) :
    v ∈ (grouped n edges).getD u [] ↔ (u, v) ∈ edges := by
  rw [grouped, List.getD_eq_getElem?_getD, List.getElem?_map]
  rcases Nat.lt_or_ge u n with hu | hu
  · rw [List.getElem?_range hu]
    exact mem_targetsOf
  · rw [List.getElem?_eq_none (by simpa using hu)]
    refine ⟨fun hmem => absurd hmem List.not_mem_nil, fun hmem => ?_⟩
    exact absurd (hinside _ hmem).1 (Nat.not_lt.mpr hu)

theorem length_targetsOf (edges : List (Nat × Nat)) (u : Nat) :
    (targetsOf edges u).length = (Multiset.ofList (edges.map Prod.fst)).count u := by
  rw [targetsOf, List.length_map, Multiset.coe_count, List.count, List.countP_map, List.countP_eq_length_filter]
  rfl

/-- Each edge is listed with its source and with no other vertex. -/
theorem total_targetsOf (hinside : ∀ e ∈ edges, Inside n e) :
    Word.total ((List.range n).map fun u => (targetsOf edges u).length) = edges.length := by
  have hsources : ∀ u ∈ Multiset.ofList (edges.map Prod.fst), u ∈ Finset.range n := by
    intro u hu
    obtain ⟨e, he, rfl⟩ := List.mem_map.mp hu
    exact Finset.mem_range.mpr (hinside e he).1
  have htotal := Multiset.sum_count_eq_card hsources
  rw [Multiset.coe_card, List.length_map] at htotal
  rw [← htotal]
  simp only [length_targetsOf]
  rfl

/-- The targets of each vertex, in any order, are the neighbours in a graph. -/
theorem exists_ofNeighbors_of_perm {targets : Nat → List Nat} (hn : Word.reserve (n + 1) = .ok ())
    (hinside : ∀ e ∈ edges, Inside n e) (hperm : ∀ u, (targets u).Perm (targetsOf edges u)) :
    ∃ g : Graph, ofNeighbors ((List.range n).map targets) = (fun _ => g) <$> Word.reserve edges.length := by
  have hlength : ((List.range n).map targets).length = n := by rw [List.length_map, List.length_range]
  have htotal : Word.total (((List.range n).map targets).map List.length) = edges.length := by
    rw [← total_targetsOf hinside, List.map_map]
    exact congrArg Word.total (List.map_congr_left fun u _ => (hperm u).length_eq)
  rw [← htotal]
  refine exists_ofNeighbors (hlength.symm ▸ hn) (fun l hl v hv => ?_)
  obtain ⟨u, _, rfl⟩ := List.mem_map.mp hl
  rw [hlength]
  exact (hinside (u, v) (mem_targetsOf.mp ((hperm u).mem_iff.mp hv))).2

theorem fits_of_reserve (hn : Word.reserve (n + 1) = .ok ()) : Word.fits n headingBytes = .ok () := by
  have hlt := Word.lt_of_reserve hn
  rw [Word.fits, rely_eq_ok, headingBytes]
  simp only [Word.shortageFrom, Word.addressable] at *
  omega

/-- Edges between vertices make a graph, as far as there is memory for them. -/
theorem exists_ofEdges (hn : Word.reserve (n + 1) = .ok ()) (hinside : ∀ e ∈ edges, Inside n e) :
    ∃ g : Graph, ofEdges n edges = (fun _ => g) <$> Word.reserve edges.length := by
  obtain ⟨g, hg⟩ := exists_ofNeighbors_of_perm hn hinside fun u => List.reverse_perm (targetsOf edges u)
  refine ⟨g, ?_⟩
  rw [ofEdges, fits_of_reserve hn, List.find?_eq_none.mpr, ← hg, ← bySource_eq]
  · rfl
  · intro e he
    obtain ⟨hsource, htarget⟩ := hinside e he
    simp [hsource, htarget]

theorem inside_of_mem_edges : ∀ e ∈ g.edges, Inside g.order e := by
  rintro ⟨u, v⟩ hedge
  have hv := mem_edges.mp hedge
  exact ⟨source_lt_order_of_mem_adjacent hv, lt_order_of_mem_adjacent hv⟩

/-- Where there is memory for it, a graph is made by its own edges. -/
theorem ofEdges_edges (hvertices : Word.reserve (g.order + 1) = .ok ())
    (hedges : Word.reserve g.edgeCount = .ok ()) : ofEdges g.order g.edges = .ok g := by
  obtain ⟨h, hh⟩ := exists_ofEdges hvertices inside_of_mem_edges
  rw [length_edges, hedges] at hh
  obtain ⟨horder, hsame⟩ := of_ofEdges hh
  obtain rfl : g = h := ext_adjacent horder.symm fun u v => by rw [hsame, mem_edges]
  exact hh

/-- The first edge that leaves the vertices is reported. -/
theorem ofEdges_of_not_inside {before after : List (Nat × Nat)} (hn : Word.reserve (n + 1) = .ok ())
    (hbefore : ∀ e ∈ before, Inside n e) (hedge : ¬ Inside n (u, v)) :
    ofEdges n (before ++ (u, v) :: after) = refuse (.graph (.edgeOutOfRange u v n)) := by
  have hout : n ≤ u ∨ n ≤ v := by
    rw [Inside] at hedge
    omega
  rw [ofEdges, fits_of_reserve hn, List.find?_append, List.find?_eq_none.mpr, Option.none_or,
    List.find?_cons_of_pos]
  · rfl
  · exact decide_eq_true hout
  · intro e he
    obtain ⟨hsource, htarget⟩ := hbefore e he
    simp [hsource, htarget]

/-! ### The graph of a list of edges -/

/-- The graph has the vertices below `n` and the edges of the list, in whatever way it is looked at. -/
structure Represents (g : Graph) (n : Nat) (edges : List (Nat × Nat)) : Prop where
  order : g.order = n
  neighbors : ∀ u < n, ∃ l, g.neighbors u = .ok l ∧ l.Pairwise (· < ·) ∧ (∀ v ∈ l, v < n) ∧
    ∀ v, v ∈ l ↔ (u, v) ∈ edges
  hasEdge : ∀ u < n, ∀ v, g.hasEdge u v = .ok (decide ((u, v) ∈ edges))
  edgeCount : g.edgeCount = edges.toFinset.card

theorem represents_of_adjacent (hedges : ∀ u v, v ∈ g.adjacent u ↔ (u, v) ∈ edges) :
    g.Represents g.order edges where
  order := rfl
  neighbors u hu := by
    have hrow := neighbors_of_lt hu
    exact ⟨g.adjacent u, hrow, g.adjacent_ascending u, fun v => lt_order_of_mem_adjacent, hedges u⟩
  hasEdge u hu v := by
    have hlinked : g.linked u v = decide ((u, v) ∈ edges) := by
      rw [Bool.eq_iff_iff, linked_eq_true_iff, hedges, decide_eq_true_iff]
    rw [hasEdge_of_lt hu, hlinked]
  edgeCount := edgeCount_eq_card hedges

/-- Only edges that leave the vertices keep a list from being the edges of a graph. -/
theorem refused_ofEdges_iff (hn : Word.reserve (n + 1) = .ok ()) :
    (∃ fault, ofEdges n edges = refuse (.graph fault)) ↔ ∃ e ∈ edges, ¬ Inside n e := by
  refine ⟨?_, ?_⟩
  · rintro ⟨fault, hfault⟩
    by_contra hnone
    obtain ⟨g, hg⟩ := exists_ofEdges hn fun e he => by_contra fun hedge => hnone ⟨e, he, hedge⟩
    have hmemory : Yields (ofEdges n edges) fun _ => True := by
      rw [hg, map_eq_pure_bind]
      exact (Word.yields_reserve _).bind fun _ _ => yields_pure trivial
    exact hmemory.forMemory hfault
  · rintro ⟨e, he, hedge⟩
    obtain ⟨before, ⟨u, v⟩, after, rfl, hbefore, hout⟩ :=
      exists_first_of_not_forall fun hinside => hedge (hinside e he)
    exact ⟨_, ofEdges_of_not_inside hn hbefore hout⟩

theorem ofNeighbors_grouped (hn : Word.reserve (n + 1) = .ok ()) (hroom : Word.reserve edges.length = .ok ())
    (hinside : ∀ e ∈ edges, Inside n e) (hg : ofEdges n edges = .ok g) :
    ofNeighbors (grouped n edges) = .ok g := by
  obtain ⟨h, hh⟩ := exists_ofNeighbors_of_perm hn hinside fun u => .refl (targetsOf edges u)
  rw [hroom] at hh
  change ofNeighbors (grouped n edges) = .ok h at hh
  obtain ⟨horder, hedges⟩ := of_ofEdges hg
  obtain ⟨horder', hlists⟩ := of_ofNeighbors hh
  obtain rfl : g = h := by
    apply ext_adjacent
    · rw [horder, horder', grouped, List.length_map, List.length_range]
    · intro u v
      rw [hedges, hlists, mem_grouped hinside]
  exact hh

theorem eq_iff_of_ofEdges {edges' : List (Nat × Nat)} (hg : ofEdges n edges = .ok g)
    (hh : ofEdges n edges' = .ok h) : g = h ↔ ∀ e, e ∈ edges ↔ e ∈ edges' := by
  obtain ⟨horder, hedges⟩ := of_ofEdges hg
  obtain ⟨horder', hedges'⟩ := of_ofEdges hh
  refine ⟨?_, fun hsame => ?_⟩
  · rintro rfl ⟨u, v⟩
    rw [← hedges, ← hedges']
  · exact ext_adjacent (horder.trans horder'.symm) fun u v => by rw [hedges, hedges', hsame]

/-- On vertices that memory has room for, a list with an edge that leaves them is turned down, and the first such
edge of the list is named. Any other list makes a graph with exactly its edges, unless there is no memory for
the list. Neighbours that are listed vertex by vertex make the same graph, and so does another list of edges
exactly when it is the same set. -/
theorem ofEdges_canonical (hn : Word.reserve (n + 1) = .ok ()) (edges : List (Nat × Nat)) :
    ((∃ fault, ofEdges n edges = refuse (.graph fault)) ↔ ∃ e ∈ edges, ¬ Inside n e) ∧
    (∀ before u v after, edges = before ++ (u, v) :: after → (∀ e ∈ before, Inside n e) →
      ¬ Inside n (u, v) → ofEdges n edges = refuse (.graph (.edgeOutOfRange u v n))) ∧
    ((∀ e ∈ edges, Inside n e) →
      (∀ stop, Word.reserve edges.length = .error stop → ofEdges n edges = .error stop) ∧
      (Word.reserve edges.length = .ok () → ∃ g, ofEdges n edges = .ok g ∧ g.Represents n edges ∧
        ofNeighbors (grouped n edges) = .ok g ∧
        ∀ edges' g', ofEdges n edges' = .ok g' → (g = g' ↔ ∀ e, e ∈ edges ↔ e ∈ edges'))) := by
  refine ⟨refused_ofEdges_iff hn, ?_, fun hinside => ?_⟩
  · rintro before u v after rfl hbefore hout
    exact ofEdges_of_not_inside hn hbefore hout
  · obtain ⟨g, hg⟩ := exists_ofEdges hn hinside
    refine ⟨fun stop hstop => ?_, fun hroom => ?_⟩
    · rw [hg, hstop]
      rfl
    · rw [hroom] at hg
      have hgrouped := ofNeighbors_grouped hn hroom hinside hg
      obtain ⟨rfl, hedges⟩ := of_ofEdges hg
      exact ⟨g, hg, represents_of_adjacent hedges, hgrouped, fun _ _ => eq_iff_of_ofEdges hg⟩

/-- Three edges out of order, one of them twice, and a list whose second edge leaves the vertices. -/
theorem ofEdges_canonical_three :
    ofEdges 3 [(0, 1), (1, 3), (4, 0)] = refuse (.graph (.edgeOutOfRange 1 3 3)) ∧
      ∃ g, ofEdges 3 [(2, 1), (0, 1), (2, 0), (2, 1)] = .ok g ∧
        g.Represents 3 [(2, 1), (0, 1), (2, 0), (2, 1)] ∧ ofNeighbors [[1], [], [1, 0, 1]] = .ok g ∧
        ofEdges 3 [(0, 1), (2, 0), (2, 1)] = .ok g := by
  have hn : Word.reserve (3 + 1) = .ok () := by decide +kernel
  refine ⟨(ofEdges_canonical hn _).2.1 [(0, 1)] 1 3 [(4, 0)] rfl (by simp [Inside]) (by simp [Inside]), ?_⟩
  obtain ⟨g, hg, hrepresents, hgrouped, hsame⟩ :=
    ((ofEdges_canonical hn [(2, 1), (0, 1), (2, 0), (2, 1)]).2.2 (by simp [Inside])).2 (by decide +kernel)
  obtain ⟨g', hg', _⟩ :=
    ((ofEdges_canonical hn [(0, 1), (2, 0), (2, 1)]).2.2 (by simp [Inside])).2 (by decide +kernel)
  obtain rfl : g = g' := (hsame _ g' hg').mpr (by grind)
  exact ⟨g, hg, hrepresents, hgrouped, hg'⟩

end Motif.Graph
