import Mathlib.Data.Finset.Card
import Motif.Proofs.EdgeSets

/-!
# Symmetric closures

The symmetric closure of a graph lists every edge twice, once in each direction, and what is listed more often
than that is sorted out again: a loop is listed twice for the same vertex, and two edges between the same
vertices are listed four times. So the closure has an edge for each edge of the graph and one for its reverse,
but those that have their reverse in the graph count once (`edgeCount_of_symmetrize`). A symmetric graph is its
own closure (`symmetrize_of_symmetric`), and the closure of a graph is symmetric.

The lists hold twice as many vertices as the graph has edges. There may be no memory for them, and nothing else
keeps a graph from having a closure (`symmetrize_exact`).
-/

namespace Motif.Graph

variable {g sym : Graph} {lists : List (List Nat)}

/-- Every edge of the graph, followed by the one that leads back. -/
def bothWays (g : Graph) : List (Nat × Nat) := g.edges.flatMap fun (u, v) => [(u, v), (v, u)]

theorem length_bothWays (g : Graph) : g.bothWays.length = 2 * g.edgeCount := by
  rw [bothWays, List.length_flatMap, ← length_edges]
  simp [Nat.mul_comm]

theorem inside_of_mem_bothWays : ∀ e ∈ g.bothWays, Inside g.order e := by
  intro e he
  obtain ⟨edge, hedge, hmem⟩ := List.mem_flatMap.mp he
  obtain ⟨hsource, htarget⟩ := inside_of_mem_edges edge hedge
  rcases List.mem_pair.mp hmem with rfl | rfl
  · exact ⟨hsource, htarget⟩
  · exact ⟨htarget, hsource⟩

/-! ### Memory for a closure -/

/-- Lists of vertices are only turned down for want of memory. -/
theorem yields_ofNeighbors (hinside : ∀ l ∈ lists, ∀ v ∈ l, v < lists.length) :
    Yields (ofNeighbors lists) fun _ => True := by
  apply (Rows.yields_withRoom _ _).bind
  intro _ _
  split
  · rename_i hfault
    rw [firstStray_eq_none hinside] at hfault
    contradiction
  · exact yields_pure trivial

theorem yields_symmetrize (g : Graph) : Yields g.symmetrize fun _ => True := by
  apply yields_ofNeighbors
  intro l hl v hv
  rw [length_bySource]
  obtain ⟨u, rfl⟩ : ∃ u, l = (targetsOf g.bothWays u).reverse := by
    rw [bySource_eq] at hl
    obtain ⟨u, _, rfl⟩ := List.mem_map.mp hl
    exact ⟨u, rfl⟩
  exact (inside_of_mem_bothWays _ (mem_targetsOf.mp (List.mem_reverse.mp hv))).2

/-- Where there is memory for the vertices, that for the edges in both directions decides. -/
theorem exists_symmetrize (hn : Word.reserve (g.order + 1) = .ok ()) :
    ∃ sym : Graph, g.symmetrize = (fun _ => sym) <$> Word.reserve (2 * g.edgeCount) := by
  rw [← length_bothWays, symmetrize, bySource_eq]
  exact exists_ofNeighbors_of_perm hn inside_of_mem_bothWays fun u => List.reverse_perm _

theorem reserve_of_symmetrize (h : g.symmetrize = .ok sym) : Word.reserve (g.order + 1) = .ok () := by
  obtain ⟨_, hroom, _⟩ := bind_eq_ok.mp h
  rw [length_bySource] at hroom
  exact (Rows.reserve_of_withRoom hroom).1

/-! ### The edges of a closure -/

theorem hasEdge_of_symmetrize (h : g.symmetrize = .ok sym) {u : Nat} (hu : u < g.order) (v : Nat) :
    sym.hasEdge u v = .ok (decide (g.Edge u v ∨ g.Edge v u)) := by
  obtain ⟨horder, hedges⟩ := of_symmetrize h
  have hlinked : sym.linked u v = decide (g.Edge u v ∨ g.Edge v u) := by
    rw [Bool.eq_iff_iff, linked_eq_true_iff, hedges, decide_eq_true_iff]
    rfl
  rw [hasEdge_of_lt (horder.symm ▸ hu), hlinked]

/-- The edges of the closure are those of the graph and their reverses, and the edges that are both are those
whose reverse is in the graph. -/
theorem edgeCount_of_symmetrize (h : g.symmetrize = .ok sym) :
    sym.edgeCount + (g.edges.filter fun e => e.swap ∈ g.edges).length = 2 * g.edgeCount := by
  -- by inclusion and exclusion of the edges and their reverses, which are as many
  have hunion : sym.edgeCount = (g.edges.toFinset ∪ g.edges.toFinset.image Prod.swap).card := by
    have hlist : (g.edges ++ g.edges.map Prod.swap).toFinset =
        g.edges.toFinset ∪ g.edges.toFinset.image Prod.swap := by
      ext e
      simp
    rw [← hlist]
    apply edgeCount_eq_card
    intro u v
    rw [(of_symmetrize h).2, List.mem_append, ← mem_edges, ← mem_edges]
    simp
  have hinter : (g.edges.filter fun e => e.swap ∈ g.edges).length =
      (g.edges.toFinset ∩ g.edges.toFinset.image Prod.swap).card := by
    rw [← List.toFinset_card_of_nodup (g.nodup_edges.filter _)]
    congr 1
    ext ⟨u, v⟩
    simp
  have hcard : g.edges.toFinset.card = g.edgeCount := by
    rw [List.toFinset_card_of_nodup g.nodup_edges, length_edges]
  rw [hunion, hinter, Finset.card_union_add_card_inter,
    Finset.card_image_of_injective _ Prod.swap_injective, hcard, Nat.two_mul]

/-! ### Graphs that are closed -/

theorem eq_of_symmetrize (hg : g.Symmetric) (h : g.symmetrize = .ok sym) : sym = g := by
  obtain ⟨horder, hedges⟩ := of_symmetrize h
  refine ext_adjacent horder fun u v => ?_
  rw [hedges]
  exact or_iff_left_of_imp (hg v u)

/-- A symmetric graph is its own closure, as far as there is memory to find out. -/
theorem symmetrize_of_symmetric (hg : g.Symmetric) (hn : Word.reserve (g.order + 1) = .ok ()) :
    g.symmetrize = (fun _ => g) <$> Word.reserve (2 * g.edgeCount) := by
  obtain ⟨sym, hsym⟩ := exists_symmetrize hn
  cases hroom : Word.reserve (2 * g.edgeCount) with
  | error stop =>
    rw [hsym, hroom]
    rfl
  | ok _ =>
    rw [hroom] at hsym
    obtain rfl := eq_of_symmetrize hg hsym
    exact hsym

/-- The symmetric closure of a graph is refused only for want of memory, for the vertices or for twice the edges.
It has the same vertices, and between them the edges of the graph in both directions: twice as many, but one
less for each edge whose reverse is in the graph already. It is its own closure, and it is the graph itself
just when that is symmetric. -/
theorem symmetrize_exact (g : Graph) :
    (∀ stop, g.symmetrize = .error stop → stop.ForMemory) ∧
    (Word.reserve (g.order + 1) = .ok () → Word.reserve (2 * g.edgeCount) = .ok () →
      ∃ sym, g.symmetrize = .ok sym) ∧
    ∀ sym, g.symmetrize = .ok sym →
      sym.order = g.order ∧
      (∀ u < g.order, ∀ v, sym.hasEdge u v = .ok (decide (g.Edge u v ∨ g.Edge v u))) ∧
      sym.symmetrize = (fun _ => sym) <$> Word.reserve (2 * sym.edgeCount) ∧
      (sym = g ↔ g.Symmetric) ∧
      sym.edgeCount + (g.edges.filter fun e => e.swap ∈ g.edges).length = 2 * g.edgeCount := by
  refine ⟨fun stop => (yields_symmetrize g).forMemory, fun hn hroom => ?_, fun sym h => ?_⟩
  · obtain ⟨sym, hsym⟩ := exists_symmetrize hn
    exact ⟨sym, by rw [hsym, hroom]; rfl⟩
  · have hsymmetric : sym.Symmetric := symmetric_of_symmetrize h
    have horder : sym.order = g.order := (of_symmetrize h).1
    refine ⟨horder, fun u hu v => hasEdge_of_symmetrize h hu v, ?_, ⟨?_, fun hg => eq_of_symmetrize hg h⟩,
      edgeCount_of_symmetrize h⟩
    · exact symmetrize_of_symmetric hsymmetric (horder.symm ▸ reserve_of_symmetrize h)
    · rintro rfl
      exact hsymmetric

/-- A loop, an edge in both directions and an edge in one. -/
theorem symmetrize_exact_looped :
    let g := ofAscending [[0, 1], [0, 2], []] (by decide) (by decide)
    ∃ sym, g.symmetrize = .ok sym ∧ sym.hasEdge 2 1 = .ok true ∧ sym.edgeCount = 5 ∧
      sym.symmetrize = .ok sym ∧ sym ≠ g := by
  intro g
  obtain ⟨_, hexists, hclosure⟩ := symmetrize_exact g
  obtain ⟨sym, hsym⟩ := hexists (by decide +kernel) (by decide +kernel)
  obtain ⟨_, hedge, hagain, hequal, hcount⟩ := hclosure sym hsym
  have hmutual : (g.edges.filter fun e => e.swap ∈ g.edges).length = 3 := by decide +kernel
  have hedges : g.edgeCount = 4 := by decide +kernel
  rw [hmutual, hedges] at hcount
  have hfive : sym.edgeCount = 5 := by omega
  refine ⟨sym, hsym, ?_, hfive, ?_, fun heq => ?_⟩
  · rw [hedge 2 (by decide +kernel) 1]
    exact congrArg Except.ok (by decide +kernel)
  · rw [hagain, hfive]
    rfl
  · have hback : g.Edge 2 1 := hequal.mp heq 1 2 (by decide +kernel)
    exact absurd hback (by decide +kernel)

end Motif.Graph
