import Motif.Proofs.EdgeLists
import Motif.Proofs.Exact

/-!
# Two graphs side by side

Two graphs can be put into one, with the vertices of the second counted on from those of the first. A search
there finds what searches in the two graphs find, first the matches in the first graph and then those in the
second, shifted (`find_beside`).

This rests on the form of patterns. Every position but the first requires an earlier one, so a match stays
among vertices that no edge leads away from, once its first vertex is one of them
(`IsMatch.forall_of_closed`). Each of the two parts is such a set of vertices, and there the matches are those of
the part (`isMatch_map_iff`).
-/

namespace Motif

variable {g h both : Graph} {p : Pattern} {reuse : Reuse} {t : List Nat}

/-! ### Matches and where they can be -/

theorem Pattern.exists_mem_required {i : Nat} (hpos : 0 < i) (hi : i < p.size) :
    ∃ j, j ∈ p.required.getD i [] := by
  have hget : p.required[i]? = some p.required[i] := List.getElem?_eq_getElem hi
  rw [List.getD_eq_getElem _ _ hi]
  exact List.exists_mem_of_ne_nil _ ((p.admissible i _ hget).anchored hpos)

/-- A match does not leave a set of vertices that no edge leads away from. -/
theorem IsMatch.forall_of_closed (hm : IsMatch g p reuse t) (hlength : t.length ≤ p.size)
    {inside : Nat → Prop} (hclosed : ∀ u v, inside u → v ∈ g.adjacent u → inside v)
    (hfirst : inside (t.getD 0 0)) : ∀ v ∈ t, inside v := by
  have hentries : ∀ i < t.length, inside (t.getD i 0) := by
    intro i
    -- on the position: it requires an earlier one, and an edge from that one leads to it
    induction i using Nat.strongRecOn with
    | ind i ih =>
      intro hi
      rcases Nat.eq_zero_or_pos i with rfl | hpos
      · exact hfirst
      · obtain ⟨j, hj⟩ := Pattern.exists_mem_required hpos (Nat.lt_of_lt_of_le hi hlength)
        have hji : j < i := Pattern.earlier_of_mem hj
        have hedge := Graph.hasEdge_eq_ok_true_iff.mp (hm.edges i hi j hj)
        exact hclosed _ _ (ih j hji (Nat.lt_trans hji hi)) hedge
  intro v hv
  obtain ⟨i, hi, rfl⟩ := List.mem_iff_getElem.mp hv
  have hentry := hentries i hi
  rwa [List.getD_eq_getElem _ _ hi] at hentry

/-- Vertices that are moved to another graph with the edges between them match the same patterns there. -/
theorem isMatch_map_iff {f : Nat → Nat} (hf : Function.Injective f)
    (hvertices : ∀ v ∈ t, f v < h.order ↔ v < g.order)
    (hedges : ∀ u ∈ t, ∀ v ∈ t, f v ∈ h.adjacent (f u) ↔ v ∈ g.adjacent u) :
    IsMatch h p reuse (t.map f) ↔ IsMatch g p reuse t := by
  have hedge : ∀ i < t.length, ∀ j ∈ p.required.getD i [],
      (h.hasEdge ((t.map f).getD j 0) ((t.map f).getD i 0) = .ok true ↔
        g.hasEdge (t.getD j 0) (t.getD i 0) = .ok true) := by
    intro i hi j hj
    have hj' : j < t.length := Nat.lt_trans (Pattern.earlier_of_mem hj) hi
    have hmap : i < (t.map f).length := by rwa [List.length_map]
    have hmap' : j < (t.map f).length := by rwa [List.length_map]
    rw [Graph.hasEdge_eq_ok_true_iff, Graph.hasEdge_eq_ok_true_iff, List.getD_eq_getElem _ _ hi,
      List.getD_eq_getElem _ _ hj', List.getD_eq_getElem _ _ hmap, List.getD_eq_getElem _ _ hmap',
      List.getElem_map, List.getElem_map]
    exact hedges _ (List.getElem_mem hj') _ (List.getElem_mem hi)
  refine ⟨fun hm => ⟨fun v hv => ?_, fun i hi j hj => ?_, fun hreuse => ?_⟩,
    fun hm => ⟨fun v hv => ?_, fun i hi j hj => ?_, fun hreuse => ?_⟩⟩
  · exact (hvertices v hv).mp (hm.vertices _ (List.mem_map_of_mem hv))
  · exact (hedge i hi j hj).mp (hm.edges i (by rwa [List.length_map]) j hj)
  · exact (hm.distinct hreuse).of_map
  · obtain ⟨u, hu, rfl⟩ := List.mem_map.mp hv
    exact (hvertices u hu).mpr (hm.vertices u hu)
  · rw [List.length_map] at hi
    exact (hedge i hi j hj).mpr (hm.edges i hi j hj)
  · exact (hm.distinct hreuse).map hf

/-! ### Both graphs in one -/

/-- The edges of `g`, and those of `h` between vertices counted on from the vertices of `g`. -/
def Graph.edgesBeside (g h : Graph) : List (Nat × Nat) :=
  g.edges ++ h.edges.map fun (u, v) => (u + g.order, v + g.order)

/-- The graph `both` has the vertices and edges of `g`, and behind them those of `h`. -/
structure Graph.Beside (g h both : Graph) : Prop where
  order : both.order = g.order + h.order
  mem_adjacent : ∀ u v, v ∈ both.adjacent u ↔ (u, v) ∈ g.edgesBeside h

namespace Graph.Beside

variable {u v : Nat}

theorem mem_adjacent_left (hb : Beside g h both) (hu : u < g.order) :
    v ∈ both.adjacent u ↔ v ∈ g.adjacent u := by
  rw [hb.mem_adjacent, edgesBeside, List.mem_append, mem_edges, or_iff_left_iff_imp]
  intro hmem
  obtain ⟨edge, _, heq⟩ := List.mem_map.mp hmem
  cases heq
  exact absurd hu (Nat.not_lt.mpr (Nat.le_add_left _ _))

theorem mem_adjacent_right (hb : Beside g h both) :
    v ∈ both.adjacent (u + g.order) ↔ ∃ w ∈ h.adjacent u, v = w + g.order := by
  rw [hb.mem_adjacent, edgesBeside, List.mem_append, mem_edges,
    adjacent_of_order_le (Nat.le_add_left _ _), List.mem_map]
  refine ⟨?_, ?_⟩
  · intro hmem
    rcases hmem with hmem | ⟨⟨source, target⟩, hmem, heq⟩
    · contradiction
    · obtain ⟨hsource, rfl⟩ := Prod.mk.inj heq
      obtain rfl := Nat.add_right_cancel hsource
      exact ⟨target, mem_edges.mp hmem, rfl⟩
  · rintro ⟨w, hw, rfl⟩
    exact .inr ⟨(u, w), mem_edges.mpr hw, rfl⟩

theorem isMatch_left (hb : Beside g h both) (hinside : ∀ v ∈ t, v < g.order) :
    IsMatch both p reuse t ↔ IsMatch g p reuse t := by
  have hvertices : ∀ v ∈ t, v < both.order ↔ v < g.order := by
    intro v hv
    rw [hb.order]
    exact ⟨fun _ => hinside v hv, fun hlt => Nat.lt_add_right _ hlt⟩
  have hmap := @isMatch_map_iff g both p reuse t id Function.injective_id hvertices
    (fun u hu v _ => hb.mem_adjacent_left (hinside u hu))
  rwa [List.map_id] at hmap

theorem isMatch_right (hb : Beside g h both) :
    IsMatch both p reuse (t.map (· + g.order)) ↔ IsMatch h p reuse t := by
  apply isMatch_map_iff (fun _ _ heq => Nat.add_right_cancel heq)
  · intro v _
    show v + g.order < both.order ↔ v < h.order
    rw [hb.order]
    omega
  · intro u _ v _
    show v + g.order ∈ both.adjacent (u + g.order) ↔ v ∈ h.adjacent u
    rw [hb.mem_adjacent_right]
    refine ⟨?_, fun hv => ⟨v, hv, rfl⟩⟩
    rintro ⟨w, hw, heq⟩
    rwa [Nat.add_right_cancel heq]

/-- A match is in the first part or in the second. -/
theorem of_isMatch (hb : Beside g h both) (hlength : t.length = p.size)
    (hm : IsMatch both p reuse t) :
    (∀ v ∈ t, v < g.order) ∨ ∃ s : List Nat, t = s.map (· + g.order) := by
  rcases Nat.lt_or_ge (t.getD 0 0) g.order with hfirst | hfirst
  · refine .inl (hm.forall_of_closed (Nat.le_of_eq hlength) (fun u v hu hv => ?_) hfirst)
    exact lt_order_of_mem_adjacent ((hb.mem_adjacent_left hu).mp hv)
  · refine .inr ⟨t.map (· - g.order), ?_⟩
    have hinside : ∀ v ∈ t, g.order ≤ v := by
      refine hm.forall_of_closed (Nat.le_of_eq hlength) (fun u v hu hv => ?_) hfirst
      obtain ⟨u, rfl⟩ := Nat.exists_eq_add_of_le' hu
      obtain ⟨w, _, rfl⟩ := hb.mem_adjacent_right.mp hv
      exact Nat.le_add_left _ _
    have hback : ∀ v ∈ t, v - g.order + g.order = v := fun v hv => Nat.sub_add_cancel (hinside v hv)
    rw [List.map_map]
    exact ((List.map_congr_left hback).trans (List.map_id t)).symm

theorem allMatches_eq (hb : Beside g h both) (p : Pattern) (reuse : Reuse) :
    allMatches both p reuse =
      allMatches g p reuse ++ (allMatches h p reuse).map fun t => t.map (· + g.order) := by
  apply Sorted.eq_of_mem_iff (allMatches_ascending both p reuse)
  · rw [List.pairwise_append, List.pairwise_map]
    refine ⟨allMatches_ascending g p reuse, ?_, ?_⟩
    · apply (allMatches_ascending h p reuse).imp
      exact fun hlt => List.map_lt (fun _ _ hxy => Nat.add_lt_add_right hxy _) hlt
    · intro a ha b hb
      obtain ⟨c, hc, rfl⟩ := List.mem_map.mp hb
      obtain ⟨ha, hmatch⟩ := mem_allMatches.mp ha
      obtain ⟨u, a, rfl⟩ := List.exists_cons_of_length_pos (ha ▸ p.size_pos)
      obtain ⟨v, c, rfl⟩ := List.exists_cons_of_length_pos ((mem_allMatches.mp hc).1 ▸ p.size_pos)
      have hu : u < g.order := hmatch.vertices u List.mem_cons_self
      exact List.cons_lt_cons_iff.mpr (.inl (Nat.lt_of_lt_of_le hu (Nat.le_add_left _ _)))
  · intro m
    rw [List.mem_append, List.mem_map]
    refine ⟨fun hm => ?_, fun hm => ?_⟩
    · obtain ⟨hlength, hmatch⟩ := mem_allMatches.mp hm
      rcases hb.of_isMatch hlength hmatch with hinside | ⟨s, rfl⟩
      · exact .inl (mem_allMatches.mpr ⟨hlength, (hb.isMatch_left hinside).mp hmatch⟩)
      · rw [List.length_map] at hlength
        exact .inr ⟨s, mem_allMatches.mpr ⟨hlength, hb.isMatch_right.mp hmatch⟩, rfl⟩
    · rcases hm with hm | ⟨s, hs, rfl⟩
      · obtain ⟨hlength, hmatch⟩ := mem_allMatches.mp hm
        exact mem_allMatches.mpr ⟨hlength, (hb.isMatch_left hmatch.vertices).mpr hmatch⟩
      · obtain ⟨hlength, hmatch⟩ := mem_allMatches.mp hs
        exact mem_allMatches.mpr ⟨by rwa [List.length_map], hb.isMatch_right.mpr hmatch⟩

end Graph.Beside

namespace Search

/-- A search in both graphs finds what it finds in the first, and then what it finds in the second, with
vertices counted on from those of the first. -/
theorem find_beside (s : Search) {edges : List (Nat × Nat)}
    (hedges : ∀ u v, (u, v) ∈ edges ↔ (u, v) ∈ g.edgesBeside h)
    (hboth : Graph.ofEdges (g.order + h.order) edges = .ok both) (hnarrow : p.Narrow)
    {m left right : Matches} (hm : s.find both p = .ok m) (hleft : s.find g p = .ok left)
    (hright : s.find h p = .ok right) :
    m.toList = left.toList ++ right.toList.map fun t => t.map (· + g.order) := by
  obtain ⟨horder, hadjacent⟩ := Graph.of_ofEdges hboth
  have hbeside : Graph.Beside g h both := ⟨horder, fun u v => (hadjacent u v).trans (hedges u v)⟩
  rw [toList_find hnarrow hm, toList_find hnarrow hleft, toList_find hnarrow hright,
    hbeside.allMatches_eq]

/-- Three vertices, each with an edge to every later one. -/
def corner : Graph := Graph.ofAscending [[1, 2], [2], []] (by decide) (by decide)

theorem find_beside_ladder : ∃ both m,
    Graph.ofEdges 7 (ladder.edgesBeside corner).reverse = .ok both ∧
      (ofSettings ⟨2, .forbidden, .tally⟩ 1).find both triangle = .ok m ∧
      m.toList = [[0, 1, 3], [0, 2, 3], [4, 5, 6]] := by
  have hfound : (Graph.ofEdges 7 (ladder.edgesBeside corner).reverse >>= fun both =>
      (ofSettings ⟨2, .forbidden, .tally⟩ 1).find both triangle).isOk = true := by
    decide +kernel
  obtain ⟨m, hm⟩ := exists_of_isOk hfound
  obtain ⟨both, hboth, hm⟩ := bind_eq_ok.mp hm
  have hladder : ((ofSettings ⟨2, .forbidden, .tally⟩ 1).find ladder triangle).map Matches.toList =
      .ok [[0, 1, 3], [0, 2, 3]] := by
    decide +kernel
  have hcorner : ((ofSettings ⟨2, .forbidden, .tally⟩ 1).find corner triangle).map Matches.toList =
      .ok [[0, 1, 2]] := by
    decide +kernel
  obtain ⟨left, hleft, hleft'⟩ := exists_of_map_eq_ok hladder
  obtain ⟨right, hright, hright'⟩ := exists_of_map_eq_ok hcorner
  have hedges : ∀ u v, (u, v) ∈ (ladder.edgesBeside corner).reverse ↔
      (u, v) ∈ ladder.edgesBeside corner := fun u v => List.mem_reverse
  have hlist := find_beside _ hedges hboth (by decide) hm hleft hright
  rw [hleft', hright'] at hlist
  exact ⟨both, m, hboth, hm, hlist⟩

end Search

end Motif
