import Motif.Proofs.EdgeSets
import Motif.Proofs.Encoding

/-!
# Graphs from their two arrays

The check of two arrays looks at the end of each row only, for a row that ascends ends with its largest
target. It still accepts exactly the arrays that a graph consists of, and gives back that graph
(`ofParts_eq_ok_iff`); where there is memory for the arrays, these are the graphs that lists of edges make
(`ofParts_exact`).
-/

namespace Motif.Graph

variable {g : Graph} {offsets targets : Array Nat}

/-- The rows of a graph pass the check. -/
theorem firstFault_rows (g : Graph) : firstFault g.rows = none := by
  rw [firstFault, List.findSome?_eq_none_iff]
  intro u _
  rw [Sorted.firstStall_eq_none.mpr (g.ascending u)]
  cases hlast : (g.rows.row u).getLast? with
  | none => rfl
  | some v => exact if_pos (g.bounded u v (List.mem_of_getLast? hlast))

theorem ofParts_eq_ok_iff : ofParts offsets targets = .ok g ↔ g.rows = ⟨offsets, targets⟩ := by
  rw [ofParts]
  split
  · rename_i cause hparts
    refine ⟨fun h => by contradiction, fun hrows => ?_⟩
    rw [Rows.ofParts_eq_ok_iff.mpr ⟨hrows, g.wf⟩] at hparts
    contradiction
  · rename_i rows hparts
    obtain ⟨hrows, _⟩ := Rows.ofParts_eq_ok_iff.mp hparts
    split
    · rename_i fault hfault
      refine ⟨fun h => by contradiction, fun hg => ?_⟩
      rw [hrows, ← hg, firstFault_rows] at hfault
      contradiction
    · refine ⟨fun h => ?_, fun hg => ?_⟩
      · obtain rfl := Except.ok.inj h
        exact hrows
      · exact congrArg Except.ok (ext_rows (hrows.trans hg.symm))

theorem ofParts_rows (g : Graph) : ofParts g.rows.offsets g.rows.values = .ok g := ofParts_eq_ok_iff.mpr rfl

/-- Whatever is wrong with two arrays, they are turned down as a graph. -/
theorem refused_of_ofParts {stop : Stop} (h : ofParts offsets targets = .error stop) :
    ∃ fault, stop = .refused (.graph fault) := by
  rw [ofParts] at h
  split at h
  · exact ⟨_, (Except.error.inj h).symm⟩
  · split at h
    · exact ⟨_, (Except.error.inj h).symm⟩
    · contradiction

/-- Every target is a vertex, wherever it stands in its row. -/
theorem lt_order_of_mem_values (g : Graph) : ∀ v ∈ g.rows.values, v < g.order := by
  intro v hv
  rw [← Array.mem_toList_iff, ← map_snd_edges] at hv
  obtain ⟨⟨u, v⟩, hedge, rfl⟩ := List.mem_map.mp hv
  exact lt_order_of_mem_adjacent (mem_edges.mp hedge)

/-- In memory there are only graphs that lists of edges make. -/
theorem exists_ofEdges_of_reserve (hoffsets : Word.reserve g.rows.offsets.size = .ok ())
    (hvalues : Word.reserve g.rows.values.size = .ok ()) : ∃ n edges, ofEdges n edges = .ok g :=
  ⟨g.order, g.edges, ofEdges_edges (g.wf.offsets_size ▸ hoffsets) hvalues⟩

/-- A graph is taken back from its own arrays, and whatever is wrong with two arrays, they are turned down as a
graph. Arrays that are taken hold only vertices, ascending in each row. If they are in memory, they are the
arrays of the graph that some list of edges makes, and this is the graph they are taken for. -/
theorem ofParts_exact :
    (∀ g : Graph, ofParts g.rows.offsets g.rows.values = .ok g) ∧
    ∀ offsets targets : Array Nat,
      (∀ stop, ofParts offsets targets = .error stop → ∃ fault, stop = .refused (.graph fault)) ∧
      (∀ g, ofParts offsets targets = .ok g → g.rows = ⟨offsets, targets⟩ ∧ (∀ v ∈ targets, v < g.order) ∧
        ∀ row ∈ Rows.slices ⟨offsets, targets⟩, row.Pairwise (· < ·)) ∧
      (Word.reserve offsets.size = .ok () → Word.reserve targets.size = .ok () → ∀ g,
        ofParts offsets targets = .ok g ↔
          (∃ n edges, ofEdges n edges = .ok g) ∧ g.rows.offsets = offsets ∧ g.rows.values = targets) := by
  refine ⟨ofParts_rows, fun offsets targets => ⟨fun stop => refused_of_ofParts, fun g hg => ?_, ?_⟩⟩
  · have hrows := ofParts_eq_ok_iff.mp hg
    refine ⟨hrows, ?_, ?_⟩
    · have hvalues := g.lt_order_of_mem_values
      rwa [hrows] at hvalues
    · rw [← hrows, Rows.slices_eq_toLists]
      intro row hrow
      obtain ⟨u, _, rfl⟩ := List.mem_map.mp hrow
      exact g.ascending u
  · intro hoffsets htargets g
    refine ⟨fun hg => ?_, ?_⟩
    · have hrows := ofParts_eq_ok_iff.mp hg
      refine ⟨exists_ofEdges_of_reserve ?_ ?_, congrArg Rows.offsets hrows, congrArg Rows.values hrows⟩
      · rwa [hrows]
      · rwa [hrows]
    · rintro ⟨_, rfl, rfl⟩
      exact ofParts_rows g

/-- A row without targets between two others, and a row whose last target alone is a vertex. -/
theorem ofParts_exact_three :
    (∃ g, ofParts #[0, 1, 1, 3] #[1, 0, 1] = .ok g ∧ (∃ n edges, ofEdges n edges = .ok g) ∧
      ∀ row ∈ Rows.slices (⟨#[0, 1, 1, 3], #[1, 0, 1]⟩ : Rows Nat), row.Pairwise (· < ·)) ∧
    ∀ g, ofParts #[0, 2] #[7, 0] ≠ .ok g := by
  refine ⟨?_, fun g hg => ?_⟩
  · obtain ⟨g, hg⟩ := exists_of_isOk (r := ofParts #[0, 1, 1, 3] #[1, 0, 1]) (by decide +kernel)
    obtain ⟨_, haccepted, hexact⟩ := ofParts_exact.2 #[0, 1, 1, 3] #[1, 0, 1]
    exact ⟨g, hg, ((hexact (by decide +kernel) (by decide +kernel) g).mp hg).1, (haccepted g hg).2.2⟩
  · have hvertices := ((ofParts_exact.2 #[0, 2] #[7, 0]).2.1 g hg).2.2
    have hrow := hvertices [7, 0] (by decide +kernel)
    simp at hrow

end Motif.Graph
