import Motif.Graph.Basic
import Motif.Proofs.Ascending

/-!
# Edges and neighbours

A look-up by halving (`Graph.linked`) and the list of neighbours (`Graph.adjacent`) say the same about
every pair of vertices, and what is no vertex has no neighbours.
-/

namespace Motif

theorem Rows.getElem?_row {α : Type} (r : Rows α) (i k : Nat) :
    (r.row i)[k]? = if k < r.start (i + 1) - r.start i then r.values[r.start i + k]? else none := by
  rw [row_eq, List.getElem?_take]
  split
  · rw [List.getElem?_drop, Array.getElem?_toList]
  · rfl

namespace Graph

/-- The graph has an edge from `u` to `v`. -/
def Edge (g : Graph) (u v : Nat) : Prop := v ∈ g.adjacent u

instance (g : Graph) : DecidableRel g.Edge :=
  fun u v => inferInstanceAs (Decidable (v ∈ g.adjacent u))

variable {g : Graph} {u v : Nat}

theorem lt_order_of_mem_adjacent (h : v ∈ g.adjacent u) : v < g.order := g.bounded u v h

theorem adjacent_of_order_le (h : g.order ≤ u) : g.adjacent u = [] := Rows.row_of_count_le h

theorem adjacent_ascending (g : Graph) (u : Nat) : (g.adjacent u).Pairwise (· < ·) := g.ascending u

theorem source_lt_order_of_mem_adjacent (h : v ∈ g.adjacent u) : u < g.order := by
  by_contra hle
  rw [adjacent_of_order_le (Nat.not_lt.mp hle)] at h
  contradiction

theorem length_adjacent (hu : u < g.order) : (g.adjacent u).length = g.outDegree u :=
  g.wf.length_row hu

/-- The values between the two ends of a row are the entries of the row. -/
theorem getD_values {k : Nat} (hk : k < (g.adjacent u).length) :
    g.rows.values.getD (g.rows.start u + k) 0 = (g.adjacent u)[k] := by
  have hu : u < g.order := source_lt_order_of_mem_adjacent (List.getElem_mem hk)
  have hlt := hk
  rw [length_adjacent hu, outDegree] at hlt
  have hrow := Rows.getElem?_row g.rows u k
  rw [if_pos hlt] at hrow
  rw [Array.getD_eq_getD_getElem?, ← hrow]
  exact congrArg (Option.getD · 0) (List.getElem?_eq_getElem hk)

theorem ascendsIn_row (hu : u < g.order) :
    Sorted.AscendsIn g.rows.values (g.rows.start u) (g.rows.start (u + 1)) := by
  intro i j hi hij hj
  obtain ⟨a, rfl⟩ := Nat.le.dest hi
  obtain ⟨b, rfl⟩ := Nat.le.dest (Nat.le_trans hi hij)
  have hb : b < (g.adjacent u).length := by
    rw [length_adjacent hu, outDegree]
    omega
  have ha : a < (g.adjacent u).length := by omega
  rw [getD_values ha, getD_values hb]
  rcases Nat.lt_or_eq_of_le (show a ≤ b by omega) with hab | rfl
  · exact Nat.le_of_lt (List.pairwise_iff_getElem.mp (g.adjacent_ascending u) a b ha hb hab)
  · exact Nat.le_refl _

theorem linked_eq_true_iff : g.linked u v = true ↔ v ∈ g.adjacent u := by
  rcases Nat.lt_or_ge u g.order with hu | hu
  · rw [linked, Sorted.search_eq_true_iff (ascendsIn_row hu), List.mem_iff_getElem]
    refine ⟨?_, ?_⟩
    · intro h'
      obtain ⟨i, hi, hlt, hv⟩ := h'
      obtain ⟨k, rfl⟩ := Nat.le.dest hi
      have hk : k < (g.adjacent u).length := by
        rw [length_adjacent hu, outDegree]
        omega
      exact ⟨k, hk, (getD_values hk).symm.trans hv⟩
    · intro h'
      obtain ⟨k, hk, hv⟩ := h'
      have hlt := hk
      rw [length_adjacent hu, outDegree] at hlt
      exact ⟨g.rows.start u + k, by omega, by omega, (getD_values hk).trans hv⟩
  · have hend : g.rows.start (u + 1) = 0 := by
      have : g.rows.offsets.size ≤ u + 1 := by
        rw [order, Rows.count] at hu
        omega
      simp [Rows.start, Array.getD_eq_getD_getElem?, this]
    rw [linked, hend, Sorted.search, if_neg (Nat.not_lt_zero _), adjacent_of_order_le hu]
    simp

theorem neighbors_of_lt (hu : u < g.order) : g.neighbors u = .ok (g.adjacent u) := by
  rw [neighbors, vertex, if_pos hu]
  rfl

theorem hasEdge_of_lt (hu : u < g.order) : g.hasEdge u v = .ok (g.linked u v) := by
  rw [hasEdge, vertex, if_pos hu]
  rfl

theorem hasEdge_eq_ok_true_iff : g.hasEdge u v = .ok true ↔ v ∈ g.adjacent u := by
  rw [← linked_eq_true_iff]
  by_cases hu : u < g.order
  · rw [hasEdge_of_lt hu]
    exact ⟨Except.ok.inj, fun h => congrArg Except.ok h⟩
  · rw [hasEdge, vertex, if_neg hu]
    refine ⟨?_, ?_⟩
    · intro h
      contradiction
    · intro h
      exact absurd (source_lt_order_of_mem_adjacent (linked_eq_true_iff.mp h)) hu

end Graph

end Motif
