import Mathlib.LinearAlgebra.Matrix.Notation
import Motif.Proofs.Exact
import Motif.Proofs.Shapes

/-!
# Paths and powers of a matrix

A match of a path is a walk through the graph, from each vertex along an edge to the next, and may come back to
where it was when vertices may be reused. The number of such walks from one vertex to another is an entry of a
power of the adjacency matrix (`countP_isChain`), so the number of matches is the sum of all its entries
(`count_paths`).
-/

namespace Motif

open Matrix

/-- The adjacency matrix: one where there is an edge, and zero elsewhere. -/
def Graph.matrix (g : Graph) : Matrix (Fin g.order) (Fin g.order) Nat :=
  Matrix.of fun u v => if g.hasEdge u v = .ok true then 1 else 0

variable {g : Graph} {p : Pattern} {k : Nat}

theorem Graph.matrix_apply (u v : Fin g.order) : g.matrix u v = if g.Edge u v then 1 else 0 := by
  rw [matrix, Matrix.of_apply]
  simp only [hasEdge_eq_ok_true_iff]
  rfl

/-- The walks of `k` edges that start at `u` and end where `ends` says. -/
theorem countP_isChain (ends : Nat → Prop) [DecidablePred ends] (k : Nat) (u : Fin g.order) :
    (tuples g.order k).countP (fun t => (u.val :: t).IsChain g.Edge ∧ ends (t.getLastD u)) =
      (g.matrix ^ k *ᵥ fun v => if ends v then 1 else 0) u := by
  induction k generalizing u with
  | zero =>
    rw [tuples, List.countP_singleton, pow_zero, one_mulVec]
    simp
  | succ k ih =>
    rw [countP_tuples_succ, Finset.sum_range, pow_succ', ← mulVec_mulVec, mulVec, dotProduct]
    refine Finset.sum_congr rfl fun v _ => ?_
    rw [g.matrix_apply, ← ih]
    -- the walk goes on from `v` if there is an edge to it, and there is no such walk otherwise
    simp only [List.isChain_cons_cons, List.getLastD_cons]
    by_cases hedge : g.Edge u v
    · simp only [hedge, true_and, if_true, one_mul]
    · simp [hedge]

theorem Shape.path.length_allMatches (hp : Shape.path.pattern (k + 1) = .ok p) :
    (allMatches g p .allowed).length = ∑ u, ∑ v, (g.matrix ^ k) u v := by
  rw [length_allMatches_of_allowed (size_of_pattern hp) fun u t hlength => isMatch_path_iff hp hlength,
    Finset.sum_range]
  refine Finset.sum_congr rfl fun u _ => ?_
  have hwalks := countP_isChain (fun _ => True) k u
  simpa [mulVec, dotProduct] using hwalks

namespace Search

/-- The number of matches of a path is that of the walks with as many vertices. -/
theorem count_paths (s : Search) (g : Graph) {k : Nat} {p : Pattern} (hp : Shape.path.pattern k = .ok p)
    (hreuse : s.settings.reuse = .allowed) {c : Tally} (h : s.count g p = .ok c) :
    c.count = ∑ u, ∑ v, (g.matrix ^ (k - 1)) u v := by
  obtain ⟨k, rfl⟩ := Nat.exists_eq_add_one.mpr (Shape.pos_of_pattern hp)
  have hnarrow : p.Narrow := Shape.narrow_of_pattern hp (by simp)
  rw [count_count hnarrow h, hreuse, Shape.path.length_allMatches hp, Nat.add_sub_cancel]

/-- Four vertices: a self-loop that leads into a cycle, which leads to a dead end. -/
def lasso : Graph := Graph.ofAscending [[0, 1], [2, 3], [0], []] (by decide) (by decide)

theorem count_paths_lasso : ∃ p c, Shape.path.pattern 4 = .ok p ∧
    (ofSettings ⟨2, .allowed, .intersect⟩ 1).count lasso p = .ok c ∧ c.count = 11 ∧
      c.count = ∑ u, ∑ v, (lasso.matrix ^ 3) u v := by
  have hcounted : (Shape.path.pattern 4 >>= fun p =>
      (ofSettings ⟨2, .allowed, .intersect⟩ 1).count lasso p).map Tally.count = .ok 11 := by
    decide +kernel
  obtain ⟨c, hc, hcount⟩ := exists_of_map_eq_ok hcounted
  obtain ⟨p, hp, hc⟩ := bind_eq_ok.mp hc
  exact ⟨p, c, hp, hc, hcount, count_paths _ lasso hp rfl hc⟩

end Search

end Motif
