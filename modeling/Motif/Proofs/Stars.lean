import Mathlib.Algebra.BigOperators.Ring.Finset
import Mathlib.Data.Nat.Factorial.Basic
import Motif.Proofs.Exact
import Motif.Proofs.Shapes

/-!
# Stars

A match of a star is a hub and a neighbour of it for each other position. Where vertices may be reused, each
position has as many choices as the hub has neighbours. Where they may not, the hub itself is no choice, and
each position has one choice less than the one before it. So stars are counted by powers of degrees or by
falling factorials (`count_stars`), and both come from counting tuples over a set of vertices
(`countP_tuples_of_mem`, `countP_tuples_of_nodup`).
-/

namespace Motif

/-! ### Tuples over a set of vertices -/

section

variable {n : Nat} {inside : Finset Nat}

/-- Tuples that have to begin inside a set are counted by their first vertex there. -/
theorem countP_tuples_succ_of_mem (hinside : inside ⊆ Finset.range n) (k : Nat) {keep : List Nat → Bool}
    (hkeep : ∀ v t, keep (v :: t) = true → v ∈ inside) : (tuples n (k + 1)).countP keep =
      ∑ v ∈ inside, (tuples n k).countP fun t => keep (v :: t) := by
  rw [countP_tuples_succ]
  refine (Finset.sum_subset hinside fun v _ hv => ?_).symm
  rw [List.countP_eq_zero]
  exact fun t _ ht => hv (hkeep v t ht)

theorem countP_tuples_of_mem (hinside : inside ⊆ Finset.range n) (k : Nat) :
    (tuples n k).countP (fun t => ∀ v ∈ t, v ∈ inside) = inside.card ^ k := by
  induction k with
  | zero => simp [tuples]
  | succ k ih =>
    have hrest : ∀ v ∈ inside,
        (tuples n k).countP (fun t => ∀ u ∈ v :: t, u ∈ inside) = inside.card ^ k := by
      intro v hv
      simp only [← ih, List.forall_mem_cons, hv, true_and]
    rw [countP_tuples_succ_of_mem hinside k, Finset.sum_const_nat hrest, pow_succ']
    exact fun v t ht => of_decide_eq_true ht v List.mem_cons_self

/-- After `v`, a tuple without repetition is inside what is left of the set. -/
theorem forall_mem_nodup_cons_iff {v : Nat} {t : List Nat} (hv : v ∈ inside) :
    (∀ u ∈ v :: t, u ∈ inside) ∧ (v :: t).Nodup ↔ (∀ u ∈ t, u ∈ inside.erase v) ∧ t.Nodup := by
  rw [List.forall_mem_cons, List.nodup_cons]
  refine ⟨?_, ?_⟩
  · rintro ⟨⟨_, hrest⟩, hfresh, hnodup⟩
    exact ⟨fun u hu => Finset.mem_erase.mpr ⟨fun heq => hfresh (heq ▸ hu), hrest u hu⟩, hnodup⟩
  · rintro ⟨hrest, hnodup⟩
    refine ⟨⟨hv, fun u hu => Finset.mem_of_mem_erase (hrest u hu)⟩, fun hmem => ?_, hnodup⟩
    exact Finset.notMem_erase v inside (hrest v hmem)

theorem countP_tuples_of_nodup (hinside : inside ⊆ Finset.range n) (k : Nat) :
    (tuples n k).countP (fun t => (∀ v ∈ t, v ∈ inside) ∧ t.Nodup) = inside.card.descFactorial k := by
  induction k generalizing inside with
  | zero => simp [tuples]
  | succ k ih =>
    have hrest : ∀ v ∈ inside,
        (tuples n k).countP (fun t => (∀ u ∈ v :: t, u ∈ inside) ∧ (v :: t).Nodup) =
          (inside.card - 1).descFactorial k := by
      intro v hv
      rw [← Finset.card_erase_of_mem hv, ← ih ((Finset.erase_subset v inside).trans hinside)]
      refine List.countP_congr fun t _ => ?_
      rw [decide_eq_true_iff, decide_eq_true_iff, forall_mem_nodup_cons_iff hv]
    rw [countP_tuples_succ_of_mem hinside k, Finset.sum_const_nat hrest]
    · cases inside.card with
      | zero => rw [Nat.zero_mul, Nat.zero_descFactorial_succ]
      | succ m => rw [Nat.add_sub_cancel, Nat.succ_descFactorial_succ]
    · exact fun v t ht => (of_decide_eq_true ht).1 v List.mem_cons_self

end

/-! ### Matches of a star -/

/-- The vertices other than `v` that `v` has an edge to. -/
def Graph.others (g : Graph) (v : Nat) : List Nat := (g.adjacent v).filter (· ≠ v)

variable {g : Graph} {p : Pattern} {k v : Nat}

/-- Neighbours without repetition are as many vertices of the graph. -/
theorem Graph.toFinset_of_sublist {l : List Nat} (h : l.Sublist (g.adjacent v)) :
    l.toFinset ⊆ Finset.range g.order ∧ l.toFinset.card = l.length := by
  refine ⟨fun u hu => ?_, ?_⟩
  · exact Finset.mem_range.mpr (lt_order_of_mem_adjacent (h.subset (List.mem_toFinset.mp hu)))
  · exact List.toFinset_card_of_nodup (((g.adjacent_ascending v).imp Nat.ne_of_lt).sublist h)

namespace Shape.star

theorem length_allMatches_allowed (hp : star.pattern (k + 1) = .ok p) :
    (allMatches g p .allowed).length = ∑ v ∈ Finset.range g.order, g.outDegree v ^ k := by
  rw [length_allMatches_of_allowed (size_of_pattern hp) fun v t hlength => isMatch_star_iff hp hlength]
  refine Finset.sum_congr rfl fun v hv => ?_
  obtain ⟨hinside, hcard⟩ := g.toFinset_of_sublist (List.Sublist.refl (g.adjacent v))
  rw [← Graph.length_adjacent (Finset.mem_range.mp hv), ← hcard, ← countP_tuples_of_mem hinside]
  simp only [List.mem_toFinset]
  rfl

theorem length_allMatches_forbidden (hp : star.pattern (k + 1) = .ok p) :
    (allMatches g p .forbidden).length =
      ∑ v ∈ Finset.range g.order, (g.others v).length.descFactorial k := by
  have hrays : ∀ v t, (v :: t).length = k + 1 → (∀ u ∈ v :: t, u < g.order) →
      (IsMatch g p .forbidden (v :: t) ↔ (∀ u ∈ t, u ∈ (g.others v).toFinset) ∧ t.Nodup) := by
    intro v t hlength hvertices
    rw [isMatch_star_iff hp hlength]
    simp only [List.mem_toFinset, Graph.others, List.mem_filter, decide_eq_true_iff, List.nodup_cons]
    refine ⟨fun h => ?_, fun h => ⟨hvertices, fun u hu => (h.1 u hu).1, fun _ => ⟨?_, h.2⟩⟩⟩
    · obtain ⟨_, hrays, hdistinct⟩ := h
      obtain ⟨hhub, hnodup⟩ := hdistinct trivial
      exact ⟨fun u hu => ⟨hrays u hu, fun heq => hhub (heq ▸ hu)⟩, hnodup⟩
    · exact fun hmem => (h.1 v hmem).2 rfl
  rw [length_allMatches_eq_sum (size_of_pattern hp) hrays]
  refine Finset.sum_congr rfl fun v _ => ?_
  obtain ⟨hinside, hcard⟩ := g.toFinset_of_sublist (v := v) (l := g.others v) List.filter_sublist
  rw [countP_tuples_of_nodup hinside, hcard]

end Shape.star

namespace Search

/-- The number of matches of a star with a given hub is a power of its degree. Where vertices may not be reused,
it is a falling factorial of the number of its neighbours other than itself. -/
theorem count_stars (s : Search) (g : Graph) {k : Nat} {p : Pattern} (hp : Shape.star.pattern k = .ok p)
    {c : Tally} (h : s.count g p = .ok c) :
    (s.settings.reuse = .allowed → c.count = ∑ v ∈ Finset.range g.order, g.outDegree v ^ (k - 1)) ∧
    (s.settings.reuse = .forbidden →
      c.count = ∑ v ∈ Finset.range g.order, (g.others v).length.descFactorial (k - 1)) := by
  obtain ⟨k, rfl⟩ := Nat.exists_eq_add_one.mpr (Shape.pos_of_pattern hp)
  have hnarrow : p.Narrow := Shape.narrow_of_pattern hp (by simp)
  rw [count_count hnarrow h, Nat.add_sub_cancel]
  refine ⟨fun hreuse => ?_, fun hreuse => ?_⟩
  · rw [hreuse, Shape.star.length_allMatches_allowed hp]
  · rw [hreuse, Shape.star.length_allMatches_forbidden hp]

/-- A vertex with an edge to each of the four, one with an edge back to it, and one with a self-loop. -/
def hub : Graph := Graph.ofAscending [[0, 1, 2, 3], [0], [2], []] (by decide) (by decide)

theorem count_stars_hub : ∃ p c d, Shape.star.pattern 3 = .ok p ∧
    (ofSettings ⟨2, .allowed, .tally⟩ 1).count hub p = .ok c ∧ c.count = 4 ^ 2 + 1 ^ 2 + 1 ^ 2 + 0 ^ 2 ∧
      c.count = ∑ v ∈ Finset.range 4, hub.outDegree v ^ 2 ∧
    (ofSettings ⟨2, .forbidden, .tally⟩ 1).count hub p = .ok d ∧ d.count = 3 * 2 + 1 * 0 + 0 + 0 ∧
      d.count = ∑ v ∈ Finset.range 4, (hub.others v).length.descFactorial 2 := by
  have hallowed : (Shape.star.pattern 3 >>= fun p =>
      (ofSettings ⟨2, .allowed, .tally⟩ 1).count hub p).map Tally.count = .ok 18 := by
    decide +kernel
  have hforbidden : (Shape.star.pattern 3 >>= fun p =>
      (ofSettings ⟨2, .forbidden, .tally⟩ 1).count hub p).map Tally.count = .ok 6 := by
    decide +kernel
  obtain ⟨c, hc, hcount⟩ := exists_of_map_eq_ok hallowed
  obtain ⟨d, hd, hcount'⟩ := exists_of_map_eq_ok hforbidden
  obtain ⟨p, hp, hc⟩ := bind_eq_ok.mp hc
  rw [hp] at hd
  exact ⟨p, c, d, hp, hc, hcount, (count_stars _ hub hp hc).1 rfl, hd, hcount',
    (count_stars _ hub hp hd).2 rfl⟩

end Search

end Motif
