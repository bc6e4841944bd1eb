import Mathlib.Algebra.BigOperators.Group.Finset.Basic
import Mathlib.Data.List.GetD
import Mathlib.Data.List.Nodup
import Motif.Pattern.Basic
import Motif.Settings.Basic
import Motif.Proofs.Adjacency

/-!
# What a search has to find

`IsMatch` is the definition of a match, of all positions or of the first few. `allMatches` lists the
matches of all positions by trying every tuple, in lexicographic order, and so it depends on nothing but
the graph, the pattern and whether vertices may be reused.

A search goes from a partial match to the longer ones. `completions` are the matches that a partial one
grows into, `partials` those of the first `k` positions, and `follows` are the vertices that it grows by.
What a tuple grows into can be found in stages (`partials_eq_flatMap`), and one stage adds the vertices
that follow (`partials_succ`). Together they give `completions_eq_flatMap`: the completions of a tuple are
those of the tuple with each of the vertices that follow, in order.

How many matches there are can be counted by their first vertex (`length_allMatches_eq_sum`).
-/

namespace Motif

/-- A tuple of vertices, entry `i` at position `i`, that has every edge the pattern requires among the
positions it binds, and no vertex twice where that is forbidden. -/
structure IsMatch (g : Graph) (p : Pattern) (reuse : Reuse) (t : List Nat) : Prop where
  vertices : ∀ v ∈ t, v < g.order
  edges : ∀ i < t.length, ∀ j ∈ p.required.getD i [],
    g.hasEdge (t.getD j 0) (t.getD i 0) = .ok true
  distinct : reuse = .forbidden → t.Nodup

instance (g : Graph) (p : Pattern) (reuse : Reuse) (t : List Nat) :
    Decidable (IsMatch g p reuse t) :=
  decidable_of_iff ((∀ v ∈ t, v < g.order) ∧ (∀ i < t.length, ∀ j ∈ p.required.getD i [],
      g.hasEdge (t.getD j 0) (t.getD i 0) = .ok true) ∧ (reuse = .forbidden → t.Nodup))
    ⟨fun h => ⟨h.1, h.2.1, h.2.2⟩, fun h => ⟨h.vertices, h.edges, h.distinct⟩⟩

/-- All tuples of `k` vertices below `n`, in lexicographic order. -/
def tuples (n : Nat) : (k : Nat) → List (List Nat)
  | 0 => [[]]
  | k + 1 => (List.range n).flatMap fun v => (tuples n k).map (v :: ·)

/-- All matches of a pattern. -/
def allMatches (g : Graph) (p : Pattern) (reuse : Reuse) : List (List Nat) :=
  (tuples g.order p.size).filter fun t => IsMatch g p reuse t

/-- The matches that a tuple is the front part of. -/
def completions (g : Graph) (p : Pattern) (reuse : Reuse) (t : List Nat) : List (List Nat) :=
  (allMatches g p reuse).filter fun m => t.isPrefixOf m

/-- The matches of the first `k` positions that a tuple is the front part of. -/
def partials (g : Graph) (p : Pattern) (reuse : Reuse) (k : Nat) (t : List Nat) : List (List Nat) :=
  (tuples g.order k).filter fun m => t <+: m ∧ IsMatch g p reuse m

/-- The vertices that a partial match can be extended by. -/
def follows (g : Graph) (p : Pattern) (reuse : Reuse) (t : List Nat) : List Nat :=
  (List.range g.order).filter fun v => IsMatch g p reuse (t ++ [v])

variable {g : Graph} {p : Pattern} {reuse : Reuse} {t m : List Nat} {n j k v : Nat}

/-! ### Tuples in lexicographic order -/

theorem mem_tuples : t ∈ tuples n k ↔ t.length = k ∧ ∀ v ∈ t, v < n := by
  induction k generalizing t with
  | zero =>
    simp only [tuples, List.mem_singleton, List.length_eq_zero_iff]
    refine ⟨?_, ?_⟩
    · intro h'
      obtain rfl := h'
      exact ⟨rfl, by simp⟩
    · exact fun h => h.1
  | succ k ih =>
    simp only [tuples, List.mem_flatMap, List.mem_map, List.mem_range]
    refine ⟨?_, ?_⟩
    · intro h'
      obtain ⟨v, hv, t, ht, rfl⟩ := h'
      obtain ⟨hlength, hvertices⟩ := ih.mp ht
      refine ⟨by rw [List.length_cons, hlength], fun u hu => ?_⟩
      rcases List.mem_cons.mp hu with rfl | hu
      · exact hv
      · exact hvertices u hu
    · intro h'
      obtain ⟨hlength, hvertices⟩ := h'
      cases t with
      | nil => contradiction
      | cons v t =>
        refine ⟨v, hvertices v List.mem_cons_self, t, ih.mpr ⟨Nat.succ.inj hlength, ?_⟩, rfl⟩
        exact fun u hu => hvertices u (List.mem_cons_of_mem _ hu)

theorem tuples_ascending (n k : Nat) : (tuples n k).Pairwise (· < ·) := by
  induction k with
  | zero => exact List.pairwise_singleton _ _
  | succ k ih =>
    rw [tuples, List.pairwise_flatMap]
    refine ⟨?_, ?_⟩
    · intro v _
      rw [List.pairwise_map]
      exact ih.imp fun h => List.cons_lt_cons_iff.mpr (Or.inr ⟨rfl, h⟩)
    · apply List.pairwise_lt_range.imp
      intro v w hvw s hs t ht
      obtain ⟨s, _, rfl⟩ := List.mem_map.mp hs
      obtain ⟨t, _, rfl⟩ := List.mem_map.mp ht
      exact List.cons_lt_cons_iff.mpr (Or.inl hvw)

/-- Tuples are in the order of their front parts, where these are as long as each other. -/
theorem lt_of_prefix_lt {s t a b : List Nat} (hlength : s.length = t.length) (h : s < t)
    (ha : s <+: a) (hb : t <+: b) : a < b := by
  obtain ⟨restA, rfl⟩ := ha
  obtain ⟨restB, rfl⟩ := hb
  induction s generalizing t with
  | nil =>
    obtain rfl := List.length_eq_zero_iff.mp hlength.symm
    exact absurd h (List.lt_irrefl [])
  | cons u s ih =>
    cases t with
    | nil => contradiction
    | cons v t =>
      rw [List.cons_append, List.cons_append]
      rcases List.cons_lt_cons_iff.mp h with huv | ⟨rfl, hst⟩
      · exact List.cons_lt_cons_iff.mpr (.inl huv)
      · exact List.cons_lt_cons_iff.mpr (.inr ⟨rfl, ih (Nat.succ.inj hlength) hst⟩)

/-! ### Matches and their completions -/

theorem mem_allMatches : m ∈ allMatches g p reuse ↔ m.length = p.size ∧ IsMatch g p reuse m := by
  rw [allMatches, List.mem_filter, mem_tuples, decide_eq_true_iff]
  refine ⟨?_, ?_⟩
  · exact fun h => ⟨h.1.1, h.2⟩
  · exact fun h => ⟨⟨h.1, h.2.vertices⟩, h.2⟩

theorem allMatches_ascending (g : Graph) (p : Pattern) (reuse : Reuse) :
    (allMatches g p reuse).Pairwise (· < ·) := (tuples_ascending _ _).filter _

theorem nodup_allMatches (g : Graph) (p : Pattern) (reuse : Reuse) : (allMatches g p reuse).Nodup := by
  refine (allMatches_ascending g p reuse).imp ?_
  rintro t _ hlt rfl
  exact List.lt_irrefl t hlt

theorem mem_completions : m ∈ completions g p reuse t ↔
    m.length = p.size ∧ IsMatch g p reuse m ∧ t <+: m := by
  rw [completions, List.mem_filter, mem_allMatches, List.isPrefixOf_iff_prefix, and_assoc]

theorem completions_ascending (g : Graph) (p : Pattern) (reuse : Reuse) (t : List Nat) :
    (completions g p reuse t).Pairwise (· < ·) := (allMatches_ascending g p reuse).filter _

@[simp] theorem completions_nil (g : Graph) (p : Pattern) (reuse : Reuse) :
    completions g p reuse [] = allMatches g p reuse := by
  rw [completions, List.filter_eq_self]
  exact fun _ _ => rfl

theorem mem_follows : v ∈ follows g p reuse t ↔ IsMatch g p reuse (t ++ [v]) := by
  rw [follows, List.mem_filter, List.mem_range, decide_eq_true_iff, and_iff_right_iff_imp]
  exact fun h => h.vertices v (by simp)

theorem follows_ascending (g : Graph) (p : Pattern) (reuse : Reuse) (t : List Nat) :
    (follows g p reuse t).Pairwise (· < ·) := List.pairwise_lt_range.filter _

theorem getD_take {α : Type} {l : List α} {i n : Nat} {d : α} (h : i < n) :
    (l.take n).getD i d = l.getD i d := by
  rw [List.getD_eq_getElem?_getD, List.getElem?_take_of_lt h, ← List.getD_eq_getElem?_getD]

/-- Required positions come earlier. -/
theorem Pattern.earlier_of_mem {i j : Nat} (h : j ∈ p.required.getD i []) : j < i := by
  rw [List.getD_eq_getElem?_getD] at h
  cases hi : p.required[i]? with
  | none =>
    rw [hi] at h
    contradiction
  | some l =>
    rw [hi] at h
    exact (p.admissible i l hi).earlier j h

theorem IsMatch.of_prefix (h : IsMatch g p reuse m) (ht : t <+: m) : IsMatch g p reuse t where
  vertices v hv := h.vertices v (ht.subset hv)
  edges i hi j hj := by
    obtain ⟨rest, rfl⟩ := ht
    have hj' : j < t.length := Nat.lt_trans (Pattern.earlier_of_mem hj) hi
    have hedge := h.edges i (by rw [List.length_append]; omega) j hj
    rwa [List.getD_append _ _ _ _ hi, List.getD_append _ _ _ _ hj'] at hedge
  distinct hreuse := (h.distinct hreuse).sublist ht.sublist

theorem isMatch_nil (g : Graph) (p : Pattern) (reuse : Reuse) : IsMatch g p reuse [] where
  vertices := by simp
  edges := by simp
  distinct _ := List.nodup_nil

/-- What one more position asks for. -/
theorem isMatch_concat_iff (h : IsMatch g p reuse t) : IsMatch g p reuse (t ++ [v]) ↔
    v < g.order ∧ (∀ j ∈ p.required.getD t.length [], g.hasEdge (t.getD j 0) v = .ok true) ∧
      (reuse = .forbidden → v ∉ t) := by
  have hlast : (t ++ [v]).getD t.length 0 = v := by simp
  refine ⟨?_, ?_⟩
  · intro hm
    refine ⟨hm.vertices v (by simp), fun j hj => ?_, fun hreuse hv => ?_⟩
    · have hedge := hm.edges t.length (by simp) j hj
      rwa [hlast, List.getD_append _ _ _ _ (Pattern.earlier_of_mem hj)] at hedge
    · exact (List.nodup_append.mp (hm.distinct hreuse)).2.2 v hv v List.mem_cons_self rfl
  · intro h'
    obtain ⟨hv, hedges, hfree⟩ := h'
    refine ⟨fun u hu => ?_, fun i hi j hj => ?_, fun hreuse => ?_⟩
    · rcases List.mem_append.mp hu with hu | hu
      · exact h.vertices u hu
      · rwa [List.mem_singleton.mp hu]
    · rw [List.length_append, List.length_singleton] at hi
      have hj' := Pattern.earlier_of_mem hj
      rcases Nat.lt_or_eq_of_le (Nat.le_of_lt_succ hi) with hlt | rfl
      · rw [List.getD_append _ _ _ _ hlt, List.getD_append _ _ _ _ (by omega)]
        exact h.edges i hlt j hj
      · rw [hlast, List.getD_append _ _ _ _ hj']
        exact hedges j hj
    · rw [List.nodup_append]
      refine ⟨h.distinct hreuse, List.nodup_singleton v, ?_⟩
      rintro a ha b hb rfl
      exact hfree hreuse (List.mem_singleton.mp hb ▸ ha)

/-! ### Growing a partial match -/

theorem mem_partials :
    m ∈ partials g p reuse k t ↔ m.length = k ∧ IsMatch g p reuse m ∧ t <+: m := by
  rw [partials, List.mem_filter, mem_tuples, decide_eq_true_iff]
  refine ⟨?_, ?_⟩
  · exact fun h => ⟨h.1.1, h.2.2, h.2.1⟩
  · exact fun h => ⟨⟨h.1, h.2.1.vertices⟩, h.2.2, h.2.1⟩

theorem partials_ascending (g : Graph) (p : Pattern) (reuse : Reuse) (k : Nat) (t : List Nat) :
    (partials g p reuse k t).Pairwise (· < ·) := (tuples_ascending _ _).filter _

theorem partials_size (g : Graph) (p : Pattern) (reuse : Reuse) (t : List Nat) :
    partials g p reuse p.size t = completions g p reuse t := by
  apply Sorted.eq_of_mem_iff (partials_ascending g p reuse _ t) (completions_ascending g p reuse t)
  intro m
  rw [mem_partials, mem_completions]

/-- A partial match is the only one of its length that it grows into. -/
theorem partials_of_length_eq (hlength : t.length = k) (h : IsMatch g p reuse t) :
    partials g p reuse k t = [t] := by
  apply Sorted.eq_of_mem_iff (partials_ascending g p reuse k t) (List.pairwise_singleton _ t)
  intro m
  rw [mem_partials, List.mem_singleton]
  refine ⟨?_, ?_⟩
  · intro h'
    obtain ⟨hm, _, hfront⟩ := h'
    exact (hfront.eq_of_length (hlength.trans hm.symm)).symm
  · intro h'
    obtain rfl := h'
    exact ⟨hlength, h, List.prefix_refl m⟩

theorem partials_succ (hlength : t.length = k) : partials g p reuse (k + 1) t =
    (follows g p reuse t).map fun v => t ++ [v] := by
  apply Sorted.eq_of_mem_iff (partials_ascending g p reuse _ t)
  · rw [List.pairwise_map]
    apply (follows_ascending g p reuse t).imp
    exact fun hvw => List.append_left_lt (List.cons_lt_cons_iff.mpr (Or.inl hvw))
  · intro m
    rw [mem_partials, List.mem_map]
    refine ⟨?_, ?_⟩
    · intro h
      obtain ⟨hm, hmatch, rest, rfl⟩ := h
      rw [List.length_append, hlength, Nat.add_left_cancel_iff, List.length_eq_one_iff] at hm
      obtain ⟨v, rfl⟩ := hm
      exact ⟨v, mem_follows.mpr hmatch, rfl⟩
    · intro h
      obtain ⟨v, hv, rfl⟩ := h
      exact ⟨by rw [List.length_append, hlength]; rfl, mem_follows.mp hv, List.prefix_append t [v]⟩

theorem partials_eq_flatMap (hle : t.length ≤ j) (hjk : j ≤ k) :
    partials g p reuse k t = (partials g p reuse j t).flatMap (partials g p reuse k) := by
  apply Sorted.eq_of_mem_iff (partials_ascending g p reuse k t)
  · rw [List.pairwise_flatMap]
    refine ⟨fun m _ => partials_ascending g p reuse k m, ?_⟩
    apply (partials_ascending g p reuse j t).imp_of_mem
    intro a b ha hb hab m hm m' hm'
    exact lt_of_prefix_lt ((mem_partials.mp ha).1.trans (mem_partials.mp hb).1.symm) hab
      (mem_partials.mp hm).2.2 (mem_partials.mp hm').2.2
  · intro m
    rw [mem_partials, List.mem_flatMap]
    refine ⟨?_, ?_⟩
    · intro h
      obtain ⟨hm, hmatch, hfront⟩ := h
      have hlength : (m.take j).length = j := List.length_take_of_le (hm ▸ hjk)
      have hcut : m.take j <+: m := List.take_prefix j m
      refine ⟨m.take j, mem_partials.mpr ⟨hlength, hmatch.of_prefix hcut, ?_⟩,
        mem_partials.mpr ⟨hm, hmatch, hcut⟩⟩
      exact List.prefix_of_prefix_length_le hfront hcut (by rwa [hlength])
    · intro h
      obtain ⟨a, ha, hm⟩ := h
      obtain ⟨hlength, hmatch, hcut⟩ := mem_partials.mp hm
      exact ⟨hlength, hmatch, (mem_partials.mp ha).2.2.trans hcut⟩

/-- A match of all positions is its only completion. -/
theorem completions_of_length_eq (hlength : t.length = p.size) (h : IsMatch g p reuse t) :
    completions g p reuse t = [t] := by
  rw [← partials_size, partials_of_length_eq hlength h]

theorem completions_eq_flatMap (hlength : t.length < p.size) :
    completions g p reuse t =
      (follows g p reuse t).flatMap fun v => completions g p reuse (t ++ [v]) := by
  rw [← partials_size, partials_eq_flatMap (Nat.le_succ _) hlength, partials_succ rfl,
    List.flatMap_map]
  exact List.flatMap_congr fun v _ => partials_size g p reuse _

/-- The first position requires nothing. -/
theorem follows_nil (g : Graph) (p : Pattern) (reuse : Reuse) :
    follows g p reuse [] = List.range g.order := by
  rw [follows, List.filter_eq_self]
  intro v hv
  rw [decide_eq_true_iff, isMatch_concat_iff (isMatch_nil g p reuse)]
  refine ⟨List.mem_range.mp hv, fun j hj => ?_, by simp⟩
  exact absurd (Pattern.earlier_of_mem hj) (Nat.not_lt_zero j)

theorem Pattern.size_pos (p : Pattern) : 0 < p.size := List.length_pos_iff.mpr p.nonempty

theorem allMatches_eq_flatMap (g : Graph) (p : Pattern) (reuse : Reuse) :
    allMatches g p reuse = (List.range g.order).flatMap fun v => completions g p reuse [v] := by
  have hlength : ([] : List Nat).length < p.size := p.size_pos
  rw [← completions_nil, completions_eq_flatMap hlength, follows_nil]
  rfl

/-! ### How many there are -/

/-- Tuples are counted by their first vertex. -/
theorem countP_tuples_succ (n k : Nat) (keep : List Nat → Bool) : (tuples n (k + 1)).countP keep =
    ∑ v ∈ Finset.range n, (tuples n k).countP fun t => keep (v :: t) := by
  have hfirst : ∀ v, ((tuples n k).map (v :: ·)).countP keep =
      (tuples n k).countP fun t => keep (v :: t) := fun v => List.countP_map
  rw [tuples, List.countP_flatMap]
  show ((List.range n).map fun v => ((tuples n k).map (v :: ·)).countP keep).sum = _
  simp only [hfirst]
  rfl

/-- Matches are counted by their first vertex, once it is known what the rest has to be like. -/
theorem length_allMatches_eq_sum (hsize : p.size = k + 1) {keep : Nat → List Nat → Prop}
    [∀ v t, Decidable (keep v t)]
    (hkeep : ∀ v t, (v :: t).length = k + 1 → (∀ u ∈ v :: t, u < g.order) →
      (IsMatch g p reuse (v :: t) ↔ keep v t)) :
    (allMatches g p reuse).length =
      ∑ v ∈ Finset.range g.order, (tuples g.order k).countP fun t => keep v t := by
  rw [allMatches, ← List.countP_eq_length_filter, hsize, countP_tuples_succ]
  refine Finset.sum_congr rfl fun v hv => List.countP_congr fun t ht => ?_
  obtain ⟨hlength, hvertices⟩ := mem_tuples.mp ht
  rw [decide_eq_true_iff, decide_eq_true_iff]
  refine hkeep v t (congrArg Nat.succ hlength) ?_
  exact List.forall_mem_cons.mpr ⟨Finset.mem_range.mp hv, hvertices⟩

/-- Where vertices may be reused, only the edges say what the rest has to be like. -/
theorem length_allMatches_of_allowed (hsize : p.size = k + 1) {keep : Nat → List Nat → Prop}
    [∀ v t, Decidable (keep v t)]
    (hkeep : ∀ v t, (v :: t).length = k + 1 → (IsMatch g p .allowed (v :: t) ↔
      (∀ u ∈ v :: t, u < g.order) ∧ keep v t ∧ (Reuse.allowed = .forbidden → (v :: t).Nodup))) :
    (allMatches g p .allowed).length =
      ∑ v ∈ Finset.range g.order, (tuples g.order k).countP fun t => keep v t := by
  refine length_allMatches_eq_sum hsize fun v t hlength hvertices => ?_
  rw [hkeep v t hlength]
  exact ⟨fun h => h.2.1, fun h => ⟨hvertices, h, fun hreuse => by contradiction⟩⟩

end Motif
