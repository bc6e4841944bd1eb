import Mathlib.Data.List.Perm.Basic
import Motif.Walks.Extend

/-!
# Walks and the tuples they store

A walk is kept sorted by vertex, a match is a tuple in the order of positions. `Walk.Stores` relates the
two: the pairs of the walk are the entries of the tuple with their places, in some order. Whatever the
library does to a walk is described through this relation. Binding one more position appends an entry to
the tuple (`Stores.insert`), and putting the vertices back into the order of positions gives the tuple
(`Stores.writeTo`).

`Walk.Shaped` is the part of the relation that speaks of the walk alone.
-/

namespace Motif.Walk

/-- A walk of the given arity: as many positions as vertices, and vertices that ascend. -/
structure Shaped (w : Walk) (arity : Nat) : Prop where
  length_vertices : w.vertices.length = arity
  length_positions : w.positions.length = arity
  ascending : w.vertices.Pairwise (· ≤ ·)

/-- The walk binds position `j` to entry `j` of the tuple, and binds nothing else. -/
structure Stores (w : Walk) (t : List Nat) : Prop extends Shaped w t.length where
  pairs_perm : w.pairs.Perm (t.zipIdx.map Prod.swap)

variable {w : Walk} {t : List Nat} {arity p v : Nat}

/-! ### The pairs of a walk -/

theorem Shaped.map_fst_pairs (h : w.Shaped arity) : w.pairs.map Prod.fst = w.positions :=
  List.map_fst_zip (Nat.le_of_eq (h.length_positions.trans h.length_vertices.symm))

theorem Shaped.map_snd_pairs (h : w.Shaped arity) : w.pairs.map Prod.snd = w.vertices :=
  List.map_snd_zip (Nat.le_of_eq (h.length_vertices.trans h.length_positions.symm))

/-- The entries of a tuple with their places have each place once. -/
theorem map_fst_swap_zipIdx (t : List Nat) :
    (t.zipIdx.map Prod.swap).map Prod.fst = List.range t.length := by
  rw [List.map_map, List.range_eq_range', ← List.zipIdx_map_snd 0 t]
  rfl

theorem map_snd_swap_zipIdx (t : List Nat) : (t.zipIdx.map Prod.swap).map Prod.snd = t := by
  rw [List.map_map]
  exact List.zipIdx_map_fst 0 t

theorem mem_swap_zipIdx : (p, v) ∈ t.zipIdx.map Prod.swap ↔ t[p]? = some v := by
  rw [← List.mk_mem_zipIdx_iff_getElem?, List.mem_map]
  refine ⟨?_, ?_⟩
  · intro h'
    obtain ⟨⟨v', p'⟩, h, heq⟩ := h'
    cases heq
    exact h
  · intro h
    exact ⟨(v, p), h, rfl⟩

namespace Stores

theorem positions_perm (h : w.Stores t) : w.positions.Perm (List.range t.length) := by
  rw [← h.map_fst_pairs, ← map_fst_swap_zipIdx]
  exact h.pairs_perm.map Prod.fst

theorem vertices_perm (h : w.Stores t) : w.vertices.Perm t := by
  rw [← h.map_snd_pairs, ← map_snd_swap_zipIdx t]
  exact h.pairs_perm.map Prod.snd

theorem nodup_positions (h : w.Stores t) : w.positions.Nodup :=
  h.positions_perm.nodup_iff.mpr List.nodup_range

theorem mem_vertices (h : w.Stores t) : v ∈ w.vertices ↔ v ∈ t := h.vertices_perm.mem_iff

theorem mem_pairs (h : w.Stores t) : (p, v) ∈ w.pairs ↔ t[p]? = some v :=
  h.pairs_perm.mem_iff.trans mem_swap_zipIdx

end Stores

/-! ### Looking a position up -/

theorem lookup_eq_some_iff_mem {pairs : List (Nat × Nat)} (h : (pairs.map Prod.fst).Nodup) :
    pairs.lookup p = some v ↔ (p, v) ∈ pairs := by
  induction pairs with
  | nil => simp
  | cons pair pairs ih =>
    obtain ⟨q, u⟩ := pair
    obtain ⟨hnot, htail⟩ := List.nodup_cons.mp h
    rw [List.lookup_cons, List.mem_cons, Prod.mk.injEq]
    by_cases hq : p = q
    · subst hq
      have hnone : (p, v) ∉ pairs := fun hmem => hnot (List.mem_map.mpr ⟨_, hmem, rfl⟩)
      simp [hnone, eq_comm]
    · rw [beq_false_of_ne hq]
      simp [hq, ih htail]

theorem Stores.vertexAt (h : w.Stores t) (p : Nat) : w.vertexAt p = t[p]? := by
  have hnodup : (w.pairs.map Prod.fst).Nodup := h.map_fst_pairs ▸ h.nodup_positions
  apply Option.ext
  intro v
  exact (lookup_eq_some_iff_mem hnodup).trans h.mem_pairs

/-! ### Binding one more position -/

/-- A vertex that goes before the first one that is not smaller leaves the vertices in order. -/
theorem pairwise_insert {l : List Nat} (h : l.Pairwise (· ≤ ·)) (v : Nat) :
    (l.take (l.takeWhile fun u => decide (u < v)).length ++
      v :: l.drop (l.takeWhile fun u => decide (u < v)).length).Pairwise (· ≤ ·) := by
  induction l with
  | nil => exact List.pairwise_singleton _ _
  | cons a l ih =>
    obtain ⟨ha, hl⟩ := List.pairwise_cons.mp h
    by_cases hav : a < v
    · rw [List.takeWhile_cons_of_pos (by simpa using hav)]
      simp only [List.length_cons, List.take_succ_cons, List.drop_succ_cons, List.cons_append]
      refine List.pairwise_cons.mpr ⟨?_, ih hl⟩
      intro b hb
      rcases List.mem_append.mp hb with hb | hb
      · exact ha b (List.mem_of_mem_take hb)
      · rcases List.mem_cons.mp hb with rfl | hb
        · exact Nat.le_of_lt hav
        · exact ha b (List.mem_of_mem_drop hb)
    · rw [List.takeWhile_cons_of_neg (by simpa using hav)]
      simp only [List.length_nil, List.take_zero, List.drop_zero, List.nil_append]
      refine List.pairwise_cons.mpr ⟨?_, h⟩
      intro b hb
      rcases List.mem_cons.mp hb with rfl | hb
      · omega
      · have := ha b hb
        omega

/-- The place at which a vertex goes into a walk. -/
theorem length_smaller_le (w : Walk) (v : Nat) :
    (w.vertices.takeWhile fun u => decide (u < v)).length ≤ w.vertices.length :=
  (List.takeWhile_sublist _).length_le

theorem Shaped.insert (h : w.Shaped arity) (p v : Nat) : (w.insert p v).Shaped (arity + 1) where
  length_vertices := by
    have := w.length_smaller_le v
    have := h.length_vertices
    simp only [Walk.insert, List.length_append, List.length_take, List.length_cons,
      List.length_drop]
    omega
  length_positions := by
    have := w.length_smaller_le v
    have := h.length_vertices
    have := h.length_positions
    simp only [Walk.insert, List.length_append, List.length_take, List.length_cons,
      List.length_drop]
    omega
  ascending := pairwise_insert h.ascending v

/-- The pairs of the walk keep their order around the new one. -/
theorem Shaped.exists_pairs_insert (h : w.Shaped arity) (p v : Nat) :
    ∃ before after, w.pairs = before ++ after ∧
      (w.insert p v).pairs = before ++ (p, v) :: after := by
  have hlength := h.length_positions.trans h.length_vertices.symm
  let smaller := (w.vertices.takeWhile fun u => decide (u < v)).length
  refine ⟨w.pairs.take smaller, w.pairs.drop smaller, (List.take_append_drop _ _).symm, ?_⟩
  rw [pairs, Walk.insert, List.zip_append (by simp [hlength]), List.zip_cons_cons]
  simp only [pairs, List.zip_eq_zipWith, List.take_zipWith, List.drop_zipWith, smaller]

theorem Shaped.pairs_insert (h : w.Shaped arity) (p v : Nat) :
    (w.insert p v).pairs.Perm ((p, v) :: w.pairs) := by
  obtain ⟨before, after, hpairs, hinsert⟩ := h.exists_pairs_insert p v
  rw [hpairs, hinsert]
  exact List.perm_middle

/-- The new pair adds its position to those of the walk. -/
theorem Shaped.positions_insert (h : w.Shaped arity) (p v : Nat) :
    (w.insert p v).positions.Perm (p :: w.positions) := by
  rw [← (h.insert p v).map_fst_pairs, ← h.map_fst_pairs]
  exact (h.pairs_insert p v).map Prod.fst

theorem Stores.insert (h : w.Stores t) (v : Nat) : (w.insert t.length v).Stores (t ++ [v]) where
  toShaped := by
    rw [List.length_append, List.length_singleton]
    exact h.toShaped.insert t.length v
  pairs_perm := by
    apply (h.toShaped.pairs_insert t.length v).trans
    rw [List.zipIdx_append, List.map_append]
    apply (h.pairs_perm.cons _).trans
    simpa using (List.perm_append_singleton (t.length, v) (t.zipIdx.map Prod.swap)).symm

/-- A walk that binds no position beyond its arity. -/
structure Bounded (w : Walk) (arity : Nat) : Prop extends Shaped w arity where
  positions_lt : ∀ p ∈ w.positions, p < arity

theorem Stores.bounded (h : w.Stores t) : w.Bounded t.length where
  toShaped := h.toShaped
  positions_lt := fun _ hp => List.mem_range.mp (h.positions_perm.mem_iff.mp hp)

theorem Bounded.insert (h : w.Bounded arity) (v : Nat) : (w.insert arity v).Bounded (arity + 1) where
  toShaped := h.toShaped.insert arity v
  positions_lt := by
    intro p hp
    rcases List.mem_cons.mp ((h.toShaped.positions_insert arity v).mem_iff.mp hp) with rfl | hp
    · exact Nat.lt_succ_self p
    · exact Nat.lt_succ_of_lt (h.positions_lt p hp)

/-! ### Walks to start from -/

theorem stores_singleton (v : Nat) : Walk.Stores ⟨[v], [0]⟩ [v] where
  length_vertices := rfl
  length_positions := rfl
  ascending := List.pairwise_singleton _ _
  pairs_perm := List.Perm.refl _

theorem byVertex_perm (row : List Nat) : (Walks.byVertex row).Perm row.zipIdx := by
  rw [Walks.byVertex, Sorted.sortBy_eq]
  exact List.mergeSort_perm _ _

theorem byVertex_ascending (row : List Nat) :
    ((Walks.byVertex row).map Prod.fst).Pairwise (· ≤ ·) := by
  have h : (row.zipIdx.mergeSort fun a b => decide (a.1 ≤ b.1)).Pairwise
      (fun a b => decide (a.1 ≤ b.1) = true) :=
    List.pairwise_mergeSort
      (by simp only [decide_eq_true_eq]; exact fun _ _ _ => Nat.le_trans)
      (by simp only [Bool.or_eq_true, decide_eq_true_eq]; exact fun a b => Nat.le_total a.1 b.1) _
  rw [Walks.byVertex, Sorted.sortBy_eq, List.pairwise_map]
  simpa using h

/-- The entries of a row, sorted by vertex, are the walk that stores the row. -/
theorem stores_byVertex (row : List Nat) :
    Walk.Stores ⟨(Walks.byVertex row).map Prod.fst, (Walks.byVertex row).map Prod.snd⟩ row where
  length_vertices := by simpa using (byVertex_perm row).length_eq
  length_positions := by simpa using (byVertex_perm row).length_eq
  ascending := byVertex_ascending row
  pairs_perm := by
    have hpairs : ((Walks.byVertex row).map Prod.snd).zip ((Walks.byVertex row).map Prod.fst) =
        (Walks.byVertex row).map Prod.swap := by
      rw [List.zip_map']
      rfl
    rw [pairs, hpairs]
    exact (byVertex_perm row).map Prod.swap

/-! ### Putting a walk back into the order of positions -/

/-- A buffer after vertices were written into the cells of their positions. -/
def put (cells : Array Nat) (pairs : List (Nat × Nat)) : Array Nat :=
  pairs.foldl (fun cells (p, v) => cells.setIfInBounds p v) cells

theorem writeTo_eq_put {cells : Array Nat} (h : ∀ p ∈ w.pairs.map Prod.fst, p < cells.size) :
    w.writeTo cells = .ok (put cells w.pairs) := by
  rw [writeTo]
  generalize w.pairs = pairs at h
  induction pairs generalizing cells with
  | nil => rfl
  | cons pair pairs ih =>
    obtain ⟨p, v⟩ := pair
    have hp : p < cells.size := h p List.mem_cons_self
    simp only [List.foldlM_cons, if_pos hp]
    exact ih fun q hq => by simpa using h q (List.mem_cons_of_mem _ hq)

theorem getElem?_put {pairs : List (Nat × Nat)} (h : (pairs.map Prod.fst).Nodup)
    (cells : Array Nat) (i : Nat) :
    (put cells pairs)[i]? =
      if i < cells.size then some ((pairs.lookup i).getD (cells.getD i 0)) else none := by
  induction pairs generalizing cells with
  | nil =>
    by_cases hi : i < cells.size
    · simp [put, hi]
    · simp [put, hi]
  | cons pair pairs ih =>
    obtain ⟨p, v⟩ := pair
    obtain ⟨hnot, htail⟩ := List.nodup_cons.mp h
    rw [put, List.foldl_cons, ← put, ih htail, Array.size_setIfInBounds, List.lookup_cons]
    by_cases hip : i = p
    · subst hip
      have hnone : pairs.lookup i = none := by
        rw [List.lookup_eq_none_iff]
        intro pair hpair
        refine bne_iff_ne.mpr fun heq => hnot ?_
        exact List.mem_map.mpr ⟨pair, hpair, heq.symm⟩
      by_cases hi : i < cells.size
      · simp [hnone, hi]
      · simp [hi]
    · rw [beq_false_of_ne hip]
      simp [Array.getD_eq_getD_getElem?, Ne.symm hip]

/-- Writing a walk to a buffer that is long enough puts its tuple at the front and keeps the rest. -/
theorem Stores.writeTo (h : w.Stores t) {cells : Array Nat} (hsize : t.length ≤ cells.size) :
    w.writeTo cells = .ok (t ++ cells.toList.drop t.length).toArray := by
  have hbound : ∀ p ∈ w.pairs.map Prod.fst, p < cells.size := by
    intro p hp
    rw [h.map_fst_pairs, h.positions_perm.mem_iff, List.mem_range] at hp
    omega
  have hnodup : (w.pairs.map Prod.fst).Nodup := h.map_fst_pairs ▸ h.nodup_positions
  rw [writeTo_eq_put hbound]
  congr 1
  apply Array.ext_getElem?
  intro i
  rw [getElem?_put hnodup, show w.pairs.lookup i = t[i]? from h.vertexAt i, List.getElem?_toArray]
  rcases Nat.lt_or_ge i t.length with hi | hi
  · rw [if_pos (by omega), List.getElem?_append_left hi, List.getElem?_eq_getElem hi,
      Option.getD_some]
  · rw [List.getElem?_append_right hi, List.getElem?_eq_none hi, Option.getD_none,
      List.getElem?_drop, Array.getElem?_toList, Nat.add_sub_cancel' hi]
    by_cases hc : i < cells.size
    · simp [hc]
    · simp [hc]

theorem Stores.writeTo_of_size_eq (h : w.Stores t) {cells : Array Nat} (hsize : cells.size = t.length) :
    w.writeTo cells = .ok t.toArray := by
  rw [h.writeTo (Nat.le_of_eq hsize.symm), ← hsize, ← Array.length_toList, List.drop_length,
    List.append_nil]

end Motif.Walk
