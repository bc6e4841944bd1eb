import Mathlib.Data.List.Chain
import Motif.Proofs.Fronts
import Motif.Proofs.Steps

/-!
# Matches of the named patterns

A named pattern has the positions it was asked for, and each requires what its shape says (`pattern_eq_ok_iff`).
So what it takes to be a match can be said of the tuple as a whole, in place of position by position: neighbours
have an edge (`isMatch_path_iff`), so do any two vertices (`isMatch_clique_iff`), neighbours have one and the
first leads to the last (`isMatch_cycle_iff`), or the first leads to all others (`isMatch_star_iff`).
-/

namespace Motif

namespace Shape

variable {shape : Shape} {g : Graph} {p : Pattern} {reuse : Reuse} {i j k u : Nat} {t : List Nat}

/-! ### Patterns of a shape -/

theorem requiredAt_clique (k i : Nat) : clique.requiredAt k i = List.range i := by
  cases i <;> rfl

theorem mem_requiredAt_cycle : j ∈ cycle.requiredAt k (i + 1) ↔ j = i ∨ (i + 2 = k ∧ j = 0) := by
  show (j ∈ if i + 2 = k then [0, i] else [i]) ↔ _
  split <;> simp_all [or_comm]

theorem admissible_requiredAt (hcycle : shape = .cycle → 3 ≤ k) (i : Nat) :
    Admissible i (shape.requiredAt k i) := by
  cases i with
  | zero => exact ⟨fun h => absurd h (Nat.lt_irrefl 0), by simp [requiredAt], by simp [requiredAt]⟩
  | succ i =>
    cases shape with
    | path => constructor <;> simp [requiredAt]
    | clique => constructor <;> simp [requiredAt_clique, List.pairwise_lt_range]
    | cycle =>
      have hk := hcycle rfl
      constructor
      · exact fun _ => List.ne_nil_of_mem (mem_requiredAt_cycle.mpr (.inl rfl))
      · intro j hj
        rcases mem_requiredAt_cycle.mp hj with rfl | ⟨_, rfl⟩ <;> omega
      · show (if i + 2 = k then [0, i] else [i]).Pairwise (· < ·)
        split
        · exact List.pairwise_pair.mpr (by omega)
        · exact List.pairwise_singleton _ _
    | star => constructor <;> simp [requiredAt]

theorem ofLists_requiredAt (hpos : 0 < k) (hcycle : shape = .cycle → 3 ≤ k) :
    ∃ p, Pattern.ofLists ((List.range k).map (shape.requiredAt k)) = .ok p ∧
      p.required = (List.range k).map (shape.requiredAt k) := by
  have hne : (List.range k).map (shape.requiredAt k) ≠ [] := by
    simpa using Nat.ne_of_gt hpos
  refine ⟨_, Pattern.ofLists_of_admissible hne fun j l hl => ?_, rfl⟩
  rw [List.getElem?_map, Option.map_eq_some_iff] at hl
  obtain ⟨i, hi, rfl⟩ := hl
  obtain ⟨_, rfl⟩ := List.getElem?_eq_some_iff.mp hi
  rw [List.getElem_range]
  exact admissible_requiredAt hcycle j

/-- A shape with at least one position, and a cycle with at least three, is a pattern wherever its lists can be
addressed, and each position requires what the shape says. -/
theorem pattern_eq_ok_iff : shape.pattern k = .ok p ↔
    0 < k ∧ (shape = .cycle → 3 ≤ k) ∧ k * headingBytes < Word.addressable ∧
      p.required = (List.range k).map (shape.requiredAt k) := by
  refine ⟨fun h => ?_, fun ⟨hpos, hcycle, hroom, hrequired⟩ => ?_⟩
  · obtain ⟨_, hcycle, h⟩ := bind_eq_ok.mp h
    obtain ⟨_, hroom, h⟩ := bind_eq_ok.mp h
    have hcycle := require_eq_ok.mp hcycle
    rcases Nat.eq_zero_or_pos k with rfl | hpos
    · contradiction
    · obtain ⟨made, hmade, hrequired⟩ := ofLists_requiredAt hpos hcycle
      rw [hmade] at h
      obtain rfl := Except.ok.inj h
      exact ⟨hpos, hcycle, rely_eq_ok.mp hroom, hrequired⟩
  · obtain ⟨made, hmade, hrequired'⟩ := ofLists_requiredAt hpos hcycle
    obtain rfl : made = p := Pattern.ext_required (hrequired'.trans hrequired.symm)
    rw [pattern, require_eq_ok.mpr hcycle, Word.fits, rely_eq_ok.mpr hroom, hmade]
    rfl

theorem pos_of_pattern (h : shape.pattern k = .ok p) : 0 < k := (pattern_eq_ok_iff.mp h).1

theorem required_of_pattern (h : shape.pattern k = .ok p) :
    p.required = (List.range k).map (shape.requiredAt k) := (pattern_eq_ok_iff.mp h).2.2.2

theorem three_le_of_pattern (h : cycle.pattern k = .ok p) : 3 ≤ k := (pattern_eq_ok_iff.mp h).2.1 rfl

theorem size_of_pattern (h : shape.pattern k = .ok p) : p.size = k := by
  rw [Pattern.size, required_of_pattern h, List.length_map, List.length_range]

theorem length_requiredAt_le (shape : Shape) (k i : Nat) :
    (shape.requiredAt k i).length ≤ if shape = .clique then i else 2 := by
  cases i with
  | zero => exact Nat.zero_le _
  | succ i =>
    cases shape with
    | path => simp [requiredAt]
    | clique => simp [requiredAt]
    | cycle =>
      show (if i + 2 = k then [0, i] else [i]).length ≤ 2
      split <;> simp
    | star => simp [requiredAt]

/-- Only cliques require many positions, and those of `2 ^ 32` positions are not too many yet. -/
theorem narrow_of_pattern (h : shape.pattern k = .ok p) (hclique : shape = .clique → k ≤ UInt32.size) :
    p.Narrow := by
  intro l hl
  rw [required_of_pattern h] at hl
  obtain ⟨i, hi, rfl⟩ := List.mem_map.mp hl
  have hi := List.mem_range.mp hi
  have hle := length_requiredAt_le shape k i
  split at hle
  · rename_i hshape
    exact Nat.lt_of_le_of_lt hle (Nat.lt_of_lt_of_le hi (hclique hshape))
  · exact Nat.lt_of_le_of_lt hle (by decide)

/-! ### Matches by shape -/

/-- The edges of a match, in terms of the shape. -/
theorem isMatch_iff (h : shape.pattern k = .ok p) (ht : t.length = k) : IsMatch g p reuse t ↔
    (∀ v ∈ t, v < g.order) ∧
      (∀ i < t.length, ∀ j ∈ shape.requiredAt k i, g.Edge (t.getD j 0) (t.getD i 0)) ∧
      (reuse = .forbidden → t.Nodup) := by
  have hrequired : ∀ i < t.length, p.required.getD i [] = shape.requiredAt k i := by
    intro i hi
    rw [required_of_pattern h, List.getD_eq_getElem _ _ (by simpa [← ht] using hi), List.getElem_map,
      List.getElem_range]
  have hedges : (∀ i < t.length, ∀ j ∈ p.required.getD i [],
        g.hasEdge (t.getD j 0) (t.getD i 0) = .ok true) ↔
      ∀ i < t.length, ∀ j ∈ shape.requiredAt k i, g.Edge (t.getD j 0) (t.getD i 0) :=
    forall₂_congr fun i hi => by
      rw [hrequired i hi]
      exact forall₂_congr fun j _ => Graph.hasEdge_eq_ok_true_iff
  rw [← hedges]
  exact ⟨fun hm => ⟨hm.vertices, hm.edges, hm.distinct⟩, fun hm => ⟨hm.1, hm.2.1, hm.2.2⟩⟩

theorem isChain_iff_getD {rel : Nat → Nat → Prop} :
    t.IsChain rel ↔ ∀ i, i + 1 < t.length → rel (t.getD i 0) (t.getD (i + 1) 0) := by
  rw [List.isChain_iff_getElem]
  refine forall₂_congr fun i hi => ?_
  rw [List.getD_eq_getElem _ _ hi, List.getD_eq_getElem _ _ (Nat.lt_of_succ_lt hi)]

theorem isMatch_path_iff (h : path.pattern k = .ok p) (ht : t.length = k) : IsMatch g p reuse t ↔
    (∀ v ∈ t, v < g.order) ∧ t.IsChain g.Edge ∧ (reuse = .forbidden → t.Nodup) := by
  rw [isMatch_iff h ht, isChain_iff_getD]
  refine and_congr_right' (and_congr_left' ⟨fun hedges i hi => ?_, fun hchain i hi j hj => ?_⟩)
  · exact hedges (i + 1) hi i (List.mem_singleton_self i)
  · cases i with
    | zero => contradiction
    | succ i =>
      obtain rfl := List.mem_singleton.mp hj
      exact hchain _ hi

theorem isMatch_clique_iff (h : clique.pattern k = .ok p) (ht : t.length = k) : IsMatch g p reuse t ↔
    (∀ v ∈ t, v < g.order) ∧ t.Pairwise g.Edge ∧ (reuse = .forbidden → t.Nodup) := by
  rw [isMatch_iff h ht, List.pairwise_iff_getElem]
  simp only [requiredAt_clique, List.mem_range]
  refine and_congr_right' (and_congr_left' ⟨fun hedges j i hj hi hji => ?_, fun hpairs i hi j hji => ?_⟩)
  · have hedge := hedges i hi j hji
    rwa [List.getD_eq_getElem _ _ hi, List.getD_eq_getElem _ _ hj] at hedge
  · have hj := Nat.lt_trans hji hi
    rw [List.getD_eq_getElem _ _ hi, List.getD_eq_getElem _ _ hj]
    exact hpairs j i hj hi hji

theorem getD_length_eq_getLastD (u : Nat) (t : List Nat) : (u :: t).getD t.length 0 = t.getLastD u := by
  induction t generalizing u with
  | nil => rfl
  | cons v t ih => rw [List.length_cons, List.getD_cons_succ, ih, List.getLastD_cons]

/-- The last vertex of a cycle is reached from the one before it and from the first. -/
theorem isMatch_cycle_iff (h : cycle.pattern k = .ok p) (ht : (u :: t).length = k) :
    IsMatch g p reuse (u :: t) ↔ (∀ v ∈ u :: t, v < g.order) ∧
      ((u :: t).IsChain g.Edge ∧ g.Edge u (t.getLastD u)) ∧ (reuse = .forbidden → (u :: t).Nodup) := by
  have hk : 3 ≤ k := three_le_of_pattern h
  obtain ⟨last, rfl⟩ : ∃ last, k = last + 2 := Nat.exists_eq_add_of_le' (Nat.le_of_succ_le hk)
  have hlast : (u :: t).getD (last + 1) 0 = t.getLastD u := by
    rw [← Nat.succ.inj ht, getD_length_eq_getLastD]
  rw [isMatch_iff h ht, isChain_iff_getD, ← hlast]
  refine and_congr_right' (and_congr_left' ⟨fun hedges => ⟨fun i hi => ?_, ?_⟩, ?_⟩)
  · exact hedges (i + 1) hi i (mem_requiredAt_cycle.mpr (.inl rfl))
  · exact hedges (last + 1) (by omega) 0 (mem_requiredAt_cycle.mpr (.inr ⟨rfl, rfl⟩))
  · rintro ⟨hchain, hclosed⟩ i hi j hj
    cases i with
    | zero => contradiction
    | succ i =>
      rcases mem_requiredAt_cycle.mp hj with rfl | ⟨hend, rfl⟩
      · exact hchain j hi
      · obtain rfl : i = last := Nat.add_right_cancel hend
        exact hclosed

theorem isMatch_star_iff (h : star.pattern k = .ok p) (ht : (u :: t).length = k) :
    IsMatch g p reuse (u :: t) ↔ (∀ v ∈ u :: t, v < g.order) ∧ (∀ v ∈ t, g.Edge u v) ∧
      (reuse = .forbidden → (u :: t).Nodup) := by
  rw [isMatch_iff h ht]
  refine and_congr_right' (and_congr_left' ⟨fun hedges v hv => ?_, fun hrays i hi j hj => ?_⟩)
  · obtain ⟨i, hi, rfl⟩ := List.mem_iff_getElem.mp hv
    have hedge := hedges (i + 1) (Nat.succ_lt_succ hi) 0 (List.mem_singleton_self 0)
    rwa [List.getD_cons_succ, List.getD_eq_getElem _ _ hi] at hedge
  · cases i with
    | zero => contradiction
    | succ i =>
      obtain rfl := List.mem_singleton.mp hj
      have hi := Nat.lt_of_succ_lt_succ hi
      rw [List.getD_cons_succ, List.getD_eq_getElem _ _ hi]
      exact hrays _ (List.getElem_mem hi)

end Shape

end Motif
