import Motif.Proofs.Regular

/-!
# Walks in the order of positions

A walk is stored in the order of its vertices, and `Walk.writeTo` puts it back into the order of its positions. In a
table that was extended over all of its rows a walk binds every position below the arity once, and nothing else. So
each of these cells is overwritten, whatever it held, no other cell is touched, and a buffer that lacks one of them is
the only reason to stop (`Walk.Stores.readsBack`). Seeds are read back as they were given, also where a vertex repeats
and its places are told apart by nothing but the positions.
-/

namespace Motif

namespace Walk

variable {w : Walk} {tuple : List Nat} {cells : Array Nat} {p : Nat}

/-- The walk binds the positions below the arity. Writing it overwrites their cells with its vertices and leaves all
others, and it cannot be written where one of them is missing. -/
structure ReadsBack (w : Walk) (arity : Nat) : Prop where
  vertexAt_eq_none : ∀ p, w.vertexAt p = none ↔ arity ≤ p
  writeTo_of_le : ∀ cells : Array Nat, arity ≤ cells.size → ∃ read, w.writeTo cells = .ok read ∧
    read.size = cells.size ∧ (∀ p < arity, read[p]? = w.vertexAt p) ∧ ∀ p, arity ≤ p → read[p]? = cells[p]?
  writeTo_of_lt : ∀ cells : Array Nat, cells.size < arity → w.writeTo cells = breach .bounds

/-- A position without a cell cannot be written. -/
theorem writeTo_of_size_le (hp : p ∈ w.pairs.map Prod.fst) (hsize : cells.size ≤ p) :
    w.writeTo cells = breach .bounds := by
  rw [writeTo]
  generalize w.pairs = pairs at hp
  induction pairs generalizing cells with
  | nil => contradiction
  | cons pair pairs ih =>
    obtain ⟨q, v⟩ := pair
    rw [List.foldlM_cons]
    dsimp only
    by_cases hq : q < cells.size
    · rw [if_pos hq]
      have hrest : p ∈ pairs.map Prod.fst := by
        rcases List.mem_cons.mp hp with rfl | hrest
        · omega
        · exact hrest
      have hsize' : (cells.setIfInBounds q v).size ≤ p := by
        rw [Array.size_setIfInBounds]
        exact hsize
      exact ih hsize' hrest
    · rw [if_neg hq]
      rfl

theorem Stores.readsBack (h : w.Stores tuple) : w.ReadsBack tuple.length where
  vertexAt_eq_none := by
    intro p
    rw [h.vertexAt, List.getElem?_eq_none_iff]
  writeTo_of_le := by
    intro cells hsize
    refine ⟨_, h.writeTo hsize, ?_, fun p hp => ?_, fun p hp => ?_⟩
    · simp only [List.size_toArray, List.length_append, List.length_drop, Array.length_toList]
      omega
    · rw [List.getElem?_toArray, List.getElem?_append_left hp, h.vertexAt]
    · rw [List.getElem?_toArray, List.getElem?_append_right hp, List.getElem?_drop, Array.getElem?_toList,
        Nat.add_sub_cancel' hp]
  writeTo_of_lt := by
    intro cells hsize
    have hlast : cells.size ∈ w.pairs.map Prod.fst := by
      rw [h.map_fst_pairs, h.positions_perm.mem_iff, List.mem_range]
      exact hsize
    exact writeTo_of_size_le hlast (Nat.le_refl _)

end Walk

namespace Walks

variable {t : Walks} {seeds : Rows Nat} {cells : Array Nat} {i : Nat}

theorem Covered.readsBack (h : t.Covered) (hi : i < t.count) :
    ∃ w, t.walkAt i = .ok w ∧ w.ReadsBack t.arity := by
  obtain ⟨w, hw, _⟩ := h.regular.full i hi
  obtain ⟨tuple, hlength, hstores⟩ := h.stores hw
  exact ⟨w, hw, hlength ▸ hstores.readsBack⟩

/-- The walk of a seed is written as the seed. -/
theorem writeTo_of_ofSeeds (h : ofSeeds seeds = .ok t) (hi : i < seeds.count) (hcells : cells.size = t.arity) :
    (t.walkAt i >>= fun w => w.writeTo cells) = .ok (seeds.row i).toArray := by
  have hholds := holds_of_ofSeeds h
  have hi' : i < seeds.toLists.length := by
    rw [Rows.length_toLists]
    exact hi
  obtain ⟨w, hw, hstores⟩ := hholds.walkAt hi'
  have hrow : seeds.toLists[i] = seeds.row i := by simp [Rows.toLists]
  rw [hrow] at hstores
  have hlength : (seeds.row i).length = t.arity := hholds.length _ (hrow ▸ List.getElem_mem hi')
  rw [hw]
  exact hstores.writeTo_of_size_eq (hcells.trans hlength.symm)

/-- Every walk of a table that was extended over all of its rows can be put back into the order of its positions, in
any buffer with a cell for each of them. The walks of seeds give the seeds, in any cells of their number, so the cells
of one walk can be used for the next. -/
theorem read_back :
    (∀ t : Walks, t.Covered → ∀ i < t.count, ∃ w, t.walkAt i = .ok w ∧ w.ReadsBack t.arity) ∧
    ∀ (seeds : Rows Nat) (t : Walks), ofSeeds seeds = .ok t → t.count = seeds.count ∧
      ∀ i < seeds.count, ∀ cells : Array Nat, cells.size = t.arity →
        (t.walkAt i >>= fun w => w.writeTo cells) = .ok (seeds.row i).toArray := by
  refine ⟨fun t ht i hi => ht.readsBack hi, fun seeds t h => ⟨?_, fun i hi cells => writeTo_of_ofSeeds h hi⟩⟩
  rw [(holds_of_ofSeeds h).count_eq, Rows.length_toLists]

/-- Two seeds, one of them with a vertex twice, and a walk that was extended by a vertex it has. -/
theorem read_back_seeds :
    let seeds : Rows Nat := ⟨#[0, 2, 4], #[5, 3, 4, 4]⟩
    let t : Walks := ⟨2, ⟨#[0, 2, 4], #[3, 5, 4, 4]⟩, #[1, 0, 0, 1]⟩
    let longer : Walks := ⟨3, ⟨#[0, 3, 6], #[3, 5, 5, 4, 4, 9]⟩, #[1, 2, 0, 0, 1, 2]⟩
    ofSeeds seeds = .ok t ∧ (t.walkAt 1 >>= fun w => w.writeTo #[5, 3]) = .ok #[4, 4] ∧
      longer.Covered ∧ ∃ w, longer.walkAt 0 = .ok w ∧ w.vertexAt 3 = none ∧ w.writeTo #[7, 7] = breach .bounds ∧
        ∃ read, w.writeTo #[7, 7, 7, 8] = .ok read ∧ read[2]? = w.vertexAt 2 ∧ read[3]? = some 8 := by
  intro seeds t longer
  have hseeds : ofSeeds seeds = .ok t := by decide +kernel
  have hextend : t.extend (Pool.ofWorkers 2) [⟨0, 1⟩, ⟨1, 2⟩] ⟨#[0, 1, 2], #[5, 9]⟩ = .ok longer := by decide +kernel
  have htiles : Span.Tiles [⟨0, 1⟩, ⟨1, 2⟩] 0 2 := by simp [Span.Tiles]
  have hcovered : longer.Covered := (Covered.ofSeeds hseeds).extend ⟨by decide, by decide, by decide⟩ htiles hextend
  obtain ⟨hwalks, hread⟩ := read_back
  obtain ⟨w, hw, hback⟩ := hwalks longer hcovered 0 (by decide)
  obtain ⟨read, hwritten, _, hbound, hkept⟩ := hback.writeTo_of_le #[7, 7, 7, 8] (by decide)
  refine ⟨hseeds, (hread seeds t hseeds).2 1 (by decide) #[5, 3] rfl, hcovered, w, hw,
    (hback.vertexAt_eq_none 3).mpr (by decide), hback.writeTo_of_lt #[7, 7] (by decide), read, hwritten,
    hbound 2 (by decide), ?_⟩
  rw [hkept 3 (by decide)]
  rfl

end Walks

end Motif
