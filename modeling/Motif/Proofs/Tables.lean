import Motif.Rows.Lemmas
import Motif.Proofs.Stored
import Motif.Proofs.Yields

/-!
# Tables of walks, as lists

A table that the library makes is determined by its arity and the list of its walks: its offsets are the
multiples of the arity, and its two buffers are the walks one after another. `Walks.ofList` is that table.
So a proof about a table speaks of a list of walks, and two tables with the same walks are equal down to
their buffers.
-/

namespace Motif

variable {α : Type}

/-! ### Rows of one width -/

theorem take_drop_flatten {lists : List (List α)} {width i : Nat}
    (h : ∀ l ∈ lists, l.length = width) (hi : i < lists.length) :
    (lists.flatten.drop (i * width)).take width = lists[i] := by
  induction lists generalizing i with
  | nil => contradiction
  | cons l lists ih =>
    have hl := h l List.mem_cons_self
    cases i with
    | zero => simp [← hl]
    | succ i =>
      have hrest := ih (fun l hl => h l (List.mem_cons_of_mem _ hl)) (Nat.lt_of_succ_lt_succ hi)
      rw [List.flatten_cons, Nat.succ_mul, Nat.add_comm, ← List.drop_drop, ← hl, List.drop_left, hl]
      exact hrest

theorem length_flatten_of_forall {lists : List (List α)} {width : Nat}
    (h : ∀ l ∈ lists, l.length = width) : lists.flatten.length = lists.length * width := by
  rw [List.length_flatten, List.map_congr_left h, List.map_const', List.sum_replicate_nat]

theorem length_flatMap_of_forall {β : Type} {l : List β} {f : β → List α} {width : Nat}
    (h : ∀ b ∈ l, (f b).length = width) : (l.flatMap f).length = l.length * width := by
  rw [List.length_flatMap, List.map_congr_left h, List.map_const', List.sum_replicate_nat]

namespace Rows

/-- The table of `n` rows of one width. -/
def regular (width n : Nat) (values : Array α) : Rows α :=
  ⟨(Array.range (n + 1)).map (· * width), values⟩

variable {width n i : Nat} {values : Array α}

@[simp] theorem count_regular : (regular width n values).count = n := by simp [regular, count]

theorem start_regular (hi : i ≤ n) : (regular width n values).start i = i * width := by
  simp [regular, start, Array.getD_eq_getD_getElem?, Nat.lt_succ_of_le hi]

theorem row_regular {lists : List (List α)} (h : ∀ l ∈ lists, l.length = width)
    (hi : i < lists.length) :
    (regular width lists.length lists.flatten.toArray).row i = lists[i] := by
  rw [row_eq, start_regular (Nat.le_of_lt hi), start_regular (i := i + 1) hi, Nat.succ_mul,
    Nat.add_sub_cancel_left, regular, List.toList_toArray]
  exact take_drop_flatten h hi

theorem toLists_regular {lists : List (List α)} (h : ∀ l ∈ lists, l.length = width) :
    (regular width lists.length lists.flatten.toArray).toLists = lists := by
  apply List.ext_getElem
  · rw [length_toLists, count_regular]
  · intro i hi hi'
    simp [toLists, row_regular h hi']

theorem wf_regular (hsize : values.size = n * width) : (regular width n values).Wf where
  first := by simp [regular]
  ascending := by
    simp only [regular, Array.toList_map, Array.toList_range, List.pairwise_map]
    exact List.pairwise_lt_range.imp fun h => Nat.mul_le_mul_right width (Nat.le_of_lt h)
  last := by simp [regular, Array.back?, hsize]

theorem yields_uniform (hwidth : 0 < width) (hsize : values.size = n * width) :
    Yields (uniform width values) fun r =>
      r = regular width n values ∧ n < Word.shortageFrom := by
  have hmod : values.size % width = 0 := by rw [hsize, Nat.mul_mod_left]
  have hdiv : values.size / width = n := by rw [hsize, Nat.mul_div_cancel _ hwidth]
  rw [uniform, if_neg (Nat.ne_of_gt hwidth), if_neg (by simp [hmod])]
  apply (Word.yields_addFor _ _ _).bind
  intro offsets hoffsets
  subst hoffsets
  apply (Word.yields_reserve _).bind
  intro _ hroom
  refine yields_pure ⟨by rw [hdiv, regular], ?_⟩
  omega

theorem uniform_eq_ok (hwidth : 0 < width) (hsize : values.size = n * width)
    (hroom : Word.reserve (n + 1) = .ok ()) : uniform width values = .ok (regular width n values) := by
  have hmod : values.size % width = 0 := by rw [hsize, Nat.mul_mod_left]
  have hdiv : values.size / width = n := by rw [hsize, Nat.mul_div_cancel _ hwidth]
  have hlt : n + 1 < Word.bound :=
    Nat.lt_trans (Word.lt_of_reserve hroom) Word.shortageFrom_lt_bound
  rw [uniform, if_neg (Nat.ne_of_gt hwidth), if_neg (by simp [hmod]), hdiv]
  dsimp only
  rw [Word.addFor_of_lt hlt]
  show (Word.reserve (n + 1) >>= _) = _
  rw [hroom]
  rfl

theorem reserve_of_uniform {r : Rows α} (hwidth : 0 < width) (h : uniform width values = .ok r) :
    Word.reserve (values.size / width + 1) = .ok () := by
  rw [uniform, if_neg (Nat.ne_of_gt hwidth)] at h
  split at h
  · contradiction
  · obtain ⟨offsets, hoffsets, h⟩ := bind_eq_ok.mp h
    obtain rfl := (Word.yields_addFor _ _ _).of_ok hoffsets
    obtain ⟨_, hroom, _⟩ := bind_eq_ok.mp h
    exact hroom

end Rows

namespace Walks

/-- The table of the given walks. -/
def ofList (arity : Nat) (ws : List Walk) : Walks where
  arity
  vertices := Rows.regular arity ws.length (ws.map Walk.vertices).flatten.toArray
  positions := (ws.map Walk.positions).flatten.toArray

variable {arity i : Nat} {ws : List Walk}

@[simp] theorem arity_ofList : (ofList arity ws).arity = arity := rfl

@[simp] theorem count_ofList : (ofList arity ws).count = ws.length := Rows.count_regular

theorem length_of_mem_vertices (h : ∀ w ∈ ws, w.Shaped arity) :
    ∀ l ∈ ws.map Walk.vertices, l.length = arity := by
  intro l hl
  obtain ⟨w, hw, rfl⟩ := List.mem_map.mp hl
  exact (h w hw).length_vertices

theorem length_of_mem_positions (h : ∀ w ∈ ws, w.Shaped arity) :
    ∀ l ∈ ws.map Walk.positions, l.length = arity := by
  intro l hl
  obtain ⟨w, hw, rfl⟩ := List.mem_map.mp hl
  exact (h w hw).length_positions

theorem size_positions_ofList (h : ∀ w ∈ ws, w.Shaped arity) :
    (ofList arity ws).positions.size = ws.length * arity := by
  rw [ofList, List.size_toArray, length_flatten_of_forall (length_of_mem_positions h),
    List.length_map]

theorem walk_ofList (h : ∀ w ∈ ws, w.Shaped arity) (hi : i < ws.length) :
    (ofList arity ws).walk i = ws[i] := by
  have hvertices : (ofList arity ws).vertices.row i = ws[i].vertices := by
    have hrow := Rows.row_regular (length_of_mem_vertices h)
      (show i < (ws.map Walk.vertices).length by simpa using hi)
    simpa [ofList] using hrow
  have hpositions : ((ofList arity ws).positions.extract ((ofList arity ws).vertices.start i)
      ((ofList arity ws).vertices.start (i + 1))).toList = ws[i].positions := by
    have hrow := take_drop_flatten (length_of_mem_positions h)
      (show i < (ws.map Walk.positions).length by simpa using hi)
    rw [ofList, Rows.start_regular (Nat.le_of_lt hi), Rows.start_regular (i := i + 1) hi,
      Nat.succ_mul]
    simpa using hrow
  rw [walk, hvertices, hpositions]

theorem toList_ofList (h : ∀ w ∈ ws, w.Shaped arity) : (ofList arity ws).toList = ws := by
  apply List.ext_getElem
  · simp [toList]
  · intro i hi hi'
    simp [toList, walk_ofList h hi']

theorem walkAt_ofList (h : ∀ w ∈ ws, w.Shaped arity) (hi : i < ws.length) :
    (ofList arity ws).walkAt i = .ok ws[i] := by
  have hstop : (ofList arity ws).vertices.start (i + 1) ≤ (ofList arity ws).positions.size := by
    rw [size_positions_ofList h, ofList, Rows.start_regular (i := i + 1) hi]
    exact Nat.mul_le_mul_right arity hi
  have hcount : i < (ofList arity ws).vertices.count := by
    rw [ofList, Rows.count_regular]
    exact hi
  rw [walkAt, Rows.rowRange, if_pos hcount]
  show (rely _ _ >>= _) = _
  rw [rely, if_pos hstop, ← walk_ofList h hi]
  rfl

theorem lt_count_of_walkAt {t : Walks} {w : Walk} (h : t.walkAt i = .ok w) : i < t.count := by
  obtain ⟨_, hrange, _⟩ := bind_eq_ok.mp h
  by_contra hge
  rw [Rows.rowRange, if_neg (show ¬ i < t.vertices.count from hge)] at hrange
  contradiction

theorem yields_ofSorted (harity : 0 < arity) (h : ∀ w ∈ ws, w.Shaped arity) :
    Yields (ofSorted arity (ws.map Walk.vertices).flatten.toArray
      (ws.map Walk.positions).flatten.toArray) fun t =>
        t = ofList arity ws ∧ ws.length < Word.shortageFrom := by
  have hvertices : (ws.map Walk.vertices).flatten.length = ws.length * arity := by
    rw [length_flatten_of_forall (length_of_mem_vertices h), List.length_map]
  have hpositions : (ws.map Walk.positions).flatten.length = ws.length * arity := by
    rw [length_flatten_of_forall (length_of_mem_positions h), List.length_map]
  rw [ofSorted, yields_require_bind (by simp [hvertices, hpositions])]
  apply (Rows.yields_uniform harity (by simpa using hvertices)).bind
  intro r hr
  exact yields_pure ⟨by rw [hr.1, ofList], hr.2⟩

end Walks

end Motif
