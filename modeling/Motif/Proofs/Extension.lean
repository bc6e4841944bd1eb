import Motif.Walks.Extend
import Motif.Proofs.RowLists
import Motif.Proofs.Scattered
import Motif.Proofs.Tables
import Motif.Proofs.Tasks
import Motif.Proofs.Tiling

/-!
# What a table of walks is extended to

Extending a table gives, for each row of each span, the walk of the row with each of its candidates, in
order (`yields_extend`). Spans that tile the rows give every row once. Other spans may leave rows
out, and then the new table is filled up with walks of zeros; that is all they can do to it.
-/

namespace Motif

/-- What is left at the end of a table that was not written to. -/
def Walk.zeros (arity : Nat) : Walk := ⟨List.replicate arity 0, List.replicate arity 0⟩

theorem Walk.shaped_zeros (arity : Nat) : (Walk.zeros arity).Shaped arity where
  length_vertices := List.length_replicate
  length_positions := List.length_replicate
  ascending := List.pairwise_replicate.mpr (Or.inr (Nat.le_refl 0))

theorem Walk.bounded_zeros (arity : Nat) : (Walk.zeros (arity + 1)).Bounded (arity + 1) where
  toShaped := Walk.shaped_zeros _
  positions_lt := by
    intro p hp
    rw [List.eq_of_mem_replicate hp]
    exact Nat.succ_pos arity

namespace Walks

variable {arity : Nat} {ws : List Walk} {candidates : Rows Nat} {span : Span} {slice : Slice}

/-! ### Writing walks -/

theorem place_eq {first : Nat} (h : ∀ w ∈ ws, w.Shaped arity)
    (hroom : first + ws.length * arity ≤ slice.length) :
    place arity slice ws first = .ok
      ⟨Write.run (slice.start + first) (ws.flatMap Walk.vertices),
        Write.run (slice.start + first) (ws.flatMap Walk.positions)⟩ := by
  induction ws generalizing first with
  | nil => rfl
  | cons w ws ih =>
    have hw := h w List.mem_cons_self
    rw [List.length_cons, Nat.succ_mul] at hroom
    have hrest := @ih (first + arity) (fun v hv => h v (List.mem_cons_of_mem _ hv)) (by omega)
    rw [place, Slice.window_eq (by omega)]
    show (Slice.copy _ _ >>= _) = _
    rw [Slice.copy_eq hw.length_vertices]
    show (Slice.copy _ _ >>= _) = _
    rw [Slice.copy_eq hw.length_positions]
    show (place _ _ _ _ >>= _) = _
    rw [hrest, List.flatMap_cons, List.flatMap_cons, Write.run_append, Write.run_append,
      hw.length_vertices, hw.length_positions, Nat.add_assoc]
    rfl

/-- The walk of row `i` with each of its candidates. -/
def grown (t : Walks) (candidates : Rows Nat) (i : Nat) : List Walk :=
  (candidates.row i).map ((t.walk i).insert t.arity)

theorem extensions_eq {i : Nat} (h : ∀ w ∈ ws, w.Shaped arity) (hi : i < ws.length)
    (hcount : candidates.count = ws.length) :
    (ofList arity ws).extensions candidates i = .ok ((ofList arity ws).grown candidates i) := by
  rw [extensions, walkAt_ofList h hi, grown, walk_ofList h hi, Rows.rowAt, if_pos (hcount ▸ hi)]
  rfl

theorem shaped_of_mem_grown {i : Nat} (h : ∀ w ∈ ws, w.Shaped arity) (hi : i < ws.length) :
    ∀ w ∈ (ofList arity ws).grown candidates i, w.Shaped (arity + 1) := by
  intro w hw
  obtain ⟨v, _, rfl⟩ := List.mem_map.mp hw
  rw [walk_ofList h hi]
  exact (h _ (List.getElem_mem hi)).insert _ v

/-- What the task of one span writes into its slice. -/
def laid (t : Walks) (candidates : Rows Nat) : Span × Slice → Writes
  | (span, slice) =>
    ⟨Write.run slice.start ((span.rows.flatMap (t.grown candidates)).flatMap Walk.vertices),
      Write.run slice.start ((span.rows.flatMap (t.grown candidates)).flatMap Walk.positions)⟩

theorem length_grown (t : Walks) (rows : List Nat) :
    (rows.flatMap (t.grown candidates)).length = (rows.flatMap candidates.row).length := by
  simp [List.length_flatMap, grown]

theorem writes_eq_laid (h : ∀ w ∈ ws, w.Shaped arity) (hcount : candidates.count = ws.length)
    (hrows : ∀ i ∈ span.rows, i < ws.length)
    (hslice : slice.length = (span.rows.flatMap candidates.row).length * (arity + 1)) :
    (ofList arity ws).writes candidates span slice =
      .ok ((ofList arity ws).laid candidates (span, slice)) := by
  have hwalks : span.rows.mapM ((ofList arity ws).extensions candidates) =
      .ok (span.rows.map ((ofList arity ws).grown candidates)) :=
    mapM_eq_ok fun i hi => extensions_eq h (hrows i hi) hcount
  have hshaped : ∀ w ∈ span.rows.flatMap ((ofList arity ws).grown candidates),
      w.Shaped (arity + 1) := by
    intro w hw
    obtain ⟨i, hi, hw⟩ := List.mem_flatMap.mp hw
    exact shaped_of_mem_grown h (hrows i hi) w hw
  rw [writes, hwalks]
  show place (arity + 1) slice (List.flatten _) 0 = _
  rw [← List.flatMap_def, place_eq hshaped (by rw [length_grown, hslice]; omega)]
  rfl

/-! ### Cutting the new table -/

/-- A span of rows of a table whose width is what its rows take up. A span that runs backwards has no
rows, and is of no width if there are no values between its ends. -/
structure Fits (candidates : Rows Nat) (span : Span) : Prop where
  lo_le : span.lo ≤ candidates.count
  hi_le : span.hi ≤ candidates.count
  forward : span.lo ≤ span.hi ∨ candidates.start span.hi = candidates.start span.lo

/-- The values of the rows of a span. -/
theorem length_rows (hwf : candidates.Wf) (hlo : span.lo ≤ span.hi)
    (hhi : span.hi ≤ candidates.count) :
    (span.rows.flatMap candidates.row).length =
      candidates.start span.hi - candidates.start span.lo := by
  obtain ⟨lo, hi⟩ := span
  simp only [Span.rows] at hlo hhi ⊢
  obtain ⟨n, rfl⟩ := Nat.le.dest hlo
  rw [Nat.add_sub_cancel_left]
  clear hlo
  induction n with
  | zero => simp
  | succ n ih =>
    have hmono := hwf.start_mono (Nat.le_add_right lo n) (by omega)
    have hnext : candidates.start (lo + n) ≤ candidates.start (lo + n + 1) :=
      hwf.start_mono (Nat.le_succ _) hhi
    have hrow : (candidates.row (lo + n)).length =
        candidates.start (lo + n + 1) - candidates.start (lo + n) := by
      have hend : candidates.start (lo + n + 1) ≤ candidates.values.size := hwf.start_le hhi
      rw [Rows.row_eq, List.length_take, List.length_drop, Array.length_toList]
      omega
    rw [List.range'_1_concat, List.flatMap_append, List.length_append, ih (by omega),
      List.flatMap_singleton, hrow, ← Nat.add_assoc]
    omega

theorem rows_lt_of_fits (h : Fits candidates span) : ∀ i ∈ span.rows, i < candidates.count := by
  intro i hi
  have hmem := List.mem_range'_1.mp hi
  have := h.hi_le
  omega

/-- The width of a span is computed from the offsets at its ends, which have to exist. -/
theorem width_eq_ok_iff (hwf : candidates.Wf) {n w : Nat} :
    width candidates n span = .ok w ↔ span.lo ≤ candidates.count ∧ span.hi ≤ candidates.count ∧
      Word.mul (Word.sub (candidates.start span.hi) (candidates.start span.lo)) n = w := by
  have hnone : ∀ i, ¬ i ≤ candidates.count → candidates.offsets[i]? = none := by
    intro i hi
    rw [Array.getElem?_eq_none]
    rw [hwf.offsets_size]
    omega
  rw [width]
  by_cases hhi : span.hi ≤ candidates.count
  · by_cases hlo : span.lo ≤ candidates.count
    · rw [hwf.getElem?_offsets hhi, hwf.getElem?_offsets hlo]
      refine ⟨?_, ?_⟩
      · exact fun h => ⟨hlo, hhi, Except.ok.inj h⟩
      · exact fun h => congrArg Except.ok h.2.2
    · rw [hwf.getElem?_offsets hhi, hnone _ hlo]
      refine ⟨?_, ?_⟩
      · intro h
        contradiction
      · exact fun h => absurd h.1 hlo
  · rw [hnone _ hhi]
    refine ⟨?_, ?_⟩
    · intro h
      contradiction
    · exact fun h => absurd h.2.1 hhi

theorem width_eq (hwf : candidates.Wf) {n : Nat} (hn : candidates.size * n < Word.bound)
    (hpos : 0 < n) (h : Fits candidates span) :
    width candidates n span = .ok ((span.rows.flatMap candidates.row).length * n) := by
  refine (width_eq_ok_iff hwf).mpr ⟨h.lo_le, h.hi_le, ?_⟩
  have hend : candidates.start span.hi ≤ candidates.size := hwf.start_le h.hi_le
  have hsize : candidates.size ≤ candidates.size * n := Nat.le_mul_of_pos_right _ hpos
  by_cases hlo : span.lo ≤ span.hi
  · have hmono := hwf.start_mono hlo h.hi_le
    have hproduct : (candidates.start span.hi - candidates.start span.lo) * n < Word.bound :=
      Nat.lt_of_le_of_lt (Nat.mul_le_mul_right n (by omega)) hn
    rw [length_rows hwf hlo h.hi_le, Word.sub_of_le hmono (by omega), Word.mul_of_lt hproduct]
  · have hsame := h.forward.resolve_left hlo
    have hrows : span.rows = [] := by
      rw [Span.rows, show span.hi - span.lo = 0 by omega]
      rfl
    rw [hsame, Word.sub_of_le (Nat.le_refl _) (by omega), hrows, Nat.sub_self]
    simp [Word.mul]

/-- A difference that wraps around is wider than any table, also when it is multiplied. -/
theorem le_mul_sub {a b n total : Nat} (hab : a < b) (hpos : 0 < n) (hb : b * n ≤ total)
    (htotal : total < Word.shortageFrom) : total < Word.mul (Word.sub a b) n := by
  obtain ⟨d, rfl⟩ := Nat.le.dest (Nat.le_of_lt hab)
  have hd : 0 < d := by omega
  have hbn : a + d ≤ (a + d) * n := Nat.le_mul_of_pos_right _ hpos
  have hdn : d * n ≤ (a + d) * n := Nat.mul_le_mul_right n (Nat.le_add_left d a)
  have hdpos : 0 < d * n := Nat.mul_pos hd hpos
  have hlarge : Word.shortageFrom + Word.shortageFrom < Word.bound := by decide
  have hsub : Word.sub a (a + d) = Word.bound - d := by
    rw [Word.sub, show a + (Word.bound - (a + d)) = Word.bound - d by omega,
      Nat.mod_eq_of_lt (by omega)]
  have hproduct : (Word.bound - d) * n = (Word.bound - d * n) + Word.bound * (n - 1) := by
    have hsplit : Word.bound * n = Word.bound * (n - 1) + Word.bound := by
      rw [← Nat.mul_succ, Nat.succ_eq_add_one, Nat.sub_add_cancel hpos]
    rw [Nat.sub_mul]
    omega
  rw [hsub, Word.mul, hproduct, Nat.add_mul_mod_self_left, Nat.mod_eq_of_lt (by omega)]
  omega

theorem fits_of_width (hwf : candidates.Wf) {n w : Nat} (hpos : 0 < n)
    (hn : candidates.size * n < Word.shortageFrom) (hw : w ≤ candidates.size * n)
    (h : width candidates n span = .ok w) : Fits candidates span := by
  obtain ⟨hlo, hhi, hwidth⟩ := (width_eq_ok_iff hwf).mp h
  refine ⟨hlo, hhi, ?_⟩
  by_contra hback
  obtain ⟨hlt, hne⟩ := not_or.mp hback
  have hmono := hwf.start_mono (Nat.le_of_lt (Nat.not_le.mp hlt)) hlo
  have hwide := le_mul_sub (Nat.lt_of_le_of_ne hmono hne) hpos
    (Nat.mul_le_mul_right n (hwf.start_le hlo)) hn
  rw [hwidth] at hwide
  exact absurd hw (Nat.not_le.mpr hwide)

/-! ### The new table -/

/-- The walks that the spans write: those that extend the rows of the spans, in order. -/
def written (t : Walks) (candidates : Rows Nat) (spans : List Span) : List Walk :=
  (spans.flatMap Span.rows).flatMap (t.grown candidates)

/-- The walks that the spans write, and walks of zeros for the rest of the candidates. -/
def filled (t : Walks) (candidates : Rows Nat) (spans : List Span) : List Walk :=
  t.written candidates spans ++
    List.replicate (candidates.size - (t.written candidates spans).length) (Walk.zeros (t.arity + 1))

/-- The table of the walks that the spans write, filled up with walks of zeros. -/
def extended (t : Walks) (candidates : Rows Nat) (spans : List Span) : Walks :=
  ofList (t.arity + 1) (t.filled candidates spans)

variable {spans : List Span}

theorem length_written (t : Walks) (spans : List Span) :
    (t.written candidates spans).length = ((spans.flatMap Span.rows).flatMap candidates.row).length :=
  length_grown t _

theorem total_widths (candidates : Rows Nat) (n : Nat) (spans : List Span) :
    Word.total (spans.map fun span => (span.rows.flatMap candidates.row).length * n) =
      ((spans.flatMap Span.rows).flatMap candidates.row).length * n := by
  induction spans with
  | nil => exact (Nat.zero_mul n).symm
  | cons span spans ih =>
    rw [List.map_cons, Word.total_cons, ih, List.flatMap_cons, List.flatMap_append,
      List.length_append, Nat.add_mul]

theorem widths_eq (hwf : candidates.Wf) {n : Nat} (hn : candidates.size * n < Word.bound)
    (hpos : 0 < n) (hfits : ∀ span ∈ spans, Fits candidates span) :
    spans.mapM (width candidates n) =
      .ok (spans.map fun span => (span.rows.flatMap candidates.row).length * n) :=
  mapM_eq_ok fun span hspan => width_eq hwf hn hpos (hfits span hspan)

/-- The new table has room for the slices of all spans. -/
theorem cut_widths {n : Nat}
    (hroom : ((spans.flatMap Span.rows).flatMap candidates.row).length ≤ candidates.size) :
    Slice.cut 0 (candidates.size * n)
      (spans.map fun span => (span.rows.flatMap candidates.row).length * n) =
        .ok (Slice.consecutive 0 (spans.map fun span => (span.rows.flatMap candidates.row).length * n)) := by
  rw [Slice.cut_eq, total_widths, if_pos (Nat.mul_le_mul_right n hroom)]

/-- A walk that is written extends a walk of the table. -/
theorem of_mem_written (h : ∀ w ∈ ws, w.Shaped arity) (hcount : candidates.count = ws.length)
    (hfits : ∀ span ∈ spans, Fits candidates span) {longer : Walk}
    (hmem : longer ∈ (ofList arity ws).written candidates spans) :
    ∃ w ∈ ws, ∃ v, longer = w.insert arity v := by
  obtain ⟨i, hi, hmem⟩ := List.mem_flatMap.mp hmem
  obtain ⟨span, hspan, hi⟩ := List.mem_flatMap.mp hi
  obtain ⟨v, _, rfl⟩ := List.mem_map.mp hmem
  have hlt : i < ws.length := hcount ▸ rows_lt_of_fits (hfits span hspan) i hi
  rw [walk_ofList h hlt]
  exact ⟨ws[i], List.getElem_mem hlt, v, rfl⟩

/-- What binding one more position keeps holds of the walks of the new table, if it holds of the walks
that the table is filled up with. -/
theorem forall_mem_filled {keeps : Walk → Prop} (h : ∀ w ∈ ws, w.Shaped arity)
    (hcount : candidates.count = ws.length) (hfits : ∀ span ∈ spans, Fits candidates span)
    (hinsert : ∀ w ∈ ws, ∀ v, keeps (w.insert arity v)) (hzeros : keeps (Walk.zeros (arity + 1))) :
    ∀ w ∈ (ofList arity ws).filled candidates spans, keeps w := by
  intro longer hmem
  rcases List.mem_append.mp hmem with hmem | hmem
  · obtain ⟨w, hw, v, rfl⟩ := of_mem_written h hcount hfits hmem
    exact hinsert w hw v
  · rw [List.eq_of_mem_replicate hmem]
    exact hzeros

theorem shaped_of_mem_written (h : ∀ w ∈ ws, w.Shaped arity) (hcount : candidates.count = ws.length)
    (hfits : ∀ span ∈ spans, Fits candidates span) :
    ∀ w ∈ (ofList arity ws).written candidates spans, w.Shaped (arity + 1) := by
  intro longer hmem
  obtain ⟨w, hw, v, rfl⟩ := of_mem_written h hcount hfits hmem
  exact (h w hw).insert arity v

theorem shaped_of_mem_filled (h : ∀ w ∈ ws, w.Shaped arity) (hcount : candidates.count = ws.length)
    (hfits : ∀ span ∈ spans, Fits candidates span) :
    ∀ w ∈ (ofList arity ws).filled candidates spans, w.Shaped (arity + 1) :=
  forall_mem_filled h hcount hfits (fun w hw => (h w hw).insert arity) (Walk.shaped_zeros _)

/-- The spans with their slices of a buffer that holds `n` cells for each candidate. -/
def allotted (candidates : Rows Nat) (n : Nat) (spans : List Span) : List (Span × Slice) :=
  spans.zip (Slice.consecutive 0 (spans.map fun span =>
    (span.rows.flatMap candidates.row).length * n))

theorem of_mem_allotted {n : Nat} (h : (span, slice) ∈ allotted candidates n spans) :
    span ∈ spans ∧ slice.length = (span.rows.flatMap candidates.row).length * n := by
  have hlength := Slice.length_of_mem_zip h
  exact ⟨(List.of_mem_zip h).1, hlength⟩

/-- The tasks write the walks of all spans, one after another. -/
theorem flatten_laid {part : Walk → List Nat} {field : Writes → List Write} {n : Nat} (t : Walks)
    (hfield : ∀ span slice, field (t.laid candidates (span, slice)) =
      Write.run slice.start ((span.rows.flatMap (t.grown candidates)).flatMap part))
    (hpart : ∀ w ∈ t.written candidates spans, (part w).length = n) :
    (((allotted candidates n spans).map (t.laid candidates)).map field).flatten =
      Write.run 0 ((t.written candidates spans).map part).flatten := by
  have hspan : ∀ span ∈ spans, ((span.rows.flatMap (t.grown candidates)).flatMap part).length =
      (span.rows.flatMap candidates.row).length * n := by
    intro span hspan
    rw [length_flatMap_of_forall, length_grown]
    intro w hw
    obtain ⟨i, hi, hw⟩ := List.mem_flatMap.mp hw
    exact hpart w (List.mem_flatMap.mpr ⟨i, List.mem_flatMap.mpr ⟨span, hspan, hi⟩, hw⟩)
  have hvalues : (spans.flatMap fun span => (span.rows.flatMap (t.grown candidates)).flatMap part) =
      ((t.written candidates spans).map part).flatten := by
    simp only [written, ← List.flatMap_def, List.flatMap_assoc]
  rw [← hvalues, ← Slice.flatten_map_zip hspan 0, List.map_map]
  exact congrArg List.flatten (List.map_congr_left fun task _ => hfield task.1 task.2)

/-- What all tasks leave in one of the two buffers of the new table. -/
theorem commit_laid {part : Walk → List Nat} {field : Writes → List Write} {n : Nat} (t : Walks)
    (hn : t.arity + 1 = n)
    (hfield : ∀ span slice, field (t.laid candidates (span, slice)) =
      Write.run slice.start ((span.rows.flatMap (t.grown candidates)).flatMap part))
    (hpart : ∀ w ∈ t.written candidates spans, (part w).length = n)
    (hzeros : part (Walk.zeros n) = List.replicate n 0)
    (hroom : (t.written candidates spans).length ≤ candidates.size) :
    Scatter.commit (candidates.size * n)
      (((allotted candidates n spans).map (t.laid candidates)).map field) =
        ((t.filled candidates spans).map part).flatten.toArray := by
  have hflatten := flatten_laid t hfield hpart
  have hlength : ((t.written candidates spans).map part).flatten.length =
      (t.written candidates spans).length * n := by
    rw [← List.flatMap_def, length_flatMap_of_forall hpart]
  have hfits : 0 + ((t.written candidates spans).map part).flatten.length ≤ candidates.size * n := by
    rw [Nat.zero_add, hlength]
    exact Nat.mul_le_mul_right n hroom
  rw [Scatter.commit_run hflatten hfits, filled, hn, List.map_append, List.flatten_append, List.map_replicate,
    hzeros, List.flatten_replicate_replicate, hlength, Nat.zero_add, Nat.sub_mul]
  rfl

/-- A task has a slice that its rows fill. -/
theorem writes_of_mem_allotted (h : ∀ w ∈ ws, w.Shaped arity) (hcount : candidates.count = ws.length)
    (hfits : ∀ span ∈ spans, Fits candidates span) :
    ∀ task ∈ allotted candidates (arity + 1) spans,
      (ofList arity ws).writes candidates task.1 task.2 =
        .ok ((ofList arity ws).laid candidates task) := by
  intro task htask
  obtain ⟨hspan, hslice⟩ := of_mem_allotted htask
  exact writes_eq_laid h hcount (fun i hi => hcount ▸ rows_lt_of_fits (hfits _ hspan) i hi) hslice

/-- What all tasks leave in both buffers. -/
theorem commit_writes (h : ∀ w ∈ ws, w.Shaped arity) (hcount : candidates.count = ws.length)
    (hfits : ∀ span ∈ spans, Fits candidates span)
    (hroom : ((spans.flatMap Span.rows).flatMap candidates.row).length ≤ candidates.size) :
    Scatter.commit (candidates.size * (arity + 1)) (((allotted candidates (arity + 1) spans).map
      ((ofList arity ws).laid candidates)).map (·.vertices)) =
        (((ofList arity ws).filled candidates spans).map Walk.vertices).flatten.toArray ∧
    Scatter.commit (candidates.size * (arity + 1)) (((allotted candidates (arity + 1) spans).map
      ((ofList arity ws).laid candidates)).map (·.positions)) =
        (((ofList arity ws).filled candidates spans).map Walk.positions).flatten.toArray := by
  have hshaped := shaped_of_mem_written h hcount hfits
  have hn : (ofList arity ws).arity + 1 = arity + 1 := rfl
  rw [← length_written (ofList arity ws)] at hroom
  exact ⟨commit_laid _ hn (fun _ _ => rfl) (fun w hw => (hshaped w hw).length_vertices) rfl hroom,
    commit_laid _ hn (fun _ _ => rfl) (fun w hw => (hshaped w hw).length_positions) rfl hroom⟩

/-- Extending asks for the two buffers of the new table and takes what the tasks write to them. -/
theorem extend_eq (pool : Pool) (h : ∀ w ∈ ws, w.Shaped arity) (hwf : candidates.Wf)
    (hcount : candidates.count = ws.length) (hlast : Span.last spans = candidates.count)
    (hfits : ∀ span ∈ spans, Fits candidates span)
    (hroom : ((spans.flatMap Span.rows).flatMap candidates.row).length ≤ candidates.size) :
    extend pool spans (ofList arity ws) candidates = (do
      Word.reserve (← Word.mulFor "walk table" candidates.size (arity + 1))
      let walks := (ofList arity ws).filled candidates spans
      ofSorted (arity + 1) (walks.map Walk.vertices).flatten.toArray
        (walks.map Walk.positions).flatten.toArray) := by
  obtain ⟨hvertices, hpositions⟩ := commit_writes h hcount hfits hroom
  rw [extend, require_eq_ok.mpr (hcount.trans count_ofList.symm)]
  show (require _ _ >>= _) = _
  rw [require_eq_ok.mpr hlast]
  show (Word.mulFor _ _ _ >>= _) = _
  apply bind_congr_of_ok
  intro total htotal
  obtain rfl := (Word.yields_mulFor _ _ _).of_ok htotal
  apply bind_congr_of_ok
  intro _ hreserve
  have hbound : candidates.size * (arity + 1) < Word.bound :=
    Nat.lt_trans (Word.lt_of_reserve hreserve) Word.shortageFrom_lt_bound
  rw [arity_ofList, widths_eq hwf hbound (Nat.succ_pos arity) hfits]
  show (Slice.cut _ _ _ >>= _) = _
  rw [cut_widths hroom]
  show (Pool.settle (pool.runAll (allotted candidates (arity + 1) spans) _) >>= _) = _
  rw [Pool.settle_eq_ok pool (writes_of_mem_allotted h hcount hfits)]
  show ofSorted _ (Scatter.commit _ _) (Scatter.commit _ _) = _
  rw [hvertices, hpositions]

theorem yields_extend (pool : Pool) (h : ∀ w ∈ ws, w.Shaped arity) (hwf : candidates.Wf)
    (hcount : candidates.count = ws.length) (hlast : Span.last spans = candidates.count)
    (hfits : ∀ span ∈ spans, Fits candidates span)
    (hroom : ((spans.flatMap Span.rows).flatMap candidates.row).length ≤ candidates.size) :
    Yields (extend pool spans (ofList arity ws) candidates) fun t =>
      t = (ofList arity ws).extended candidates spans ∧ t.count < Word.shortageFrom := by
  rw [extend_eq pool h hwf hcount hlast hfits hroom]
  apply (Word.yields_mulFor _ _ _).bind
  intro _ _
  apply (Word.yields_reserve _).bind
  intro _ _
  refine (yields_ofSorted (Nat.succ_pos arity)
    (shaped_of_mem_filled h hcount hfits)).mono fun t ht => ⟨ht.1, ?_⟩
  rw [ht.1, count_ofList]
  exact ht.2

/-! ### Spans that tile the rows -/

section Tiling

variable (hcount : candidates.count = ws.length) (htiles : Span.Tiles spans 0 ws.length)

include hcount htiles

theorem fits_of_tiles : ∀ span ∈ spans, Fits candidates span := by
  intro span hspan
  obtain ⟨hlo, hhi⟩ := htiles.bounds span hspan
  exact ⟨by omega, by omega, Or.inl hlo⟩

theorem length_rows_of_tiles (hwf : candidates.Wf) :
    ((spans.flatMap Span.rows).flatMap candidates.row).length = candidates.size := by
  rw [htiles.flatMap_rows_zero, ← hcount, hwf.size_eq]
  rfl

/-- Every candidate is written, and nothing is left to be filled up. -/
theorem filled_of_tiles (hwf : candidates.Wf) :
    (ofList arity ws).filled candidates spans =
      (List.range ws.length).flatMap ((ofList arity ws).grown candidates) := by
  rw [filled, length_written, length_rows_of_tiles hcount htiles hwf, Nat.sub_self, written,
    htiles.flatMap_rows_zero, List.replicate_zero, List.append_nil]

/-- How the spans tile the rows does not show. -/
theorem extend_eq_of_tiles (pool : Pool) (h : ∀ w ∈ ws, w.Shaped arity) (hwf : candidates.Wf) :
    extend pool spans (ofList arity ws) candidates = (do
      Word.reserve (← Word.mulFor "walk table" candidates.size (arity + 1))
      let walks := (List.range ws.length).flatMap ((ofList arity ws).grown candidates)
      ofSorted (arity + 1) (walks.map Walk.vertices).flatten.toArray
        (walks.map Walk.positions).flatten.toArray) := by
  rw [extend_eq pool h hwf hcount (htiles.last_zero.trans hcount.symm)
    (fits_of_tiles hcount htiles) (Nat.le_of_eq (length_rows_of_tiles hcount htiles hwf)),
    filled_of_tiles hcount htiles hwf]

/-- Spans that tile the rows extend every walk by each of its candidates. -/
theorem yields_extend_of_tiles (pool : Pool) (h : ∀ w ∈ ws, w.Shaped arity) (hwf : candidates.Wf) :
    Yields (extend pool spans (ofList arity ws) candidates) fun t =>
      t = ofList (arity + 1)
        ((List.range ws.length).flatMap ((ofList arity ws).grown candidates)) ∧
          t.count < Word.shortageFrom := by
  refine (yields_extend pool h hwf hcount (htiles.last_zero.trans hcount.symm)
    (fits_of_tiles hcount htiles) (Nat.le_of_eq (length_rows_of_tiles hcount htiles hwf))).mono
      fun t ht => ⟨?_, ht.2⟩
  rw [ht.1, extended, filled_of_tiles hcount htiles hwf, arity_ofList]

end Tiling

/-- Whatever the spans, a table that comes out is the one that their rows are extended to. -/
theorem of_extend {pool : Pool} {t : Walks} (h : ∀ w ∈ ws, w.Shaped arity) (hwf : candidates.Wf)
    (hextend : extend pool spans (ofList arity ws) candidates = .ok t) :
    (∀ span ∈ spans, Fits candidates span) ∧ candidates.count = ws.length ∧
      ((spans.flatMap Span.rows).flatMap candidates.row).length ≤ candidates.size ∧
      t = (ofList arity ws).extended candidates spans := by
  obtain ⟨_, hcount, hrest⟩ := bind_eq_ok.mp hextend
  rw [require_eq_ok, count_ofList] at hcount
  obtain ⟨_, hlast, hrest⟩ := bind_eq_ok.mp hrest
  rw [require_eq_ok] at hlast
  obtain ⟨total, htotal, hrest⟩ := bind_eq_ok.mp hrest
  obtain rfl := (Word.yields_mulFor _ _ _).of_ok htotal
  obtain ⟨_, hreserve, hrest⟩ := bind_eq_ok.mp hrest
  have hshort := Word.lt_of_reserve hreserve
  obtain ⟨widths, hwidths, hrest⟩ := bind_eq_ok.mp hrest
  obtain ⟨slices, hslices, hrest⟩ := bind_eq_ok.mp hrest
  rw [Slice.cut_eq] at hslices
  have hsum : Word.total widths ≤ candidates.size * (arity + 1) := by
    by_contra hlarge
    rw [arity_ofList, if_neg hlarge] at hslices
    contradiction
  have hfits : ∀ span ∈ spans, Fits candidates span := by
    intro span hspan
    obtain ⟨w, hmem, hw⟩ := ok_of_mapM hwidths hspan
    exact fits_of_width hwf (Nat.succ_pos arity) hshort
      (Nat.le_trans (Word.le_total_of_mem hmem) hsum) hw
  have hbound : candidates.size * (arity + 1) < Word.bound :=
    Nat.lt_trans hshort Word.shortageFrom_lt_bound
  rw [arity_ofList, widths_eq hwf hbound (Nat.succ_pos arity) hfits] at hwidths
  obtain rfl := Except.ok.inj hwidths
  rw [total_widths] at hsum
  have hroom := Nat.le_of_mul_le_mul_right hsum (Nat.succ_pos arity)
  exact ⟨hfits, hcount, hroom, ((yields_extend pool h hwf hcount hlast hfits hroom).of_ok hextend).1⟩

end Walks

end Motif
