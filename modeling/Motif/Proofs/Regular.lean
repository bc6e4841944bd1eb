import Motif.Proofs.Holding

/-!
# The form of the tables of a search

Extending a table over all of its rows keeps it in one form (`Covered.regular`). Its two buffers are cut
into rows of one width, and a row binds each position once and has its vertices in order. Leaving the
vertices of a walk out of its candidates, finding the place of a new vertex and putting a walk back into
the order of positions all rely on this form. It does not take good candidates to keep it: they may be
out of order, in the walk already, or no vertices at all.

The way there is that such a table holds tuples (`Covered.holds`). Only rows that no span covers could
change that, since the walks of zeros that take their place hold none.
-/

namespace Motif

/-- A walk of the given arity that binds each position below it once. -/
structure Walk.Full (w : Walk) (arity : Nat) : Prop extends Walk.Shaped w arity where
  positions_perm : w.positions.Perm (List.range arity)

theorem Walk.Stores.full {w : Walk} {t : List Nat} (h : w.Stores t) : w.Full t.length :=
  ⟨h.toShaped, h.positions_perm⟩

namespace Walks

variable {arity : Nat} {t : Walks}

/-- The tables that come from one to start from by extending it over all of its rows, again and again. -/
inductive Covered : Walks → Prop
  | singles {n : Nat} {t : Walks} (h : singles n = .ok t) : Covered t
  | ofSeeds {seeds : Rows Nat} {t : Walks} (h : ofSeeds seeds = .ok t) : Covered t
  | extend {pool : Pool} {spans : List Span} {candidates : Rows Nat} {t longer : Walks}
      (ht : Covered t) (hwf : candidates.Wf) (htiles : Span.Tiles spans 0 t.count)
      (h : t.extend pool spans candidates = .ok longer) : Covered longer

/-- A table whose rows all take up as many cells as its arity says, and hold full walks. -/
structure Regular (t : Walks) : Prop where
  size_vertices : t.vertices.values.size = t.count * t.arity
  size_positions : t.positions.size = t.count * t.arity
  offsets : t.vertices.offsets = (Array.range (t.count + 1)).map (· * t.arity)
  full : ∀ i < t.count, ∃ w, t.walkAt i = .ok w ∧ w.Full t.arity

/-! ### Tables that hold tuples are regular -/

theorem regular_of_holds {ts : List (List Nat)} (h : t.Holds arity ts) : t.Regular := by
  obtain ⟨ws, rfl, hws⟩ := h.stored
  have hshaped := shaped_of_stores hws h.length
  refine ⟨?_, ?_, ?_, ?_⟩
  · rw [count_ofList, ofList, Rows.regular, List.size_toArray,
      length_flatten_of_forall (length_of_mem_vertices hshaped), List.length_map]
  · rw [count_ofList, size_positions_ofList hshaped]
    rfl
  · rw [count_ofList]
    rfl
  · intro i hi
    have hi' : i < ts.length := h.count_eq ▸ hi
    obtain ⟨w, hw, hstores⟩ := h.walkAt hi'
    have hfull := hstores.full
    rw [h.length _ (List.getElem_mem hi')] at hfull
    exact ⟨w, hw, hfull⟩

/-- Extending a table over all rows binds one more position in each of the tuples. -/
theorem Holds.of_extend {ts : List (List Nat)} {pool : Pool} {spans : List Span}
    {candidates : Rows Nat} {longer : Walks} (h : t.Holds arity ts) (hwf : candidates.Wf)
    (htiles : Span.Tiles spans 0 t.count) (hextend : t.extend pool spans candidates = .ok longer) :
    longer.Holds (arity + 1) (extendEach ts candidates.toLists) := by
  obtain ⟨_, hcount, _⟩ := bind_eq_ok.mp hextend
  rw [require_eq_ok, h.count_eq] at hcount
  have hlists : candidates.toLists.length = ts.length := by rw [Rows.length_toLists, hcount]
  rw [hwf.eq_ofLists] at hextend
  exact (h.grow pool htiles hlists).of_ok hextend

theorem Covered.holds (h : t.Covered) : ∃ ts, t.Holds t.arity ts := by
  induction h with
  | @singles n t h =>
    have hholds := (yields_singles_holds n).of_ok h
    rw [← hholds.arity_eq] at hholds
    exact ⟨_, hholds⟩
  | ofSeeds h => exact ⟨_, holds_of_ofSeeds h⟩
  | extend _ hwf htiles h ih =>
    obtain ⟨ts, hholds⟩ := ih
    have hlonger := hholds.of_extend hwf htiles h
    rw [← hlonger.arity_eq] at hlonger
    exact ⟨_, hlonger⟩

theorem Covered.stores (h : t.Covered) {i : Nat} {w : Walk} (hw : t.walkAt i = .ok w) :
    ∃ tuple, tuple.length = t.arity ∧ w.Stores tuple := by
  obtain ⟨ts, hholds⟩ := h.holds
  have hi : i < ts.length := hholds.count_eq ▸ lt_count_of_walkAt hw
  obtain ⟨w', hw', hstores⟩ := hholds.walkAt hi
  obtain rfl := Except.ok.inj (hw'.symm.trans hw)
  exact ⟨ts[i], hholds.length _ (List.getElem_mem hi), hstores⟩

/-- Whatever the candidates were, a table that was extended over all of its rows is regular. -/
theorem Covered.regular (h : t.Covered) : t.Regular := by
  obtain ⟨_, hholds⟩ := h.holds
  exact regular_of_holds hholds

/-- Two seeds, the second with a vertex twice, are extended by vertices they have already and by others
out of order, and one of the longer walks once more. -/
theorem regular_seeds : Regular ⟨4, ⟨#[0, 4], #[0, 3, 3, 5]⟩, #[2, 3, 1, 0]⟩ := by
  have hseeds : ofSeeds ⟨#[0, 2, 4], #[5, 3, 4, 4]⟩ =
      .ok ⟨2, ⟨#[0, 2, 4], #[3, 5, 4, 4]⟩, #[1, 0, 0, 1]⟩ := by decide +kernel
  have hfirst : extend (Pool.ofWorkers 2) [⟨0, 0⟩, ⟨0, 1⟩, ⟨1, 2⟩]
      ⟨2, ⟨#[0, 2, 4], #[3, 5, 4, 4]⟩, #[1, 0, 0, 1]⟩ ⟨#[0, 2, 3], #[5, 0, 9]⟩ =
        .ok ⟨3, ⟨#[0, 3, 6, 9], #[3, 5, 5, 0, 3, 5, 4, 4, 9]⟩, #[1, 2, 0, 2, 1, 0, 0, 1, 2]⟩ := by
    decide +kernel
  have hsecond : extend (Pool.ofWorkers 1) [⟨0, 2⟩, ⟨2, 3⟩]
      ⟨3, ⟨#[0, 3, 6, 9], #[3, 5, 5, 0, 3, 5, 4, 4, 9]⟩, #[1, 2, 0, 2, 1, 0, 0, 1, 2]⟩
        ⟨#[0, 0, 1, 1], #[3]⟩ = .ok ⟨4, ⟨#[0, 4], #[0, 3, 3, 5]⟩, #[2, 3, 1, 0]⟩ := by
    decide +kernel
  have htiles : Span.Tiles [⟨0, 0⟩, ⟨0, 1⟩, ⟨1, 2⟩] 0 2 := by simp [Span.Tiles]
  have hcovered := (Covered.ofSeeds hseeds).extend ⟨by decide, by decide, by decide⟩ htiles hfirst
  have htiles' : Span.Tiles [⟨0, 2⟩, ⟨2, 3⟩] 0 3 := by simp [Span.Tiles]
  exact (hcovered.extend ⟨by decide, by decide, by decide⟩ htiles' hsecond).regular

end Walks

end Motif
