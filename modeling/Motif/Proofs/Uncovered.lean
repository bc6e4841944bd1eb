import Motif.Proofs.Built

/-!
# Spans that leave rows out

Extending a table asks for spans that end where the rows end, and this is all it asks of them. Spans that
lie one after another from row zero on cannot leave out a row without being refused. Other spans can: they may
begin later, leave a gap, or come in another order. The table that is then returned has the walks of the rows
that were given, and a walk of zeros in place of each candidate that is missing (`Built.extend_of_spans`).
No walk of zeros extends a walk, so such a table is no table of partial matches.
-/

namespace Motif.Walks

variable {t : Walks} {candidates : Rows Nat} {spans : List Span}

/-- The walk binds one more position than a walk of the table, to a candidate of that walk. -/
def Extends (t : Walks) (candidates : Rows Nat) (longer : Walk) : Prop :=
  ∃ i < t.count, ∃ v ∈ candidates.row i, longer = (t.walk i).insert t.arity v

instance (t : Walks) (candidates : Rows Nat) (longer : Walk) :
    Decidable (t.Extends candidates longer) :=
  inferInstanceAs (Decidable
    (∃ i < t.count, ∃ v ∈ candidates.row i, longer = (t.walk i).insert t.arity v))

theorem Built.arity_pos (h : t.Built) : 0 < t.arity := by
  induction h with
  | singles h =>
    obtain ⟨rfl, _⟩ := (yields_singles _).of_ok h
    exact Nat.one_pos
  | ofSeeds h => exact (of_ofSeeds h).2.1
  | extend ht hwf h _ =>
    obtain ⟨ws, htable, hshaped⟩ := ht.eq_ofList_shaped
    rw [htable] at h
    obtain ⟨_, _, _, rfl⟩ := of_extend hshaped hwf h
    exact Nat.succ_pos _

/-- The new position is not zero. -/
theorem not_extends_zeros (hpos : 0 < t.arity) (n : Nat) : ¬ t.Extends candidates (Walk.zeros n) := by
  rintro ⟨i, _, v, _, h⟩
  have hmem : t.arity ∈ (Walk.zeros n).positions := by
    rw [h, Walk.insert]
    simp
  rw [List.eq_of_mem_replicate hmem] at hpos
  exact Nat.lt_irrefl 0 hpos

theorem extends_of_mem_written (hcount : candidates.count = t.count)
    (hfits : ∀ span ∈ spans, Fits candidates span) :
    ∀ w ∈ t.written candidates spans, t.Extends candidates w := by
  intro w hw
  obtain ⟨i, hi, hw⟩ := List.mem_flatMap.mp hw
  obtain ⟨span, hspan, hi⟩ := List.mem_flatMap.mp hi
  obtain ⟨v, hv, rfl⟩ := List.mem_map.mp hw
  exact ⟨i, hcount ▸ rows_lt_of_fits (hfits span hspan) i hi, v, hv, rfl⟩

/-- A table has no walk that came out of nowhere just when no candidate is missing. -/
theorem forall_extends_iff (hpos : 0 < t.arity) (hcount : candidates.count = t.count)
    (hfits : ∀ span ∈ spans, Fits candidates span)
    (hroom : (t.written candidates spans).length ≤ candidates.size) :
    (∀ w ∈ t.filled candidates spans, t.Extends candidates w) ↔
      (t.written candidates spans).length = candidates.size := by
  refine ⟨fun hall => ?_, fun hfull => ?_⟩
  · by_contra hne
    have hzeros : Walk.zeros (t.arity + 1) ∈ t.filled candidates spans := by
      refine List.mem_append_right _ (List.mem_replicate.mpr ⟨?_, rfl⟩)
      omega
    exact not_extends_zeros hpos _ (hall _ hzeros)
  · rw [filled, hfull, Nat.sub_self, List.replicate_zero, List.append_nil]
    exact extends_of_mem_written hcount hfits

theorem extend_of_last_ne (pool : Pool) (hcount : candidates.count = t.count)
    (hlast : Span.last spans ≠ t.count) :
    t.extend pool spans candidates = refuse (.mismatch .uncoveredRows) := by
  rw [extend, require_eq_ok.mpr hcount]
  show (require _ _ >>= _) = _
  rw [require, if_neg (hcount.symm ▸ hlast)]
  rfl

/-- Whether the spans leave rows out is seen by where the last of them ends and by nothing else. That is
enough for spans that lie one after another from row zero on. In general the walks of the given rows are
followed by as many walks of zeros as there are candidates left, and none of these extends a walk. -/
theorem Built.extend_of_spans (ht : t.Built) (hwf : candidates.Wf)
    (hcount : candidates.count = t.count)
    (hspans : ∀ span ∈ spans, span.lo ≤ span.hi ∧ span.hi ≤ t.count) (pool : Pool) :
    (Span.last spans ≠ t.count →
      t.extend pool spans candidates = refuse (.mismatch .uncoveredRows)) ∧
    (∀ stop, Span.Tiles spans 0 stop → (∃ i < t.count, ∀ span ∈ spans, i ∉ span.rows) →
      t.extend pool spans candidates = refuse (.mismatch .uncoveredRows)) ∧
    (candidates.size < (t.written candidates spans).length →
      ∀ longer, t.extend pool spans candidates ≠ .ok longer) ∧
    (Span.last spans = t.count → (t.written candidates spans).length ≤ candidates.size →
      Yields (t.extend pool spans candidates) fun longer =>
        longer.toList = t.written candidates spans ++
          List.replicate (candidates.size - (t.written candidates spans).length)
            (Walk.zeros (t.arity + 1)) ∧
        ((∀ w ∈ longer.toList, t.Extends candidates w) ↔
          (t.written candidates spans).length = candidates.size)) := by
  have hfits : ∀ span ∈ spans, Fits candidates span := by
    intro span hspan
    obtain ⟨hforward, hhi⟩ := hspans span hspan
    exact ⟨by omega, by omega, .inl hforward⟩
  have hpos := ht.arity_pos
  obtain ⟨ws, htable, hshaped⟩ := ht.eq_ofList_shaped
  have hlength : t.count = ws.length := by rw [htable, count_ofList]
  refine ⟨extend_of_last_ne pool hcount, ?_, ?_, ?_⟩
  · intro stop htiles hleft
    obtain ⟨i, hi, hleft⟩ := hleft
    apply extend_of_last_ne pool hcount
    rw [htiles.last_zero]
    rintro rfl
    have hmem : i ∈ spans.flatMap Span.rows := by
      rw [htiles.flatMap_rows_zero]
      exact List.mem_range.mpr hi
    obtain ⟨span, hspan, hi⟩ := List.mem_flatMap.mp hmem
    exact hleft span hspan hi
  · intro hlarge longer hlonger
    rw [htable] at hlonger
    obtain ⟨_, _, hroom, _⟩ := of_extend hshaped hwf hlonger
    rw [length_written] at hlarge
    exact Nat.not_le.mpr hlarge hroom
  · intro hlast hroom
    have hiff := forall_extends_iff hpos hcount hfits hroom
    have hfilled : ∀ w ∈ t.filled candidates spans, w.Shaped (t.arity + 1) := by
      rw [htable]
      exact shaped_of_mem_filled hshaped (hcount.trans hlength) hfits
    have hyields := yields_extend pool hshaped hwf (hcount.trans hlength)
      (hlast.trans hcount.symm) hfits (by rwa [← length_written t])
    rw [← htable] at hyields
    refine hyields.mono fun longer hlonger => ?_
    have hlist : longer.toList = t.filled candidates spans := by
      rw [hlonger.1, extended, toList_ofList hfilled]
    rw [hlist]
    exact ⟨rfl, hiff⟩

/-- The second of three rows is left out, with its two candidates. -/
theorem extend_of_spans_gap :
    let t : Walks := ⟨1, ⟨#[0, 1, 2, 3], #[5, 1, 1]⟩, #[0, 0, 0]⟩
    let candidates : Rows Nat := ⟨#[0, 1, 3, 4], #[7, 2, 3, 4]⟩
    ∃ longer, t.extend (Pool.ofWorkers 2) [⟨0, 1⟩, ⟨2, 3⟩] candidates = .ok longer ∧
      longer.toList = [⟨[5, 7], [0, 1]⟩, ⟨[1, 4], [0, 1]⟩, Walk.zeros 2, Walk.zeros 2] ∧
      ¬ ∀ w ∈ longer.toList, t.Extends candidates w := by
  intro t candidates
  have hbuilt : t.Built :=
    .ofSeeds (show ofSeeds ⟨#[0, 1, 2, 3], #[5, 1, 1]⟩ = .ok t by decide +kernel)
  have hspans : ∀ span ∈ ([⟨0, 1⟩, ⟨2, 3⟩] : List Span), span.lo ≤ span.hi ∧ span.hi ≤ t.count := by
    decide
  have hwf : candidates.Wf := ⟨by decide, by decide, by decide⟩
  obtain ⟨_, _, _, htable⟩ := hbuilt.extend_of_spans hwf rfl hspans (Pool.ofWorkers 2)
  have hwritten : t.written candidates [⟨0, 1⟩, ⟨2, 3⟩] =
      [⟨[5, 7], [0, 1]⟩, ⟨[1, 4], [0, 1]⟩] := by decide +kernel
  have hroom : 2 ≤ candidates.size := by decide
  have hlast : Span.last [⟨0, 1⟩, ⟨2, 3⟩] = t.count := by decide
  have hextend : t.extend (Pool.ofWorkers 2) [⟨0, 1⟩, ⟨2, 3⟩] candidates =
      .ok ⟨2, ⟨#[0, 2, 4, 6, 8], #[5, 7, 1, 4, 0, 0, 0, 0]⟩, #[0, 1, 0, 1, 0, 0, 0, 0]⟩ := by
    decide +kernel
  rw [hextend, hwritten] at htable
  obtain ⟨hlist, hiff⟩ := htable hlast hroom
  exact ⟨_, hextend, hlist, fun hall => absurd (hiff.mp hall) (by decide)⟩

/-- The only span begins at the second of two rows. It is accepted, and the first row, which no span covers,
turns up as a walk that extends none. -/
theorem extend_accepts_uncovered :
    let t : Walks := ⟨2, ⟨#[0, 2, 4], #[1, 4, 0, 2]⟩, #[1, 0, 0, 1]⟩
    let candidates : Rows Nat := ⟨#[0, 1, 2], #[3, 5]⟩
    let spans : List Span := [⟨1, 2⟩]
    t.Built ∧ candidates.Wf ∧ candidates.count = t.count ∧
      (∀ span ∈ spans, span.lo ≤ span.hi ∧ span.hi ≤ t.count) ∧
      (∃ i < t.count, ∀ span ∈ spans, i ∉ span.rows) ∧
      ∃ longer, t.extend (Pool.ofWorkers 1) spans candidates = .ok longer ∧
        ∃ w ∈ longer.toList, ¬ t.Extends candidates w := by
  intro t candidates spans
  have hbuilt : t.Built :=
    .ofSeeds (show ofSeeds ⟨#[0, 2, 4], #[4, 1, 0, 2]⟩ = .ok t by decide +kernel)
  have hextend : t.extend (Pool.ofWorkers 1) spans candidates =
      .ok ⟨3, ⟨#[0, 3, 6], #[0, 2, 5, 0, 0, 0]⟩, #[0, 1, 2, 0, 0, 0]⟩ := by
    decide +kernel
  refine ⟨hbuilt, ⟨by decide, by decide, by decide⟩, rfl, by decide, ⟨0, by decide, by decide⟩, _,
    hextend, Walk.zeros 3, by decide +kernel, ?_⟩
  exact not_extends_zeros (by decide) 3

end Motif.Walks
