import Motif.Proofs.SpanInvariance

/-!
# One call for each row

A span is mapped by one call for each of its rows, and a call is handed what the one before it has left: its
state, and the values that were added so far. The first call of a span finds a fresh state and no values, so
nothing passes from one span to another. `Block.handed` and `Block.call` say this without tables, and
`ofSpans_exact` is what comes of it: if every call succeeds, each span has a block with one row for each call,
holding the values that the call added; and otherwise the result is the refusal of the first call that is refused
in the first span that has one.

Nothing is asked of how the spans lie. They may overlap, leave rows out, or come in any order; and unlike in
`concat_ofSpans`, what a call adds may depend on its state and on the values it finds.
-/

namespace Motif

namespace Block

variable {σ : Type}

section Calls

variable (transform : Nat → σ → Array Nat → Appended Nat σ) (fresh : σ) (lo : Nat)

/-- The state and the values that the calls for the `k` rows from row `lo` on have left. -/
def handed : Nat → σ × Array Nat
  | 0 => (fresh, #[])
  | k + 1 =>
    let before := handed k
    let step := transform (lo + k) before.1 before.2
    (step.state, step.buffer)

/-- The call for row `lo + k`. -/
def call (k : Nat) : Appended Nat σ :=
  transform (lo + k) (handed transform fresh lo k).1 (handed transform fresh lo k).2

/-- The values that the call for row `lo + k` adds. -/
def added (k : Nat) : List Nat :=
  (call transform fresh lo k).added (handed transform fresh lo k).2

/-- Every call for a row of the span succeeds. -/
def Succeeds (span : Span) : Prop :=
  ∀ k < span.hi - span.lo, (call transform fresh span.lo k).outcome = .ok ()

/-- The calls for the first `k` rows of the span succeed, and the next one is refused. -/
structure FirstRefused (span : Span) (k : Nat) (cause : Refusal) : Prop where
  inside : k < span.hi - span.lo
  before : ∀ j < k, (call transform fresh span.lo j).outcome = .ok ()
  refused : (call transform fresh span.lo k).outcome = refuse cause

/-- The block has one row for each row of its span, with the values that the call for this row added. -/
structure Recorded (b : Block) : Prop where
  wf : b.rows.Wf
  count : b.rows.count = b.span.hi - b.span.lo
  row : ∀ k < b.span.hi - b.span.lo, (call transform fresh b.span.lo k).buffer =
    (handed transform fresh b.span.lo k).2 ++ b.rows.row k

end Calls

variable {transform : Nat → σ → Array Nat → Appended Nat σ} {fresh : σ} {lo k m : Nat} {span : Span}
  {spans : List Span} {rows : Rows Nat}

/-! ### The calls for one span -/

theorem buffer_call (h : (call transform fresh lo k).Extends (handed transform fresh lo k).2) :
    (call transform fresh lo k).buffer =
      (handed transform fresh lo k).2 ++ added transform fresh lo k :=
  h.buffer_eq_append

/-- One call is made, and the rows after it go on from what it leaves. -/
theorem pushRows_of_call (hvalues : rows.values = (handed transform fresh lo k).2)
    (hextends : (call transform fresh lo k).Extends (handed transform fresh lo k).2)
    (hok : (call transform fresh lo k).outcome = .ok ()) :
    (rows.push (added transform fresh lo k)).values = (handed transform fresh lo (k + 1)).2 ∧
      pushRows transform (List.range' (lo + k) (m + 1)) (handed transform fresh lo k).1 rows =
        pushRows transform (List.range' (lo + (k + 1)) m) (handed transform fresh lo (k + 1)).1
          (rows.push (added transform fresh lo k)) := by
  have hbuffer := buffer_call hextends
  refine ⟨?_, ?_⟩
  · rw [Rows.push_values, hvalues, ← hbuffer]
    rfl
  · have hadds : (transform (lo + k) (handed transform fresh lo k).1 rows.values).Adds (fun _ => True)
        rows.values (added transform fresh lo k) := by
      rw [hvalues]
      exact hextends.adds hok
    rw [List.range'_succ, pushRows, Rows.pushWith_of_adds hadds, hvalues]
    rfl

theorem pushRows_of_succeeding (hvalues : rows.values = (handed transform fresh lo k).2)
    (hextends : ∀ j, k ≤ j → j < k + m → (call transform fresh lo j).Extends (handed transform fresh lo j).2)
    (hok : ∀ j, k ≤ j → j < k + m → (call transform fresh lo j).outcome = .ok ()) :
    pushRows transform (List.range' (lo + k) m) (handed transform fresh lo k).1 rows =
      .ok (((List.range' k m).map (added transform fresh lo)).foldl Rows.push rows) := by
  induction m generalizing k rows with
  | zero => rfl
  | succ m ih =>
    obtain ⟨hnext, hstep⟩ := pushRows_of_call (m := m) hvalues (hextends k (by omega) (by omega))
      (hok k (by omega) (by omega))
    rw [hstep, ih hnext (fun j hj hlt => hextends j (by omega) (by omega))
      fun j hj hlt => hok j (by omega) (by omega), List.range'_succ]
    rfl

theorem pushRows_of_refused {i : Nat} {cause : Refusal} (hi : i < m)
    (hvalues : rows.values = (handed transform fresh lo k).2)
    (hextends : ∀ j, k ≤ j → j < k + i → (call transform fresh lo j).Extends (handed transform fresh lo j).2)
    (hok : ∀ j, k ≤ j → j < k + i → (call transform fresh lo j).outcome = .ok ())
    (hcause : (call transform fresh lo (k + i)).outcome = refuse cause) :
    pushRows transform (List.range' (lo + k) m) (handed transform fresh lo k).1 rows = refuse cause := by
  obtain ⟨m, rfl⟩ : ∃ n, m = n + 1 := ⟨m - 1, by omega⟩
  -- on the calls before the refused one: each leaves a table that holds what the next call is handed
  induction i generalizing k m rows with
  | zero =>
    rw [List.range'_succ]
    apply pushRows_cons_of_refuse
    rw [hvalues]
    exact hcause
  | succ i ih =>
    obtain ⟨hnext, hstep⟩ := pushRows_of_call (m := m) hvalues (hextends k (by omega) (by omega))
      (hok k (by omega) (by omega))
    obtain ⟨m, rfl⟩ : ∃ n, m = n + 1 := ⟨m - 1, by omega⟩
    rw [hstep]
    refine ih hnext (fun j hj hlt => hextends j (by omega) (by omega))
      (fun j hj hlt => hok j (by omega) (by omega)) ?_ m (by omega)
    rw [← hcause, Nat.add_right_comm, Nat.add_assoc]

/-! ### What a span comes to -/

/-- The span goes from one word to another that is not smaller, there is memory for its rows, and the calls for
them add to what they find. -/
structure Mappable (transform : Nat → σ → Array Nat → Appended Nat σ) (span : Span) : Prop where
  ordered : span.lo ≤ span.hi
  word : span.hi < Word.bound
  room : Word.reserve (span.hi - span.lo + 1) = .ok ()
  adds : ∀ i ∈ span.rows, ∀ state out, (transform i state out).Extends out

/-- The block of the values that the calls add, with a row for each of them. -/
def record (transform : Nat → σ → Array Nat → Appended Nat σ) (fresh : σ) (span : Span) : Block :=
  ⟨span, Rows.ofLists ((List.range (span.hi - span.lo)).map (added transform fresh span.lo))⟩

theorem Mappable.extends_call (h : Mappable transform span) (hk : k < span.hi - span.lo) :
    (call transform fresh span.lo k).Extends (handed transform fresh span.lo k).2 :=
  h.adds _ (Span.mem_rows.mpr ⟨by omega, by omega⟩) _ _

theorem Mappable.recorded (h : Mappable transform span) (fresh : σ) :
    (record transform fresh span).Recorded transform fresh where
  wf := Rows.wf_ofLists _
  count := by simp [record]
  row k hk := by
    change k < span.hi - span.lo at hk
    rw [record, buffer_call (h.extends_call hk), Rows.row_ofLists]
    simp [hk]

theorem Mappable.succeeds_or_refused (h : Mappable transform span) (fresh : σ) :
    Succeeds transform fresh span ∨ ∃ k cause, FirstRefused transform fresh span k cause := by
  rcases all_or_first (fun k => (call transform fresh span.lo k).outcome) (span.hi - span.lo) with
    hall | ⟨k, hk, stop, hstop, hbefore⟩
  · exact .inl fun k hk => (hall k hk).choose_spec
  · cases stop with
    | refused cause => exact .inr ⟨k, cause, hk, fun j hj => (hbefore j hj).choose_spec, hstop⟩
    | broken cause => exact absurd hstop ((h.extends_call hk).unbroken cause)

theorem Mappable.ofSpan_eq_pushRows (h : Mappable transform span) (fresh : σ) :
    ofSpan transform fresh span = (do return ⟨span, ← pushRows transform span.rows fresh Rows.empty⟩) := by
  have hlength : span.length = span.hi - span.lo := Word.sub_of_le h.ordered h.word
  have hshort := Word.lt_of_reserve h.room
  rw [ofSpan, hlength, Rows.withRoom_eq_ok hshort (by omega)]
  rfl

theorem Mappable.ofSpan_of_succeeds (h : Mappable transform span) (hall : Succeeds transform fresh span) :
    ofSpan transform fresh span = .ok (record transform fresh span) := by
  have hpush : pushRows transform span.rows fresh Rows.empty =
      .ok (((List.range' 0 (span.hi - span.lo)).map (added transform fresh span.lo)).foldl Rows.push Rows.empty) :=
    pushRows_of_succeeding (k := 0) rfl (fun j _ hj => h.extends_call (by omega)) fun j _ hj => hall j (by omega)
  rw [h.ofSpan_eq_pushRows, hpush, record, List.range_eq_range']
  rfl

theorem Mappable.ofSpan_of_firstRefused {cause : Refusal} (h : Mappable transform span)
    (hfirst : FirstRefused transform fresh span k cause) : ofSpan transform fresh span = refuse cause := by
  have hinside := hfirst.inside
  have hpush : pushRows transform span.rows fresh Rows.empty = refuse cause := by
    refine pushRows_of_refused (k := 0) hinside rfl (fun j _ hj => h.extends_call (by omega))
      (fun j _ hj => hfirst.before j (by omega)) ?_
    rw [Nat.zero_add]
    exact hfirst.refused
  rw [h.ofSpan_eq_pushRows, hpush]
  rfl

/-! ### All spans -/

/-- No call breaks anything, so the spans might as well be mapped one after another. -/
theorem ofSpans_of_mappable (pool : Pool) (h : ∀ span ∈ spans, Mappable transform span) :
    ofSpans pool spans transform fresh = spans.mapM (ofSpan transform fresh) := by
  apply Pool.settle_runAll pool
  intro span hspan
  rcases (h span hspan).succeeds_or_refused fresh with hall | ⟨k, cause, hfirst⟩
  · rw [(h span hspan).ofSpan_of_succeeds hall]
    rfl
  · rw [(h span hspan).ofSpan_of_firstRefused hfirst]
    rfl

/-- Spans are mapped by one call for each of their rows. A call is handed the state and the values of the calls for
the rows before it in the same span, and a fresh state and no values if there are none. If all calls succeed, each
span has its block, which holds for each row what the call for that row added. Otherwise some span is the first
with a call that is refused, and its first refusal is the result, whatever comes of the spans after it. -/
theorem ofSpans_exact (pool : Pool) (h : ∀ span ∈ spans, Mappable transform span) :
    ((∀ span ∈ spans, Succeeds transform fresh span) →
      ∃ blocks, ofSpans pool spans transform fresh = .ok blocks ∧ blocks.map (·.span) = spans ∧
        ∀ b ∈ blocks, b.Recorded transform fresh) ∧
    (∀ before span after k cause, spans = before ++ span :: after →
      (∀ earlier ∈ before, Succeeds transform fresh earlier) → FirstRefused transform fresh span k cause →
        ofSpans pool spans transform fresh = refuse cause) ∧
    ((¬ ∀ span ∈ spans, Succeeds transform fresh span) →
      ∃ before span after k cause, spans = before ++ span :: after ∧
        (∀ earlier ∈ before, Succeeds transform fresh earlier) ∧ FirstRefused transform fresh span k cause) := by
  rw [ofSpans_of_mappable pool h]
  refine ⟨fun hall => ⟨spans.map (record transform fresh), ?_, ?_, fun b hb => ?_⟩, ?_, fun hsome => ?_⟩
  · exact mapM_eq_ok fun span hspan => (h span hspan).ofSpan_of_succeeds (hall span hspan)
  · rw [List.map_map]
    exact List.map_id _
  · obtain ⟨span, hspan, rfl⟩ := List.mem_map.mp hb
    exact (h span hspan).recorded fresh
  · rintro before span after k cause rfl hbefore hfirst
    apply mapM_eq_error
    · intro earlier hearlier
      have hmappable := h earlier (List.mem_append_left _ hearlier)
      exact ⟨_, hmappable.ofSpan_of_succeeds (hbefore earlier hearlier)⟩
    · exact (h span (List.mem_append_right _ List.mem_cons_self)).ofSpan_of_firstRefused hfirst
  · obtain ⟨before, span, after, rfl, hbefore, hspan⟩ := exists_first_of_not_forall hsome
    have hmappable := h span (List.mem_append_right _ List.mem_cons_self)
    obtain ⟨k, cause, hfirst⟩ := (hmappable.succeeds_or_refused fresh).resolve_left hspan
    exact ⟨before, span, after, k, cause, rfl, hbefore, hfirst⟩

/-- Each call adds the number of its row, how many calls the span has had, and how many values it finds; row `4`
and later ones are refused. The second list of spans has two that are refused, and in the last one the row that
is refused comes first. -/
theorem ofSpans_exact_overlapping :
    let transform : Nat → Nat → Array Nat → Appended Nat Nat := fun i calls out =>
      if i < 4 then ⟨.ok (), calls + 1, out ++ [i, calls, out.size]⟩ else ⟨refuse (.seedRepeat i calls), calls, out⟩
    let pool := Pool.ofWorkers 3
    (∃ blocks, ofSpans pool [⟨1, 3⟩, ⟨2, 2⟩, ⟨0, 2⟩] transform 0 = .ok blocks ∧
      blocks.map (·.span) = [⟨1, 3⟩, ⟨2, 2⟩, ⟨0, 2⟩] ∧ ∀ b ∈ blocks, b.Recorded transform 0) ∧
    ofSpans pool [⟨0, 2⟩, ⟨3, 6⟩, ⟨4, 5⟩] transform 0 = refuse (.seedRepeat 4 1) := by
  intro transform pool
  have hadds : ∀ i calls out, (transform i calls out).Extends out := by
    intro i calls out
    simp only [transform]
    split
    · exact ⟨⟨_, rfl⟩, fun cause => by simp [breach]⟩
    · exact ⟨⟨[], by simp⟩, fun cause => by simp [breach, refuse]⟩
  have hmappable : ∀ spans : List Span, (∀ span ∈ spans, span.lo ≤ span.hi ∧ span.hi < 100) →
      ∀ span ∈ spans, Mappable transform span := by
    intro spans hspans span hspan
    obtain ⟨hle, hlt⟩ := hspans span hspan
    refine ⟨hle, Nat.lt_trans hlt (by decide), Word.reserve_of_lt ?_, fun i _ => hadds i⟩
    rw [Word.shortageFrom]
    omega
  refine ⟨(ofSpans_exact pool (hmappable _ (by decide))).1 ?_, ?_⟩
  · simp only [List.forall_mem_cons, Succeeds]
    decide
  · apply (ofSpans_exact pool (hmappable _ (by decide))).2.1 [⟨0, 2⟩] ⟨3, 6⟩ [⟨4, 5⟩] 1 _ rfl
    · simp only [List.forall_mem_cons, Succeeds]
      decide
    · exact ⟨by decide, by decide, by decide⟩

end Block

end Motif
