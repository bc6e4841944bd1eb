import Motif.Proofs.Blocks

/-!
# However the rows are cut

Rows are mapped span by span and the blocks are joined, and neither the table nor a refusal tells how the
rows were cut into spans (`concat_ofSpans`). The reference is one pass over all rows: the table of what
the transform gives for them, or the refusal of the first row that is refused.

What the transform makes of a row must not depend on the state that is passed on to it. It is given as an
answer for each row, a list of values or a cause, and `Appended.Gives` says that a step ends this way.
-/

namespace Motif

/-- The step ends as the answer says: it adds the values to the buffer `out`, or is refused. -/
def Appended.Gives {α σ : Type} (step : Appended α σ) (out : Array α) :
    Except Refusal (List α) → Prop
  | .ok found => step.outcome = .ok () ∧ step.buffer = out ++ found
  | .error cause => step.outcome = refuse cause

namespace Block

variable {σ : Type} {transform : Nat → σ → Array Nat → Appended Nat σ} {fresh : σ}
  {answer : Nat → Except Refusal (List Nat)} {span : Span} {spans : List Span} {m : Nat}

/-! ### One span -/

theorem pushRows_cons_of_refuse {i : Nat} {is : List Nat} {state : σ} {rows : Rows Nat} {cause : Refusal}
    (h : (transform i state rows.values).outcome = refuse cause) :
    pushRows transform (i :: is) state rows = refuse cause := by
  rw [pushRows, Rows.pushWith_of_refused h]
  rfl

/-- The rows of a span are pushed until one is refused, whatever state is passed on between them. -/
theorem pushRows_eq_mapM {is : List Nat}
    (h : ∀ i ∈ is, ∀ state out, (transform i state out).Gives out (answer i)) (state : σ)
    (rows : Rows Nat) :
    pushRows transform is state rows =
      (fun lists => lists.foldl Rows.push rows) <$> orRefuse (is.mapM answer) := by
  induction is generalizing state rows with
  | nil => rfl
  | cons i is ih =>
    have hfirst := h i List.mem_cons_self state rows.values
    rw [List.mapM_cons]
    cases hanswer : answer i with
    | ok found =>
      rw [hanswer] at hfirst
      have hadds : (transform i state rows.values).Adds (fun _ => True) rows.values found :=
        ⟨hfirst.1, hfirst.2, trivial⟩
      rw [pushRows, Rows.pushWith_of_adds hadds]
      show pushRows transform is _ (rows.push found) = _
      rw [ih fun j hj => h j (List.mem_cons_of_mem _ hj)]
      cases is.mapM answer with
      | ok lists => rfl
      | error cause => rfl
    | error cause =>
      rw [hanswer] at hfirst
      exact pushRows_cons_of_refuse hfirst

theorem ofSpan_eq (h : ∀ i ∈ span.rows, ∀ state out, (transform i state out).Gives out (answer i))
    (hroom : span.length + 1 < Word.shortageFrom) :
    ofSpan transform fresh span =
      (fun lists => ⟨span, Rows.ofLists lists⟩) <$> orRefuse (span.rows.mapM answer) := by
  rw [ofSpan, Rows.withRoom_eq_ok hroom (by omega)]
  show (pushRows transform span.rows fresh Rows.empty >>= _) = _
  rw [pushRows_eq_mapM h]
  cases span.rows.mapM answer with
  | ok lists => rfl
  | error cause => rfl

theorem mapM_rows_eq_ok {n : Nat} (hhi : span.hi ≤ n) {found : Nat → List Nat}
    (hfound : ∀ i < n, answer i = .ok (found i)) :
    span.rows.mapM answer = .ok (span.rows.map found) :=
  mapM_eq_ok fun i hi => hfound i (Nat.lt_of_lt_of_le (Span.mem_rows.mp hi).2 hhi)

/-! ### All spans -/

section Tiling

variable (htiles : Span.Tiles spans 0 m)
  (hgives : ∀ i < m, ∀ state out, (transform i state out).Gives out (answer i))
  (hroom : Word.reserve (m + 1) = .ok ())

include htiles hgives hroom

theorem ofSpan_eq_of_mem (hspan : span ∈ spans) :
    ofSpan transform fresh span =
      (fun lists => ⟨span, Rows.ofLists lists⟩) <$> orRefuse (span.rows.mapM answer) := by
  obtain ⟨hle, hend⟩ := htiles.bounds span hspan
  have hshort := Word.lt_of_reserve hroom
  have hword : span.length = span.hi - span.lo :=
    Word.sub_of_le hle (by have := Word.shortageFrom_lt_bound; omega)
  refine ofSpan_eq (fun i hi => hgives i ?_) (by omega)
  exact Nat.lt_of_lt_of_le (Span.mem_rows.mp hi).2 hend

/-- No task breaks anything, so the spans might as well be mapped one after another. -/
theorem ofSpans_eq_mapM (pool : Pool) :
    ofSpans pool spans transform fresh = spans.mapM (ofSpan transform fresh) := by
  apply Pool.settle_runAll pool
  intro span hspan
  rw [ofSpan_eq_of_mem htiles hgives hroom hspan]
  cases span.rows.mapM answer with
  | ok lists => rfl
  | error cause => rfl

theorem ofSpans_eq_ok (pool : Pool) {found : Nat → List Nat} (hfound : ∀ i < m, answer i = .ok (found i)) :
    ofSpans pool spans transform fresh =
      .ok (spans.map fun span => ⟨span, Rows.ofLists (span.rows.map found)⟩) := by
  rw [ofSpans_eq_mapM htiles hgives hroom]
  apply mapM_eq_ok
  intro span hspan
  rw [ofSpan_eq_of_mem htiles hgives hroom hspan,
    mapM_rows_eq_ok (htiles.bounds span hspan).2 hfound]
  rfl

theorem ofSpans_eq_refuse (pool : Pool) {i : Nat} {cause : Refusal} (hi : i < m)
    (hcause : answer i = .error cause) (hbefore : ∀ j < i, ∃ found, answer j = .ok found) :
    ofSpans pool spans transform fresh = refuse cause := by
  rw [ofSpans_eq_mapM htiles hgives hroom]
  obtain ⟨before, span, after, rfl, hlo, hhi, hends⟩ := htiles.exists_span (Nat.zero_le i) hi
  have hspan : (span.rows.mapM answer) = .error cause := by
    rw [Span.rows_eq_append hlo hhi]
    refine mapM_eq_error (fun j hj => hbefore j ?_) hcause
    have := List.mem_range'_1.mp hj
    omega
  apply mapM_eq_error
  · intro earlier hearlier
    choose! found hfound using hbefore
    have hmem : earlier ∈ before ++ span :: after := List.mem_append_left _ hearlier
    rw [ofSpan_eq_of_mem htiles hgives hroom hmem, mapM_rows_eq_ok (hends earlier hearlier) hfound]
    exact ⟨_, rfl⟩
  · have hmem : span ∈ before ++ span :: after := List.mem_append_right _ List.mem_cons_self
    rw [ofSpan_eq_of_mem htiles hgives hroom hmem, hspan]
    rfl

end Tiling

/-! ### One table -/

/-- The rows of all blocks are the rows of the table, in order. -/
theorem flatMap_toLists (htiles : Span.Tiles spans 0 m) (found : Nat → List Nat) :
    ((spans.map fun span => (⟨span, Rows.ofLists (span.rows.map found)⟩ : Block)).flatMap
      fun b => b.rows.toLists) = (List.range m).map found := by
  rw [List.flatMap_map, ← htiles.flatMap_rows_zero, List.map_flatMap]
  simp only [Rows.toLists_ofLists]

/-- All answers are values, or there is a first one that is none. -/
theorem all_or_first {ε β : Type} (answer : Nat → Except ε β) (m : Nat) :
    (∀ i < m, ∃ found, answer i = .ok found) ∨
      ∃ i < m, ∃ cause, answer i = .error cause ∧ ∀ j < i, ∃ found, answer j = .ok found := by
  induction m with
  | zero => exact Or.inl (by simp)
  | succ m ih =>
    rcases ih with hall | ⟨i, hi, hfirst⟩
    · cases hanswer : answer m with
      | ok found =>
        refine Or.inl fun i hi => ?_
        rcases Nat.lt_succ_iff_lt_or_eq.mp hi with hlt | rfl
        · exact hall i hlt
        · exact ⟨found, hanswer⟩
      | error cause => exact Or.inr ⟨m, Nat.lt_succ_self m, cause, hanswer, hall⟩
    · exact Or.inr ⟨i, Nat.lt_succ_of_lt hi, hfirst⟩

/-- Mapping the rows in any spans and joining the blocks gives the table of what the transform gives for
all rows, or the refusal of the first row that is refused. Nothing else about the spans, the workers or
the state of the transform shows. -/
theorem concat_ofSpans (pool : Pool) (htiles : Span.Tiles spans 0 m)
    (hgives : ∀ i < m, ∀ state out, (transform i state out).Gives out (answer i))
    (hroom : Word.reserve (m + 1) = .ok ()) :
    (∀ found : Nat → List Nat, (∀ i < m, answer i = .ok (found i)) →
      Word.reserve ((List.range m).flatMap found).length = .ok () →
        ∃ blocks, ofSpans pool spans transform fresh = .ok blocks ∧
          concat pool blocks = .ok (Rows.ofLists ((List.range m).map found))) ∧
    (∀ i < m, ∀ cause, answer i = .error cause → (∀ j < i, ∃ found, answer j = .ok found) →
      ofSpans pool spans transform fresh = refuse cause) ∧
    (∀ (otherPool : Pool) (others : List Span), Span.Tiles others 0 m →
      (ofSpans otherPool others transform fresh >>= concat otherPool) =
        (ofSpans pool spans transform fresh >>= concat pool)) ∧
    ∀ parts, Span.Tiles (Span.split m parts) 0 m := by
  have hwf : ∀ (found : Nat → List Nat) (spans : List Span),
      ∀ b ∈ spans.map fun span => (⟨span, Rows.ofLists (span.rows.map found)⟩ : Block), b.rows.Wf := by
    intro found spans b hb
    obtain ⟨span, _, rfl⟩ := List.mem_map.mp hb
    exact Rows.wf_ofLists _
  refine ⟨?_, ?_, ?_, ?_⟩
  · intro found hfound hvalues
    refine ⟨_, ofSpans_eq_ok htiles hgives hroom pool hfound, ?_⟩
    apply concat_eq_ok pool (hwf found spans) (flatMap_toLists htiles found)
    · rwa [List.length_map, List.length_range]
    · rwa [← List.flatMap_def]
  · intro i hi cause hcause hbefore
    exact ofSpans_eq_refuse htiles hgives hroom pool hi hcause hbefore
  · intro otherPool others hothers
    rcases all_or_first answer m with hall | ⟨i, hi, cause, hcause, hbefore⟩
    · choose! found hfound using hall
      rw [ofSpans_eq_ok htiles hgives hroom pool hfound,
        ofSpans_eq_ok hothers hgives hroom otherPool hfound]
      show concat otherPool _ = concat pool _
      rw [concat_eq otherPool (hwf found others), concat_eq pool (hwf found spans),
        flatMap_toLists htiles, flatMap_toLists hothers]
    · rw [ofSpans_eq_refuse htiles hgives hroom pool hi hcause hbefore,
        ofSpans_eq_refuse hothers hgives hroom otherPool hi hcause hbefore]
      rfl
  · intro parts
    refine Span.tiles_split parts ?_
    have := Word.lt_of_reserve hroom
    have := Word.shortageFrom_lt_bound
    omega

/-- Row `i` gives itself `i` times, but rows from `3` on are refused. -/
theorem concat_ofSpans_uneven :
    let transform : Nat → Nat → Array Nat → Appended Nat Nat := fun i counter out =>
      if i < 3 then ⟨.ok (), counter + 1, out ++ List.replicate i i⟩
      else ⟨refuse (.seedRepeat i i), counter + 1, out.push counter⟩
    let pool := Pool.ofWorkers 2
    (∃ blocks, ofSpans pool [⟨0, 2⟩, ⟨2, 2⟩, ⟨2, 3⟩] transform 0 = .ok blocks ∧
      concat pool blocks = .ok (Rows.ofLists [[], [1], [2, 2]])) ∧
    ofSpans pool [⟨0, 1⟩, ⟨1, 5⟩, ⟨5, 6⟩] transform 0 = refuse (.seedRepeat 3 3) := by
  intro transform pool
  let answer : Nat → Except Refusal (List Nat) := fun i =>
    if i < 3 then .ok (List.replicate i i) else .error (.seedRepeat i i)
  have hgives : ∀ i counter out, (transform i counter out).Gives out (answer i) := by
    intro i counter out
    simp only [transform, answer]
    split
    · exact ⟨rfl, rfl⟩
    · rfl
  have hsmall : ∀ i < 3, answer i = .ok (List.replicate i i) := fun i hi => if_pos hi
  refine ⟨?_, ?_⟩
  · have htiles : Span.Tiles [⟨0, 2⟩, ⟨2, 2⟩, ⟨2, 3⟩] 0 3 := by simp [Span.Tiles]
    exact (concat_ofSpans pool htiles (fun i _ => hgives i) (by decide)).1 _ hsmall (by decide)
  · have htiles : Span.Tiles [⟨0, 1⟩, ⟨1, 5⟩, ⟨5, 6⟩] 0 6 := by simp [Span.Tiles]
    exact (concat_ofSpans pool htiles (fun i _ => hgives i) (by decide)).2.1 3 (by decide) _ rfl
      fun j hj => ⟨_, hsmall j hj⟩

end Block

end Motif
