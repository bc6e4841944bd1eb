import Motif.Search.Basic

/-!
# The rounds of a run

A run that comes to an outcome is a sequence of rounds. Each binds one more position and leaves one
record, and the last one finds that every position is bound, or ends the search itself. `Rounds` is this
sequence as an inductive predicate, so that what is true of all runs can be shown by induction on it.

A round starts by looking for candidates (`survey`). What it finds is what its record says, and the last
round of a search that counts does nothing else (`bindNext_of_last`).
-/

namespace Motif

namespace Search

variable {s : Search} {q : Query} {position : Nat} {walks : Walks} {outcome : Outcome}
  {levels : List Level}

/-- From these walks, which bind the positions below `position`, the search comes to `outcome` and
leaves `levels`. -/
inductive Rounds (s : Search) (q : Query) : (position : Nat) → Walks → Outcome → List Level → Prop
  | listed {position : Nat} {walks : Walks} {values : Array Nat} (hle : q.pattern.size ≤ position)
      (hgoal : q.goal = .listing) (hvalues : readOut walks = .ok values) :
      Rounds s q position walks (.listing values) []
  | counted {position : Nat} {walks : Walks} (hle : q.pattern.size ≤ position)
      (hgoal : q.goal = .number) : Rounds s q position walks (.number walks.count) []
  | ended {position : Nat} {walks : Walks} {record : Level} {outcome : Outcome}
      (hlt : position < q.pattern.size)
      (hnext : s.bindNext q position walks = .ok (record, .ended outcome)) :
      Rounds s q position walks outcome [record]
  | grown {position : Nat} {walks longer : Walks} {record : Level} {outcome : Outcome}
      {levels : List Level} (hlt : position < q.pattern.size)
      (hnext : s.bindNext q position walks = .ok (record, .grown longer))
      (hlater : Rounds s q (position + 1) longer outcome levels) :
      Rounds s q position walks outcome (record :: levels)

/-! ### What a round finds -/

/-- The candidates of all walks at a position, in blocks. -/
def survey (s : Search) (q : Query) (position : Nat) (walks : Walks) : Result (List Block) := do
  let required ← q.pattern.requiredAt position
  let x ← Extender.ofRequired q.graph required s.settings.reuse s.settings.method
  s.candidates x walks (Span.split walks.count s.pool.workers)

theorem survey_of_bindNext {record : Level} {advance : Advance}
    (h : s.bindNext q position walks = .ok (record, advance)) :
    ∃ blocks, s.survey q position walks = .ok blocks ∧
      record = .untimed position walks.count (Word.total (blocks.map Block.size)) := by
  obtain ⟨required, hrequired, h⟩ := bind_eq_ok.mp h
  obtain ⟨x, hx, h⟩ := bind_eq_ok.mp h
  obtain ⟨blocks, hblocks, h⟩ := bind_eq_ok.mp h
  refine ⟨blocks, ?_, ?_⟩
  · rw [survey, hrequired]
    show (Extender.ofRequired _ _ _ _ >>= _) = _
    rw [hx]
    exact hblocks
  · dsimp only at h
    split at h
    · exact (Prod.mk.inj (Except.ok.inj h)).1.symm
    · split at h
      · exact (Prod.mk.inj (Except.ok.inj h)).1.symm
      · obtain ⟨_, _, h⟩ := bind_eq_ok.mp h
        obtain ⟨_, _, h⟩ := bind_eq_ok.mp h
        exact (Prod.mk.inj (Except.ok.inj h)).1.symm

/-- The last round of a search that counts ends with the number of candidates, of which it makes no
table. -/
theorem bindNext_of_last (hgoal : q.goal = .number) (hlast : position + 1 = q.pattern.size) :
    s.bindNext q position walks = s.survey q position walks >>= fun blocks =>
      let found := Word.total (blocks.map Block.size)
      .ok (.untimed position walks.count found,
        .ended (if found = 0 then .nothing else .number found)) := by
  rw [bindNext, survey]
  cases q.pattern.requiredAt position with
  | error stop => rfl
  | ok required =>
    show (Extender.ofRequired _ _ _ _ >>= _) = ((Extender.ofRequired _ _ _ _ >>= _) >>= _)
    cases Extender.ofRequired q.graph required s.settings.reuse s.settings.method with
    | error stop => rfl
    | ok x =>
      show (s.candidates _ _ _ >>= _) = (s.candidates _ _ _ >>= _)
      congr 1
      funext blocks
      dsimp only
      split
      · rfl
      · rw [if_pos ⟨hgoal, hlast⟩]
        rfl

/-! ### Runs from state to state -/

theorem run_ended : s.run q (.ended outcome) = .ok (outcome, []) := by
  rw [run]
  rfl

theorem run_eq_bind {state : State} (hrun : state.outcome? = none) :
    s.run q state = s.step q state >>= fun next =>
      s.run q next.1 >>= fun result => .ok (result.1, next.2 ++ result.2) := by
  rw [run]
  split
  · rename_i hended
    rw [hrun] at hended
    contradiction
  · split
    · rename_i hstep
      rw [hstep]
      rfl
    · rename_i hstep
      rw [hstep]
      rfl

theorem run_binding_of_le (hle : q.pattern.size ≤ position) :
    s.run q (.binding position walks) = match q.goal with
      | .listing => readOut walks >>= fun values => .ok (.listing values, [])
      | .number => .ok (.number walks.count, []) := by
  rw [run_eq_bind rfl, step, if_pos hle]
  cases q.goal with
  | listing =>
    show (s.run q (.reading walks) >>= _) = _
    rw [run_eq_bind rfl, step]
    cases readOut walks with
    | error stop => rfl
    | ok values =>
      show ((s.run q (.ended (.listing values)) >>= _) >>= _) = _
      rw [run_ended]
      rfl
  | number =>
    show (s.run q (.ended (.number walks.count)) >>= _) = _
    rw [run_ended]
    rfl

theorem run_binding_of_lt (hlt : position < q.pattern.size) :
    s.run q (.binding position walks) = s.bindNext q position walks >>= fun next =>
      match next.2 with
      | .ended outcome => .ok (outcome, [next.1])
      | .grown longer => s.run q (.binding (position + 1) longer) >>= fun result =>
          .ok (result.1, next.1 :: result.2) := by
  rw [run_eq_bind rfl, step, if_neg (Nat.not_le.mpr hlt)]
  cases s.bindNext q position walks with
  | error stop => rfl
  | ok next =>
    obtain ⟨record, advance⟩ := next
    cases advance with
    | ended outcome =>
      show (s.run q (.ended outcome) >>= _) = _
      rw [run_ended]
      rfl
    | grown longer => rfl

/-! ### Runs by rounds -/

theorem run_eq_ok :
    s.run q (.binding position walks) = .ok (outcome, levels) ↔
      Rounds s q position walks outcome levels := by
  refine ⟨?_, ?_⟩
  · intro h
    induction hleft : q.pattern.size - position generalizing position walks outcome levels with
    | zero =>
      have hle : q.pattern.size ≤ position := Nat.sub_eq_zero_iff_le.mp hleft
      rw [run_binding_of_le hle] at h
      split at h
      · rename_i hgoal
        obtain ⟨values, hvalues, h⟩ := bind_eq_ok.mp h
        obtain ⟨rfl, rfl⟩ := Prod.mk.inj (Except.ok.inj h)
        exact .listed hle hgoal hvalues
      · rename_i hgoal
        obtain ⟨rfl, rfl⟩ := Prod.mk.inj (Except.ok.inj h)
        exact .counted hle hgoal
    | succ left ih =>
      have hlt : position < q.pattern.size := Nat.lt_of_sub_pos (hleft ▸ Nat.succ_pos left)
      rw [run_binding_of_lt hlt] at h
      obtain ⟨⟨record, advance⟩, hnext, h⟩ := bind_eq_ok.mp h
      cases advance with
      | ended outcome =>
        obtain ⟨rfl, rfl⟩ := Prod.mk.inj (Except.ok.inj h)
        exact .ended hlt hnext
      | grown longer =>
        obtain ⟨⟨outcome', later⟩, hlater, h⟩ := bind_eq_ok.mp h
        obtain ⟨rfl, rfl⟩ := Prod.mk.inj (Except.ok.inj h)
        exact .grown hlt hnext (ih hlater (by rw [Nat.sub_succ, hleft, Nat.pred_succ]))
  · intro h
    induction h with
    | listed hle hgoal hvalues => rw [run_binding_of_le hle, hgoal, hvalues]; rfl
    | counted hle hgoal => rw [run_binding_of_le hle, hgoal]
    | ended hlt hnext => rw [run_binding_of_lt hlt, hnext]; rfl
    | grown hlt hnext _ ih =>
      rw [run_binding_of_lt hlt, hnext]
      show (s.run q (.binding _ _) >>= _) = _
      rw [ih]
      rfl

end Search

end Motif
