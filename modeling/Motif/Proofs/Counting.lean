import Motif.Proofs.Exact
import Motif.Proofs.Rounds

/-!
# Counting agrees with listing

A search that only counts differs from one that lists in its last round: it takes the number of
candidates for the number of matches, and neither joins the candidates nor extends the walks. Round by
round the two otherwise do the same (`Rounds.toNumber`), so a count is the number of matches listed and
its records are those of the listing. This needs no exact counters, only walks that hold tuples: the
candidates of the last round are as many as the walks they would be put into.
-/

namespace Motif

/-- The outcome of a search that lists, with that of one that only counts. Tuples have the length
`size`. -/
inductive Outcome.Counted (size : Nat) : Outcome → Outcome → Prop
  | nothing : Counted size .nothing .nothing
  | listing (values : Array Nat) : Counted size (.listing values) (.number (values.size / size))

/-- The query that asks for the number of matches only. -/
def Query.toNumber (q : Query) : Query := { q with goal := .number }

namespace Search

variable {s : Search} {q : Query} {g : Graph} {p : Pattern} {position : Nat} {walks : Walks}
  {target ts : List (List Nat)} {outcome : Outcome} {levels : List Level}

/-! ### The last round -/

theorem bindNext_toNumber (hmore : position + 1 ≠ q.pattern.size) :
    s.bindNext q.toNumber position walks = s.bindNext q position walks := by
  simp only [bindNext, Query.toNumber, hmore, and_false, if_false]

theorem bindNext_toNumber_of_last (hlast : position + 1 = q.pattern.size) {count found : Nat}
    {advance : Advance} (h : s.bindNext q position walks = .ok (.untimed position count found, advance)) :
    s.bindNext q.toNumber position walks = .ok (.untimed position count found,
      .ended (if found = 0 then .nothing else .number found)) := by
  obtain ⟨blocks, hblocks, hrecord⟩ := survey_of_bindNext h
  obtain rfl : found = Word.total (blocks.map Block.size) := congrArg Level.candidates hrecord
  obtain rfl : count = walks.count := congrArg Level.walks hrecord
  have hsame : s.survey q.toNumber position walks = .ok blocks := hblocks
  rw [bindNext_of_last (q := q.toNumber) rfl hlast, hsame]
  rfl

/-! ### Whole runs -/

/-- A table that is read out has as many tuples as it has walks. -/
theorem size_of_readOut (hwalks : walks.Holds position ts) (hpos : 0 < position) {values : Array Nat}
    (h : readOut walks = .ok values) : values.size / position = walks.count := by
  have hvalues := (yields_readOut hwalks).of_ok h
  rw [← Array.length_toList, hvalues, length_flatten_of_forall hwalks.length,
    Nat.mul_div_cancel _ hpos, hwalks.count_eq]

theorem Rounds.toNumber (h : Rounds s q position walks outcome levels) (hgoal : q.goal = .listing)
    (hstands : Stands q s.settings.reuse target position walks ts) :
    ∃ total, outcome.Counted q.pattern.size total ∧ Rounds s q.toNumber position walks total levels := by
  induction h generalizing ts with
  | @listed position walks values hle _ hvalues =>
    obtain rfl : position = q.pattern.size := Nat.le_antisymm hstands.within hle
    refine ⟨_, .listing values, ?_⟩
    rw [size_of_readOut hstands.holds hstands.positive hvalues]
    exact .counted hle rfl
  | counted _ hnumber =>
    rw [hgoal] at hnumber
    contradiction
  | @ended position walks record outcome hlt hnext =>
    obtain ⟨lists, _, rfl, hadvance⟩ := of_bindNext hstands hlt hnext
    cases hadvance with
    | nothing hnone =>
      refine ⟨_, .nothing, .ended hlt ?_⟩
      by_cases hlast : position + 1 = q.pattern.size
      · rw [bindNext_toNumber_of_last hlast hnext, if_pos (List.length_eq_zero_iff.mpr hnone)]
      · rw [bindNext_toNumber hlast, hnext]
    | number _ hnumber =>
      rw [hgoal] at hnumber
      contradiction
  | @grown position walks longer record outcome levels hlt hnext hlater ih =>
    obtain ⟨lists, hlists, rfl, hadvance⟩ := of_bindNext hstands hlt hnext
    obtain ⟨hsome, hlonger⟩ : lists.flatten ≠ [] ∧
        longer.Holds (position + 1) (extendEach ts lists) := by
      cases hadvance with
      | grown hsome _ hlonger => exact ⟨hsome, hlonger⟩
    by_cases hlast : position + 1 = q.pattern.size
    · have hcount : lists.flatten.length = longer.count := by
        rw [hlonger.count_eq, length_extendEach hlists.length_eq]
      have hsome : lists.flatten.length ≠ 0 := fun h => hsome (List.length_eq_zero_iff.mp h)
      have hended := bindNext_toNumber_of_last hlast hnext
      rw [if_neg hsome] at hended
      cases hlater with
      | @listed _ _ values _ _ hvalues =>
        refine ⟨_, .listing values, ?_⟩
        rw [← hlast, size_of_readOut hlonger (Nat.succ_pos position) hvalues, ← hcount]
        exact .ended hlt hended
      | counted _ hnumber =>
        rw [hgoal] at hnumber
        contradiction
      | ended hlt' => exact absurd hlast (Nat.ne_of_lt hlt')
      | grown hlt' => exact absurd hlast (Nat.ne_of_lt hlt')
    · obtain ⟨total, htotal, hrounds⟩ := ih (stands_grown hstands hlt hlists hlonger)
      exact ⟨total, htotal, .grown hlt ((bindNext_toNumber hlast).trans hnext) hrounds⟩

theorem countExtending_of_findExtending {m : Matches}
    (hstart : State.Leads ⟨g, p, .listing⟩ s.settings.reuse target (.binding walks.arity walks))
    (h : s.findExtending g p walks = .ok m) : ∃ c, s.countExtending g p walks = .ok c ∧
      c.count = m.count ∧ c.profile.levels = m.profile.levels := by
  obtain ⟨⟨outcome, levels⟩, hrun, h⟩ := bind_eq_ok.mp h
  obtain ⟨ts, hstands⟩ := hstart
  obtain ⟨total, htotal, hrounds⟩ := (run_eq_ok.mp hrun).toNumber rfl hstands
  obtain rfl := Except.ok.inj h
  have hrun' : s.run ⟨g, p, .number⟩ (.binding walks.arity walks) = .ok (total, levels) :=
    run_eq_ok.mpr hrounds
  rw [countExtending, hrun']
  cases htotal with
  | nothing => exact ⟨_, rfl, (Nat.zero_div p.size).symm, rfl⟩
  | listing values => exact ⟨_, rfl, rfl, rfl⟩

/-- Wherever a search that lists succeeds, so does the one that counts. It counts the matches that are
listed, and its steps leave the same records. -/
theorem count_agrees (s : Search) (g : Graph) (p : Pattern) :
    (∀ m, s.find g p = .ok m → ∃ c, s.count g p = .ok c ∧
      c.count = m.count ∧ c.profile.levels = m.profile.levels) ∧
    ∀ seeds m, s.findFrom g p seeds = .ok m → ∃ c, s.countFrom g p seeds = .ok c ∧
      c.count = m.count ∧ c.profile.levels = m.profile.levels := by
  refine ⟨?_, ?_⟩
  · intro m h
    obtain ⟨walks, hwalks, h⟩ := bind_eq_ok.mp h
    rw [count, hwalks]
    exact countExtending_of_findExtending (leads_singles hwalks) h
  · intro seeds m h
    obtain ⟨start, hstart, h⟩ := bind_eq_ok.mp h
    rw [countFrom, hstart]
    cases start with
    | none =>
      obtain rfl := Except.ok.inj h
      exact ⟨_, rfl, (Nat.zero_div p.size).symm, rfl⟩
    | some walks =>
      obtain ⟨_, hwalks, hcheck⟩ := of_seedWalks_some hstart
      exact countExtending_of_findExtending (leads_ofSeeds hwalks hcheck) h

theorem count_agrees_ladder : ∃ m c m' c',
    (ofSettings ⟨3, .forbidden, .tally⟩ 1).find ladder triangle = .ok m ∧
      (ofSettings ⟨3, .forbidden, .tally⟩ 1).count ladder triangle = .ok c ∧
        c.count = m.count ∧ c.profile.levels = m.profile.levels ∧
    (ofSettings ⟨3, .forbidden, .tally⟩ 1).findFrom ladder triangle ⟨#[0, 2, 4], #[0, 2, 0, 1]⟩
      = .ok m' ∧
      (ofSettings ⟨3, .forbidden, .tally⟩ 1).countFrom ladder triangle ⟨#[0, 2, 4], #[0, 2, 0, 1]⟩
        = .ok c' ∧ c'.count = m'.count ∧ c'.profile.levels = m'.profile.levels := by
  have hfind : ((ofSettings ⟨3, .forbidden, .tally⟩ 1).find ladder triangle).isOk = true := by
    decide +kernel
  have hfindFrom : ((ofSettings ⟨3, .forbidden, .tally⟩ 1).findFrom ladder triangle
      ⟨#[0, 2, 4], #[0, 2, 0, 1]⟩).isOk = true := by
    decide +kernel
  obtain ⟨m, hm⟩ := exists_of_isOk hfind
  obtain ⟨m', hm'⟩ := exists_of_isOk hfindFrom
  obtain ⟨c, hc, hcount, hlevels⟩ := (count_agrees _ ladder triangle).1 m hm
  obtain ⟨c', hc', hcount', hlevels'⟩ := (count_agrees _ ladder triangle).2 _ m' hm'
  exact ⟨m, c, m', c', hm, hc, hcount, hlevels, hm', hc', hcount', hlevels'⟩

end Search

end Motif
