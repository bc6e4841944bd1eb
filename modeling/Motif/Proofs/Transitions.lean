import Motif.Proofs.Rounds
import Motif.Proofs.Safe

/-!
# The states of a run

A run goes from state to state. `Search.Passes` lists the states it leaves behind, and this file says what
they can be and how many of them there are (`run_advances`). A step that binds a position binds the one
after the last, so a search takes no more of these than the pattern has positions left, and at most two
other steps come after them. The walks of a state bind as many positions as the state says.

A search that only counts never holds walks of every position, unless it started from such walks. Its last
round looks for candidates and takes their number; it makes no table (`bindNext_of_last`).
-/

namespace Motif

/-- The position that the step from a state binds, in a pattern of the given size. The steps that only
end a search bind none. -/
def State.binds? (size : Nat) : State → Option Nat
  | .binding position _ => if position < size then some position else none
  | _ => none

/-- What is true of a state of a search that started from walks of `first` positions. -/
def State.Fits (q : Query) (first : Nat) : State → Prop
  | .binding position walks =>
    walks.arity = position ∧ first ≤ position ∧ position ≤ q.pattern.size ∧
      (q.goal = .number → first < q.pattern.size → position < q.pattern.size)
  | .reading walks => q.goal = .listing ∧ walks.arity = q.pattern.size
  | .ended _ => True

namespace Search

/-- From `state` the search comes to `last`, and `states` are the states it has left by then, one step
after another. No step leaves an outcome. -/
inductive Passes (s : Search) (q : Query) : State → List State → State → Prop
  | here {state : State} : Passes s q state [] state
  | step {state next last : State} {records : List Level} {states : List State}
      (hrun : state.outcome? = none) (hstep : s.step q state = .ok (next, records))
      (hlater : Passes s q next states last) : Passes s q state (state :: states) last

variable {s : Search} {q : Query} {state next last : State} {states : List State}
  {records : List Level} {position first : Nat} {walks : Walks} {target : List (List Nat)}

/-! ### One step -/

/-- Where a step leads that leaves walks which bind the positions below `position`. -/
theorem of_step (h : s.step q (.binding position walks) = .ok (next, records)) :
    (position < q.pattern.size ∧ ∃ record advance,
      s.bindNext q position walks = .ok (record, advance) ∧
        ((∃ outcome, advance = .ended outcome ∧ next = .ended outcome) ∨
          ∃ longer, advance = .grown longer ∧ next = .binding (position + 1) longer)) ∨
    (q.pattern.size ≤ position ∧
      ((q.goal = .listing ∧ next = .reading walks) ∨
        (q.goal = .number ∧ next = .ended (.number walks.count)))) := by
  rw [step] at h
  split at h
  · rename_i hle
    refine .inr ⟨hle, ?_⟩
    split at h
    · rename_i hgoal
      cases h
      exact .inl ⟨hgoal, rfl⟩
    · rename_i hgoal
      cases h
      exact .inr ⟨hgoal, rfl⟩
  · rename_i hlt
    obtain ⟨⟨record, advance⟩, hnext, h⟩ := bind_eq_ok.mp h
    refine .inl ⟨Nat.not_le.mp hlt, record, advance, hnext, ?_⟩
    cases advance with
    | ended outcome =>
      cases h
      exact .inl ⟨outcome, rfl, rfl⟩
    | grown longer =>
      cases h
      exact .inr ⟨longer, rfl, rfl⟩

theorem fits_step (hleads : state.Leads q s.settings.reuse target) (hfits : state.Fits q first)
    (hrun : state.outcome? = none) (hstep : s.step q state = .ok (next, records)) :
    next.Fits q first := by
  cases state with
  | binding position walks =>
    obtain ⟨ts, hstands⟩ := hleads
    obtain ⟨harity, hfirst, hwithin, _⟩ := hfits
    rcases of_step hstep with ⟨hlt, record, advance, hnext, hadvance⟩ | ⟨hle, hend⟩
    · rcases hadvance with ⟨outcome, rfl, rfl⟩ | ⟨longer, rfl, rfl⟩
      · trivial
      · obtain ⟨lists, _, _, hadvances⟩ := of_bindNext hstands hlt hnext
        cases hadvances with
        | grown _ hmore hlonger =>
          refine ⟨hlonger.arity_eq, Nat.le_succ_of_le hfirst, hlt, fun hgoal _ => ?_⟩
          exact Nat.lt_of_le_of_ne hlt fun hlast => hmore ⟨hgoal, hlast⟩
    · rcases hend with ⟨hgoal, rfl⟩ | ⟨_, rfl⟩
      · exact ⟨hgoal, harity.trans (Nat.le_antisymm hwithin hle)⟩
      · trivial
  | reading walks =>
    obtain ⟨values, _, h⟩ := bind_eq_ok.mp hstep
    cases h
    trivial
  | ended outcome => contradiction

/-! ### Many steps -/

theorem fits_of_passes (h : s.Passes q state states last)
    (hleads : state.Leads q s.settings.reuse target) (hfits : state.Fits q first) :
    last.Fits q first := by
  induction h with
  | here => exact hfits
  | step hrun hstep _ ih =>
    exact ih ((yields_step hleads hrun).of_ok hstep) (fits_step hleads hfits hrun hstep)

theorem Passes.of_ended {outcome : Outcome} (h : s.Passes q (.ended outcome) states last) :
    states = [] := by
  cases h with
  | here => rfl
  | step hrun => contradiction

theorem Passes.of_reading (h : s.Passes q (.reading walks) states last) :
    states = [] ∨ states = [.reading walks] := by
  cases h with
  | here => exact .inl rfl
  | step _ hstep hlater =>
    obtain ⟨values, _, h⟩ := bind_eq_ok.mp hstep
    cases h
    rw [hlater.of_ended]
    exact .inr rfl

/-- Positions are bound one after another, and the steps that bind none are no more than two. -/
theorem Passes.of_binding (h : s.Passes q (.binding position walks) states last)
    (hle : position ≤ q.pattern.size) :
    ∃ n, position + n ≤ q.pattern.size ∧
      states.filterMap (State.binds? q.pattern.size) = List.range' position n ∧
        states.length ≤ n + 2 := by
  -- on the number of positions that are left to bind
  induction hleft : q.pattern.size - position generalizing position walks states with
  | zero =>
    have hsize : ¬ position < q.pattern.size := by omega
    refine ⟨0, hle, ?_⟩
    cases h with
    | here => exact ⟨rfl, Nat.zero_le _⟩
    | step _ hstep hlater =>
      have hbinds : State.binds? q.pattern.size (.binding position walks) = none := if_neg hsize
      rw [List.filterMap_cons_none hbinds]
      rcases of_step hstep with ⟨hlt, _⟩ | ⟨_, ⟨_, rfl⟩ | ⟨_, rfl⟩⟩
      · contradiction
      · rcases hlater.of_reading with rfl | rfl
        · exact ⟨rfl, by simp⟩
        · exact ⟨rfl, by simp⟩
      · rw [hlater.of_ended]
        exact ⟨rfl, by simp⟩
  | succ left ih =>
    have hsize : position < q.pattern.size := by omega
    cases h with
    | here => exact ⟨0, hle, rfl, Nat.zero_le _⟩
    | step _ hstep hlater =>
      have hbinds : State.binds? q.pattern.size (.binding position walks) = some position :=
        if_pos hsize
      rw [List.filterMap_cons_some hbinds]
      rcases of_step hstep with ⟨_, _, _, _, ⟨_, _, rfl⟩ | ⟨_, _, rfl⟩⟩ | ⟨hge, _⟩
      · rw [hlater.of_ended]
        exact ⟨1, hsize, rfl, by simp⟩
      · obtain ⟨n, hn, hpositions, hlength⟩ := ih hlater hsize (by omega)
        refine ⟨n + 1, by omega, ?_, ?_⟩
        · rw [hpositions, List.range'_succ]
        · rw [List.length_cons]
          omega
      · omega

/-- The states of a run up to its outcome, or up to the step that stops it. -/
theorem exists_passes (s : Search) (q : Query) (state : State) :
    ∃ states last, s.Passes q state states last ∧
      ((∃ outcome levels, last = .ended outcome ∧ s.run q state = .ok (outcome, levels)) ∨
        ∃ stop, s.step q last = .error stop ∧ s.run q state = .error stop) := by
  fun_induction run s q state with
  | case1 state outcome hended =>
    refine ⟨[], state, .here, .inl ⟨outcome, [], ?_, rfl⟩⟩
    cases state with
    | ended outcome' =>
      obtain rfl := Option.some.inj hended
      rfl
    | binding position walks => contradiction
    | reading walks => contradiction
  | case2 state hrun stop hstop => exact ⟨[], state, .here, .inr ⟨stop, hstop, rfl⟩⟩
  | case3 state hrun next records hnext ih =>
    obtain ⟨states, last, hpasses, hend⟩ := ih
    refine ⟨state :: states, last, .step hrun hnext hpasses, ?_⟩
    rcases hend with ⟨outcome, levels, hlast, hlater⟩ | ⟨stop, hlast, hlater⟩
    · rw [hlater]
      exact .inl ⟨outcome, records ++ levels, hlast, rfl⟩
    · rw [hlater]
      exact .inr ⟨stop, hlast, rfl⟩

/-- A search binds position after position, from the first that its walks do not bind, and comes to its
outcome within two steps more, unless memory stops it. In every state the walks bind the positions that the
state says. Only a search that lists reads walks out, and these bind every position; one that counts holds no
walks of every position besides those it started from, and makes none. -/
theorem run_advances (s : Search) (g : Graph) (p : Pattern) (goal : Goal) {t : Walks}
    (hstart : Walks.singles g.order = .ok t ∨
      ∃ seeds, Walks.ofSeeds seeds = .ok t ∧ t.check g p s.settings.reuse = .ok ()) :
    (∀ states state, s.Passes ⟨g, p, goal⟩ (.binding t.arity t) states state →
      state.Fits ⟨g, p, goal⟩ t.arity ∧
        ∃ n, t.arity + n ≤ p.size ∧
          states.filterMap (State.binds? p.size) = List.range' t.arity n ∧
            states.length ≤ n + 2) ∧
    (∃ states state, s.Passes ⟨g, p, goal⟩ (.binding t.arity t) states state ∧
      ((∃ outcome levels, state = .ended outcome ∧
        s.run ⟨g, p, goal⟩ (.binding t.arity t) = .ok (outcome, levels)) ∨
      ∃ stop : Stop, stop.ForMemory ∧ s.step ⟨g, p, goal⟩ state = .error stop ∧
        s.run ⟨g, p, goal⟩ (.binding t.arity t) = .error stop)) ∧
    (goal = .number → ∀ position walks, position + 1 = p.size →
      s.bindNext ⟨g, p, goal⟩ position walks = s.survey ⟨g, p, goal⟩ position walks >>= fun blocks =>
        let found := Word.total (blocks.map Block.size)
        .ok (.untimed position walks.count found,
          .ended (if found = 0 then .nothing else .number found))) := by
  obtain ⟨target, hleads⟩ := leads_of_start goal hstart
  have hwithin : t.arity ≤ p.size := by
    obtain ⟨ts, hstands⟩ := hleads
    exact hstands.within
  refine ⟨fun states state hpasses => ⟨?_, hpasses.of_binding hwithin⟩, ?_, ?_⟩
  · exact fits_of_passes hpasses hleads ⟨rfl, Nat.le_refl _, hwithin, fun _ hfirst => hfirst⟩
  · obtain ⟨states, state, hpasses, hend⟩ := exists_passes s ⟨g, p, goal⟩ (.binding t.arity t)
    refine ⟨states, state, hpasses, hend.imp_right ?_⟩
    rintro ⟨stop, hstep, hrun⟩
    exact ⟨stop, (yields_run hleads).forMemory hrun, hstep, hrun⟩
  · intro hgoal position walks hlast
    exact bindNext_of_last hgoal hlast

/-- A search that counts, from two seeds of two vertices each. -/
theorem run_advances_seeds :
    let t : Walks := ⟨2, ⟨#[0, 2, 4], #[0, 2, 0, 1]⟩, #[0, 1, 0, 1]⟩
    let s := ofSettings ⟨3, .forbidden, .tally⟩ 1
    (Walks.ofSeeds ⟨#[0, 2, 4], #[0, 2, 0, 1]⟩ = .ok t ∧
      t.check ladder triangle .forbidden = .ok ()) ∧
    ∃ states outcome, s.Passes ⟨ladder, triangle, .number⟩ (.binding 2 t) states (.ended outcome) ∧
      ∃ n, 2 + n ≤ 3 ∧ states.filterMap (State.binds? 3) = List.range' 2 n ∧ states.length ≤ n + 2 := by
  intro t s
  have hseeds : Walks.ofSeeds ⟨#[0, 2, 4], #[0, 2, 0, 1]⟩ = .ok t := by decide +kernel
  have hcheck : t.check ladder triangle .forbidden = .ok () := by decide +kernel
  have hok : (s.run ⟨ladder, triangle, .number⟩ (.binding 2 t)).isOk = true := by decide +kernel
  obtain ⟨hstates, ⟨states, state, hpasses, hend⟩, _⟩ :=
    run_advances s ladder triangle .number (.inr ⟨_, hseeds, hcheck⟩)
  obtain ⟨result, hresult⟩ := exists_of_isOk hok
  refine ⟨⟨hseeds, hcheck⟩, ?_⟩
  rcases hend with ⟨outcome, levels, rfl, _⟩ | ⟨stop, _, _, hstop⟩
  · exact ⟨states, outcome, hpasses, (hstates states _ hpasses).2⟩
  · rw [hresult] at hstop
    contradiction

end Search

end Motif
