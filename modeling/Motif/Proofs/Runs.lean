import Motif.Proofs.SeedChecks
import Motif.Proofs.Steps

/-!
# Whole runs of a search

A search looks for a list of matches, its target, and `State.Leads` is what every state says about it:
the completions of the tuples held so far are the target. A step keeps that (`yields_step`), and so an
outcome reports the target (`yields_run`). Memory is the only thing that can end a search early, also
where counting is not exact and the target is missed.
-/

namespace Motif

/-- The tuples a search holds while it looks for `target`. -/
structure Stands (q : Query) (reuse : Reuse) (target : List (List Nat)) (position : Nat)
    (walks : Walks) (ts : List (List Nat)) : Prop where
  holds : walks.Holds position ts
  positive : 0 < position
  within : position ≤ q.pattern.size
  vertices : ∀ t ∈ ts, ∀ v ∈ t, v < q.graph.order
  isMatch : q.pattern.Narrow → ∀ t ∈ ts, IsMatch q.graph q.pattern reuse t
  target_eq : q.pattern.Narrow →
    ts.flatMap (completions q.graph q.pattern reuse) = target

/-- The outcome is the answer to the query when the matches looked for are those of `target`. -/
def Outcome.Reports (goal : Goal) (target : List (List Nat)) : Outcome → Prop
  | .nothing => target = []
  | .listing values => goal = .listing ∧ values.toList = target.flatten
  | .number count => goal = .number ∧ count = target.length

/-- What is true of a state of a search that looks for `target`. -/
def State.Leads (q : Query) (reuse : Reuse) (target : List (List Nat)) : State → Prop
  | .binding position walks => ∃ ts, Stands q reuse target position walks ts
  | .reading walks => q.goal = .listing ∧ ∃ ts, Stands q reuse target q.pattern.size walks ts
  | .ended outcome => q.pattern.Narrow → outcome.Reports q.goal target

namespace Search

variable {q : Query} {s : Search} {target ts lists : List (List Nat)} {position : Nat} {walks : Walks}

/-! ### Growing tuples and their completions -/

/-- What a step makes of partial matches are those with one more position. -/
theorem extendEach_eq_flatMap {reuse : Reuse} (hnarrow : q.pattern.Narrow)
    (hlists : List.Forall₂ (Found q reuse) ts lists) (hlength : ∀ t ∈ ts, t.length = position)
    (hmatch : ∀ t ∈ ts, IsMatch q.graph q.pattern reuse t) :
    extendEach ts lists = ts.flatMap (partials q.graph q.pattern reuse (position + 1)) := by
  induction hlists with
  | nil => rfl
  | @cons t found ts lists hfound _ ih =>
    have hfollows := hfound.exact hnarrow (hmatch t List.mem_cons_self)
    have htail := ih (fun t ht => hlength t (List.mem_cons_of_mem _ ht))
      (fun t ht => hmatch t (List.mem_cons_of_mem _ ht))
    rw [extendEach_cons, htail, List.flatMap_cons, partials_succ (hlength t List.mem_cons_self), hfollows]

/-- Ascending lists of vertices, found for ascending tuples, keep the tuples ascending. -/
theorem extendEach_ascending {arity : Nat} {ts lists : List (List Nat)}
    (hlists : List.Forall₂ (fun _ found => found.Pairwise (· < ·)) ts lists)
    (hlength : ∀ t ∈ ts, t.length = arity) (h : ts.Pairwise (· < ·)) :
    (extendEach ts lists).Pairwise (· < ·) := by
  induction hlists with
  | nil => exact List.Pairwise.nil
  | @cons t found ts lists hfound hlists ih =>
    obtain ⟨hfirst, hlater⟩ := List.pairwise_cons.mp h
    have hlength' : ∀ t ∈ ts, t.length = arity := fun t ht => hlength t (List.mem_cons_of_mem _ ht)
    rw [extendEach_cons, List.pairwise_append, List.pairwise_map]
    refine ⟨?_, ih hlength' hlater, ?_⟩
    · exact hfound.imp fun huv => List.append_left_lt (List.cons_lt_cons_iff.mpr (.inl huv))
    · intro a ha b hb
      obtain ⟨v, _, rfl⟩ := List.mem_map.mp ha
      obtain ⟨t', ht', _, _, u, _, rfl⟩ := of_mem_extendEach hlists hb
      have hsame : t.length = t'.length := (hlength t List.mem_cons_self).trans (hlength' t' ht').symm
      exact lt_of_prefix_lt hsame (hfirst t' ht') (List.prefix_append _ _) (List.prefix_append _ _)

theorem isMatch_of_mem_extendEach {reuse : Reuse} (hnarrow : q.pattern.Narrow)
    (hlists : List.Forall₂ (Found q reuse) ts lists)
    (hmatch : ∀ t ∈ ts, IsMatch q.graph q.pattern reuse t) :
    ∀ t ∈ extendEach ts lists, IsMatch q.graph q.pattern reuse t := by
  intro longer hlonger
  obtain ⟨t, ht, found, hfound, u, hu, rfl⟩ := of_mem_extendEach hlists hlonger
  rw [hfound.exact hnarrow (hmatch t ht)] at hu
  exact mem_follows.mp hu

/-- Matches of all positions are their own completions. -/
theorem flatMap_completions_self {reuse : Reuse} (hlength : ∀ t ∈ ts, t.length = q.pattern.size)
    (hmatch : ∀ t ∈ ts, IsMatch q.graph q.pattern reuse t) :
    ts.flatMap (completions q.graph q.pattern reuse) = ts := by
  have hself : ∀ t ∈ ts, completions q.graph q.pattern reuse t = [t] :=
    fun t ht => completions_of_length_eq (hlength t ht) (hmatch t ht)
  rw [List.flatMap_congr hself, List.flatMap_singleton']

theorem eq_target {reuse : Reuse} (h : Stands q reuse target q.pattern.size walks ts)
    (hnarrow : q.pattern.Narrow) : ts = target := by
  rw [← h.target_eq hnarrow, flatMap_completions_self h.holds.length (h.isMatch hnarrow)]

/-- What was found for all tuples stands for the same target. -/
theorem target_eq_extendEach {reuse : Reuse} (h : Stands q reuse target position walks ts)
    (hlt : position < q.pattern.size) (hlists : List.Forall₂ (Found q reuse) ts lists)
    (hnarrow : q.pattern.Narrow) :
    (extendEach ts lists).flatMap (completions q.graph q.pattern reuse) = target := by
  rw [extendEach_eq_flatMap hnarrow hlists h.holds.length (h.isMatch hnarrow),
    ← h.target_eq hnarrow, List.flatMap_assoc]
  refine List.flatMap_congr fun t ht => ?_
  have hle : t.length ≤ position + 1 := by
    rw [h.holds.length t ht]
    exact Nat.le_succ position
  have hstages : partials q.graph q.pattern reuse q.pattern.size t = _ := partials_eq_flatMap hle hlt
  rw [← partials_size, hstages]
  exact List.flatMap_congr fun m _ => (partials_size _ _ _ m).symm

/-- Where nothing was found, there is nothing to find. -/
theorem target_eq_nil {reuse : Reuse} (h : Stands q reuse target position walks ts)
    (hlt : position < q.pattern.size) (hlists : List.Forall₂ (Found q reuse) ts lists)
    (hnone : lists.flatten = []) (hnarrow : q.pattern.Narrow) : target = [] := by
  have hlength := length_extendEach hlists.length_eq
  rw [hnone, List.length_nil, List.length_eq_zero_iff] at hlength
  rw [← target_eq_extendEach h hlt hlists hnarrow, hlength]
  rfl

/-- At the last position, the candidates can be counted in place of the matches. -/
theorem length_target {reuse : Reuse} (h : Stands q reuse target position walks ts)
    (hlast : position + 1 = q.pattern.size) (hlists : List.Forall₂ (Found q reuse) ts lists)
    (hnarrow : q.pattern.Narrow) : lists.flatten.length = target.length := by
  have hlength : ∀ t ∈ extendEach ts lists, t.length = q.pattern.size :=
    hlast ▸ length_of_mem_extendEach h.holds.length
  have hmatch := isMatch_of_mem_extendEach hnarrow hlists (h.isMatch hnarrow)
  rw [← target_eq_extendEach h (Nat.lt_of_succ_le (Nat.le_of_eq hlast)) hlists hnarrow,
    flatMap_completions_self hlength hmatch, length_extendEach hlists.length_eq]

theorem stands_grown {reuse : Reuse} (h : Stands q reuse target position walks ts)
    (hlt : position < q.pattern.size) (hlists : List.Forall₂ (Found q reuse) ts lists)
    {longer : Walks} (hlonger : longer.Holds (position + 1) (extendEach ts lists)) :
    Stands q reuse target (position + 1) longer (extendEach ts lists) where
  holds := hlonger
  positive := Nat.succ_pos position
  within := hlt
  vertices := by
    intro t' ht' v hv
    obtain ⟨t, ht, found, hfound, u, hu, rfl⟩ := of_mem_extendEach hlists ht'
    rcases List.mem_append.mp hv with hv | hv
    · exact h.vertices t ht v hv
    · rw [List.mem_singleton.mp hv]
      exact hfound.vertices u hu
  isMatch hnarrow := isMatch_of_mem_extendEach hnarrow hlists (h.isMatch hnarrow)
  target_eq := target_eq_extendEach h hlt hlists

/-- What a round that came to its end has found, and what it leads to. -/
theorem of_bindNext {record : Level} {advance : Advance}
    (h : Stands q s.settings.reuse target position walks ts) (hlt : position < q.pattern.size)
    (hnext : s.bindNext q position walks = .ok (record, advance)) :
    ∃ lists, List.Forall₂ (Found q s.settings.reuse) ts lists ∧
      record = Level.untimed position ts.length lists.flatten.length ∧
        Advances q position ts lists advance :=
  (yields_bindNext h.holds h.vertices h.positive hlt).of_ok hnext

/-! ### One step -/

theorem toList_foldl_append (arrays : List (Array Nat)) (init : Array Nat) :
    (arrays.foldl (· ++ ·) init).toList = init.toList ++ (arrays.map Array.toList).flatten := by
  induction arrays generalizing init with
  | nil => simp
  | cons a arrays ih =>
    rw [List.foldl_cons, ih, Array.toList_append, List.map_cons, List.flatten_cons,
      List.append_assoc]

theorem yields_readOut (h : walks.Holds position ts) :
    Yields (readOut walks) fun values => values.toList = ts.flatten := by
  have harity := h.arity_eq
  apply (Word.yields_mulFor _ _ _).bind
  intro _ _
  apply (Word.yields_reserve _).bind
  intro _ _
  have hrows : ∀ i ∈ List.range walks.count, (do
      (← walks.walkAt i).writeTo (Array.replicate walks.arity 0)) = .ok (ts.getD i []).toArray := by
    intro i hi
    have hi : i < ts.length := h.count_eq ▸ List.mem_range.mp hi
    obtain ⟨w, hw, hstores⟩ := h.walkAt hi
    have hsize : (Array.replicate walks.arity 0).size = ts[i].length := by
      rw [Array.size_replicate, harity, h.length _ (List.getElem_mem hi)]
    rw [hw, List.getD_eq_getElem _ _ hi]
    exact hstores.writeTo_of_size_eq hsize
  rw [mapM_eq_ok hrows, yields_ok_bind]
  apply yields_pure
  have hrange : (List.range ts.length).map (Array.toList ∘ fun i => (ts.getD i []).toArray) = ts := by
    apply List.ext_getElem
    · simp
    · intro i hi hi'
      simp [hi']
  rw [toList_foldl_append, List.map_map, h.count_eq, hrange]
  rfl

theorem yields_step {state : State} (h : state.Leads q s.settings.reuse target)
    (hrun : state.outcome? = none) :
    Yields (s.step q state) fun next => next.1.Leads q s.settings.reuse target := by
  cases state with
  | binding position walks =>
    obtain ⟨ts, hstands⟩ := h
    rw [step]
    split
    · rename_i hle
      obtain rfl : position = q.pattern.size := Nat.le_antisymm hstands.within hle
      split
      · rename_i hgoal
        exact yields_pure ⟨hgoal, ts, hstands⟩
      · rename_i hgoal
        refine yields_pure fun hnarrow => ⟨hgoal, ?_⟩
        rw [hstands.holds.count_eq, eq_target hstands hnarrow]
    · rename_i hlt
      have hlt := Nat.not_le.mp hlt
      apply (yields_bindNext hstands.holds hstands.vertices hstands.positive hlt).bind
      rintro ⟨record, advance⟩ ⟨lists, hlists, _, hadvance⟩
      cases hadvance with
      | nothing hnone => exact yields_pure (target_eq_nil hstands hlt hlists hnone)
      | number _ hgoal hlast =>
        exact yields_pure fun hnarrow => ⟨hgoal, length_target hstands hlast hlists hnarrow⟩
      | grown _ _ hlonger =>
        exact yields_pure ⟨_, stands_grown hstands hlt hlists hlonger⟩
  | reading walks =>
    obtain ⟨hgoal, ts, hstands⟩ := h
    apply (yields_readOut hstands.holds).bind
    intro values hvalues
    refine yields_pure fun hnarrow => ⟨hgoal, ?_⟩
    rw [hvalues, eq_target hstands hnarrow]
  | ended outcome => contradiction

/-! ### The whole run -/

/-- What every step keeps, a run keeps. -/
theorem yields_run_of_step {keeps : State → Prop}
    (hstep : ∀ state, keeps state → state.outcome? = none →
      Yields (s.step q state) fun next => keeps next.1)
    {state : State} (h : keeps state) :
    Yields (s.run q state) fun result => keeps (.ended result.1) := by
  fun_induction run s q state with
  | case1 state outcome hended =>
    cases state with
    | ended outcome' =>
      obtain rfl := Option.some.inj hended
      exact yields_pure h
    | binding position walks => contradiction
    | reading walks => contradiction
  | case2 state hrun stop hstop => exact (hstep state h hrun).forMemory hstop
  | case3 state hrun next records hnext ih =>
    apply (ih ((hstep state h hrun).of_ok hnext)).bind
    intro result hresult
    exact yields_pure hresult

theorem yields_run {state : State} (h : state.Leads q s.settings.reuse target) :
    Yields (s.run q state) fun result =>
      q.pattern.Narrow → result.1.Reports q.goal target :=
  yields_run_of_step (fun _ h hrun => yields_step h hrun) h

/-! ### Where a search starts -/

theorem stands_singles {g : Graph} {p : Pattern} {reuse : Reuse} {goal : Goal} {t : Walks}
    (h : Walks.singles g.order = .ok t) :
    Stands ⟨g, p, goal⟩ reuse (allMatches g p reuse) t.arity t ((List.range g.order).map fun v => [v]) := by
  have hholds := (Walks.yields_singles_holds g.order).of_ok h
  have hmatch : ∀ v ∈ List.range g.order, IsMatch g p reuse [v] := by
    intro v hv
    rw [← follows_nil g p reuse] at hv
    exact mem_follows.mp hv
  rw [hholds.arity_eq]
  refine ⟨hholds, Nat.one_pos, p.size_pos, ?_, fun _ => ?_, fun _ => ?_⟩
  · intro t ht v hv
    obtain ⟨u, hu, rfl⟩ := List.mem_map.mp ht
    exact (hmatch u hu).vertices v hv
  · intro t ht
    obtain ⟨u, hu, rfl⟩ := List.mem_map.mp ht
    exact hmatch u hu
  · rw [List.flatMap_map, allMatches_eq_flatMap]

theorem stands_ofSeeds {g : Graph} {p : Pattern} {reuse : Reuse} {goal : Goal} {seeds : Rows Nat}
    {t : Walks} (h : Walks.ofSeeds seeds = .ok t) (hcheck : t.check g p reuse = .ok ()) :
    Stands ⟨g, p, goal⟩ reuse (seeds.toLists.flatMap (completions g p reuse)) t.arity t
      seeds.toLists := by
  obtain ⟨htable, hpos, hlength, _⟩ := Walks.of_ofSeeds h
  obtain ⟨harity, hmatch⟩ := Walks.isMatch_of_check htable hlength hcheck
  exact ⟨Walks.holds_of_ofSeeds h, hpos, harity, fun row hrow => (hmatch row hrow).vertices,
    fun _ => hmatch, fun _ => rfl⟩

/-- From single vertices a search looks for all matches. -/
theorem leads_singles {g : Graph} {p : Pattern} {reuse : Reuse} {goal : Goal} {t : Walks}
    (h : Walks.singles g.order = .ok t) :
    State.Leads ⟨g, p, goal⟩ reuse (allMatches g p reuse) (.binding t.arity t) :=
  ⟨_, stands_singles h⟩

/-- From seeds that were admitted a search looks for the matches that the seeds grow into. -/
theorem leads_ofSeeds {g : Graph} {p : Pattern} {reuse : Reuse} {goal : Goal} {seeds : Rows Nat}
    {t : Walks} (h : Walks.ofSeeds seeds = .ok t) (hcheck : t.check g p reuse = .ok ()) :
    State.Leads ⟨g, p, goal⟩ reuse (seeds.toLists.flatMap (completions g p reuse))
      (.binding t.arity t) :=
  ⟨_, stands_ofSeeds h hcheck⟩

end Search

end Motif
