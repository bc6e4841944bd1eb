import Motif.Proofs.Regular
import Motif.Proofs.Shared

/-!
# How the look for candidates ends

A walk that lacks a required position is refused, and the graph is not looked at for that (`candidates_of_unbound`). If
the walk binds them all, the step breaks off when one of them is bound to what is no vertex, and finds candidates
otherwise. The other positions of the walk do not count, although their vertices may be kept from the candidates
(`candidates_judged`). Nothing here is asked of the workspace.
-/

namespace Motif

namespace Extender

variable {x : Extender} {w : Walk} {t : List Nat} {u : Nat}

/-! ### Three ways to end -/

theorem candidates_of_unbound (h : (x.sources w).length ≠ x.required.length) (space : Workspace)
    (out : Array Nat) : x.candidates w space out =
      ⟨refuse (.mismatch (.unboundPositions (x.sources w).length x.required.length)),
        space.refill (x.sources w), out⟩ := by
  simp only [candidates, Workspace.sources_refill]
  rw [if_pos h]

theorem candidates_of_absent (h : (x.sources w).length = x.required.length)
    (habsent : absent? x.graph (x.sources w) = some u) (space : Workspace) (out : Array Nat) :
    x.candidates w space out = ⟨breach (.node u), space.refill (x.sources w), out⟩ := by
  simp only [candidates, Workspace.sources_refill]
  rw [if_neg (not_not.mpr h), habsent]

theorem outcome_intersect (g : Graph) (first : Nat) (rest mask : List Nat) (space : Workspace)
    (out : Array Nat) : (intersect g first rest mask space out).outcome = .ok () := by
  cases rest with
  | nil => rfl
  | cons next rest => rfl

theorem outcome_candidatesFrom {ordered : List Nat} (hne : ordered ≠ []) (space : Workspace)
    (out : Array Nat) : (x.candidatesFrom w ordered space out).outcome = .ok () := by
  obtain ⟨first, rest, rfl⟩ := List.exists_cons_of_ne_nil hne
  rw [candidatesFrom]
  split
  · rfl
  · split
    · exact outcome_intersect _ _ _ _ _ _
    · rfl

theorem outcome_of_present (h : (x.sources w).length = x.required.length)
    (hpresent : absent? x.graph (x.sources w) = none) (space : Workspace) (out : Array Nat) :
    (x.candidates w space out).outcome = .ok () := by
  have hne : byDegree x.graph (x.sources w) ≠ [] := by
    intro hnil
    have hlength := (byDegree_perm x.graph (x.sources w)).length_eq
    rw [hnil, h] at hlength
    exact x.nonempty (List.length_eq_zero_iff.mp hlength.symm)
  simp only [candidates, Workspace.sources_refill]
  rw [if_neg (not_not.mpr h), hpresent]
  exact outcome_candidatesFrom hne _ _

/-! ### What the walk decides -/

/-- A walk has one vertex for each required position that it binds. -/
theorem length_sources_of_stores (hw : w.Stores t) (hreq : x.required.Nodup) :
    (x.sources w).length = x.required.countP fun p => decide (p < t.length) := by
  have hnodup : (w.pairs.map Prod.fst).Nodup := hw.map_fst_pairs ▸ hw.nodup_positions
  have hperm : ((w.pairs.map Prod.fst).filter x.required.contains).Perm
      (x.required.filter fun p => decide (p < t.length)) := by
    refine (List.perm_ext_iff_of_nodup (hnodup.filter _) (hreq.filter _)).mpr fun p => ?_
    rw [List.mem_filter, List.mem_filter, hw.map_fst_pairs, hw.positions_perm.mem_iff, List.mem_range,
      List.contains_iff_mem, decide_eq_true_iff, and_comm]
  rw [List.countP_eq_length_filter, ← hperm.length_eq, List.filter_map, List.length_map, sources,
    List.length_map]
  rfl

theorem length_sources_eq_iff (hw : w.Stores t) (hreq : x.required.Nodup) :
    (x.sources w).length = x.required.length ↔ ∀ p ∈ x.required, p < t.length := by
  rw [length_sources_of_stores hw hreq, List.countP_eq_length]
  simp

theorem mem_sources_of_stores (hw : w.Stores t) :
    u ∈ x.sources w ↔ ∃ p ∈ x.required, w.vertexAt p = some u := by
  rw [mem_sources]
  simp only [hw.mem_pairs, hw.vertexAt]

/-- What is reported to be no vertex is none, and is what a required position is bound to. -/
theorem of_absent? {g : Graph} {sources : List Nat} (h : absent? g sources = some u) :
    u ∈ sources ∧ g.order ≤ u := by
  refine ⟨Lookup.mem_order.mp (List.mem_of_find?_eq_some h), ?_⟩
  simpa using List.find?_some h

/-- A required position that the walk does not bind is refused. -/
theorem candidates_of_lacking (hw : w.Stores t) (hreq : x.required.Nodup) (h : ∃ p ∈ x.required, t.length ≤ p)
    (space : Workspace) (out : Array Nat) : x.candidates w space out =
      ⟨refuse (.mismatch (.unboundPositions (x.required.countP fun p => decide (p < t.length)) x.required.length)),
        space.refill (x.sources w), out⟩ := by
  have hlength : (x.sources w).length ≠ x.required.length := by
    obtain ⟨p, hp, hle⟩ := h
    exact fun heq => Nat.not_lt.mpr hle ((length_sources_eq_iff hw hreq).mp heq p hp)
  rw [candidates_of_unbound hlength, length_sources_of_stores hw hreq]

/-- A required position that is bound to what is no vertex breaks the step off. Where there are several of them, one is
reported. -/
theorem candidates_of_astray (hw : w.Stores t) (hreq : x.required.Nodup) (hall : ∀ p ∈ x.required, p < t.length)
    (h : ∃ p ∈ x.required, ∃ u, w.vertexAt p = some u ∧ x.graph.order ≤ u) (space : Workspace) (out : Array Nat) :
    ∃ u, x.candidates w space out = ⟨breach (.node u), space.refill (x.sources w), out⟩ ∧ x.graph.order ≤ u ∧
      ∃ p ∈ x.required, w.vertexAt p = some u := by
  have hlength := (length_sources_eq_iff hw hreq).mpr hall
  cases habsent : absent? x.graph (x.sources w) with
  | some u =>
    obtain ⟨hmem, hout⟩ := of_absent? habsent
    exact ⟨u, candidates_of_absent hlength habsent space out, hout, (mem_sources_of_stores hw).mp hmem⟩
  | none =>
    obtain ⟨p, hp, u, hu, hout⟩ := h
    have hlt := absent?_eq_none.mp habsent u ((mem_sources_of_stores hw).mpr ⟨p, hp, hu⟩)
    exact absurd hlt (Nat.not_lt.mpr hout)

theorem outcome_of_vertices (hw : w.Stores t) (hreq : x.required.Nodup) (hall : ∀ p ∈ x.required, p < t.length)
    (h : ∀ p ∈ x.required, ∀ u, w.vertexAt p = some u → u < x.graph.order) (space : Workspace) (out : Array Nat) :
    (x.candidates w space out).outcome = .ok () := by
  refine outcome_of_present ((length_sources_eq_iff hw hreq).mpr hall) (absent?_eq_none.mpr fun u hu => ?_) space out
  obtain ⟨p, hp, hu⟩ := (mem_sources_of_stores hw).mp hu
  exact h p hp u hu

/-- The step is refused, breaks off or finds candidates, by what the walk binds the required positions to. A refusal is
the same on every graph, and unless the step finds candidates it leaves the buffer alone. -/
theorem candidates_judged (x : Extender) (hascending : x.required.Pairwise (· < ·)) {table : Walks}
    (htable : table.Covered) {i : Nat} (hw : table.walkAt i = .ok w) (space : Workspace) (out : Array Nat) :
    ((∃ cause, (x.candidates w space out).outcome = refuse (.mismatch cause)) ↔
      ∃ p ∈ x.required, table.arity ≤ p) ∧
    ((∃ p ∈ x.required, table.arity ≤ p) → (x.candidates w space out).buffer = out ∧
      ∀ g, Extender.candidates { x with graph := g } w space out = x.candidates w space out) ∧
    ((∃ cause, (x.candidates w space out).outcome = breach cause) ↔ (∀ p ∈ x.required, p < table.arity) ∧
      ∃ p ∈ x.required, ∃ u, w.vertexAt p = some u ∧ x.graph.order ≤ u) ∧
    ((x.candidates w space out).outcome = .ok () ↔ (∀ p ∈ x.required, p < table.arity) ∧
      ∀ p ∈ x.required, ∀ u, w.vertexAt p = some u → u < x.graph.order) ∧
    ∃ found : List Nat, (x.candidates w space out).buffer = out ++ found := by
  obtain ⟨t, harity, hstores⟩ := htable.stores hw
  have hreq : x.required.Nodup := hascending.imp Nat.ne_of_lt
  have happends := candidates_appends x w space out
  rw [← harity]
  by_cases hlacks : ∃ p ∈ x.required, t.length ≤ p
  · have hnot : ¬ ∀ p ∈ x.required, p < t.length := by
      obtain ⟨p, hp, hle⟩ := hlacks
      exact fun hall => Nat.not_lt.mpr hle (hall p hp)
    have hstep := candidates_of_lacking hstores hreq hlacks space out
    have houtcome : (x.candidates w space out).outcome = refuse _ := congrArg Appended.outcome hstep
    rw [houtcome]
    refine ⟨iff_of_true ⟨_, rfl⟩ hlacks, fun _ => ⟨congrArg Appended.buffer hstep, fun g => ?_⟩,
      iff_of_false (by nofun) fun h => hnot h.1, iff_of_false (by nofun) fun h => hnot h.1, happends⟩
    rw [hstep]
    exact @candidates_of_lacking { x with graph := g } w t hstores hreq hlacks space out
  · have hall : ∀ p ∈ x.required, p < t.length := fun p hp => Nat.not_le.mp fun hle => hlacks ⟨p, hp, hle⟩
    by_cases hastray : ∃ p ∈ x.required, ∃ u, w.vertexAt p = some u ∧ x.graph.order ≤ u
    · obtain ⟨u, hstep, hout, p, hp, hu⟩ := candidates_of_astray hstores hreq hall hastray space out
      have houtcome : (x.candidates w space out).outcome = breach _ := congrArg Appended.outcome hstep
      rw [houtcome]
      refine ⟨iff_of_false (by nofun) hlacks, fun h => absurd h hlacks, iff_of_true ⟨_, rfl⟩ ⟨hall, hastray⟩,
        iff_of_false (by nofun) fun h => ?_, happends⟩
      exact Nat.not_lt.mpr hout (h.2 p hp u hu)
    · have hvertices : ∀ p ∈ x.required, ∀ u, w.vertexAt p = some u → u < x.graph.order :=
        fun p hp u hu => Nat.not_le.mp fun hle => hastray ⟨p, hp, u, hu, hle⟩
      rw [outcome_of_vertices hstores hreq hall hvertices space out]
      exact ⟨iff_of_false (by nofun) hlacks, fun h => absurd h hlacks, iff_of_false (by nofun) fun h => hastray h.2,
        iff_of_true rfl ⟨hall, hvertices⟩, happends⟩

/-- A seed whose second vertex is none of the graph's. It has candidates as long as its second position is not required,
and a third is missed before the second is looked up. -/
theorem candidates_judged_seed :
    let g := Graph.ofAscending [[2], [1, 2], []] (by decide) (by decide)
    let w : Walk := ⟨[0, 9], [0, 1]⟩
    ∀ space out,
      (Extender.candidates ⟨g, [0], .forbidden, .intersect, by decide⟩ w space out).outcome = .ok () ∧
        (∃ cause, (Extender.candidates ⟨g, [0, 1], .allowed, .tally, by decide⟩ w space out).outcome = breach cause) ∧
        ∃ cause, (Extender.candidates ⟨g, [1, 2], .allowed, .tally, by decide⟩ w space out).outcome =
          refuse (.mismatch cause) := by
  intro g w space out
  have hcovered : Walks.Covered ⟨2, ⟨#[0, 2, 4], #[0, 9, 1, 2]⟩, #[0, 1, 1, 0]⟩ :=
    .ofSeeds (show Walks.ofSeeds ⟨#[0, 2, 4], #[0, 9, 2, 1]⟩ = _ by decide +kernel)
  have hw : Walks.walkAt ⟨2, ⟨#[0, 2, 4], #[0, 9, 1, 2]⟩, #[0, 1, 1, 0]⟩ 0 = .ok w := by decide
  obtain ⟨_, _, _, hok, _⟩ :=
    candidates_judged ⟨g, [0], .forbidden, .intersect, by decide⟩ (by decide) hcovered hw space out
  obtain ⟨_, _, hbroken, _⟩ :=
    candidates_judged ⟨g, [0, 1], .allowed, .tally, by decide⟩ (by decide) hcovered hw space out
  obtain ⟨hrefused, _⟩ :=
    candidates_judged ⟨g, [1, 2], .allowed, .tally, by decide⟩ (by decide) hcovered hw space out
  refine ⟨hok.mpr ⟨by decide, ?_⟩, hbroken.mpr ⟨by decide, 1, by decide, 9, by decide, by decide⟩,
    hrefused.mpr ⟨2, by decide, by decide⟩⟩
  intro p hp u hu
  obtain rfl := List.mem_singleton.mp hp
  obtain rfl := Option.some.inj hu
  decide

end Extender

end Motif
