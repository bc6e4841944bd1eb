import Motif.Proofs.Candidates
import Motif.Proofs.Extension
import Motif.Proofs.Starts

/-!
# Tables that can be built, and the candidates of their walks

`Walks.Built` are the tables that come from a table of single vertices or of seeds by extending it, any
number of times and with any spans. Their walks bind no position beyond the arity and keep their vertices
in ascending order (`Built.eq_ofList`). The order is all that finding candidates relies on besides the
required positions.
-/

namespace Motif

namespace Walks

/-- The tables that the library makes. -/
inductive Built : Walks → Prop
  | singles {n : Nat} {t : Walks} (h : singles n = .ok t) : Built t
  | ofSeeds {seeds : Rows Nat} {t : Walks} (h : ofSeeds seeds = .ok t) : Built t
  | extend {pool : Pool} {spans : List Span} {candidates : Rows Nat} {t longer : Walks}
      (ht : Built t) (hwf : candidates.Wf) (h : t.extend pool spans candidates = .ok longer) :
      Built longer

theorem Built.eq_ofList {t : Walks} (h : Built t) :
    ∃ ws, t = ofList t.arity ws ∧ ∀ w ∈ ws, w.Bounded t.arity := by
  induction h with
  | @singles n t h =>
    obtain ⟨rfl, _⟩ := (yields_singles n).of_ok h
    refine ⟨_, rfl, fun w hw => ?_⟩
    obtain ⟨v, _, rfl⟩ := List.mem_map.mp hw
    exact (Walk.stores_singleton v).bounded
  | ofSeeds h =>
    obtain ⟨htable, _, hrows, _⟩ := of_ofSeeds h
    exact ⟨_, htable, bounded_of_mem_map_ofRow hrows⟩
  | @extend pool spans candidates t longer _ hwf h ih =>
    obtain ⟨ws, htable, hbounded⟩ := ih
    have hshaped : ∀ w ∈ ws, w.Shaped t.arity := fun w hw => (hbounded w hw).toShaped
    rw [htable] at h
    obtain ⟨hfits, hcount, _, rfl⟩ := of_extend hshaped hwf h
    exact ⟨_, rfl, forall_mem_filled hshaped hcount hfits (fun w hw => (hbounded w hw).insert)
      (Walk.bounded_zeros _)⟩

theorem Built.eq_ofList_shaped {t : Walks} (h : Built t) :
    ∃ ws, t = ofList t.arity ws ∧ ∀ w ∈ ws, w.Shaped t.arity := by
  obtain ⟨ws, htable, hbounded⟩ := h.eq_ofList
  exact ⟨ws, htable, fun w hw => (hbounded w hw).toShaped⟩

theorem Built.vertices_ascending {t : Walks} (h : Built t) {i : Nat} {w : Walk}
    (hw : t.walkAt i = .ok w) : w.vertices.Pairwise (· ≤ ·) := by
  obtain ⟨ws, htable, hshaped⟩ := h.eq_ofList_shaped
  rw [htable] at hw
  have hi := lt_count_of_walkAt hw
  rw [count_ofList] at hi
  rw [walkAt_ofList hshaped hi] at hw
  obtain rfl := Except.ok.inj hw
  exact (hshaped _ (List.getElem_mem hi)).ascending

end Walks

namespace Extender

/-- Both methods find the same candidates, whatever the order in which the vertices at the required
positions are taken and whatever the buffer holds already: the vertices that all of these have an edge
to, without those of the walk where vertices may not be reused. -/
theorem candidates_exact (g : Graph) {t : Walks} (ht : t.Built) {i : Nat} {w : Walk}
    (hw : t.walkAt i = .ok w) {required : List Nat} (hne : required ≠ [])
    (hascending : required.Pairwise (· < ·)) (hshort : required.length < UInt32.size)
    (hbound : ∀ p ∈ required, ∃ u < g.order, w.Binds p u) (reuse : Reuse) :
    ∃ found : List Nat, found.Pairwise (· < ·) ∧
      (∀ c, c ∈ found ↔ c < g.order ∧
        (∀ p ∈ required, ∀ u, w.Binds p u → g.hasEdge u c = .ok true) ∧
          (reuse = .forbidden → c ∉ w.vertices)) ∧
      ∀ method, ∃ x, ofRequired g required reuse method = .ok x ∧ ∀ out,
        ((x.candidates w .fresh out).outcome = .ok () ∧
          (x.candidates w .fresh out).buffer = out ++ found) ∧
        ∀ ordered, ordered.Perm (x.sources w) →
          (x.candidatesFrom w ordered .fresh out).outcome = .ok () ∧
            (x.candidatesFrom w ordered .fresh out).buffer = out ++ found := by
  have hnodup : required.Nodup := hascending.imp Nat.ne_of_lt
  have hsome : ∀ p ∈ required, ∃ u, w.Binds p u := fun p hp => (hbound p hp).imp fun _ h => h.2
  -- neither the sources nor the mask depend on the method
  let any : Extender := ⟨g, required, reuse, .intersect, hne⟩
  refine ⟨g.common (any.sources w) (any.mask w), g.common_ascending _ _, ?_, ?_⟩
  · intro c
    exact mem_common_sources (x := any) hnodup hsome
  · intro method
    let x : Extender := ⟨g, required, reuse, method, hne⟩
    have hmask : (x.mask w).Pairwise (· ≤ ·) := x.mask_ascending (ht.vertices_ascending hw)
    have hne' : x.sources w ≠ [] := sources_ne_nil (x := x) hnodup hsome
    have hlength : (x.sources w).length = required.length := length_sources (x := x) hnodup hsome
    refine ⟨x, dif_neg hne, fun out => ⟨?_, fun ordered hperm => ?_⟩⟩
    · obtain ⟨found, hadds, _, hexact⟩ :=
        candidates_adds (x := x) hnodup hbound hmask Workspace.clean_fresh out
      refine ⟨hadds.outcome, ?_⟩
      rw [hadds.buffer, hexact hshort]
      rfl
    · have hordered : ordered ≠ [] := by
        intro h'
        obtain rfl := h'
        exact hne' hperm.nil_eq.symm
      obtain ⟨found, hadds, _, hexact⟩ :=
        candidatesFrom_adds (x := x) hordered hmask Workspace.clean_fresh out
      refine ⟨hadds.outcome, ?_⟩
      have hfound := hexact (by rw [hperm.length_eq, hlength]; exact hshort)
      rw [hadds.buffer, hfound, Graph.common_congr hperm]
      rfl

/-- A seed whose two vertices both have an edge to vertex `2`. -/
theorem candidates_exact_pair :
    let g := Graph.ofAscending [[2], [1, 2], []] (by decide) (by decide)
    let w : Walk := ⟨[0, 1], [1, 0]⟩
    ∃ found : List Nat, 2 ∈ found ∧ 1 ∉ found ∧ ∀ method, ∃ x,
      ofRequired g [0, 1] .forbidden method = .ok x ∧
        (x.candidates w .fresh #[7]).buffer = #[7] ++ found := by
  intro g w
  have hbuilt : Walks.Built ⟨2, ⟨#[0, 2], #[0, 1]⟩, #[1, 0]⟩ :=
    .ofSeeds (show Walks.ofSeeds ⟨#[0, 2], #[1, 0]⟩ = _ by decide +kernel)
  have hfirst : w.Binds 0 1 := by decide
  have hsecond : w.Binds 1 0 := by decide
  have hbound : ∀ p ∈ [0, 1], ∃ u < g.order, w.Binds p u := by
    intro p hp
    rcases List.mem_pair.mp hp with rfl | rfl
    · exact ⟨1, by decide, hfirst⟩
    · exact ⟨0, by decide, hsecond⟩
  obtain ⟨found, _, hmem, hfound⟩ := candidates_exact g hbuilt (i := 0) (by decide)
    (List.cons_ne_nil _ _) (by decide) (by decide) hbound .forbidden
  refine ⟨found, (hmem 2).mpr ⟨by decide, ?_, by decide⟩, fun h => ?_, fun method => ?_⟩
  · intro p hp u hu
    rcases List.mem_pair.mp hp with rfl | rfl
    · rw [hu.unique hfirst]
      decide +kernel
    · rw [hu.unique hsecond]
      decide +kernel
  · exact ((hmem 1).mp h).2.2 rfl (by decide)
  · obtain ⟨x, hx, hcandidates⟩ := hfound method
    exact ⟨x, hx, (hcandidates #[7]).1.2⟩

end Extender

end Motif
