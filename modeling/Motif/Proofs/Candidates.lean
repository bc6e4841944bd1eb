import Motif.Proofs.Common
import Motif.Proofs.Stored

/-!
# The candidates of one walk

A walk that binds each required position once, to a vertex of the graph, has candidates: the common
neighbours of the vertices at these positions, without the vertices of the walk where they may not be
reused. `candidates_adds` says so for the method of the extender and for any clean workspace.
`candidatesFrom_adds` is the part after the vertices were put in order, and holds of any order of them.
Of any other walk it is only known that the buffer keeps what it holds and that what is added ascends
(`candidates_appends_ascending`).
-/

namespace Motif

variable {w : Walk} {t : List Nat} {p u v : Nat}

/-! ### The vertex at a position -/

/-- The walk binds position `p` once, to `u`. A row of zeros, such as spans that leave rows out put at
the end of a table, holds position `0` more than once; it binds no position in this sense. -/
def Walk.Binds (w : Walk) (p u : Nat) : Prop :=
  (w.pairs.filter fun pair => pair.1 == p) = [(p, u)]

namespace Walk

instance : Decidable (w.Binds p u) := inferInstanceAs (Decidable (_ = _))

theorem Binds.mem_pairs_iff (h : w.Binds p u) : (p, v) ∈ w.pairs ↔ v = u := by
  have hmem : (p, v) ∈ w.pairs ↔ (p, v) ∈ w.pairs.filter fun pair => pair.1 == p := by
    rw [List.mem_filter]
    simp
  rw [hmem, h, List.mem_singleton, Prod.mk.injEq]
  simp

theorem Binds.unique (h : w.Binds p u) (h' : w.Binds p v) : u = v :=
  h'.mem_pairs_iff.mp (h.mem_pairs_iff.mpr rfl)

/-- The number of times a walk binds position `p`. -/
theorem count_map_fst_pairs (w : Walk) (p : Nat) :
    (w.pairs.map Prod.fst).count p = (w.pairs.filter fun pair => pair.1 == p).length := by
  rw [List.count, List.countP_map, List.countP_eq_length_filter]
  rfl

theorem Binds.count_eq_one (h : w.Binds p u) : (w.pairs.map Prod.fst).count p = 1 := by
  rw [count_map_fst_pairs, h]
  rfl

theorem Stores.binds (h : w.Stores t) (hp : t[p]? = some u) : w.Binds p u := by
  have hmem : (p, u) ∈ w.pairs := h.mem_pairs.mpr hp
  have hcount : (w.pairs.map Prod.fst).count p = 1 := by
    have hnodup : (w.pairs.map Prod.fst).Nodup := h.map_fst_pairs ▸ h.nodup_positions
    rw [hnodup.count, if_pos (List.mem_map_of_mem hmem)]
  rw [count_map_fst_pairs] at hcount
  obtain ⟨pair, hpair⟩ := List.length_eq_one_iff.mp hcount
  have hself : (p, u) ∈ w.pairs.filter fun pair => pair.1 == p :=
    List.mem_filter.mpr ⟨hmem, beq_self_eq_true p⟩
  rw [hpair, List.mem_singleton] at hself
  rw [Binds, hpair, hself]

end Walk

namespace Extender

variable {x : Extender} {space : Workspace}

/-! ### The vertices at the required positions -/

theorem mem_sources : u ∈ x.sources w ↔ ∃ p ∈ x.required, (p, u) ∈ w.pairs := by
  simp only [sources, List.mem_map, List.mem_filter, List.contains_eq_mem, decide_eq_true_iff]
  refine ⟨?_, ?_⟩
  · intro h'
    obtain ⟨⟨p, v⟩, ⟨hmem, hp⟩, rfl⟩ := h'
    exact ⟨p, hp, hmem⟩
  · intro h'
    obtain ⟨p, hp, hmem⟩ := h'
    exact ⟨(p, u), ⟨hmem, hp⟩, rfl⟩

theorem length_sources (hreq : x.required.Nodup) (hbound : ∀ p ∈ x.required, ∃ u, w.Binds p u) :
    (x.sources w).length = x.required.length := by
  have hperm : ((w.pairs.map Prod.fst).filter x.required.contains).Perm x.required := by
    rw [List.perm_iff_count]
    intro p
    by_cases hp : p ∈ x.required
    · obtain ⟨u, hu⟩ := hbound p hp
      rw [List.count_filter (by simpa using hp), hu.count_eq_one, hreq.count, if_pos hp]
    · rw [List.count_eq_zero.mpr hp, List.count_eq_zero]
      intro hmem
      exact hp (by simpa using (List.mem_filter.mp hmem).2)
  rw [← hperm.length_eq, List.filter_map, List.length_map, sources, List.length_map]
  rfl

theorem sources_ne_nil (hreq : x.required.Nodup) (hbound : ∀ p ∈ x.required, ∃ u, w.Binds p u) :
    x.sources w ≠ [] := by
  intro hnil
  have hlength := length_sources hreq hbound
  rw [hnil] at hlength
  exact x.nonempty (List.length_eq_zero_iff.mp hlength.symm)

theorem mem_sources_of_binds (hbound : ∀ p ∈ x.required, ∃ u, w.Binds p u) :
    u ∈ x.sources w ↔ ∃ p ∈ x.required, w.Binds p u := by
  rw [mem_sources]
  refine exists_congr fun p => and_congr_right fun hp => ?_
  obtain ⟨v, hv⟩ := hbound p hp
  rw [hv.mem_pairs_iff]
  refine ⟨?_, ?_⟩
  · intro h'
    obtain rfl := h'
    exact hv
  · exact fun hu => hu.unique hv

theorem mask_ascending (x : Extender) (h : w.vertices.Pairwise (· ≤ ·)) :
    (x.mask w).Pairwise (· ≤ ·) := by
  rw [mask]
  cases x.reuse with
  | allowed => exact List.Pairwise.nil
  | forbidden => exact h

theorem mem_mask : v ∈ x.mask w ↔ x.reuse = .forbidden ∧ v ∈ w.vertices := by
  rw [mask]
  cases x.reuse with
  | allowed => simp
  | forbidden => simp

theorem byDegree_perm (g : Graph) (sources : List Nat) : (byDegree g sources).Perm sources := by
  rw [byDegree, Sorted.sortBy_eq]
  exact List.mergeSort_perm sources _

theorem absent?_eq_none {g : Graph} {sources : List Nat} :
    absent? g sources = none ↔ ∀ u ∈ sources, u < g.order := by
  rw [absent?, List.find?_eq_none]
  simp [Lookup.mem_order]

/-! ### What is found -/

theorem candidatesFrom_adds {ordered : List Nat} (hne : ordered ≠ [])
    (hmask : (x.mask w).Pairwise (· ≤ ·)) (hclean : space.Clean) (out : Array Nat) :
    ∃ found, (x.candidatesFrom w ordered space out).Adds Workspace.Clean out found ∧
      (∀ v ∈ found, v < x.graph.order) ∧
      (ordered.length < UInt32.size → found = x.graph.common ordered (x.mask w)) := by
  cases ordered with
  | nil => contradiction
  | cons first rest =>
    rw [candidatesFrom]
    split
    · rename_i hdegree
      have hnone : x.graph.adjacent first = [] := by
        by_contra hsome
        obtain ⟨v, hv⟩ := List.exists_mem_of_ne_nil _ hsome
        have hlength := Graph.length_adjacent (Graph.source_lt_order_of_mem_adjacent hv)
        rw [hdegree] at hlength
        exact hsome (List.length_eq_zero_iff.mp hlength)
      refine ⟨[], ⟨rfl, by simp, hclean⟩, by simp, fun _ => ?_⟩
      refine (List.eq_nil_iff_forall_not_mem.mpr fun v hv => ?_).symm
      have := ((Graph.mem_common_iff hne).mp hv).1 first List.mem_cons_self
      rw [hnone] at this
      contradiction
    · split
      · exact ⟨_, intersect_adds first rest hmask hclean out,
          fun v hv => Graph.lt_order_of_mem_common hv, fun _ => rfl⟩
      · exact tally_adds hne hmask hclean out

/-- What there is to be found. -/
theorem mem_common_sources (hreq : x.required.Nodup)
    (hbound : ∀ p ∈ x.required, ∃ u, w.Binds p u) :
    v ∈ x.graph.common (x.sources w) (x.mask w) ↔ v < x.graph.order ∧
      (∀ p ∈ x.required, ∀ u, w.Binds p u → x.graph.hasEdge u v = .ok true) ∧
        (x.reuse = .forbidden → v ∉ w.vertices) := by
  have hmask : v ∉ x.mask w ↔ (x.reuse = .forbidden → v ∉ w.vertices) := by
    rw [mem_mask, not_and]
  have hsources : (∀ u ∈ x.sources w, v ∈ x.graph.adjacent u) ↔
      ∀ p ∈ x.required, ∀ u, w.Binds p u → x.graph.hasEdge u v = .ok true := by
    simp only [Graph.hasEdge_eq_ok_true_iff]
    refine ⟨?_, ?_⟩
    · exact fun h p hp u hu => h u ((mem_sources_of_binds hbound).mpr ⟨p, hp, hu⟩)
    · intro h u hu
      obtain ⟨p, hp, hbinds⟩ := (mem_sources_of_binds hbound).mp hu
      exact h p hp u hbinds
  refine ⟨?_, ?_⟩
  · intro hv
    have hboth := (Graph.mem_common_iff (sources_ne_nil hreq hbound)).mp hv
    exact ⟨Graph.lt_order_of_mem_common hv, hsources.mp hboth.1, hmask.mp hboth.2⟩
  · intro h'
    obtain ⟨_, hedges, hfree⟩ := h'
    exact (Graph.mem_common_iff (sources_ne_nil hreq hbound)).mpr
      ⟨hsources.mpr hedges, hmask.mpr hfree⟩

theorem candidates_adds (hreq : x.required.Nodup)
    (hbound : ∀ p ∈ x.required, ∃ u < x.graph.order, w.Binds p u)
    (hmask : (x.mask w).Pairwise (· ≤ ·)) (hclean : space.Clean) (out : Array Nat) :
    ∃ found, (x.candidates w space out).Adds Workspace.Clean out found ∧
      (∀ v ∈ found, v < x.graph.order) ∧ (x.required.length < UInt32.size →
        found = x.graph.common (x.sources w) (x.mask w)) := by
  have hlength : (x.sources w).length = x.required.length :=
    length_sources hreq fun p hp => (hbound p hp).imp fun _ h => h.2
  have hpresent : absent? x.graph (x.sources w) = none := by
    rw [absent?_eq_none]
    intro v hv
    obtain ⟨p, hp, hmem⟩ := mem_sources.mp hv
    obtain ⟨u, hu, hbinds⟩ := hbound p hp
    exact hbinds.mem_pairs_iff.mp hmem ▸ hu
  have hperm := byDegree_perm x.graph (x.sources w)
  have hne : byDegree x.graph (x.sources w) ≠ [] := by
    intro hnil
    rw [hnil] at hperm
    exact sources_ne_nil hreq (fun p hp => (hbound p hp).imp fun _ h => h.2) hperm.nil_eq.symm
  simp only [candidates, Workspace.sources_refill]
  rw [if_neg (not_not.mpr hlength), hpresent]
  obtain ⟨found, hadds, hvertices, hexact⟩ := candidatesFrom_adds hne hmask
    (Workspace.clean_refill (Workspace.clean_refill hclean _) _) out
  refine ⟨found, hadds, hvertices, fun hshort => ?_⟩
  rw [hexact (by rwa [hperm.length_eq, hlength]), Graph.common_congr hperm]

/-! ### The buffer only grows -/

/-- Whatever walk and workspace a call is given, and whether it stops or not, what it adds is in ascending
order. -/
theorem candidates_appends_ascending (x : Extender) (w : Walk) (space : Workspace) (out : Array Nat) :
    ∃ found : List Nat, found.Pairwise (· < ·) ∧ (x.candidates w space out).buffer = out ++ found := by
  have hnothing : ∃ found : List Nat, found.Pairwise (· < ·) ∧ out = out ++ found :=
    ⟨[], List.Pairwise.nil, by simp⟩
  simp only [candidates]
  split
  · exact hnothing
  · split
    · exact hnothing
    · generalize byDegree _ _ = ordered
      cases ordered with
      | nil => exact hnothing
      | cons first rest =>
        simp only [candidatesFrom]
        split
        · exact hnothing
        · split
          · exact intersect_appends _ _ _ _ _ out
          · exact tally_appends (List.cons_ne_nil _ _) _ _ _ out

/-- What a buffer holds already stays in front of what a call adds, whether the call stops or not. -/
theorem candidates_appends (x : Extender) (w : Walk) (space : Workspace) (out : Array Nat) :
    ∃ found : List Nat, (x.candidates w space out).buffer = out ++ found := by
  obtain ⟨found, _, hfound⟩ := candidates_appends_ascending x w space out
  exact ⟨found, hfound⟩

end Extender

end Motif
