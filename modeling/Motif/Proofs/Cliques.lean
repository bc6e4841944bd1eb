import Mathlib.Algebra.BigOperators.Ring.Finset
import Mathlib.Data.List.Permutation
import Motif.Proofs.EdgeLists
import Motif.Proofs.Exact
import Motif.Proofs.Shapes

/-!
# Cliques

The matches of a clique are the tuples of which any two vertices have an edge, the one before to the one behind.
Where edges go both ways, the order of the vertices is no part of that, so every rearrangement of a match is a
match (`mem_of_perm`). Matches without repetition then fall into classes of `k !` each, one for every set of
`k` vertices (`factorial_dvd`). Without self-loops no clique repeats a vertex, whether or not it may
(`allMatches_of_loopless`).
-/

namespace Motif

/-- Where a list without repetition falls into classes of `d` entries each, `d` divides its length. -/
theorem dvd_length_of_classes {α : Type} [DecidableEq α] (same : Setoid α) {l : List α} {d : Nat}
    (hl : l.Nodup)
    (hclass : ∀ a ∈ l, ∃ c : List α, c.Nodup ∧ c.length = d ∧ ∀ b, b ∈ c ↔ b ∈ l ∧ same b a) :
    d ∣ l.length := by
  classical
  rw [← List.toFinset_card_of_nodup hl, Finset.card_eq_sum_card_image (Quotient.mk same)]
  refine Finset.dvd_sum fun q hq => ?_
  obtain ⟨a, ha, rfl⟩ := Finset.mem_image.mp hq
  obtain ⟨c, hnodup, hlength, hmem⟩ := hclass a (List.mem_toFinset.mp ha)
  have hfiber : {b ∈ l.toFinset | Quotient.mk same b = Quotient.mk same a} = c.toFinset := by
    ext b
    rw [Finset.mem_filter, List.mem_toFinset, List.mem_toFinset, hmem, Quotient.eq]
  rw [hfiber, List.toFinset_card_of_nodup hnodup, hlength]

variable {g : Graph} {p : Pattern} {reuse : Reuse} {k : Nat} {t t' : List Nat}

/-- A rearrangement of a match is a match if it does as well by the edges. -/
theorem mem_allMatches_of_perm {joined : List Nat → Prop}
    (hjoined : ∀ t, t.length = p.size → (IsMatch g p reuse t ↔
      (∀ v ∈ t, v < g.order) ∧ joined t ∧ (reuse = .forbidden → t.Nodup)))
    (hmem : t ∈ allMatches g p reuse) (hperm : t'.Perm t) (hsame : joined t' ↔ joined t) :
    t' ∈ allMatches g p reuse := by
  obtain ⟨hlength, hmatch⟩ := mem_allMatches.mp hmem
  have hlength' : t'.length = p.size := hperm.length_eq.trans hlength
  obtain ⟨hvertices, hedges, hdistinct⟩ := (hjoined t hlength).mp hmatch
  refine mem_allMatches.mpr ⟨hlength', (hjoined t' hlength').mpr ⟨fun v hv => ?_, hsame.mpr hedges, ?_⟩⟩
  · exact hvertices v (hperm.mem_iff.mp hv)
  · exact fun hreuse => hperm.nodup_iff.mpr (hdistinct hreuse)

namespace Shape.clique

theorem mem_of_perm (hp : clique.pattern k = .ok p) (hsym : g.Symmetric)
    (hmem : t ∈ allMatches g p reuse) (hperm : t'.Perm t) : t' ∈ allMatches g p reuse :=
  mem_allMatches_of_perm (fun _ ht => isMatch_clique_iff hp (ht.trans (size_of_pattern hp))) hmem hperm
    (hperm.pairwise_iff fun hedge => hsym _ _ hedge)

/-- Each set of `k` vertices that is a clique is found in every order. -/
theorem factorial_dvd (hp : clique.pattern k = .ok p) (hsym : g.Symmetric) :
    k.factorial ∣ (allMatches g p .forbidden).length := by
  refine dvd_length_of_classes (List.isSetoid Nat) (nodup_allMatches g p .forbidden) fun t ht => ?_
  obtain ⟨hlength, hmatch⟩ := mem_allMatches.mp ht
  refine ⟨t.permutations, List.nodup_permutations t (hmatch.distinct rfl), ?_, fun t' => ?_⟩
  · rw [List.length_permutations, hlength, size_of_pattern hp]
  · rw [List.mem_permutations]
    exact ⟨fun hperm => ⟨mem_of_perm hp hsym ht hperm, hperm⟩, fun h => h.2⟩

theorem allMatches_of_loopless (hp : clique.pattern k = .ok p) (hloop : ∀ u, ¬ g.Edge u u)
    (reuse reuse' : Reuse) : allMatches g p reuse = allMatches g p reuse' := by
  refine List.filter_congr fun t ht => ?_
  have hlength : t.length = k := (mem_tuples.mp ht).1.trans (size_of_pattern hp)
  rw [decide_eq_decide, isMatch_clique_iff hp hlength, isMatch_clique_iff hp hlength]
  refine and_congr_right' (and_congr_right fun hpairs => ?_)
  have hnodup : t.Nodup := by
    refine hpairs.imp ?_
    rintro u _ hedge rfl
    exact hloop u hedge
  exact ⟨fun _ _ => hnodup, fun _ _ => hnodup⟩

end Shape.clique

namespace Search

/-- In a symmetric closure the cliques that are found can be rearranged in any way, and where vertices may not
be reused their number is a multiple of `k !`. Without self-loops it makes no difference whether they may. -/
theorem find_cliques (s : Search) (g : Graph) {k : Nat} (hk : k ≤ 2 ^ 32) {p : Pattern}
    (hp : Shape.clique.pattern k = .ok p) :
    (∀ sym, g.symmetrize = .ok sym →
      (∀ m, s.find sym p = .ok m → ∀ t ∈ m.toList, ∀ t', t'.Perm t → t' ∈ m.toList) ∧
      (s.settings.reuse = .forbidden →
        (∀ m, s.find sym p = .ok m → k.factorial ∣ m.count) ∧
        ∀ c, s.count sym p = .ok c → k.factorial ∣ c.count)) ∧
    ((∀ u < g.order, g.hasEdge u u = .ok false) → ∀ (s' : Search) m m',
      s.find g p = .ok m → s'.find g p = .ok m' → m.toList = m'.toList) := by
  have hnarrow : p.Narrow := Shape.narrow_of_pattern hp fun _ => hk
  refine ⟨fun sym hsym => ?_, fun hloop s' m m' hm hm' => ?_⟩
  · have hedge := Graph.symmetric_of_symmetrize hsym
    refine ⟨fun m hm t ht t' hperm => ?_, fun hreuse => ⟨fun m hm => ?_, fun c hc => ?_⟩⟩
    · rw [toList_find hnarrow hm] at ht ⊢
      exact Shape.clique.mem_of_perm hp hedge ht hperm
    · rw [count_find hnarrow hm, hreuse]
      exact Shape.clique.factorial_dvd hp hedge
    · rw [count_count hnarrow hc, hreuse]
      exact Shape.clique.factorial_dvd hp hedge
  · have hloop' : ∀ u, ¬ g.Edge u u := by
      intro u hedge
      have htrue := Graph.hasEdge_eq_ok_true_iff.mpr hedge
      rw [hloop u (Graph.source_lt_order_of_mem_adjacent hedge)] at htrue
      contradiction
    rw [toList_find hnarrow hm, toList_find hnarrow hm']
    exact Shape.clique.allMatches_of_loopless hp hloop' _ _

/-- Two triangles with a common edge, each found in six orders once edges go both ways. -/
theorem find_cliques_ladder : ∃ sym m c left right,
    Shape.clique.pattern 3 = .ok triangle ∧ ladder.symmetrize = .ok sym ∧
      (ofSettings ⟨2, .forbidden, .tally⟩ 1).find sym triangle = .ok m ∧
      [0, 1, 3] ∈ m.toList ∧ [3, 0, 1] ∈ m.toList ∧ Nat.factorial 3 ∣ m.count ∧ m.count = 12 ∧
      (ofSettings ⟨2, .forbidden, .tally⟩ 1).count sym triangle = .ok c ∧ Nat.factorial 3 ∣ c.count ∧
    (ofSettings ⟨2, .forbidden, .tally⟩ 1).find ladder triangle = .ok left ∧
      (ofSettings ⟨3, .allowed, .intersect⟩ 1).find ladder triangle = .ok right ∧
      left.toList = right.toList := by
  have hp : Shape.clique.pattern 3 = .ok triangle := by decide +kernel
  have hfound : ((ladder.symmetrize >>= fun sym =>
      (ofSettings ⟨2, .forbidden, .tally⟩ 1).find sym triangle).map fun m =>
        (decide ([0, 1, 3] ∈ m.toList), m.count)) = .ok (true, 12) := by
    decide +kernel
  have hcounted : (ladder.symmetrize >>= fun sym =>
      (ofSettings ⟨2, .forbidden, .tally⟩ 1).count sym triangle).isOk = true := by
    decide +kernel
  have hleft : ((ofSettings ⟨2, .forbidden, .tally⟩ 1).find ladder triangle).isOk = true := by
    decide +kernel
  have hright : ((ofSettings ⟨3, .allowed, .intersect⟩ 1).find ladder triangle).isOk = true := by
    decide +kernel
  have hloop : ∀ u < ladder.order, ladder.hasEdge u u = .ok false := by decide +kernel
  obtain ⟨m, hm, hmatch⟩ := exists_of_map_eq_ok hfound
  obtain ⟨hmem, hcount⟩ := Prod.mk.inj hmatch
  obtain ⟨sym, hsym, hm⟩ := bind_eq_ok.mp hm
  obtain ⟨c, hc⟩ := exists_of_isOk hcounted
  rw [hsym] at hc
  obtain ⟨left, hleft⟩ := exists_of_isOk hleft
  obtain ⟨right, hright⟩ := exists_of_isOk hright
  obtain ⟨hsymmetric, hloopless⟩ :=
    find_cliques (ofSettings ⟨2, .forbidden, .tally⟩ 1) ladder (by decide : 3 ≤ 2 ^ 32) hp
  obtain ⟨hclosed, hdvd⟩ := hsymmetric sym hsym
  obtain ⟨hlisted, hnumber⟩ := hdvd rfl
  have hmem := of_decide_eq_true hmem
  exact ⟨sym, m, c, left, right, hp, hsym, hm, hmem, hclosed m hm _ hmem _ (by decide), hlisted m hm,
    hcount, hc, hnumber c hc, hleft, hright, hloopless hloop _ left right hleft hright⟩

end Search

end Motif
