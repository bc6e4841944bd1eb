import Mathlib.Data.List.Cycle
import Mathlib.LinearAlgebra.Matrix.Trace
import Motif.Proofs.Cliques
import Motif.Proofs.Paths

/-!
# Cycles

A cycle has its closing edge from the first position to the last, for edges can only be required from earlier
positions. Where edges go both ways its matches are the closed walks all the same (`isMatch_iff_chain`). A closed
walk can start at any of its vertices and go round either way (`mem_of_sameRound`), and those of `k` edges are
counted by the trace of a power of the adjacency matrix (`length_allMatches`). A round through three different
vertices or more is never the same backwards, so it is found `2 * k` times (`two_mul_dvd`).
-/

namespace Motif

/-! ### Rounds -/

/-- Edges that go both ways lead round in both directions. -/
theorem chain_reverse_iff {rel : Nat → Nat → Prop} (hrel : ∀ u v, rel u v → rel v u) (t : List Nat) :
    (t.reverse : Cycle Nat).Chain rel ↔ (t : Cycle Nat).Chain rel := by
  cases t with
  | nil => exact Iff.rfl
  | cons u t =>
    have hstart : ((u :: t).reverse : Cycle Nat) = (u :: t.reverse : List Nat) := by
      rw [List.reverse_cons]
      exact Cycle.coe_eq_coe.mpr (List.isRotated_concat u t.reverse)
    have hreverse : u :: (t.reverse ++ [u]) = (u :: (t ++ [u])).reverse := by simp
    rw [hstart, Cycle.chain_coe_cons, Cycle.chain_coe_cons, hreverse, List.isChain_reverse]
    exact List.IsChain.iff fun v w => ⟨hrel w v, hrel v w⟩

/-- One list is the other up to where it starts and which way it goes. -/
def SameRound (a b : List Nat) : Prop := a ~r b ∨ a ~r b.reverse

theorem SameRound.equivalence : Equivalence SameRound where
  refl a := .inl (List.IsRotated.refl a)
  symm := by
    rintro a b (h | h)
    · exact .inl h.symm
    · exact .inr (List.isRotated_reverse_comm_iff.mp h.symm)
  trans := by
    rintro a b c (hab | hab) (hbc | hbc)
    · exact .inl (hab.trans hbc)
    · exact .inr (hab.trans hbc)
    · exact .inr (hab.trans hbc.reverse)
    · exact .inl (hab.trans (List.isRotated_reverse_comm_iff.mpr hbc))

/-- Past two entries, a list without repetition goes round one way only. -/
theorem not_isRotated_reverse {t : List Nat} (hnodup : t.Nodup) (hlength : 3 ≤ t.length) :
    ¬ t ~r t.reverse := by
  intro hrot
  have hpos : 0 < t.length := Nat.lt_of_lt_of_le (by decide) hlength
  -- the entry after the first would be the one before it, which is the last
  have hnext := List.isRotated_next_eq hrot hnodup (List.getElem_mem hpos)
  rw [List.next_reverse_eq_prev t hnodup _ (List.getElem_mem hpos), List.next_getElem t hnodup,
    List.prev_getElem t hnodup, hnodup.getElem_inj_iff, Nat.zero_add, Nat.zero_add,
    Nat.mod_eq_of_lt (by omega), Nat.mod_eq_of_lt (by omega)] at hnext
  omega

/-- The rounds that are the same as a given one. -/
def rounds (t : List Nat) : List (List Nat) := t.cyclicPermutations ++ t.reverse.cyclicPermutations

theorem mem_rounds {t t' : List Nat} : t' ∈ rounds t ↔ SameRound t' t := by
  rw [rounds, List.mem_append, List.mem_cyclicPermutations_iff, List.mem_cyclicPermutations_iff]
  exact Iff.rfl

theorem nodup_rounds {t : List Nat} (hnodup : t.Nodup) (hlength : 3 ≤ t.length) : (rounds t).Nodup := by
  refine List.nodup_append.mpr ⟨hnodup.cyclicPermutations,
    (List.nodup_reverse.mpr hnodup).cyclicPermutations, ?_⟩
  rintro a ha _ hb rfl
  rw [List.mem_cyclicPermutations_iff] at ha hb
  exact not_isRotated_reverse hnodup hlength (ha.symm.trans hb)

theorem length_rounds {t : List Nat} (ht : t ≠ []) : (rounds t).length = 2 * t.length := by
  have hreverse : t.reverse ≠ [] := fun h => ht (List.reverse_eq_nil_iff.mp h)
  rw [rounds, List.length_append, List.length_cyclicPermutations_of_ne_nil t ht,
    List.length_cyclicPermutations_of_ne_nil _ hreverse, List.length_reverse, Nat.two_mul]

/-! ### Matches of a cycle -/

namespace Shape.cycle

variable {g : Graph} {p : Pattern} {reuse : Reuse} {k : Nat} {t t' : List Nat}

theorem isMatch_iff_chain (hp : cycle.pattern k = .ok p) (hsym : g.Symmetric) (ht : t.length = k) :
    IsMatch g p reuse t ↔
      (∀ v ∈ t, v < g.order) ∧ (t : Cycle Nat).Chain g.Edge ∧ (reuse = .forbidden → t.Nodup) := by
  obtain ⟨u, t, rfl⟩ := List.exists_cons_of_length_pos (ht ▸ pos_of_pattern hp)
  rw [isMatch_cycle_iff hp ht, Cycle.chain_coe_cons, ← List.cons_append, List.isChain_append]
  refine and_congr_right' (and_congr_left' (and_congr_right' ?_))
  have hlast : (u :: t).getLast? = some (t.getLastD u) := by
    rw [List.getLast?_cons, List.getLastD_eq_getLast?]
  simp only [hlast, List.head?_cons, Option.mem_some_iff, List.isChain_singleton, true_and,
    forall_eq']
  exact ⟨hsym _ _, hsym _ _⟩

theorem mem_of_sameRound (hp : cycle.pattern k = .ok p) (hsym : g.Symmetric)
    (hmem : t ∈ allMatches g p reuse) (hsame : SameRound t' t) : t' ∈ allMatches g p reuse := by
  have hperm : t'.Perm t := hsame.elim (·.perm) fun h => h.perm.trans t.reverse_perm
  have hround : (t' : Cycle Nat).Chain g.Edge ↔ (t : Cycle Nat).Chain g.Edge := by
    rcases hsame with h | h
    · rw [Cycle.coe_eq_coe.mpr h]
    · rw [Cycle.coe_eq_coe.mpr h, chain_reverse_iff hsym]
  exact mem_allMatches_of_perm (fun _ ht => isMatch_iff_chain hp hsym (ht.trans (size_of_pattern hp)))
    hmem hperm hround

/-- Each round is found from each of its vertices and in both directions. -/
theorem two_mul_dvd (hp : cycle.pattern k = .ok p) (hsym : g.Symmetric) :
    2 * k ∣ (allMatches g p .forbidden).length := by
  refine dvd_length_of_classes ⟨SameRound, SameRound.equivalence⟩ (nodup_allMatches g p .forbidden)
    fun t ht => ?_
  obtain ⟨hlength, hmatch⟩ := mem_allMatches.mp ht
  rw [size_of_pattern hp] at hlength
  have hk : 3 ≤ t.length := hlength ▸ three_le_of_pattern hp
  refine ⟨rounds t, nodup_rounds (hmatch.distinct rfl) hk, ?_, fun t' => ?_⟩
  · rw [length_rounds (List.length_pos_iff.mp (Nat.lt_of_lt_of_le (by decide) hk)), hlength]
  · rw [mem_rounds]
    exact ⟨fun hsame => ⟨mem_of_sameRound hp hsym ht hsame, hsame⟩, fun h => h.2⟩

theorem length_allMatches (hp : cycle.pattern (k + 1) = .ok p) (hsym : g.Symmetric) :
    (allMatches g p .allowed).length = (g.matrix ^ (k + 1)).trace := by
  rw [length_allMatches_of_allowed (size_of_pattern hp) fun u t hlength => isMatch_cycle_iff hp hlength,
    Finset.sum_range, Matrix.trace]
  refine Finset.sum_congr rfl fun u _ => ?_
  rw [countP_isChain (g.Edge u), Matrix.diag_apply, pow_succ, Matrix.mul_apply, Matrix.mulVec, dotProduct]
  -- the closing edge is required the other way round
  refine Finset.sum_congr rfl fun v _ => ?_
  rw [g.matrix_apply v u, if_congr ⟨hsym u v, hsym v u⟩ rfl rfl]

end Shape.cycle

namespace Search

/-- In a symmetric closure the cycles that are found can be rotated and reversed. Where vertices may be reused,
there are as many as closed walks, by the trace of a power of the adjacency matrix. Where they may not, their
number is a multiple of `2 * k`. -/
theorem find_cycles (s : Search) (g : Graph) {k : Nat} {p : Pattern} (hp : Shape.cycle.pattern k = .ok p)
    {sym : Graph} (hsym : g.symmetrize = .ok sym) :
    (∀ m, s.find sym p = .ok m →
      ∀ t ∈ m.toList, (∀ i, t.rotate i ∈ m.toList) ∧ t.reverse ∈ m.toList) ∧
    (s.settings.reuse = .allowed →
      (∀ m, s.find sym p = .ok m → m.count = (sym.matrix ^ k).trace) ∧
      ∀ c, s.count sym p = .ok c → c.count = (sym.matrix ^ k).trace) ∧
    (s.settings.reuse = .forbidden →
      (∀ m, s.find sym p = .ok m → 2 * k ∣ m.count) ∧
      ∀ c, s.count sym p = .ok c → 2 * k ∣ c.count) := by
  have hnarrow : p.Narrow := Shape.narrow_of_pattern hp (by simp)
  have hedge := Graph.symmetric_of_symmetrize hsym
  refine ⟨fun m hm t ht => ?_, fun hreuse => ?_, fun hreuse => ?_⟩
  · rw [toList_find hnarrow hm] at ht ⊢
    exact ⟨fun i => Shape.cycle.mem_of_sameRound hp hedge ht (.inl (List.IsRotated.forall t i)),
      Shape.cycle.mem_of_sameRound hp hedge ht (.inr (List.IsRotated.refl _))⟩
  · have htrace : (allMatches sym p s.settings.reuse).length = (sym.matrix ^ k).trace := by
      obtain ⟨k, rfl⟩ := Nat.exists_eq_add_one.mpr (Shape.pos_of_pattern hp)
      rw [hreuse, Shape.cycle.length_allMatches hp hedge]
    exact ⟨fun m hm => (count_find hnarrow hm).trans htrace,
      fun c hc => (count_count hnarrow hc).trans htrace⟩
  · have hdvd : 2 * k ∣ (allMatches sym p s.settings.reuse).length :=
      hreuse ▸ Shape.cycle.two_mul_dvd hp hedge
    exact ⟨fun m hm => count_find hnarrow hm ▸ hdvd, fun c hc => count_count hnarrow hc ▸ hdvd⟩

/-- Four vertices in a round, with edges in one direction. -/
def roundabout : Graph := Graph.ofAscending [[1], [2], [3], [0]] (by decide) (by decide)

/-- The round is found from each of its vertices and, once edges go both ways, in both directions. The other
closed walks come back along an edge they took. -/
theorem find_cycles_roundabout : ∃ p sym m c, Shape.cycle.pattern 4 = .ok p ∧
    roundabout.symmetrize = .ok sym ∧
    (ofSettings ⟨2, .forbidden, .intersect⟩ 1).find sym p = .ok m ∧ [0, 1, 2, 3] ∈ m.toList ∧
      [3, 0, 1, 2] ∈ m.toList ∧ [3, 2, 1, 0] ∈ m.toList ∧ m.count = 8 ∧ 2 * 4 ∣ m.count ∧
    (ofSettings ⟨2, .allowed, .intersect⟩ 1).count sym p = .ok c ∧ c.count = 32 ∧
      c.count = (sym.matrix ^ 4).trace := by
  have hfound : ((Shape.cycle.pattern 4 >>= fun p => roundabout.symmetrize >>= fun sym =>
      (ofSettings ⟨2, .forbidden, .intersect⟩ 1).find sym p).map fun m =>
        (decide ([0, 1, 2, 3] ∈ m.toList), m.count)) = .ok (true, 8) := by
    decide +kernel
  have hcounted : (Shape.cycle.pattern 4 >>= fun p => roundabout.symmetrize >>= fun sym =>
      (ofSettings ⟨2, .allowed, .intersect⟩ 1).count sym p).map Tally.count = .ok 32 := by
    decide +kernel
  obtain ⟨m, hm, hmatch⟩ := exists_of_map_eq_ok hfound
  obtain ⟨c, hc, hnumber⟩ := exists_of_map_eq_ok hcounted
  obtain ⟨hmem, hcount⟩ := Prod.mk.inj hmatch
  obtain ⟨p, hp, hm⟩ := bind_eq_ok.mp hm
  obtain ⟨sym, hsym, hm⟩ := bind_eq_ok.mp hm
  rw [hp] at hc
  change (roundabout.symmetrize >>= fun sym => count _ sym p) = .ok c at hc
  rw [hsym] at hc
  have hmem := of_decide_eq_true hmem
  obtain ⟨hclosed, _, hdvd⟩ := find_cycles (ofSettings ⟨2, .forbidden, .intersect⟩ 1) roundabout hp hsym
  obtain ⟨_, htrace, _⟩ := find_cycles (ofSettings ⟨2, .allowed, .intersect⟩ 1) roundabout hp hsym
  obtain ⟨hrotate, hreverse⟩ := hclosed m hm _ hmem
  exact ⟨p, sym, m, c, hp, hsym, hm, hmem, hrotate 3, hreverse, hcount, (hdvd rfl).1 m hm, hc, hnumber,
    (htrace rfl).2 c hc⟩

end Search

end Motif
