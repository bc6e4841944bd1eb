import Motif.Proofs.Matching

/-!
# The first positions of a pattern

Lists that are admissible as they stand are accepted and kept (`Pattern.ofLists_of_admissible`), so the
lists of the first `k` positions of a pattern make a pattern, its *front*. A match of the front is a partial
match of `k` positions (`allMatches_front`), and every match of the whole pattern grows out of one
(`flatMap_partials`).
-/

namespace Motif

/-! ### Lists that stand as they are -/

namespace Pattern

variable {i : Nat} {l : List Nat} {lists : List (List Nat)}

theorem arrange_of_admissible (h : Admissible i l) : arrange i l = .ok l := by
  have hanchored : ¬ (0 < i ∧ l = []) := fun hbare => h.anchored hbare.1 hbare.2
  have hearlier : l.find? (fun p => decide (i ≤ p)) = none := by
    refine List.find?_eq_none.mpr fun p hp => ?_
    simpa using h.earlier p hp
  rw [arrange, if_neg hanchored, hearlier, Sorted.sort_of_ascending h.ascending,
    Sorted.firstStall_eq_none.mpr h.ascending]

theorem arrangeAll_of_admissible (h : ∀ j l, lists[j]? = some l → Admissible (i + j) l) :
    arrangeAll i lists = .ok lists := by
  induction lists generalizing i with
  | nil => rfl
  | cons l lists ih =>
    have hrest : ∀ j l', lists[j]? = some l' → Admissible (i + 1 + j) l' := by
      intro j l' hl'
      have := h (j + 1) l' hl'
      rwa [Nat.add_comm j, ← Nat.add_assoc] at this
    have hfirst : arrange i l = .ok l := arrange_of_admissible (h 0 l rfl)
    rw [arrangeAll, hfirst, ih hrest]
    rfl

/-- Lists that are admissible as they are make a pattern with just these lists. -/
theorem ofLists_of_admissible (hne : lists ≠ []) (h : ∀ j l, lists[j]? = some l → Admissible j l) :
    ofLists lists = .ok ⟨lists, hne, h⟩ := by
  cases lists with
  | nil => contradiction
  | cons l lists =>
    have harranged : arrangeAll 0 (l :: lists) = .ok (l :: lists) :=
      arrangeAll_of_admissible fun j l' hl' => (Nat.zero_add j).symm ▸ h j l' hl'
    rw [ofLists]
    split
    · rename_i hstop
      rw [harranged] at hstop
      contradiction
    · rename_i hrequired
      rw [harranged] at hrequired
      obtain rfl := Except.ok.inj hrequired
      rfl

theorem exists_front (p : Pattern) {k : Nat} (hpos : 0 < k) :
    ∃ front, ofLists (p.required.take k) = .ok front ∧ front.required = p.required.take k := by
  have hne : p.required.take k ≠ [] := by
    rw [Ne, List.take_eq_nil_iff]
    exact fun h => h.elim (Nat.ne_of_gt hpos) p.nonempty
  refine ⟨_, ofLists_of_admissible hne fun j l hl => p.admissible j l ?_, rfl⟩
  rw [List.getElem?_take] at hl
  split at hl
  · exact hl
  · contradiction

end Pattern

/-! ### Matches of a front -/

variable {g : Graph} {p front : Pattern} {reuse : Reuse} {t : List Nat} {k : Nat}

theorem isMatch_front (hfront : front.required = p.required.take k) (ht : t.length ≤ k) :
    IsMatch g front reuse t ↔ IsMatch g p reuse t := by
  have hlists : ∀ i < t.length, front.required.getD i [] = p.required.getD i [] := by
    intro i hi
    rw [hfront, getD_take (Nat.lt_of_lt_of_le hi ht)]
  refine ⟨?_, ?_⟩
  · exact fun h => ⟨h.vertices, fun i hi j hj => h.edges i hi j (hlists i hi ▸ hj), h.distinct⟩
  · exact fun h => ⟨h.vertices, fun i hi j hj => h.edges i hi j ((hlists i hi).symm ▸ hj), h.distinct⟩

theorem size_front (hfront : front.required = p.required.take k) (hle : k ≤ p.size) :
    front.size = k := by
  rw [Pattern.size, hfront, List.length_take_of_le hle]

theorem allMatches_front (hfront : front.required = p.required.take k) (hle : k ≤ p.size) :
    allMatches g front reuse = partials g p reuse k [] := by
  rw [allMatches, partials, size_front hfront hle]
  refine List.filter_congr fun t ht => ?_
  rw [decide_eq_decide, isMatch_front hfront (Nat.le_of_eq (mem_tuples.mp ht).1)]
  exact ⟨fun h => ⟨List.nil_prefix, h⟩, fun h => h.2⟩

/-- Every match grows out of its first `k` positions. -/
theorem flatMap_partials (hle : k ≤ p.size) :
    (partials g p reuse k []).flatMap (completions g p reuse) = allMatches g p reuse := by
  rw [← completions_nil, ← partials_size, partials_eq_flatMap (Nat.zero_le k) hle]
  exact List.flatMap_congr fun t _ => (partials_size g p reuse t).symm

end Motif
