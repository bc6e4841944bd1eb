import Motif.Proofs.PatternTexts
import Motif.Proofs.SeedFaults

/-!
# Lists that make a pattern

Lists make a pattern when each of them can be put in order: list `i` names earlier positions, none of them twice, and
at least one unless it is the first (`Arrangeable`). The pattern keeps nothing of the lists but which positions they
name. All other lists are turned down for the first of them that cannot be put in order, and of what is wrong with that
one, for what `ListFault` lists first (`ofLists_exact`).

A list is put in order before repetitions are looked for, so of several positions that repeat the smallest is reported.
-/

namespace Motif.Pattern

variable {i : Nat} {l arranged : List Nat} {lists ordered : List (List Nat)} {cause : Refusal}
  {pattern : Pattern}

/-! ### What can be wrong -/

/-- The positions that position `i` may require, in any order. -/
structure Arrangeable (i : Nat) (l : List Nat) : Prop where
  anchored : 0 < i → l ≠ []
  earlier : ∀ p ∈ l, p < i
  distinct : l.Nodup

/-- What is reported of the list of position `i`: that it is empty, its first entry that is no earlier position, or the
smallest of the entries that repeat. -/
inductive ListFault (i : Nat) : List Nat → Refusal → Prop
  | unanchored (hlater : 0 < i) : ListFault i [] (.degenerate (.unanchored i))
  | notEarlier {before after : List Nat} {p : Nat} (hbefore : ∀ q ∈ before, q < i) (hp : i ≤ p) :
      ListFault i (before ++ p :: after) (.pattern (.notEarlier i p))
  | repeated {l : List Nat} {p : Nat} (hearlier : ∀ q ∈ l, q < i) (hp : 1 < l.count p)
      (hleast : ∀ q, 1 < l.count q → p ≤ q) : ListFault i l (.pattern (.repeated i p))

/-- What is reported of lists: that there are none, or what is wrong with the first that cannot be put in order. -/
inductive ListsFault : List (List Nat) → Refusal → Prop
  | noPositions : ListsFault [] (.degenerate .noPositions)
  | position {before after : List (List Nat)} {l : List Nat} {cause : Refusal}
      (hbefore : ∀ i l, before[i]? = some l → Arrangeable i l) (hl : ListFault before.length l cause) :
      ListsFault (before ++ l :: after) cause

theorem arrangeable_zero_iff : Arrangeable 0 l ↔ l = [] := by
  refine ⟨fun h => ?_, ?_⟩
  · exact List.eq_nil_iff_forall_not_mem.mpr fun p hp => Nat.not_lt_zero p (h.earlier p hp)
  · rintro rfl
    exact ⟨fun h => absurd h (Nat.lt_irrefl 0), by simp, List.nodup_nil⟩

theorem arrangeable_or_fault (i : Nat) (l : List Nat) : Arrangeable i l ∨ ∃ cause, ListFault i l cause := by
  by_cases hearlier : ∀ p ∈ l, p < i
  · by_cases hdistinct : l.Nodup
    · by_cases hanchored : 0 < i → l ≠ []
      · exact .inl ⟨hanchored, hearlier, hdistinct⟩
      · obtain ⟨hlater, hnil⟩ := Classical.not_imp.mp hanchored
        obtain rfl := not_not.mp hnil
        exact .inr ⟨_, .unanchored hlater⟩
    · have hrepeats : ∃ p, 1 < l.count p := by
        by_contra hnone
        exact hdistinct (List.nodup_iff_count_le_one.mpr fun p => Nat.not_lt.mp fun hp => hnone ⟨p, hp⟩)
      obtain ⟨p, hp, hleast⟩ := exists_least hrepeats
      exact .inr ⟨_, .repeated hearlier hp hleast⟩
  · obtain ⟨before, p, after, rfl, hbefore, hp⟩ := exists_first_of_not_forall hearlier
    exact .inr ⟨_, .notEarlier hbefore (Nat.not_lt.mp hp)⟩

/-! ### One list -/

/-- Neighbours that are in order but do not ascend are equal. -/
theorem firstStall_eq_map_firstRepeat (h : l.Pairwise (· ≤ ·)) :
    Sorted.firstStall l = (Sorted.firstRepeat l).map fun a => (a, a) := by
  fun_induction Sorted.firstRepeat l with
  | case1 a rest => rw [Sorted.firstStall, if_pos (Nat.le_refl a), Option.map_some]
  | case2 a b rest hne ih =>
    have hab : a ≤ b := (List.pairwise_cons.mp h).1 b List.mem_cons_self
    rw [Sorted.firstStall, if_neg (Nat.not_le.mpr (Nat.lt_of_le_of_ne hab hne)), ih h.tail]
  | case3 l hl =>
    cases l with
    | nil => rfl
    | cons a rest =>
      cases rest with
      | nil => rfl
      | cons b rest => exact absurd rfl (hl a b rest)

theorem find?_eq_none_of_earlier (h : ∀ p ∈ l, p < i) : l.find? (fun p => decide (i ≤ p)) = none := by
  refine List.find?_eq_none.mpr fun p hp => ?_
  simpa using h p hp

theorem arrange_of_arrangeable (h : Arrangeable i l) : arrange i l = .ok (Sorted.sort l) := by
  have hanchored : ¬ (0 < i ∧ l = []) := fun hbare => h.anchored hbare.1 hbare.2
  have hascending := Sorted.firstStall_eq_none.mpr (Sorted.sort_ascending_of_nodup h.distinct)
  rw [arrange, if_neg hanchored, find?_eq_none_of_earlier h.earlier, hascending]

theorem arrange_of_fault (h : ListFault i l cause) : arrange i l = .error cause := by
  cases h with
  | unanchored hlater => rw [arrange, if_pos ⟨hlater, rfl⟩]
  | @notEarlier before after p hbefore hp =>
    have hfind : (before ++ p :: after).find? (fun q => decide (i ≤ q)) = some p := by
      rw [List.find?_append, find?_eq_none_of_earlier hbefore, Option.none_or,
        List.find?_cons_of_pos (by simpa using hp)]
    rw [arrange, if_neg (by simp), hfind]
  | repeated hearlier hp hleast =>
    have hsome : l ≠ [] := by
      rintro rfl
      exact Nat.not_lt_zero 1 hp
    have hcount := (Sorted.sort_perm l).count_eq
    have hrepeat : Sorted.firstRepeat (Sorted.sort l) = some _ :=
      firstRepeat_eq_some_of_least (Sorted.sort_ascending l) ((hcount _).symm ▸ hp)
        fun q hq => hleast q (hcount q ▸ hq)
    rw [arrange, if_neg fun hbare => hsome hbare.2, find?_eq_none_of_earlier hearlier,
      firstStall_eq_map_firstRepeat (Sorted.sort_ascending l), hrepeat]
    rfl

theorem arrange_eq_ok_iff : arrange i l = .ok arranged ↔ Arrangeable i l ∧ arranged = Sorted.sort l := by
  refine ⟨fun h => ?_, fun ⟨hl, harranged⟩ => harranged ▸ arrange_of_arrangeable hl⟩
  rcases arrangeable_or_fault i l with hl | ⟨cause, hfault⟩
  · rw [arrange_of_arrangeable hl] at h
    exact ⟨hl, (Except.ok.inj h).symm⟩
  · rw [arrange_of_fault hfault] at h
    contradiction

theorem arrange_eq_error_iff : arrange i l = .error cause ↔ ListFault i l cause := by
  refine ⟨fun h => ?_, arrange_of_fault⟩
  rcases arrangeable_or_fault i l with hl | ⟨cause', hfault⟩
  · rw [arrange_of_arrangeable hl] at h
    contradiction
  · rw [arrange_of_fault hfault] at h
    exact Except.error.inj h ▸ hfault

/-! ### All lists -/

/-- The lists of the positions from `i` on can be put in order when the first can and the others can. -/
theorem forall_arrangeable_cons : (∀ j l', (l :: lists)[j]? = some l' → Arrangeable (i + j) l') ↔
    Arrangeable i l ∧ ∀ j l', lists[j]? = some l' → Arrangeable (i + 1 + j) l' := by
  have hshift : ∀ j, i + 1 + j = i + (j + 1) := fun j => by omega
  refine ⟨fun h => ⟨h 0 l rfl, fun j l' hl' => hshift j ▸ h (j + 1) l' hl'⟩, ?_⟩
  rintro ⟨hfirst, hrest⟩ j l' hl'
  cases j with
  | zero => exact Option.some.inj hl' ▸ hfirst
  | succ j => exact hshift j ▸ hrest j l' hl'

theorem arrangeAll_eq_ok_iff : arrangeAll i lists = .ok ordered ↔
    (∀ j l, lists[j]? = some l → Arrangeable (i + j) l) ∧ ordered = lists.map Sorted.sort := by
  refine ⟨fun h => ⟨?_, required_of_arrangeAll h⟩, ?_⟩
  · induction lists generalizing i ordered with
    | nil => simp
    | cons l lists ih =>
      obtain ⟨first, rest, hfirst, hrest, _⟩ := arrangeAll_cons h
      exact forall_arrangeable_cons.mpr ⟨(arrange_eq_ok_iff.mp hfirst).1, ih hrest⟩
  · rintro ⟨h, rfl⟩
    induction lists generalizing i with
    | nil => rfl
    | cons l lists ih =>
      obtain ⟨hfirst, hrest⟩ := forall_arrangeable_cons.mp h
      rw [arrangeAll, arrange_of_arrangeable hfirst, ih hrest]
      rfl

theorem arrangeAll_eq_error_iff : arrangeAll i lists = .error cause ↔
    ∃ before l after, lists = before ++ l :: after ∧
      (∀ j b, before[j]? = some b → Arrangeable (i + j) b) ∧ ListFault (i + before.length) l cause := by
  refine ⟨fun h => ?_, ?_⟩
  · induction lists generalizing i with
    | nil => contradiction
    | cons l lists ih =>
      rcases bind_eq_error.mp h with hfirst | ⟨first, hfirst, h⟩
      · exact ⟨[], l, lists, rfl, by simp, arrange_eq_error_iff.mp hfirst⟩
      · rcases bind_eq_error.mp h with hrest | ⟨_, _, h⟩
        · obtain ⟨before, l', after, rfl, hbefore, hfault⟩ := ih hrest
          refine ⟨l :: before, l', after, rfl, ?_, ?_⟩
          · exact forall_arrangeable_cons.mpr ⟨(arrange_eq_ok_iff.mp hfirst).1, hbefore⟩
          · rwa [List.length_cons, ← Nat.add_assoc, Nat.add_right_comm]
        · contradiction
  · rintro ⟨before, l, after, rfl, hbefore, hfault⟩
    induction before generalizing i with
    | nil =>
      rw [List.nil_append, arrangeAll, arrange_of_fault (i := i) hfault]
      rfl
    | cons b before ih =>
      obtain ⟨hfirst, hrest⟩ := forall_arrangeable_cons.mp hbefore
      rw [List.length_cons, ← Nat.add_assoc, Nat.add_right_comm] at hfault
      rw [List.cons_append, arrangeAll, arrange_of_arrangeable hfirst, ih hrest hfault]
      rfl

/-- A pattern is made when all lists can be put in order, and consists of these. -/
theorem map_required_ofLists (hne : lists ≠ []) : (ofLists lists).map Pattern.required = arrangeAll 0 lists := by
  cases lists with
  | nil => contradiction
  | cons l lists =>
    rw [ofLists]
    split
    · rename_i hstop
      rw [hstop]
      rfl
    · rename_i harranged
      exact harranged.symm

theorem ofLists_eq_ok_iff : ofLists lists = .ok pattern ↔ lists ≠ [] ∧
    (∀ i l, lists[i]? = some l → Arrangeable i l) ∧ pattern.required = lists.map Sorted.sort := by
  by_cases hne : lists = []
  · subst hne
    refine ⟨fun h => ?_, fun h => absurd rfl h.1⟩
    contradiction
  · have harranged : ofLists lists = .ok pattern ↔ arrangeAll 0 lists = .ok pattern.required := by
      rw [← map_required_ofLists hne]
      cases ofLists lists with
      | error stop => simp [Except.map]
      | ok other =>
        refine ⟨fun h => congrArg _ h, fun h => ?_⟩
        exact congrArg Except.ok (ext_required (Except.ok.inj h))
    rw [harranged, arrangeAll_eq_ok_iff]
    simp only [Nat.zero_add, ne_eq, hne, not_false_eq_true, true_and]

theorem ofLists_eq_error_iff : ofLists lists = .error cause ↔ ListsFault lists cause := by
  refine ⟨fun h => ?_, fun h => ?_⟩
  · by_cases hne : lists = []
    · subst hne
      obtain rfl := Except.error.inj h
      exact .noPositions
    · have harranged := map_required_ofLists hne
      rw [h] at harranged
      obtain ⟨before, l, after, rfl, hbefore, hfault⟩ := arrangeAll_eq_error_iff.mp harranged.symm
      simp only [Nat.zero_add] at hbefore hfault
      exact .position hbefore hfault
  · cases h with
    | noPositions => rfl
    | @position before after l _ hbefore hfault =>
      have harranged : arrangeAll 0 (before ++ l :: after) = .error cause :=
        arrangeAll_eq_error_iff.mpr ⟨before, l, after, rfl, by simpa using hbefore, by simpa using hfault⟩
      rw [← map_required_ofLists (by simp)] at harranged
      cases hlists : ofLists (before ++ l :: after) with
      | error stop =>
        rw [hlists] at harranged
        exact congrArg _ (Except.error.inj harranged)
      | ok other =>
        rw [hlists] at harranged
        contradiction

/-- Lists that name the same positions, each once, are put in the same order. -/
theorem sort_eq_of_mem_iff {other : List Nat} (hl : l.Nodup) (hother : other.Nodup) (h : ∀ p, p ∈ other ↔ p ∈ l) :
    Sorted.sort other = Sorted.sort l := by
  apply Sorted.eq_of_mem_iff (Sorted.sort_ascending_of_nodup hother) (Sorted.sort_ascending_of_nodup hl)
  intro p
  rw [Sorted.mem_sort, Sorted.mem_sort, h p]

/-- Lists of which each names the same positions once make the same pattern. -/
theorem ofLists_of_mem_iff (h : ofLists lists = .ok pattern) {others : List (List Nat)}
    (hothers : List.Forall₂ (fun l other => other.Nodup ∧ ∀ p, p ∈ other ↔ p ∈ l) lists others) :
    ofLists others = .ok pattern := by
  obtain ⟨hne, harrangeable, hrequired⟩ := ofLists_eq_ok_iff.mp h
  refine ofLists_eq_ok_iff.mpr ⟨?_, ?_, ?_⟩
  · rintro rfl
    exact hne (List.forall₂_nil_right_iff.mp hothers)
  · intro i other hother
    obtain ⟨hi, rfl⟩ := List.getElem?_eq_some_iff.mp hother
    have hi' : i < lists.length := hothers.length_eq ▸ hi
    obtain ⟨hdistinct, hmem⟩ := hothers.get hi' hi
    have hl := harrangeable i _ (List.getElem?_eq_getElem hi')
    refine ⟨fun hlater hnil => ?_, fun p hp => hl.earlier p ((hmem p).mp hp), hdistinct⟩
    refine hl.anchored hlater (List.eq_nil_iff_forall_not_mem.mpr fun p hp => ?_)
    have := (hmem p).mpr hp
    simp [hnil] at this
  · rw [hrequired]
    refine List.ext_getElem (by simp [hothers.length_eq]) fun i hi hi' => ?_
    rw [List.length_map] at hi hi'
    obtain ⟨hdistinct, hmem⟩ := hothers.get hi hi'
    have hl := harrangeable i _ (List.getElem?_eq_getElem hi)
    rw [List.getElem_map, List.getElem_map]
    exact (sort_eq_of_mem_iff hl.distinct hdistinct hmem).symm

/-- Which lists make a pattern, what it then is, and what the others are turned down for. A pattern is made of its own
lists again, and of any that name the same positions, each once. -/
theorem ofLists_exact (lists : List (List Nat)) :
    ((∃ pattern, ofLists lists = .ok pattern) ↔ lists[0]? = some [] ∧
      ∀ i l, 0 < i → lists[i]? = some l → l ≠ [] ∧ (∀ p ∈ l, p < i) ∧ l.Nodup) ∧
    (∀ pattern, ofLists lists = .ok pattern →
      List.Forall₂ (fun l sorted => sorted.Perm l ∧ sorted.Pairwise (· < ·)) lists pattern.required ∧
        ofLists pattern.required = .ok pattern ∧
        ∀ others, List.Forall₂ (fun l other => other.Nodup ∧ ∀ p, p ∈ other ↔ p ∈ l) lists others →
          ofLists others = .ok pattern) ∧
    ∀ cause, ofLists lists = .error cause ↔ ListsFault lists cause := by
  refine ⟨⟨?_, ?_⟩, fun pattern h => ⟨?_, ofLists_required pattern, fun others => ofLists_of_mem_iff h⟩,
    fun cause => ofLists_eq_error_iff⟩
  · rintro ⟨pattern, h⟩
    obtain ⟨hne, harrangeable, _⟩ := ofLists_eq_ok_iff.mp h
    obtain ⟨first, rest, rfl⟩ := List.exists_cons_of_ne_nil hne
    refine ⟨congrArg some (arrangeable_zero_iff.mp (harrangeable 0 first rfl)), fun i l hlater hl => ?_⟩
    obtain ⟨hanchored, hearlier, hdistinct⟩ := harrangeable i l hl
    exact ⟨hanchored hlater, hearlier, hdistinct⟩
  · rintro ⟨hfirst, hlater⟩
    have harrangeable : ∀ i l, lists[i]? = some l → Arrangeable i l := by
      intro i l hl
      rcases Nat.eq_zero_or_pos i with rfl | hi
      · exact arrangeable_zero_iff.mpr (Option.some.inj (hl.symm.trans hfirst))
      · obtain ⟨hanchored, hearlier, hdistinct⟩ := hlater i l hi hl
        exact ⟨fun _ => hanchored, hearlier, hdistinct⟩
    have hne : lists ≠ [] := by
      rintro rfl
      contradiction
    have harranged := arrangeAll_eq_ok_iff.mpr ⟨fun j l hl => (Nat.zero_add j).symm ▸ harrangeable j l hl, rfl⟩
    obtain ⟨pattern, hpattern, _⟩ := exists_of_map_eq_ok ((map_required_ofLists hne).trans harranged)
    exact ⟨pattern, hpattern⟩
  · obtain ⟨_, harrangeable, hrequired⟩ := ofLists_eq_ok_iff.mp h
    rw [hrequired, List.forall₂_map_right_iff, List.forall₂_same]
    intro l hl
    obtain ⟨i, hi⟩ := List.mem_iff_getElem?.mp hl
    exact ⟨Sorted.sort_perm l, Sorted.sort_ascending_of_nodup (harrangeable i l hi).distinct⟩

/-- Three lists that are put in order, and four of which the third names two positions twice and the last none. -/
theorem ofLists_exact_unsorted :
    (∃ pattern, ofLists [[], [0], [1, 0]] = .ok pattern ∧ ofLists [[], [0], [0, 1]] = .ok pattern) ∧
      ofLists [[], [0], [1, 0, 1, 0], []] = .error (.pattern (.repeated 2 0)) := by
  have hlater : ∀ i l, 0 < i → [[], [0], [1, 0]][i]? = some l → l ≠ [] ∧ (∀ p ∈ l, p < i) ∧ l.Nodup := by
    intro i l hi hl
    match i, hl with
    | 1, hl => cases hl; decide
    | 2, hl => cases hl; decide
  obtain ⟨haccepts, hmade, _⟩ := ofLists_exact [[], [0], [1, 0]]
  obtain ⟨pattern, hpattern⟩ := haccepts.mpr ⟨rfl, hlater⟩
  refine ⟨⟨pattern, hpattern, (hmade pattern hpattern).2.2 _ ?_⟩, ?_⟩
  · have hsame : ∀ p, p ∈ [0, 1] ↔ p ∈ [1, 0] := fun p => by simp [or_comm]
    exact .cons ⟨List.nodup_nil, fun _ => Iff.rfl⟩
      (.cons ⟨List.nodup_singleton 0, fun _ => Iff.rfl⟩ (.cons ⟨by decide, hsame⟩ .nil))
  · have hbefore : ∀ i l, [[], [0]][i]? = some l → Arrangeable i l := by
      intro i l hl
      match i, hl with
      | 0, hl => cases hl; exact ⟨by decide, by decide, by decide⟩
      | 1, hl => cases hl; exact ⟨by decide, by decide, by decide⟩
    have hfault : ListFault 2 [1, 0, 1, 0] (.pattern (.repeated 2 0)) :=
      .repeated (by decide) (by decide) fun q _ => Nat.zero_le q
    exact ((ofLists_exact _).2.2 _).mpr (.position hbefore hfault)

end Motif.Pattern
