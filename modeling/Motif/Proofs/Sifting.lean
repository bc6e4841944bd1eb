import Motif.Proofs.Ascending

/-!
# One pass over two lists

`Sorted.sift` goes over two lists in rounds, and a `Pass` says how far it has come. A round uses up a value of one of
the lists, or all that is left of the first one where the second has come to its end, so there are at most as many
rounds as the lists have values, whatever is in them (`Pass.Runs.bounded`). What is appended on the way, followed by
what is left of the first list, is always a part of that list in its order: no more is appended than the list has
values.

Where both lists are in order the pass is a filter (`sift_exact`).
-/

namespace Motif.Sorted

/-- A pass over two lists that is under way: what is left of the lists, and the buffer. -/
structure Pass where
  left : List Nat
  right : List Nat
  out : Array Nat

namespace Pass

/-- One round of a pass. There is none once the first list is used up. -/
def next (keep : Keep) (p : Pass) : Option Pass :=
  match p.left, p.right with
  | [], _ => none
  | a :: left, [] => some ⟨[], [], match keep with | .common => p.out | .missing => p.out ++ (a :: left)⟩
  | a :: left, b :: right =>
    if a < b then some ⟨left, b :: right, match keep with | .common => p.out | .missing => p.out.push a⟩
    else if a = b then some ⟨left, b :: right, match keep with | .common => p.out.push a | .missing => p.out⟩
    else some ⟨a :: left, right, p.out⟩

/-- A number of rounds that lead from one state of a pass to another. -/
inductive Runs (keep : Keep) : Nat → Pass → Pass → Prop where
  | stay (p : Pass) : Runs keep 0 p p
  | round {rounds : Nat} {p q last : Pass} (h : p.next keep = some q) (hrest : Runs keep rounds q last) :
      Runs keep (rounds + 1) p last

/-- The values that are left in the two lists. -/
def size (p : Pass) : Nat := p.left.length + p.right.length

/-- What a round does to a pass: there is less to do, it will end in the same way, and what was appended came from
the front of the first list. -/
structure Advances (keep : Keep) (p q : Pass) : Prop where
  size_lt : q.size < p.size
  ending : sift keep q.left q.right q.out = sift keep p.left p.right p.out
  appends : ∃ kept : List Nat, q.out = p.out ++ kept ∧ (kept ++ q.left).Sublist p.left

variable {keep : Keep} {p q last : Pass} {rounds : Nat}

/-! ### One round -/

theorem sift_cons_cons (keep : Keep) (a b : Nat) (left right : List Nat) (out : Array Nat) :
    sift keep (a :: left) (b :: right) out =
      if a < b then sift keep left (b :: right) (match keep with | .common => out | .missing => out.push a)
      else if a = b then sift keep left (b :: right) (match keep with | .common => out.push a | .missing => out)
      else sift keep (a :: left) right out :=
  (sift.eq_def keep (a :: left) (b :: right) out).trans rfl

theorem advances_of_next (h : p.next keep = some q) : p.Advances keep q := by
  obtain ⟨left, right, out⟩ := p
  cases left with
  | nil => contradiction
  | cons a left =>
    cases right with
    | nil =>
      obtain rfl := Option.some.inj h
      cases keep with
      | common => exact ⟨by simp [size], by simp [sift], [], by simp, List.nil_sublist _⟩
      | missing => exact ⟨by simp [size], by simp [sift], a :: left, rfl, by simp⟩
    | cons b right =>
      simp only [next] at h
      split at h
      · rename_i hlt
        obtain rfl := Option.some.inj h
        refine ⟨by simp [size], by rw [sift_cons_cons, if_pos hlt], ?_⟩
        cases keep with
        | common => exact ⟨[], by simp, List.sublist_cons_self a left⟩
        | missing => exact ⟨[a], by simp, List.Sublist.refl _⟩
      · rename_i hge
        split at h
        · rename_i heq
          obtain rfl := Option.some.inj h
          refine ⟨by simp [size], by rw [sift_cons_cons, if_neg hge, if_pos heq], ?_⟩
          cases keep with
          | common => exact ⟨[a], by simp, List.Sublist.refl _⟩
          | missing => exact ⟨[], by simp, List.sublist_cons_self a left⟩
        · rename_i hne
          obtain rfl := Option.some.inj h
          exact ⟨by simp [size], by rw [sift_cons_cons, if_neg hge, if_neg hne], [], by simp, List.Sublist.refl _⟩

/-- Without a further round the pass is over, and its buffer is the result. -/
theorem next_eq_none : p.next keep = none ↔ p.left = [] := by
  obtain ⟨left, right, out⟩ := p
  cases left with
  | nil => simp [next]
  | cons a left =>
    cases right with
    | nil => simp [next]
    | cons b right =>
      simp only [next]
      split
      · simp
      · split <;> simp

/-! ### All rounds -/

/-- Each round uses up a value at least. -/
theorem Runs.bounded (h : Runs keep rounds p last) : rounds + last.size ≤ p.size := by
  induction h with
  | stay p => exact Nat.le_of_eq (Nat.zero_add _)
  | round h _ ih =>
    have := (advances_of_next h).size_lt
    omega

theorem Runs.appends (h : Runs keep rounds p last) :
    ∃ kept : List Nat, last.out = p.out ++ kept ∧ (kept ++ last.left).Sublist p.left := by
  induction h with
  | stay p => exact ⟨[], by simp, List.Sublist.refl _⟩
  | @round rounds p q last h _ ih =>
    obtain ⟨first, hfirst, hleft⟩ := (advances_of_next h).appends
    obtain ⟨kept, hkept, hlast⟩ := ih
    refine ⟨first ++ kept, ?_, ?_⟩
    · rw [hkept, hfirst]
      exact Array.ext' (by simp)
    · rw [List.append_assoc]
      exact ((List.Sublist.refl first).append hlast).trans hleft

theorem Runs.ending (h : Runs keep rounds p last) :
    sift keep last.left last.right last.out = sift keep p.left p.right p.out := by
  induction h with
  | stay p => rfl
  | round h _ ih => exact ih.trans (advances_of_next h).ending

/-- A pass comes to its end. -/
theorem exists_runs (keep : Keep) (p : Pass) :
    ∃ rounds last, Runs keep rounds p last ∧ last.next keep = none := by
  cases h : p.next keep with
  | none => exact ⟨0, p, .stay p, h⟩
  | some q =>
    have := (advances_of_next h).size_lt
    obtain ⟨rounds, last, hruns, hlast⟩ := exists_runs keep q
    exact ⟨rounds + 1, last, .round h hruns, hlast⟩
termination_by p.size

theorem Runs.out_eq (h : Runs keep rounds p last) (hlast : last.next keep = none) :
    last.out = sift keep p.left p.right p.out := by
  rw [← h.ending, next_eq_none.mp hlast, sift]

end Pass

/-! ### What is appended -/

/-- Whatever is in the two lists, a pass comes to its end after at most as many rounds as there are values, and all
along it has appended values of the first list, in their order and no more than there are. Where both lists are in
order these are, in one mode, the values of the first list that the second one holds too, and in the other mode those
that it does not hold, each as often as the first list has it; so they ascend, and strictly so if the first list
does. -/
theorem sift_exact (keep : Keep) (left right : List Nat) (out : Array Nat) :
    (∃ rounds last, Pass.Runs keep rounds ⟨left, right, out⟩ last ∧ last.next keep = none ∧
      last.out = sift keep left right out) ∧
    (∀ rounds p, Pass.Runs keep rounds ⟨left, right, out⟩ p → rounds ≤ left.length + right.length ∧
      ∃ kept : List Nat, p.out = out ++ kept ∧ kept.Sublist left ∧ kept.length ≤ left.length) ∧
    (left.Pairwise (· ≤ ·) → right.Pairwise (· ≤ ·) → ∃ kept : List Nat, sift keep left right out = out ++ kept ∧
      (keep = .common → kept = left.filter fun a => decide (a ∈ right)) ∧
      (keep = .missing → kept = left.filter fun a => decide (a ∉ right)) ∧
      kept.Pairwise (· ≤ ·) ∧ (left.Pairwise (· < ·) → kept.Pairwise (· < ·))) := by
  refine ⟨?_, fun rounds p hruns => ⟨?_, ?_⟩, fun hleft hright => ?_⟩
  · obtain ⟨rounds, last, hruns, hlast⟩ := Pass.exists_runs keep ⟨left, right, out⟩
    exact ⟨rounds, last, hruns, hlast, hruns.out_eq hlast⟩
  · exact Nat.le_trans (Nat.le_add_right _ _) hruns.bounded
  · obtain ⟨kept, hout, hkept⟩ := hruns.appends
    have hsublist : kept.Sublist left := (List.sublist_append_left kept _).trans hkept
    exact ⟨kept, hout, hsublist, hsublist.length_le⟩
  · have hsublist : (left.filter (keep.selects right)).Sublist left := List.filter_sublist
    refine ⟨_, sift_eq keep out hleft hright, ?_, ?_, hleft.sublist hsublist, fun hstrict => hstrict.sublist hsublist⟩
    · rintro rfl
      exact List.filter_congr fun a _ => by simp [Keep.selects]
    · rintro rfl
      exact List.filter_congr fun a _ => by simp [Keep.selects]

/-- Values that repeat on both sides, and lists out of order. -/
theorem sift_exact_repeated :
    sift .common [1, 1, 4, 5, 5, 7] [1, 3, 5, 5] #[9] = #[9, 1, 1, 5, 5] ∧
    sift .missing [1, 1, 4, 5, 5, 7] [1, 3, 5, 5] #[9] = #[9, 4, 7] ∧
    ∃ rounds last, Pass.Runs .missing rounds ⟨[3, 1, 2], [2, 3, 1], #[]⟩ last ∧ last.next .missing = none ∧
      last.out = #[1, 2] ∧ rounds ≤ 6 := by
  have hleft : [1, 1, 4, 5, 5, 7].Pairwise (· ≤ ·) := by decide
  have hright : [1, 3, 5, 5].Pairwise (· ≤ ·) := by decide
  obtain ⟨kept, hcommon, hkept, _⟩ := (sift_exact .common _ _ #[9]).2.2 hleft hright
  obtain ⟨kept', hmissing, _, hkept', _⟩ := (sift_exact .missing _ _ #[9]).2.2 hleft hright
  obtain ⟨⟨rounds, last, hruns, hlast, hout⟩, hbounded, _⟩ := sift_exact .missing [3, 1, 2] [2, 3, 1] #[]
  refine ⟨?_, ?_, rounds, last, hruns, hlast, ?_, (hbounded rounds last hruns).1⟩
  · rw [hcommon, hkept rfl]
    decide
  · rw [hmissing, hkept' rfl]
    decide
  · rw [hout]
    decide +kernel

end Motif.Sorted
