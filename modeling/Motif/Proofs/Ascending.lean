import Mathlib.Data.List.Basic
import Mathlib.Order.Bounds.Basic
import Mathlib.Order.MinMax
import Motif.Sorted

/-!
# Ascending lists as sets

A strictly ascending list is the same as the set of its values (`eq_of_mem_iff`), and so a pass over two
ascending lists can be described by which values it keeps: `sift_eq` says that `sift` is a filter. Looking
a value up by halving finds it exactly when it is there (`search_eq_true_iff`).
-/

namespace Motif.Sorted

/-- Strictly ascending lists with the same values are equal. -/
theorem eq_of_mem_iff {α : Type} [LT α] [Std.Asymm (fun a b : α => a < b)] {l m : List α}
    (hl : l.Pairwise (· < ·)) (hm : m.Pairwise (· < ·)) (h : ∀ a, a ∈ l ↔ a ∈ m) : l = m := by
  have hne : ∀ {a b : α}, a < b → a ≠ b := by
    rintro a b hab rfl
    exact Std.Asymm.asymm _ _ hab hab
  have hperm : l.Perm m := (List.perm_ext_iff_of_nodup (hl.imp hne) (hm.imp hne)).mpr h
  exact hperm.eq_of_pairwise (fun a b _ _ hab hba => absurd hab (Std.Asymm.asymm _ _ hba)) hl hm

theorem sort_perm (l : List Nat) : (sort l).Perm l := by
  rw [sort, sortBy_eq]
  exact List.mergeSort_perm l _

/-- Without repetitions, sorting leaves no two values equal. -/
theorem sort_ascending_of_nodup {l : List Nat} (h : l.Nodup) : (sort l).Pairwise (· < ·) := by
  have hdistinct : (sort l).Nodup := (sort_perm l).nodup_iff.mpr h
  exact (sort_ascending l).imp₂ (fun a b hle hne => Nat.lt_of_le_of_ne hle hne) hdistinct

theorem sort_of_ascending {l : List Nat} (h : l.Pairwise (· < ·)) : sort l = l := by
  rw [sort, sortBy_eq]
  exact List.mergeSort_of_pairwise (h.imp fun hab => decide_eq_true (Nat.le_of_lt hab))

/-! ### The greatest value -/

theorem isGreatest_foldl_max (a : Nat) (l : List Nat) :
    IsGreatest {n | n ∈ a :: l} (l.foldl max a) := by
  induction l generalizing a with
  | nil => exact ⟨List.mem_singleton_self a, fun n hn => Nat.le_of_eq (List.mem_singleton.mp hn)⟩
  | cons b l ih =>
    obtain ⟨hmem, hupper⟩ := ih (max a b)
    refine ⟨?_, ?_⟩
    · rcases List.mem_cons.mp hmem with hmax | hmem
      · rcases max_choice a b with h | h
        · exact List.mem_cons.mpr (.inl (hmax.trans h))
        · exact List.mem_cons.mpr (.inr (List.mem_cons.mpr (.inl (hmax.trans h))))
      · exact List.mem_cons.mpr (.inr (List.mem_cons_of_mem b hmem))
    · have hle : max a b ≤ l.foldl max (max a b) := hupper List.mem_cons_self
      intro n hn
      rcases List.mem_cons.mp hn with rfl | hn
      · exact (Nat.le_max_left _ _).trans hle
      rcases List.mem_cons.mp hn with rfl | hn
      · exact (Nat.le_max_right _ _).trans hle
      · exact hupper (List.mem_cons_of_mem _ hn)

/-! ### Looking a value up -/

/-- The entries of an array ascend between two places. -/
def AscendsIn (values : Array Nat) (lo hi : Nat) : Prop :=
  ∀ i j, lo ≤ i → i ≤ j → j < hi → values.getD i 0 ≤ values.getD j 0

theorem AscendsIn.mono {values : Array Nat} {lo hi lo' hi' : Nat} (h : AscendsIn values lo hi)
    (hlo : lo ≤ lo') (hhi : hi' ≤ hi) : AscendsIn values lo' hi' :=
  fun i j hi hij hj => h i j (by omega) hij (by omega)

theorem search_eq_true_iff {values : Array Nat} {x lo hi : Nat} (h : AscendsIn values lo hi) :
    search values x lo hi = true ↔ ∃ i, lo ≤ i ∧ i < hi ∧ values.getD i 0 = x := by
  fun_induction search values x lo hi with
  | case1 lo hi hlt middle found heq =>
    simp only [true_iff]
    exact ⟨middle, by omega, by omega, heq⟩
  | case2 lo hi hlt middle found hne hbelow ih =>
    -- nothing up to the middle can be `x`, for the values there are not larger than `found`
    rw [ih (h.mono (by omega) (Nat.le_refl _))]
    refine ⟨?_, ?_⟩
    · intro h'
      obtain ⟨i, hlo, hhi, hi⟩ := h'
      exact ⟨i, by omega, hhi, hi⟩
    · intro h'
      obtain ⟨i, hlo, hhi, rfl⟩ := h'
      refine ⟨i, ?_, hhi, rfl⟩
      by_contra hle
      have : values.getD i 0 ≤ found := h i middle hlo (by omega) (by omega)
      omega
  | case3 lo hi hlt middle found hne hnot ih =>
    rw [ih (h.mono (Nat.le_refl _) (by omega))]
    refine ⟨?_, ?_⟩
    · intro h'
      obtain ⟨i, hlo, hhi, hi⟩ := h'
      exact ⟨i, hlo, by omega, hi⟩
    · intro h'
      obtain ⟨i, hlo, hhi, rfl⟩ := h'
      refine ⟨i, hlo, ?_, rfl⟩
      by_contra hle
      have : found ≤ values.getD i 0 := h middle i (by omega) (by omega) hhi
      omega
  | case4 lo hi hge =>
    simp only [Bool.false_eq_true, false_iff]
    intro h'
    obtain ⟨i, hlo, hhi, -⟩ := h'
    omega

/-! ### Filtering one list by another -/

/-- Whether a value is kept by a pass over the list `right`. -/
def Keep.selects (keep : Keep) (right : List Nat) (a : Nat) : Bool :=
  match keep with
  | .common => right.contains a
  | .missing => !right.contains a

/-- The head of `right` says nothing about the values above it. -/
theorem Keep.selects_cons_of_ne (keep : Keep) {a b : Nat} (right : List Nat) (h : a ≠ b) :
    keep.selects (b :: right) a = keep.selects right a := by
  cases keep <;> simp [selects, h]

theorem Keep.selects_nil (keep : Keep) : keep.selects [] = fun _ => decide (keep = .missing) := by
  funext a
  cases keep <;> simp [selects]

/-- A value below everything in `right` is not in it. -/
theorem Keep.selects_of_lt (keep : Keep) {a : Nat} {right : List Nat} (h : ∀ b ∈ right, a < b) :
    keep.selects right a = keep.selects [] a := by
  have hnot : a ∉ right := fun ha => absurd (h a ha) (Nat.lt_irrefl a)
  cases keep <;> simp [selects, hnot]

theorem sift_eq (keep : Keep) {left right : List Nat} (out : Array Nat)
    (hleft : left.Pairwise (· ≤ ·)) (hright : right.Pairwise (· ≤ ·)) :
    sift keep left right out = out ++ left.filter (keep.selects right) := by
  fun_induction sift keep left right out with
  | case1 right out => simp
  | case2 a left out hkeep =>
    subst hkeep
    simp [Keep.selects_nil]
  | case3 a left out hkeep =>
    subst hkeep
    simp [Keep.selects_nil]
  | case4 a left b right out hlt ih =>
    rw [ih hleft.tail hright, List.filter_cons]
    have habove : ∀ c ∈ b :: right, a < c := by
      intro c hc
      rcases List.mem_cons.mp hc with rfl | hc
      · exact hlt
      · exact Nat.lt_of_lt_of_le hlt ((List.pairwise_cons.mp hright).1 c hc)
    rw [keep.selects_of_lt habove, keep.selects_nil]
    cases keep <;> simp
  | case5 left b right out hirrefl ih =>
    rw [ih hleft.tail hright, List.filter_cons]
    cases keep <;> simp [Keep.selects]
  | case6 a left b right out hge hne ih =>
    rw [ih hleft hright.tail]
    congr 1
    apply List.filter_congr
    intro c hc
    have hac : a ≤ c := by
      rcases List.mem_cons.mp hc with rfl | hc
      · exact Nat.le_refl _
      · exact (List.pairwise_cons.mp hleft).1 c hc
    exact (keep.selects_cons_of_ne right (by omega)).symm

/-- Whatever is in the two lists, a pass appends values of the first one and keeps their order. -/
theorem sift_appends (keep : Keep) (left right : List Nat) (out : Array Nat) :
    ∃ kept : List Nat, kept.Sublist left ∧ sift keep left right out = out ++ kept := by
  fun_induction sift keep left right out with
  | case1 right out => exact ⟨[], List.Sublist.refl _, by simp⟩
  | case2 a left out hkeep => exact ⟨[], List.nil_sublist _, by simp⟩
  | case3 a left out hkeep => exact ⟨a :: left, List.Sublist.refl _, rfl⟩
  | case4 a left b right out hlt ih =>
    obtain ⟨kept, hsub, heq⟩ := ih
    cases keep with
    | common => exact ⟨kept, hsub.cons a, heq⟩
    | missing => exact ⟨a :: kept, hsub.cons_cons a, heq.trans (by simp)⟩
  | case5 left b right out hirrefl ih =>
    obtain ⟨kept, hsub, heq⟩ := ih
    cases keep with
    | common => exact ⟨b :: kept, hsub.cons_cons b, heq.trans (by simp)⟩
    | missing => exact ⟨kept, hsub.cons b, heq⟩
  | case6 a left b right out hge hne ih => exact ih

/-- What a pass leaves in an empty buffer, as a list. -/
theorem toList_sift (keep : Keep) {left right : List Nat} (hleft : left.Pairwise (· ≤ ·))
    (hright : right.Pairwise (· ≤ ·)) :
    (sift keep left right #[]).toList = left.filter (keep.selects right) := by
  simp [sift_eq keep #[] hleft hright]

end Motif.Sorted
