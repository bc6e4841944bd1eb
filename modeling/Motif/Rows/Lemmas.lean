import Motif.Rows.Basic

/-!
# Laws of rows

Every way of building a table gives a well formed one, and `toLists` turns building into plain list
operations: `toLists_push` for one more row, `toLists_ofLists` for a whole list of them. What a step leaves
that writes a row depends on how it ends, and there is one lemma for each of the three ways
(`pushWith_of_ok`, `pushWith_of_refused`, `pushWith_of_broken`).
-/

namespace Motif.Rows

variable {α : Type}

theorem row_eq (r : Rows α) (i : Nat) :
    r.row i = (r.values.toList.drop (r.start i)).take (r.start (i + 1) - r.start i) := by
  simp [row]

@[simp] theorem push_offsets (r : Rows α) (row : List α) :
    (r.push row).offsets = r.offsets.push (r.values.size + row.length) := by
  simp [push, pushWith, ← Array.length_toList]

@[simp] theorem push_values (r : Rows α) (row : List α) :
    (r.push row).values = r.values ++ row := rfl

/-! ### Rows that a step writes -/

section PushWith

variable {σ : Type} {r : Rows α} {fill : Array α → Appended α σ}

theorem pushWith_of_ok (h : (fill r.values).outcome = .ok ()) :
    r.pushWith fill = (⟨r.offsets.push (fill r.values).buffer.size, (fill r.values).buffer⟩,
      .ok (fill r.values).state) := by
  obtain ⟨offsets, values⟩ := r
  rw [pushWith]
  split <;> simp_all

theorem pushWith_of_refused {cause : Refusal} (h : (fill r.values).outcome = refuse cause) :
    r.pushWith fill = (⟨r.offsets, (fill r.values).buffer.shrink r.values.size⟩, refuse cause) := by
  obtain ⟨offsets, values⟩ := r
  rw [pushWith]
  split <;> simp_all [refuse]

theorem pushWith_of_broken {cause : Breach} (h : (fill r.values).outcome = breach cause) :
    r.pushWith fill = (⟨r.offsets, (fill r.values).buffer⟩, breach cause) := by
  obtain ⟨offsets, values⟩ := r
  rw [pushWith]
  split <;> simp_all [breach]

end PushWith

/-! ### Well formed rows -/

theorem wf_empty : (empty : Rows α).Wf := by
  constructor <;> simp [empty]

theorem Wf.offsets_ne {r : Rows α} (h : r.Wf) : r.offsets ≠ #[] := by
  intro hnil
  have := h.first
  simp [hnil] at this

theorem Wf.offsets_size {r : Rows α} (h : r.Wf) : r.offsets.size = r.count + 1 := by
  have : 0 < r.offsets.size := Array.size_pos_iff.mpr h.offsets_ne
  rw [count]
  omega

theorem Wf.start_zero {r : Rows α} (h : r.Wf) : r.start 0 = 0 := by
  simp [start, Array.getD_eq_getD_getElem?, h.first]

theorem Wf.start_count {r : Rows α} (h : r.Wf) : r.start r.count = r.values.size := by
  have := h.last
  rw [Array.back?] at this
  simp [start, count, Array.getD_eq_getD_getElem?, this]

theorem Wf.start_mono {r : Rows α} (h : r.Wf) {i j : Nat} (hij : i ≤ j) (hj : j ≤ r.count) :
    r.start i ≤ r.start j := by
  have hsize := h.offsets_size
  have hi' : i < r.offsets.size := by omega
  have hj' : j < r.offsets.size := by omega
  rw [start, start, Array.getD_eq_getD_getElem?, Array.getD_eq_getD_getElem?,
    Array.getElem?_eq_getElem hi', Array.getElem?_eq_getElem hj', Option.getD_some, Option.getD_some]
  rcases Nat.eq_or_lt_of_le hij with heq | hlt
  · subst heq
    exact Nat.le_refl _
  · have := List.pairwise_iff_getElem.mp h.ascending i j (by simpa using hi') (by simpa using hj') hlt
    simpa using this

theorem Wf.start_le {r : Rows α} (h : r.Wf) {i : Nat} (hi : i ≤ r.count) :
    r.start i ≤ r.values.size :=
  h.start_count ▸ h.start_mono hi (Nat.le_refl _)

theorem Wf.length_row {r : Rows α} (h : r.Wf) {i : Nat} (hi : i < r.count) :
    (r.row i).length = r.start (i + 1) - r.start i := by
  have hend := h.start_le (i := i + 1) hi
  rw [row_eq, List.length_take, List.length_drop, Array.length_toList]
  omega

/-- A row that does not exist reads as empty. -/
theorem row_of_count_le {r : Rows α} {i : Nat} (hi : r.count ≤ i) : r.row i = [] := by
  have : r.start (i + 1) = 0 := by
    have : r.offsets.size ≤ i + 1 := by rw [count] at hi; omega
    simp [start, Array.getD_eq_getD_getElem?, this]
  simp [row_eq, this]

theorem Wf.push {r : Rows α} (h : r.Wf) (row : List α) : (r.push row).Wf where
  first := by
    have hpos : 0 < r.offsets.size := Array.size_pos_iff.mpr h.offsets_ne
    have := h.first
    simp only [push_offsets, Array.getElem?_push]
    rw [if_neg (by omega)]
    exact this
  ascending := by
    simp only [push_offsets, Array.toList_push, List.pairwise_append]
    refine ⟨h.ascending, List.pairwise_singleton _ _, ?_⟩
    intro a ha b hb
    obtain ⟨i, hi, rfl⟩ := List.mem_iff_getElem.mp ha
    have hi' : i < r.offsets.size := by simpa using hi
    have hle := h.start_le (i := i) (by have := h.offsets_size; omega)
    rw [start, Array.getD_eq_getD_getElem?, Array.getElem?_eq_getElem hi', Option.getD_some] at hle
    simp only [List.mem_singleton] at hb
    simp only [Array.getElem_toList]
    omega
  last := by simp [← Array.length_toList]

/-! ### The table of a pushed row -/

@[simp] theorem count_empty : (empty : Rows α).count = 0 := rfl

@[simp] theorem toLists_empty : (empty : Rows α).toLists = [] := rfl

theorem Wf.count_push {r : Rows α} (h : r.Wf) (row : List α) :
    (r.push row).count = r.count + 1 := by
  have := h.offsets_size
  simp only [count, push_offsets, Array.size_push] at *
  omega

theorem Wf.start_push {r : Rows α} (h : r.Wf) (row : List α) {i : Nat} (hi : i ≤ r.count) :
    (r.push row).start i = r.start i := by
  have := h.offsets_size
  simp only [start, push_offsets, Array.getD_eq_getD_getElem?, Array.getElem?_push]
  rw [if_neg (by omega)]

theorem Wf.start_push_last {r : Rows α} (h : r.Wf) (row : List α) :
    (r.push row).start (r.count + 1) = r.values.size + row.length := by
  have := h.offsets_size
  simp only [start, push_offsets, Array.getD_eq_getD_getElem?, Array.getElem?_push]
  rw [if_pos (by omega), Option.getD_some]

theorem Wf.row_push {r : Rows α} (h : r.Wf) (row : List α) {i : Nat} (hi : i < r.count) :
    (r.push row).row i = r.row i := by
  have hs := h.start_mono (Nat.le_succ i) hi
  have he := h.start_le (Nat.succ_le_of_lt hi)
  rw [row_eq, row_eq, h.start_push row (Nat.le_of_lt hi), h.start_push row (Nat.succ_le_of_lt hi)]
  simp only [push_values, Array.toList_appendList]
  rw [List.drop_append_of_le_length (by simpa using Nat.le_trans hs he),
    List.take_append_of_le_length (by simp only [List.length_drop, Array.length_toList]; omega)]

theorem Wf.row_push_last {r : Rows α} (h : r.Wf) (row : List α) :
    (r.push row).row r.count = row := by
  rw [row_eq, h.start_push row (Nat.le_refl _), h.start_push_last row, h.start_count]
  simp

theorem Wf.toLists_push {r : Rows α} (h : r.Wf) (row : List α) :
    (r.push row).toLists = r.toLists ++ [row] := by
  rw [toLists, h.count_push, List.range_succ, List.map_append, toLists]
  congr 1
  · apply List.map_congr_left
    intro i hi
    exact h.row_push row (List.mem_range.mp hi)
  · simp [h.row_push_last]

theorem wf_foldl_push (rows : List (List α)) {r : Rows α} (h : r.Wf) : (rows.foldl push r).Wf := by
  induction rows generalizing r with
  | nil => exact h
  | cons row rows ih => exact ih (h.push row)

theorem toLists_foldl_push (rows : List (List α)) {r : Rows α} (h : r.Wf) :
    (rows.foldl push r).toLists = r.toLists ++ rows := by
  induction rows generalizing r with
  | nil => simp
  | cons row rows ih => rw [List.foldl_cons, ih (h.push row), h.toLists_push]; simp

theorem wf_ofLists (rows : List (List α)) : (ofLists rows).Wf := wf_foldl_push rows wf_empty

@[simp] theorem toLists_ofLists (rows : List (List α)) : (ofLists rows).toLists = rows := by
  simp [ofLists, toLists_foldl_push rows wf_empty]

@[simp] theorem length_toLists (r : Rows α) : r.toLists.length = r.count := by simp [toLists]

@[simp] theorem count_ofLists (rows : List (List α)) : (ofLists rows).count = rows.length := by
  rw [← length_toLists, toLists_ofLists]

theorem row_eq_getD_toLists (r : Rows α) (i : Nat) : r.row i = r.toLists.getD i [] := by
  rcases Nat.lt_or_ge i r.count with hi | hi
  · simp [toLists, hi]
  · simp [toLists, hi, row_of_count_le hi]

/-- Every row of a built table is one of the rows it was built from, or empty. -/
theorem row_ofLists (rows : List (List α)) (i : Nat) : (ofLists rows).row i = rows.getD i [] := by
  rw [row_eq_getD_toLists, toLists_ofLists]

/-! ### Checked parts -/

theorem pairwise_of_firstDrop {i : Nat} {l : List Nat} (h : firstDrop i l = none) :
    l.Pairwise (· ≤ ·) := by
  induction l generalizing i with
  | nil => exact List.Pairwise.nil
  | cons a l ih =>
    cases l with
    | nil => exact List.pairwise_singleton _ _
    | cons b l =>
      rw [firstDrop] at h
      split at h
      · contradiction
      · rename_i hab
        have htail := ih h
        refine List.pairwise_cons.mpr ⟨?_, htail⟩
        intro c hc
        rcases List.mem_cons.mp hc with rfl | hc
        · omega
        · have := (List.pairwise_cons.mp htail).1 c hc
          omega

theorem wf_of_ofParts {offsets : Array Nat} {values : Array α} {r : Rows α}
    (h : ofParts offsets values = .ok r) : r.Wf := by
  rw [ofParts] at h
  split at h
  · contradiction
  · rename_i first rest hlist
    split at h
    · contradiction
    · rename_i hfirst
      split at h
      · contradiction
      · rename_i hdrop
        split at h
        · rename_i hlast
          obtain rfl := Except.ok.inj h
          constructor
          · have : offsets[0]? = offsets.toList[0]? := by simp
            simp only [this, hlist]
            simp [Decidable.not_not.mp hfirst]
          · exact hlist ▸ pairwise_of_firstDrop hdrop
          · have : offsets.back? = offsets.toList.getLast? := by simp
            simp only [this, hlist]
            rw [← hlast]
            simp [List.getLast?_cons]
        · contradiction

end Motif.Rows
