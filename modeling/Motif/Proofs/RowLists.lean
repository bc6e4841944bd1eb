import Mathlib.Data.List.Basic
import Motif.Rows.Lemmas

/-!
# Tables determined by their rows

The two arrays of a well formed table can be read off the list of its rows: the values are the rows one
after another, and each offset is the length of the rows before it. So well formed tables with the same
rows are equal (`Wf.eq_ofLists`), and the check of two arrays accepts each of them
(`ofParts_of_wf`).
-/

namespace Motif.Rows

variable {α : Type} {r : Rows α} {i : Nat}

/-! ### Values and offsets of a well formed table -/

theorem toLists_getElem (hi : i < r.toLists.length) : r.toLists[i] = r.row i := by simp [toLists]

/-- The values before row `i` are the rows before it. -/
theorem Wf.take_start (h : r.Wf) (hi : i ≤ r.count) :
    r.values.toList.take (r.start i) = (r.toLists.take i).flatten := by
  induction i with
  | zero => simp [h.start_zero]
  | succ i ih =>
    have hmono : r.start i ≤ r.start (i + 1) := h.start_mono (Nat.le_succ i) hi
    have hlt : i < r.toLists.length := by rwa [length_toLists]
    have htake : r.toLists.take (i + 1) = r.toLists.take i ++ [r.row i] := by
      rw [List.take_add_one, List.getElem?_eq_getElem hlt, toLists_getElem]
      rfl
    rw [show r.start (i + 1) = r.start i + (r.start (i + 1) - r.start i) by omega, List.take_add,
      ih (Nat.le_of_lt hi), ← row_eq, htake, List.flatten_append, List.flatten_singleton]

theorem Wf.flatten_toLists (h : r.Wf) : r.toLists.flatten = r.values.toList := by
  have htake := h.take_start (Nat.le_refl r.count)
  rw [h.start_count, ← Array.length_toList, List.take_length, ← length_toLists,
    List.take_length] at htake
  exact htake.symm

theorem Wf.size_eq (h : r.Wf) : r.size = r.toLists.flatten.length := by
  rw [h.flatten_toLists, Array.length_toList]
  rfl

theorem Wf.start_eq (h : r.Wf) (hi : i ≤ r.count) :
    r.start i = (r.toLists.take i).flatten.length := by
  rw [← h.take_start hi, List.length_take, Array.length_toList]
  exact (Nat.min_eq_left (h.start_le hi)).symm

theorem Wf.getElem?_offsets (h : r.Wf) (hi : i ≤ r.count) : r.offsets[i]? = some (r.start i) := by
  have hlt : i < r.offsets.size := by
    rw [h.offsets_size]
    omega
  rw [start, Array.getD_eq_getD_getElem?, Array.getElem?_eq_getElem hlt, Option.getD_some]

/-- Well formed tables with the same rows are equal. -/
theorem Wf.ext_toLists {s : Rows α} (hr : r.Wf) (hs : s.Wf) (h : r.toLists = s.toLists) : r = s := by
  have hcount : r.count = s.count := by rw [← length_toLists, h, length_toLists]
  have hvalues : r.values = s.values := by
    apply Array.ext'
    rw [← hr.flatten_toLists, h, hs.flatten_toLists]
  have hoffsets : r.offsets = s.offsets := by
    apply Array.ext
    · rw [hr.offsets_size, hs.offsets_size, hcount]
    · intro i hi hi'
      have hle : i ≤ r.count := by
        rw [hr.offsets_size] at hi
        omega
      have hstart : r.start i = s.start i := by
        rw [hr.start_eq hle, h, hs.start_eq (hcount ▸ hle)]
      simpa [start, Array.getD_eq_getD_getElem?, hi, hi'] using hstart
  cases r
  cases s
  cases hvalues
  cases hoffsets
  rfl

theorem Wf.eq_ofLists (h : r.Wf) : r = ofLists r.toLists :=
  h.ext_toLists (wf_ofLists _) (toLists_ofLists _).symm

/-! ### The check of two arrays -/

theorem firstDrop_eq_none {l : List Nat} (h : l.Pairwise (· ≤ ·)) (i : Nat) :
    firstDrop i l = none := by
  induction l generalizing i with
  | nil => rfl
  | cons a l ih =>
    cases l with
    | nil => rfl
    | cons b l =>
      obtain ⟨ha, htail⟩ := List.pairwise_cons.mp h
      rw [firstDrop, if_neg (Nat.not_lt.mpr (ha b List.mem_cons_self))]
      exact ih htail (i + 1)

theorem ofParts_of_wf (h : r.Wf) : ofParts r.offsets r.values = .ok r := by
  obtain ⟨offsets, values⟩ := r
  obtain ⟨hfirst, hascending, hlast⟩ := h
  have hfirst' : offsets.toList[0]? = some 0 := by simpa using hfirst
  have hlast' : offsets.toList.getLast? = some values.size := by simpa using hlast
  rw [ofParts]
  split
  · rename_i hnil
    rw [hnil] at hfirst'
    contradiction
  · rename_i first rest hcons
    rw [hcons] at hfirst' hlast' hascending
    obtain rfl : first = 0 := Option.some.inj hfirst'
    have hend : rest.getLastD 0 = values.size := by
      rw [List.getLast?_cons] at hlast'
      simpa using hlast'
    rw [if_neg (not_not.mpr rfl), firstDrop_eq_none hascending]
    simp only [if_pos hend]

/-! ### Offsets of the tables that are built -/

/-- Where lists of values end that lie one after another from cell `start` on. -/
def ends (start : Nat) : List (List α) → List Nat
  | [] => []
  | l :: lists => (start + l.length) :: ends (start + l.length) lists

theorem ends_append (start : Nat) (lists more : List (List α)) :
    ends start (lists ++ more) = ends start lists ++ ends (start + lists.flatten.length) more := by
  induction lists generalizing start with
  | nil => rfl
  | cons l lists ih =>
    rw [List.cons_append, ends, ih, ends, List.flatten_cons, List.length_append, List.cons_append,
      Nat.add_assoc]

@[simp] theorem length_ends (start : Nat) (lists : List (List α)) :
    (ends start lists).length = lists.length := by
  induction lists generalizing start with
  | nil => rfl
  | cons l lists ih => rw [ends, List.length_cons, ih, List.length_cons]

theorem map_add_ends (start shift : Nat) (lists : List (List α)) :
    (ends start lists).map (· + shift) = ends (start + shift) lists := by
  induction lists generalizing start with
  | nil => rfl
  | cons l lists ih => rw [ends, List.map_cons, ih, ends, Nat.add_right_comm]

theorem offsets_foldl_push (lists : List (List α)) (r : Rows α) :
    (lists.foldl push r).offsets.toList = r.offsets.toList ++ ends r.size lists := by
  induction lists generalizing r with
  | nil => simp [ends]
  | cons l lists ih =>
    have hsize : (r.push l).size = r.size + l.length := by
      rw [size, push_values, ← Array.length_toList]
      simp [size]
    rw [List.foldl_cons, ih, hsize, push_offsets, Array.toList_push, ends, List.append_assoc]
    rfl

theorem offsets_ofLists (lists : List (List α)) :
    (ofLists lists).offsets.toList = 0 :: ends 0 lists := offsets_foldl_push lists empty

theorem values_ofLists (lists : List (List α)) :
    (ofLists lists).values.toList = lists.flatten := by
  rw [← (wf_ofLists lists).flatten_toLists, toLists_ofLists]

end Motif.Rows
