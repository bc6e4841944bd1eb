import Mathlib.Data.List.Basic
import Motif.Proofs.Yields
import Motif.Scatter

/-!
# Tasks that fill a buffer from end to end

A task that copies values into its slice writes a *run*, values to cells side by side. When the slices
were cut one after another, the runs of all tasks make one long run (`flatten_map_zip`), and what they
leave is a buffer with the values of that run in place (`commit_run`).
-/

namespace Motif

/-- Writes of the given values to cells side by side, from cell `start` on. -/
def Write.run (start : Nat) (values : List Nat) : List Write :=
  List.zipWith Write.mk (List.range' start values.length) values

namespace Write

theorem run_cons (start v : Nat) (values : List Nat) :
    run start (v :: values) = ⟨start, v⟩ :: run (start + 1) values := rfl

theorem run_append (start : Nat) (values more : List Nat) :
    run start (values ++ more) = run start values ++ run (start + values.length) more := by
  induction values generalizing start with
  | nil => rfl
  | cons v values ih =>
    rw [List.cons_append, run_cons, ih, run_cons, List.cons_append, List.length_cons, Nat.add_assoc,
      Nat.add_comm 1]

end Write

/-! ### Slices -/

namespace Slice

theorem copy_eq {s : Slice} {values : List Nat} (h : values.length = s.length) :
    s.copy values = .ok (Write.run s.start values) := by
  rw [copy, if_pos h, cells, ← h]
  rfl

theorem spread_eq {s : Slice} {values : List Nat} (h : values.length = s.length) :
    s.spread values = Write.run s.start values := by
  rw [spread, cells, ← h]
  rfl

theorem window_eq {s : Slice} {first length : Nat} (h : first + length ≤ s.length) :
    s.window first length = .ok ⟨s.start + first, length⟩ := by
  rw [window, if_pos h]
  rfl

/-- Slices of the given lengths, one after another from cell `start` on. -/
def consecutive (start : Nat) : List Nat → List Slice
  | [] => []
  | length :: lengths => ⟨start, length⟩ :: consecutive (start + length) lengths

theorem cut_eq (start room : Nat) (lengths : List Nat) :
    cut start room lengths =
      if Word.total lengths ≤ room then .ok (consecutive start lengths) else breach .bounds := by
  induction lengths generalizing start room with
  | nil => rfl
  | cons length lengths ih =>
    rw [cut, Word.total_cons, ih]
    by_cases hlength : length ≤ room
    · rw [rely, if_pos hlength]
      by_cases hrest : Word.total lengths ≤ room - length
      · rw [if_pos hrest, if_pos (by omega)]
        rfl
      · rw [if_neg hrest, if_neg (by omega)]
        rfl
    · have htotal : ¬ length + Word.total lengths ≤ room := by omega
      rw [rely, if_neg hlength, if_neg htotal]
      rfl

variable {α : Type} {l : List α} {width : α → Nat} {start : Nat}

theorem length_of_mem_zip {a : α} {slice : Slice}
    (h : (a, slice) ∈ l.zip (consecutive start (l.map width))) : slice.length = width a := by
  induction l generalizing start with
  | nil => contradiction
  | cons b l ih =>
    rcases List.mem_cons.mp h with h | h
    · cases h
      rfl
    · exact ih h

/-- Tasks that fill their slices, which were cut one after another. -/
theorem flatten_map_zip {values : α → List Nat} (h : ∀ a ∈ l, (values a).length = width a)
    (start : Nat) :
    ((l.zip (consecutive start (l.map width))).map
      fun task => Write.run task.2.start (values task.1)).flatten =
        Write.run start (l.flatMap values) := by
  induction l generalizing start with
  | nil => rfl
  | cons a l ih =>
    rw [List.flatMap_cons, Write.run_append, h a List.mem_cons_self,
      ← ih fun b hb => h b (List.mem_cons_of_mem _ hb)]
    rfl

end Slice

/-! ### What is left in the buffer -/

namespace Scatter

theorem writeAll_run {buffer : Array Nat} {start : Nat} {values : List Nat}
    (h : start + values.length ≤ buffer.size) :
    (writeAll buffer (Write.run start values)).toList =
      buffer.toList.take start ++ values ++ buffer.toList.drop (start + values.length) := by
  induction values generalizing buffer start with
  | nil => simp [writeAll, Write.run]
  | cons v values ih =>
    rw [List.length_cons] at h
    have hsize : (write buffer ⟨start, v⟩).size = buffer.size := Array.size_setIfInBounds
    rw [Write.run_cons, writeAll, List.foldl_cons, ← writeAll, ih (by rw [hsize]; omega)]
    have htake : (write buffer ⟨start, v⟩).toList.take (start + 1) =
        buffer.toList.take start ++ [v] := by
      rw [write, Array.toList_setIfInBounds, List.take_add_one, List.take_set_of_le (Nat.le_refl _),
        List.getElem?_set_self (by simp only [Array.length_toList]; omega)]
      rfl
    have hdrop : (write buffer ⟨start, v⟩).toList.drop (start + 1 + values.length) =
        buffer.toList.drop (start + (v :: values).length) := by
      have hlt : start < start + 1 + values.length := by omega
      rw [write, Array.toList_setIfInBounds, List.drop_set_of_lt hlt, List.length_cons,
        Nat.add_assoc, Nat.add_comm 1]
    rw [htake, hdrop]
    simp

theorem commit_eq (size : Nat) (tasks : List (List Write)) :
    commit size tasks = writeAll (Array.replicate size 0) tasks.flatten := by
  rw [commit, writeAll, List.foldl_flatten]
  rfl

/-- The values lie one after another in a buffer that holds zeros elsewhere. -/
theorem commit_run {size start : Nat} {tasks : List (List Write)} {values : List Nat}
    (h : tasks.flatten = Write.run start values) (hsize : start + values.length ≤ size) :
    commit size tasks = (List.replicate start 0 ++ values ++
      List.replicate (size - (start + values.length)) 0).toArray := by
  apply Array.ext'
  rw [commit_eq, h, writeAll_run (by simpa using hsize), Array.toList_replicate,
    List.take_replicate, List.drop_replicate, Nat.min_eq_left (by omega), List.toList_toArray]

end Scatter

end Motif
