import Mathlib.Data.List.Perm.Basic
import Motif.Pool
import Motif.Proofs.Yields

/-!
# What a pool makes of its tasks

Tasks that are run in any order, each of them once, leave the results they would leave one after another
(`collect_fill`). If none of them breaks a condition, the pool as a whole gives what going through the
tasks with `mapM` would give (`settle_runAll`), and the number of workers is nowhere to be seen.
-/

namespace Motif

variable {α β : Type}

namespace Slots

variable {compute : Nat → α → β} {tasks : Array α}

theorem size_run (slots : Array (Option β)) (i : Nat) :
    (run compute tasks slots i).size = slots.size := by
  rw [run]
  split
  · exact Array.size_setIfInBounds
  · rfl

/-- Running a task changes its own slot and no other. -/
theorem getElem?_run {slots : Array (Option β)} (hsize : slots.size = tasks.size) (i j : Nat) :
    (run compute tasks slots i)[j]? =
      if i = j then tasks[j]?.map fun task => some (compute j task) else slots[j]? := by
  rw [run]
  split
  · rename_i task htask
    have hi : i < slots.size := hsize ▸ (Array.getElem?_eq_some_iff.mp htask).1
    by_cases hij : i = j
    · subst hij
      simp [htask, hi]
    · rw [if_neg hij, Array.getElem?_setIfInBounds_ne hij]
  · rename_i hnone
    by_cases hij : i = j
    · subst hij
      have hi : slots.size ≤ i := hsize ▸ Array.getElem?_eq_none_iff.mp hnone
      simp [hnone, hi]
    · rw [if_neg hij]

/-- A slot is filled once its task was run. -/
theorem getElem?_foldl_run {slots : Array (Option β)} (hsize : slots.size = tasks.size)
    (order : List Nat) (i : Nat) :
    (order.foldl (run compute tasks) slots)[i]? =
      if i ∈ order then tasks[i]?.map fun task => some (compute i task) else slots[i]? := by
  induction order generalizing slots with
  | nil => simp
  | cons j order ih =>
    rw [List.foldl_cons, ih ((size_run slots j).trans hsize), getElem?_run hsize]
    by_cases hi : i ∈ order
    · simp [hi]
    · simp [hi, eq_comm]

/-- Whatever the order in which the tasks are run, each slot holds the result of its own task. -/
theorem collect_fill {order : List Nat} (h : order.Perm (List.range tasks.size)) :
    collect (fill compute tasks order) = tasks.toList.mapIdx compute := by
  have hfill : (fill compute tasks order).toList = (tasks.toList.mapIdx compute).map some := by
    apply List.ext_getElem?
    intro i
    rw [Array.getElem?_toList, fill, getElem?_foldl_run Array.size_replicate, List.getElem?_map,
      List.getElem?_mapIdx, Array.getElem?_toList, Option.map_map]
    by_cases hi : i < tasks.size
    · rw [if_pos (h.mem_iff.mpr (List.mem_range.mpr hi))]
      rfl
    · rw [if_neg fun hmem => hi (List.mem_range.mp (h.mem_iff.mp hmem))]
      simp [hi]
  rw [collect, hfill, List.filterMap_map]
  exact List.filterMap_some

end Slots

namespace Pool

variable (pool : Pool)

theorem runAll_eq_mapIdx (tasks : List α) (compute : Nat → α → β) :
    pool.runAll tasks compute = tasks.mapIdx compute := by
  unfold runAll
  split
  · rfl
  · rw [Slots.collect_fill (by simp)]

theorem breach?_of_yields {r : Result α} {post : α → Prop} (h : Yields r post) :
    breach? r = none := by
  cases r with
  | ok a => rfl
  | error stop =>
    cases stop with
    | refused cause => rfl
    | broken cause => exact False.elim h

theorem settle_runAll {f : α → Result β} {tasks : List α}
    (h : ∀ task ∈ tasks, breach? (f task) = none) :
    settle (pool.runAll tasks fun _ task => f task) = tasks.mapM f := by
  have hrun : (pool.runAll tasks fun _ task => f task) = tasks.map f := by
    rw [runAll_eq_mapIdx]
    apply List.ext_getElem
    · simp
    · simp
  have hnone : (tasks.map f).reverse.findSome? breach? = none := by
    rw [List.findSome?_eq_none_iff]
    intro r hr
    obtain ⟨task, htask, rfl⟩ := List.mem_map.mp (List.mem_reverse.mp hr)
    exact h task htask
  rw [hrun, settle, hnone, List.mapM_map]
  rfl

theorem settle_eq_ok {f : α → Result β} {value : α → β} {tasks : List α}
    (h : ∀ task ∈ tasks, f task = .ok (value task)) :
    settle (pool.runAll tasks fun _ task => f task) = .ok (tasks.map value) := by
  rw [settle_runAll pool fun task htask => congrArg breach? (h task htask)]
  exact mapM_eq_ok h

theorem yields_settle {f : α → Result β} {rel : α → β → Prop} {tasks : List α}
    (h : ∀ task ∈ tasks, Yields (f task) (rel task)) :
    Yields (settle (pool.runAll tasks fun _ task => f task)) (List.Forall₂ rel tasks) := by
  rw [settle_runAll pool fun task htask => breach?_of_yields (h task htask)]
  exact yields_mapM h

end Pool

end Motif
