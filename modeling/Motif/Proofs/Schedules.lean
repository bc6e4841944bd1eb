import Mathlib.Data.List.Induction
import Mathlib.Data.List.Nodup
import Mathlib.Logic.Relation
import Motif.Proofs.Tasks

/-!
# Tasks in no fixed order

The workers of a pool take tasks as they come. A `Step` runs one task, any of those that were not run
before, and leaves its result in the slot of the task; a schedule is a sequence of such steps. `Pool.runAll`
follows one schedule, and this file shows that it does not matter which (`runAll_any_schedule`): the slots
depend on nothing but the set of tasks that were run.
-/

namespace Motif

variable {α β : Type}

namespace Slots

/-- A pool at work. -/
structure Progress (β : Type) where
  slots : Array (Option β)
  /-- The tasks that were run, in the order in which they were. -/
  ran : List Nat

/-- All slots are empty, and no task was run. -/
def Progress.start (tasks : Array α) : Progress β := ⟨Array.replicate tasks.size none, []⟩

inductive Step (compute : Nat → α → β) (tasks : Array α) : Progress β → Progress β → Prop
  | run {slots : Array (Option β)} {ran : List Nat} {i : Nat} (hi : i < tasks.size) (hnew : i ∉ ran) :
      Step compute tasks ⟨slots, ran⟩ ⟨Slots.run compute tasks slots i, ran ++ [i]⟩

/-- A schedule of the tasks leads to this point. -/
def Reaches (compute : Nat → α → β) (tasks : Array α) (s : Progress β) : Prop :=
  Relation.ReflTransGen (Step compute tasks) (.start tasks) s

variable {compute : Nat → α → β} {tasks : Array α} {s next : Progress β}

/-- No task was run twice, and the slots are those that the tasks leave in the order they were run. -/
structure Progress.Orderly (compute : Nat → α → β) (tasks : Array α) (s : Progress β) : Prop where
  slots : s.slots = fill compute tasks s.ran
  nodup : s.ran.Nodup
  bounded : ∀ i ∈ s.ran, i < tasks.size

theorem fill_concat (order : List Nat) (i : Nat) :
    fill compute tasks (order ++ [i]) = run compute tasks (fill compute tasks order) i := by
  rw [fill, List.foldl_append]
  rfl

theorem orderly_start : (Progress.start tasks).Orderly compute tasks where
  slots := rfl
  nodup := List.nodup_nil
  bounded := by simp [Progress.start]

theorem Progress.Orderly.step (h : s.Orderly compute tasks) (hstep : Step compute tasks s next) :
    next.Orderly compute tasks := by
  obtain ⟨hi, hnew⟩ := hstep
  refine ⟨?_, ?_, fun j hj => ?_⟩
  · rw [fill_concat, ← h.slots]
  · rw [← List.concat_eq_append]
    exact h.nodup.concat hnew
  · rcases List.mem_append.mp hj with hj | hj
    · exact h.bounded j hj
    · rwa [List.mem_singleton.mp hj]

theorem Reaches.orderly (h : Reaches compute tasks s) : s.Orderly compute tasks := by
  induction h with
  | refl => exact orderly_start
  | tail _ hstep ih => exact ih.step hstep

/-- A slot is filled when its task was run, and with the result of that task. -/
theorem Progress.Orderly.getElem?_slots (h : s.Orderly compute tasks) {i : Nat} (hi : i < tasks.size) :
    s.slots[i]? = some (if i ∈ s.ran then some (compute i tasks[i]) else none) := by
  rw [h.slots, fill, getElem?_foldl_run Array.size_replicate, Array.getElem?_eq_getElem hi,
    Array.getElem?_eq_getElem (by rwa [Array.size_replicate])]
  split
  · rfl
  · rw [Array.getElem_replicate]

/-- A schedule goes on until every task was run. -/
theorem Progress.Orderly.perm_of_stuck (h : s.Orderly compute tasks)
    (hstuck : ∀ next, ¬ Step compute tasks s next) : s.ran.Perm (List.range tasks.size) := by
  rw [List.perm_ext_iff_of_nodup h.nodup List.nodup_range]
  intro i
  rw [List.mem_range]
  refine ⟨h.bounded i, fun hi => ?_⟩
  by_contra hnew
  exact hstuck _ (.run hi hnew)

/-- The tasks may come in any order. -/
theorem reaches_fill {order : List Nat} (hnodup : order.Nodup) (hbound : ∀ i ∈ order, i < tasks.size) :
    Reaches compute tasks ⟨fill compute tasks order, order⟩ := by
  induction order using List.reverseRecOn with
  | nil => exact .refl
  | append_singleton order i ih =>
    obtain ⟨hfront, _, happart⟩ := List.nodup_append.mp hnodup
    have hreach := ih hfront fun j hj => hbound j (List.mem_append_left _ hj)
    have hi : i < tasks.size := hbound i (by simp)
    have hnew : i ∉ order := fun hmem => happart i hmem i List.mem_cons_self rfl
    rw [fill_concat]
    exact hreach.tail (.run hi hnew)

end Slots

namespace Pool

/-- On every schedule each task is run once and leaves its result in its own slot, and when all of them
were run the slots hold the results in the order of the tasks. This is what `runAll` returns, also for a
single task and for none. The tasks can come in every order. -/
theorem runAll_any_schedule (pool : Pool) (tasks : List α) (compute : Nat → α → β) :
    pool.runAll tasks compute = tasks.mapIdx compute ∧
    (∀ s, Slots.Reaches compute tasks.toArray s →
      s.ran.Nodup ∧ (∀ i ∈ s.ran, i < tasks.length) ∧
      (∀ (i : Nat) (hi : i < tasks.length),
        s.slots[i]? = some (if i ∈ s.ran then some (compute i tasks[i]) else none)) ∧
      ((∀ next, ¬ Slots.Step compute tasks.toArray s next) →
        s.ran.Perm (List.range tasks.length) ∧ Slots.collect s.slots = tasks.mapIdx compute)) ∧
    ∀ order : List Nat, order.Perm (List.range tasks.length) →
      Slots.Reaches compute tasks.toArray ⟨Slots.fill compute tasks.toArray order, order⟩ := by
  refine ⟨runAll_eq_mapIdx pool tasks compute, fun s hreach => ?_, fun order hperm => ?_⟩
  · have horderly := hreach.orderly
    refine ⟨horderly.nodup, horderly.bounded, fun i hi => horderly.getElem?_slots hi, fun hstuck => ?_⟩
    have hperm := horderly.perm_of_stuck hstuck
    refine ⟨hperm, ?_⟩
    rw [horderly.slots, Slots.collect_fill hperm]
  · apply Slots.reaches_fill (hperm.nodup_iff.mpr List.nodup_range)
    intro i hi
    exact List.mem_range.mp (hperm.mem_iff.mp hi)

/-- Of three tasks, two of them alike, the last is run first. -/
theorem runAll_any_schedule_last_first :
    let compute := fun i task => 10 * i + task
    let s : Slots.Progress Nat := ⟨#[some 5, some 17, some 25], [2, 0, 1]⟩
    Slots.Reaches compute #[5, 7, 5] s ∧
      Slots.collect s.slots = (ofWorkers 4).runAll [5, 7, 5] compute := by
  intro compute s
  obtain ⟨hrun, hstates, horders⟩ := runAll_any_schedule (ofWorkers 4) [5, 7, 5] compute
  have hreach : Slots.Reaches compute #[5, 7, 5] s := horders [2, 0, 1] (by decide)
  have hstuck : ∀ next, ¬ Slots.Step compute #[5, 7, 5] ⟨s.slots, [2, 0, 1]⟩ next := by
    rintro _ ⟨hi, hnew⟩
    simp only [List.size_toArray, List.length_cons, List.length_nil, List.mem_cons,
      List.not_mem_nil] at hi hnew
    omega
  obtain ⟨_, _, _, hended⟩ := hstates s hreach
  exact ⟨hreach, (hended hstuck).2.trans hrun.symm⟩

end Pool

end Motif
