import Motif.Failure

/-!
# Tasks run side by side

A pool runs a list of tasks that do not depend on each other and waits for all of them. Each task has a
slot of its own, numbered like the task, and leaves its result there, so the results come back in the
order of the tasks whatever order they are taken in. `Slots.fill` has that order as an argument;
`Pool.runAll` takes the task that was handed over last first, as a worker does that keeps its tasks on
a stack.

A task that stops does not keep the others from running. `settle` then decides which of several stops
is the answer. A breach in any task comes before every refusal, and of several breaches the one that
happens first counts, which is that of the last task; of refusals the first task's counts.
-/

namespace Motif

/-- A number of workers, of which there is at least one. -/
structure Pool where
  workers : Nat
  positive : 0 < workers

namespace Pool

/-- A pool of the given number of workers, but at least one. -/
def ofWorkers (workers : Nat) : Pool := ⟨max workers 1, by omega⟩

end Pool

namespace Slots

variable {α β : Type}

/-- Runs task `i` and leaves its result in slot `i`. -/
def run (compute : Nat → α → β) (tasks : Array α) (slots : Array (Option β)) (i : Nat) :
    Array (Option β) :=
  match tasks[i]? with
  | some task => slots.setIfInBounds i (some (compute i task))
  | none => slots

/-- The slots after the tasks were run in the given order. -/
def fill (compute : Nat → α → β) (tasks : Array α) (order : List Nat) : Array (Option β) :=
  order.foldl (run compute tasks) (Array.replicate tasks.size none)

/-- The results in the slots, in the order of the slots. -/
def collect (slots : Array (Option β)) : List β := slots.toList.filterMap id

end Slots

namespace Pool

variable {α β : Type}

/-- Runs `compute` on each task with its number, and gives the results in the order of the tasks. A
single task is run in place. -/
def runAll (_pool : Pool) (tasks : List α) (compute : Nat → α → β) : List β :=
  match tasks with
  | [task] => [compute 0 task]
  | tasks => Slots.collect (Slots.fill compute tasks.toArray (List.range tasks.length).reverse)

def breach? : Result α → Option Breach
  | .error (.broken cause) => some cause
  | _ => none

/-- The values of all tasks, if none of them stopped. -/
def settle (results : List (Result α)) : Result (List α) :=
  match results.reverse.findSome? breach? with
  | some cause => breach cause
  | none => results.mapM id

end Pool

end Motif
