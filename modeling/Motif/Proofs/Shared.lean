import Motif.Proofs.Candidates

/-!
# One workspace for many calls

A workspace is passed from walk to walk, and may be passed on to steps on other graphs, by either method,
and after calls that stopped. None of its holders can tell (`answers_eq_map_fresh`).

Two things make it so. The lists of a workspace are emptied before they are read, so a clean workspace
gives the answer of a fresh one (`answer_candidates`), and every call leaves the counters at zero that it
found at zero (`clean_candidates`). Nothing is asked of the walk or of the required positions here: the
vertices of the walk may be out of order or out of the graph.
-/

namespace Motif

/-- What the caller of a step sees of it: how it ended, and the buffer. -/
def Appended.answer {α σ : Type} (step : Appended α σ) : Result Unit × Array α :=
  (step.outcome, step.buffer)

namespace Extender

variable {g : Graph} {x : Extender} {w : Walk} {space space' : Workspace}

/-! ### The answer of a clean workspace -/

/-- The spare list is emptied before it is filled. -/
theorem narrow_spare (g : Graph) (next : Nat) (rest : List Nat) (kept spare spare' out : Array Nat) :
    (narrow g next rest kept spare out).2.2 = (narrow g next rest kept spare' out).2.2 := by
  cases rest with
  | nil => rfl
  | cons after rest =>
    simp only [narrow, shrink_zero]
    split
    · rfl
    · rfl

theorem answer_intersect (g : Graph) (first : Nat) (rest mask : List Nat) (space space' : Workspace)
    (out : Array Nat) :
    (intersect g first rest mask space out).answer = (intersect g first rest mask space' out).answer := by
  cases rest with
  | nil => rfl
  | cons next rest =>
    obtain ⟨held, kept, spare, seen, hits⟩ := space
    obtain ⟨held', kept', spare', seen', hits'⟩ := space'
    simp only [Appended.answer, intersect, shrink_zero]
    rw [narrow_spare g next rest _ spare spare']

theorem answer_tally (hclean : space.Clean) (hclean' : space'.Clean) (g : Graph)
    (sources mask : List Nat) (out : Array Nat) :
    (tally g sources mask space out).answer = (tally g sources mask space' out).answer := by
  obtain ⟨held, kept, spare, seen, hits⟩ := space
  obtain ⟨held', kept', spare', seen', hits'⟩ := space'
  simp only [Appended.answer, tally, startingHits_eq hclean, startingHits_eq hclean', shrink_zero]

theorem answer_candidatesFrom (hclean : space.Clean) (hclean' : space'.Clean) (ordered : List Nat)
    (out : Array Nat) :
    (x.candidatesFrom w ordered space out).answer = (x.candidatesFrom w ordered space' out).answer := by
  cases ordered with
  | nil => rfl
  | cons first rest =>
    simp only [candidatesFrom]
    split
    · rfl
    · split
      · exact answer_intersect _ _ _ _ _ _ out
      · exact answer_tally hclean hclean' _ _ _ out

theorem answer_candidates (hclean : space.Clean) (hclean' : space'.Clean) (x : Extender) (w : Walk)
    (out : Array Nat) : (x.candidates w space out).answer = (x.candidates w space' out).answer := by
  simp only [candidates, Workspace.sources_refill]
  split
  · rfl
  · split
    · rfl
    · apply answer_candidatesFrom
      · exact Workspace.clean_refill (Workspace.clean_refill hclean _) _
      · exact Workspace.clean_refill (Workspace.clean_refill hclean' _) _

/-! ### The workspace that is left -/

theorem clean_intersect (hclean : space.Clean) (g : Graph) (first : Nat) (rest mask : List Nat)
    (out : Array Nat) : (intersect g first rest mask space out).state.Clean := by
  cases rest with
  | nil => exact hclean
  | cons next rest => exact hclean

theorem clean_candidatesFrom (hclean : space.Clean) (ordered : List Nat) (out : Array Nat) :
    (x.candidatesFrom w ordered space out).state.Clean := by
  cases ordered with
  | nil => exact hclean
  | cons first rest =>
    rw [candidatesFrom]
    split
    · exact hclean
    · split
      · exact clean_intersect hclean _ _ _ _ out
      · exact clean_tally _ _ _ hclean out

/-- Also a call that stops leaves clean counters behind. -/
theorem clean_candidates (hclean : space.Clean) (x : Extender) (w : Walk) (out : Array Nat) :
    (x.candidates w space out).state.Clean := by
  simp only [candidates]
  split
  · exact hclean
  · split
    · exact hclean
    · exact clean_candidatesFrom (Workspace.clean_refill (Workspace.clean_refill hclean _) _) _ out

/-! ### Calls that share a workspace -/

/-- A call for the candidates of a walk, to be added to what a buffer holds. -/
structure Call where
  extender : Extender
  walk : Walk
  out : Array Nat

def Call.run (call : Call) (space : Workspace) : Appended Nat Workspace :=
  call.extender.candidates call.walk space call.out

/-- The answers to calls each of which hands its workspace on to the next. -/
def answers : List Call → Workspace → List (Result Unit × Array Nat)
  | [], _ => []
  | call :: calls, space => (call.run space).answer :: answers calls (call.run space).state

/-- The workspace that such calls leave behind. -/
def workspaceAfter (calls : List Call) (space : Workspace) : Workspace :=
  calls.foldl (fun space call => (call.run space).state) space

theorem clean_workspaceAfter (hclean : space.Clean) (calls : List Call) :
    (workspaceAfter calls space).Clean := by
  induction calls generalizing space with
  | nil => exact hclean
  | cons call calls ih => exact ih (clean_candidates hclean _ _ _)

theorem answers_of_clean (hclean : space.Clean) (calls : List Call) :
    answers calls space = calls.map fun call => (call.run .fresh).answer := by
  induction calls generalizing space with
  | nil => rfl
  | cons call calls ih =>
    have hfirst : (call.run space).answer = (call.run .fresh).answer :=
      answer_candidates hclean Workspace.clean_fresh _ _ _
    have hleft : (call.run space).state.Clean := clean_candidates hclean _ _ _
    rw [answers, List.map_cons, hfirst, ih hleft]

/-- Calls that share a workspace, those that stop among them, are answered as if each had a fresh one to
itself: they end in the same way and add the same values. Between any two of them the counters are zero. -/
theorem answers_eq_map_fresh (calls : List Call) :
    answers calls .fresh = calls.map (fun call => (call.run .fresh).answer) ∧
      (∀ call ∈ calls, ∃ found : List Nat, (call.run .fresh).buffer = call.out ++ found) ∧
      ∀ n, ∀ count ∈ (workspaceAfter (calls.take n) .fresh).hits, count = 0 := by
  refine ⟨answers_of_clean Workspace.clean_fresh calls, ?_, ?_⟩
  · intro call _
    exact candidates_appends _ _ _ _
  · intro n count hcount
    exact (clean_workspaceAfter Workspace.clean_fresh _).eq_zero_of_mem hcount

-- two graphs of different order, and between them a position that is not bound and a vertex that is none
example :
    let g := Graph.ofAscending [[1, 2], [2], []] (by decide) (by decide)
    let loop := Graph.ofAscending [[0]] (by decide) (by decide)
    answers [⟨⟨g, [0, 1], .forbidden, .tally, by decide⟩, ⟨[0, 1], [0, 1]⟩, #[9]⟩,
        ⟨⟨g, [0, 1], .allowed, .tally, by decide⟩, ⟨[0], [0]⟩, #[9]⟩,
        ⟨⟨loop, [0], .allowed, .intersect, by decide⟩, ⟨[7], [0]⟩, #[]⟩,
        ⟨⟨loop, [0], .allowed, .tally, by decide⟩, ⟨[0], [0]⟩, #[]⟩] .fresh =
      [(.ok (), #[9, 2]), (refuse (.mismatch (.unboundPositions 1 2)), #[9]),
        (breach (.node 7), #[]), (.ok (), #[0])] := by
  decide +kernel

end Extender

end Motif
