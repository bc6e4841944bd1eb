import Motif.Proofs.Encoding

/-!
# Histories of pushed rows

A row may be written by a step, straight to the end of the table and before it is known how the step will end.
When it is refused, as much as it wrote is taken back, and the table is the one that was there before
(`Push.run_eq`). So after any number of calls, with refusals anywhere among them, a table has the rows it
started with and then those of the calls that succeeded (`pushAll_exact`). Only a step that breaks a condition
would leave its values behind (`not_wf_of_broken`), so the calls here break none.

What a call adds may depend on what it finds in the buffer. It is therefore said in terms of the values that
are there when the call is made, by `Push.answer`, which knows nothing of tables.
-/

namespace Motif.Rows

variable {α : Type} {r : Rows α}

/-- A call that pushes a row: a row that is given, or one that a step writes. -/
inductive Push (α : Type) : Type 1 where
  | given (row : List α)
  | written {σ : Type} (write : Array α → Appended α σ)

namespace Push

variable {call : Push α}

/-- The table that the call leaves, and how it ends. -/
def run (r : Rows α) : Push α → Rows α × Result Unit
  | given row => (r.push row, .ok ())
  | written write => ((r.pushWith write).1, (fun _ => ()) <$> (r.pushWith write).2)

/-- What is in the buffer stays there, and the call adds to it, whether it succeeds or is refused. -/
def Appends : Push α → Prop
  | given _ => True
  | written write => ∀ values, (write values).Extends values

/-- The row that is added to a buffer with the given values, or how the step stopped that was to write it. -/
def answer (values : Array α) : Push α → Result (List α)
  | given row => .ok row
  | written write => (fun _ => (write values).added values) <$> (write values).outcome

/-- A call pushes its row as a whole, or changes nothing and passes on why. -/
theorem run_eq (hcall : call.Appends) (r : Rows α) :
    call.run r = match call.answer r.values with
      | .ok row => (r.push row, .ok ())
      | .error stop => (r, .error stop) := by
  cases call with
  | given row => rfl
  | written write =>
    have hextends := hcall r.values
    rcases hextends.ok_or_refused with hok | ⟨cause, hcause⟩
    · rw [run, answer, hok, pushWith_of_adds (hextends.adds hok)]
      rfl
    · rw [run, answer, hcause, pushWith_restores hextends hcause]
      rfl

theorem answer_ok_or_refused (hcall : call.Appends) (values : Array α) :
    (∃ row, call.answer values = .ok row) ∨ ∃ cause, call.answer values = refuse cause := by
  cases call with
  | given row => exact .inl ⟨row, rfl⟩
  | written write =>
    rcases (hcall values).ok_or_refused with hok | ⟨cause, hcause⟩
    · rw [answer, hok]
      exact .inl ⟨_, rfl⟩
    · rw [answer, hcause]
      exact .inr ⟨cause, rfl⟩

theorem run_of_ok (hcall : call.Appends) {row : List α} (h : call.answer r.values = .ok row) :
    call.run r = (r.push row, .ok ()) := by
  rw [run_eq hcall, h]

theorem run_of_refused (hcall : call.Appends) {cause : Refusal} (h : call.answer r.values = refuse cause) :
    call.run r = (r, refuse cause) := by
  rw [run_eq hcall, h]
  rfl

theorem wf_run (hcall : call.Appends) (hr : r.Wf) : (call.run r).1.Wf := by
  rcases answer_ok_or_refused hcall r.values with ⟨row, hrow⟩ | ⟨cause, hcause⟩
  · rw [run_of_ok hcall hrow]
    exact hr.push row
  · rw [run_of_refused hcall hcause]
    exact hr

end Push

/-! ### One call after another -/

/-- The table after the calls. -/
def pushAll (r : Rows α) (calls : List (Push α)) : Rows α := calls.foldl (fun r call => (call.run r).1) r

/-- What each of the calls adds, or the stop it ends with. -/
def answers (r : Rows α) : List (Push α) → List (Result (List α))
  | [] => []
  | call :: calls => call.answer r.values :: answers (call.run r).1 calls

variable {calls : List (Push α)}

theorem wf_pushAll (hr : r.Wf) (happends : ∀ call ∈ calls, call.Appends) : (r.pushAll calls).Wf := by
  induction calls generalizing r with
  | nil => exact hr
  | cons call calls ih =>
    obtain ⟨hcall, hcalls⟩ := List.forall_mem_cons.mp happends
    exact ih (Push.wf_run hcall hr) hcalls

/-- The rows of the calls that succeeded follow those of the table, in the order of the calls. -/
theorem toLists_pushAll (hr : r.Wf) (happends : ∀ call ∈ calls, call.Appends) :
    (r.pushAll calls).toLists = r.toLists ++ (r.answers calls).filterMap Except.toOption := by
  induction calls generalizing r with
  | nil => simp [pushAll, answers]
  | cons call calls ih =>
    obtain ⟨hcall, hcalls⟩ := List.forall_mem_cons.mp happends
    have htail := ih (Push.wf_run hcall hr) hcalls
    have hall : r.pushAll (call :: calls) = (call.run r).1.pushAll calls := rfl
    rw [answers, hall, htail]
    rcases Push.answer_ok_or_refused hcall r.values with ⟨row, hrow⟩ | ⟨cause, hcause⟩
    · rw [hrow, Push.run_of_ok hcall hrow, hr.toLists_push, List.append_assoc]
      rfl
    · rw [hcause, Push.run_of_refused hcall hcause]
      rfl

/-- Whatever calls push rows to a table and whichever of them are refused, the rows at the end are those of the table
and after them the rows of the calls that succeeded. After each call the table is well formed. A call either succeeds
and adds its row to the table that is there, or it passes on the refusal of the step that was to write the row, and
leaves both arrays of the table as they were. -/
theorem pushAll_exact (hr : r.Wf) (happends : ∀ call ∈ calls, call.Appends) :
    (r.pushAll calls).toLists = r.toLists ++ (r.answers calls).filterMap Except.toOption ∧
    (∀ n, (r.pushAll (calls.take n)).Wf) ∧
    ∀ before call after, calls = before ++ call :: after →
      (∃ row, call.answer (r.pushAll before).values = .ok row ∧ (call.run (r.pushAll before)).2 = .ok () ∧
        (call.run (r.pushAll before)).1.toLists = (r.pushAll before).toLists ++ [row]) ∨
      ∃ cause, call.answer (r.pushAll before).values = refuse cause ∧
        call.run (r.pushAll before) = (r.pushAll before, refuse cause) := by
  refine ⟨toLists_pushAll hr happends, fun n => ?_, ?_⟩
  · exact wf_pushAll hr fun call hcall => happends call (List.mem_of_mem_take hcall)
  · rintro before call after rfl
    have hcall : call.Appends := happends call (List.mem_append_right _ List.mem_cons_self)
    have hbefore : (r.pushAll before).Wf :=
      wf_pushAll hr fun earlier hmem => happends earlier (List.mem_append_left _ hmem)
    rcases Push.answer_ok_or_refused hcall (r.pushAll before).values with ⟨row, hrow⟩ | ⟨cause, hcause⟩
    · refine .inl ⟨row, hrow, ?_⟩
      rw [Push.run_of_ok hcall hrow]
      exact ⟨rfl, hbefore.toLists_push row⟩
    · exact .inr ⟨cause, hcause, Push.run_of_refused hcall hcause⟩

/-- Between two rows a step is refused after two values, and the last step writes how many values it has found. -/
theorem pushAll_exact_halfway :
    let giveUp : Array Nat → Appended Nat Unit := fun values => ⟨refuse (.capacity "rows"), (), values ++ [8, 9]⟩
    let measure : Array Nat → Appended Nat Unit := fun values => ⟨.ok (), (), values ++ [values.size]⟩
    let calls : List (Push Nat) := [.given [4, 5], .written giveUp, .given [], .written measure]
    (Rows.ofLists [[7]]).pushAll calls = Rows.ofLists [[7], [4, 5], [], [3]] ∧
      (Push.written giveUp).run (Rows.ofLists [[7], [4, 5]]) =
        (Rows.ofLists [[7], [4, 5]], refuse (.capacity "rows")) := by
  intro giveUp measure calls
  have hgiveUp : (Push.written giveUp).Appends :=
    fun values => ⟨⟨[8, 9], rfl⟩, fun cause => by simp [giveUp, refuse, breach]⟩
  have hmeasure : (Push.written measure).Appends :=
    fun values => ⟨⟨[values.size], rfl⟩, fun cause => by simp [measure, breach]⟩
  have happends : ∀ call ∈ calls, call.Appends := by
    simp only [calls, List.forall_mem_cons]
    exact ⟨trivial, hgiveUp, trivial, hmeasure, by simp⟩
  obtain ⟨hlists, hwf, hcalls⟩ := pushAll_exact (Rows.wf_ofLists [[7]]) happends
  refine ⟨(hwf 4).ext_toLists (Rows.wf_ofLists _) ?_, ?_⟩
  · rw [Rows.toLists_ofLists]
    exact hlists
  · rcases hcalls [.given [4, 5]] (.written giveUp) [.given [], .written measure] rfl with
      ⟨row, hrow, _⟩ | ⟨cause, hcause, hrun⟩
    · contradiction
    · obtain rfl := Stop.refused.inj (Except.error.inj hcause)
      exact hrun

end Motif.Rows
