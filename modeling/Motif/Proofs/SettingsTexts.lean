import Motif.Settings.Json
import Motif.Proofs.JsonReaders

/-!
# Settings as texts

A text states settings as the fields of an object. A field that has a meaning comes once at most, with a value of its
kind; fields with other names may hold anything that is well written, and the order of all of them does not matter
(`States`). Whatever is not stated is left as it is, which is all that reading adds: what a text states goes over the
standard settings, field by field (`ofJson_states`). Settings are written as such a text, so they are read back.
-/

namespace Motif.Settings

/-! ### What fields state -/

/-- The settings with what is stated in place of their own. -/
def Stated.over (stated : Stated) (s : Settings) : Settings :=
  ⟨stated.workers.getD s.workers, stated.reuse.getD s.reuse, stated.method.getD s.method⟩

/-- What is stated in two places, none of it twice. -/
def Stated.or (stated later : Stated) : Stated :=
  ⟨stated.workers.or later.workers, stated.reuse.or later.reuse, stated.method.or later.method⟩

/-- What the fields of an object state under a name, where `writes` says how it is written: no field has the name, or
one has and no other. -/
inductive StatesOnce {α : Type} (name : List Char) (writes : List Char → α → Prop) :
    List (List Char × List Char) → Option α → Prop where
  | nil : StatesOnce name writes [] none
  | here {value : List Char} {a : α} {fields : List (List Char × List Char)} (hvalue : writes value a)
      (hrest : StatesOnce name writes fields none) : StatesOnce name writes ((name, value) :: fields) (some a)
  | other {name' value : List Char} {fields : List (List Char × List Char)} {a? : Option α} (hname : name' ≠ name)
      (hrest : StatesOnce name writes fields a?) : StatesOnce name writes ((name', value) :: fields) a?

def WritesWorkers (value : List Char) (workers : Nat) : Prop := workers < Word.bound ∧ value = Decimal.render workers

def WritesReuse (value : List Char) (reuse : Reuse) : Prop := Json.NameText value (reuseName reuse).toList

def WritesMethod (value : List Char) (method : Method) : Prop := Json.NameText value (methodName method).toList

/-- The names of the fields that have a meaning. -/
def fieldNames : List (List Char) := ["num-threads".toList, "mask-mode".toList, "strategy".toList]

/-- The fields of an object state these settings and no others. -/
structure FieldsState (fields : List (List Char × List Char)) (stated : Stated) : Prop where
  workers : StatesOnce "num-threads".toList WritesWorkers fields stated.workers
  reuse : StatesOnce "mask-mode".toList WritesReuse fields stated.reuse
  method : StatesOnce "strategy".toList WritesMethod fields stated.method
  others : ∀ field ∈ fields, field.1 ∉ fieldNames → Json.Value field.2

/-- The text is an object whose fields state these settings. -/
def States (text : List Char) (stated : Stated) : Prop :=
  ∃ before object after fields, Json.Gap before ∧ Json.Gap after ∧ Json.ObjectText true object fields ∧
    FieldsState fields stated ∧ text = before ++ (object ++ after)

variable {α : Type} {name value text : List Char} {writes : List Char → α → Prop} {a? : Option α}
  {fields : List (List Char × List Char)} {done stated : Stated} {s : Settings}

/-! ### Reading the fields -/

theorem StatesOnce.of_same (h : StatesOnce name writes ((name, value) :: fields) a?) :
    ∃ a, a? = some a ∧ writes value a ∧ StatesOnce name writes fields none := by
  cases h with
  | here hvalue hrest => exact ⟨_, rfl, hvalue, hrest⟩
  | other hname _ => exact absurd rfl hname

theorem StatesOnce.of_other {name' : List Char} (h : StatesOnce name writes ((name', value) :: fields) a?)
    (hname : name' ≠ name) : StatesOnce name writes fields a? := by
  cases h with
  | here _ _ => exact absurd rfl hname
  | other _ hrest => exact hrest

theorem takes_reuse {reuse : Reuse} (h : WritesReuse value reuse) : (Json.name reuseNames).Takes value reuse :=
  Json.takes_name h (by cases reuse <;> rfl)

theorem takes_method {method : Method} (h : WritesMethod value method) : (Json.name methodNames).Takes value method :=
  Json.takes_name h (by cases method <;> rfl)

/-- Nothing that was stated is stated again. -/
structure Apart (done stated : Stated) : Prop where
  workers : done.workers = none ∨ stated.workers = none
  reuse : done.reuse = none ∨ stated.reuse = none
  method : done.method = none ∨ stated.method = none

/-- One field adds what it states, and leaves the rest to the fields after it. -/
theorem FieldsState.first (h : FieldsState ((name, value) :: fields) stated) (hapart : Apart done stated) :
    ∃ reader next later, field done name = .ok reader ∧ reader.Takes value next ∧ FieldsState fields later ∧
      Apart next later ∧ next.or later = done.or stated := by
  obtain ⟨workers, reuse, method⟩ := stated
  obtain ⟨hfirst, hothers⟩ := List.forall_mem_cons.mp h.others
  by_cases hworkers : name = "num-threads".toList
  · subst hworkers
    obtain ⟨n, rfl, ⟨hn, rfl⟩, hnone⟩ := h.workers.of_same
    have hnew : done.workers = none := hapart.workers.resolve_right (by simp)
    refine ⟨Json.word.map fun n => { done with workers := some n }, _, ⟨none, reuse, method⟩, ?_,
      (Json.takes_word hn).map, ⟨hnone, h.reuse.of_other (by decide), h.method.of_other (by decide), hothers⟩,
      ⟨.inr rfl, hapart.reuse, hapart.method⟩, ?_⟩
    · rw [field, if_pos rfl, hnew]
      rfl
    · simp [Stated.or, hnew]
  by_cases hreuse : name = "mask-mode".toList
  · subst hreuse
    obtain ⟨r, rfl, hvalue, hnone⟩ := h.reuse.of_same
    have hnew : done.reuse = none := hapart.reuse.resolve_right (by simp)
    refine ⟨(Json.name reuseNames).map fun r => { done with reuse := some r }, _, ⟨workers, none, method⟩, ?_,
      (takes_reuse hvalue).map, ⟨h.workers.of_other hworkers, hnone, h.method.of_other (by decide), hothers⟩,
      ⟨hapart.workers, .inr rfl, hapart.method⟩, ?_⟩
    · rw [field, if_neg hworkers, if_pos rfl, hnew]
      rfl
    · simp [Stated.or, hnew]
  by_cases hmethod : name = "strategy".toList
  · subst hmethod
    obtain ⟨m, rfl, hvalue, hnone⟩ := h.method.of_same
    have hnew : done.method = none := hapart.method.resolve_right (by simp)
    refine ⟨(Json.name methodNames).map fun m => { done with method := some m }, _, ⟨workers, reuse, none⟩, ?_,
      (takes_method hvalue).map, ⟨h.workers.of_other hworkers, h.reuse.of_other hreuse, hnone, hothers⟩,
      ⟨hapart.workers, hapart.reuse, .inr rfl⟩, ?_⟩
    · rw [field, if_neg hworkers, if_neg hreuse, if_pos rfl, hnew]
      rfl
    · simp [Stated.or, hnew]
  · have hvalue : Json.Value value := hfirst (by simp only [fieldNames, List.mem_cons]; tauto)
    refine ⟨_, _, ⟨workers, reuse, method⟩, ?_, Json.takes_ignored hvalue done,
      ⟨h.workers.of_other hworkers, h.reuse.of_other hreuse, h.method.of_other hmethod, hothers⟩, hapart, rfl⟩
    rw [field, if_neg hworkers, if_neg hreuse, if_neg hmethod]

theorem fills_of_fieldsState (h : FieldsState fields stated) (hapart : Apart done stated) :
    Json.Fills field done fields (done.or stated) := by
  induction fields generalizing done stated with
  | nil =>
    obtain ⟨workers, reuse, method⟩ := stated
    obtain ⟨⟨⟩, ⟨⟩, ⟨⟩, _⟩ := h
    have hsame : done.or ⟨none, none, none⟩ = done := by simp [Stated.or]
    rw [hsame]
    exact .nil
  | cons first fields ih =>
    obtain ⟨reader, next, later, hfield, htakes, hlater, hapart', hsame⟩ := h.first hapart
    rw [← hsame]
    exact .cons hfield htakes (ih hlater hapart')

theorem readStated_of_states (h : States text stated) :
    ∃ rest, Json.Gap rest ∧ readStated text = .ok (stated, rest) := by
  obtain ⟨before, object, after, fields, hbefore, hafter, ⟨inside, hinside, rfl⟩, hfields, rfl⟩ := h
  have hfills : Json.Fills field .nothing fields (Stated.or .nothing stated) :=
    fills_of_fieldsState hfields ⟨.inl rfl, .inl rfl, .inl rfl⟩
  have hsame : Stated.or .nothing stated = stated := by simp [Stated.or, Stated.nothing]
  rw [hsame] at hfills
  refine ⟨after, hafter, ?_⟩
  rw [List.cons_append, List.append_assoc, List.singleton_append, readStated, Json.skipBlank_gap hbefore,
    Json.skipBlank_cons (by decide)]
  exact Json.readFields_inside hinside hfills

/-- A text that states settings gives them, and the standard ones for those that it does not state. -/
theorem ofJson_states (h : States text stated) : ofJson text = .ok (stated.over standard) := by
  obtain ⟨rest, hrest, hread⟩ := readStated_of_states h
  rw [ofJson, hread]
  show (Json.atEnd rest >>= _) = _
  rw [Json.atEnd_eq_ok_iff.mpr hrest]
  rfl

/-! ### Settings that are written -/

theorem plain_reuseName (reuse : Reuse) : Json.Plain (reuseName reuse).toList := by
  cases reuse <;> decide +kernel

theorem plain_methodName (method : Method) : Json.Plain (methodName method).toList := by
  cases method <;> decide +kernel

theorem objectText_toJson (s : Settings) :
    Json.ObjectText true s.toJson [("num-threads".toList, Json.writeNat s.workers),
      ("mask-mode".toList, Json.writeName (reuseName s.reuse)),
      ("strategy".toList, Json.writeName (methodName s.method))] := by
  have hplain : Json.Plain "num-threads".toList ∧ Json.Plain "mask-mode".toList ∧ Json.Plain "strategy".toList := by
    decide +kernel
  exact @Json.objectText_writeObject [("num-threads", Json.writeNat s.workers),
    ("mask-mode", Json.writeName (reuseName s.reuse)), ("strategy", Json.writeName (methodName s.method))]
    (by simpa using hplain)

/-- The text that is written states all settings. -/
theorem states_toJson (hword : s.workers < Word.bound) :
    States s.toJson ⟨some s.workers, some s.reuse, some s.method⟩ := by
  have hreuse : WritesReuse (Json.writeName (reuseName s.reuse)) s.reuse :=
    Json.nameText_writeName (plain_reuseName s.reuse)
  have hmethod : WritesMethod (Json.writeName (methodName s.method)) s.method :=
    Json.nameText_writeName (plain_methodName s.method)
  refine ⟨[], s.toJson, [], _, Json.gap_nil, Json.gap_nil, objectText_toJson s, ⟨?_, ?_, ?_, ?_⟩, by simp⟩
  · exact .here ⟨hword, rfl⟩ (.other (by decide) (.other (by decide) .nil))
  · exact .other (by decide) (.here hreuse (.other (by decide) .nil))
  · exact .other (by decide) (.other (by decide) (.here hmethod .nil))
  · simp [fieldNames]

theorem ofJson_toJson (hword : s.workers < Word.bound) : ofJson s.toJson = .ok s :=
  ofJson_states (states_toJson hword)

end Motif.Settings
