import Mathlib.Data.List.Forall2
import Motif.Rows.Basic

/-!
# Values while memory lasts

Every table of the library is asked for before it is filled, so any operation that makes one may be
turned down, whatever its input. What a proof can promise of such an operation is a value with a
property, unless memory runs short. `Yields` is that promise. It passes through a sequence of steps by
`Yields.bind`, and each function of the library then has one lemma that says what it yields.
-/

namespace Motif

/-- The stops that more memory would have avoided. -/
def Stop.ForMemory : Stop → Prop
  | .refused (.allocation _) => True
  | .refused (.capacity _) => True
  | _ => False

/-- The computation gives a value with the property `post`, unless memory runs short. -/
def Yields {α : Type} (r : Result α) (post : α → Prop) : Prop :=
  match r with
  | .ok a => post a
  | .error stop => stop.ForMemory

variable {α β : Type} {r : Result α} {post : α → Prop}

theorem yields_pure {a : α} (h : post a) : Yields (pure a) post := h

theorem Yields.of_ok {a : α} (h : Yields r post) (hr : r = .ok a) : post a := by
  rw [hr] at h
  exact h

theorem Yields.forMemory {stop : Stop} (h : Yields r post) (hr : r = .error stop) :
    stop.ForMemory := by
  rw [hr] at h
  exact h

theorem Yields.mono {weaker : α → Prop} (h : Yields r post) (himp : ∀ a, post a → weaker a) :
    Yields r weaker := by
  cases r with
  | ok a => exact himp a h
  | error stop => exact h

theorem Yields.bind {next : α → Result β} {last : β → Prop} (h : Yields r post)
    (hnext : ∀ a, post a → Yields (next a) last) : Yields (r >>= next) last := by
  cases r with
  | ok a => exact hnext a h
  | error stop => exact h

theorem yields_ok_bind {a : α} {next : α → Result β} {last : β → Prop} :
    Yields (.ok a >>= next) last ↔ Yields (next a) last := Iff.rfl

theorem yields_require_bind {condition : Prop} [Decidable condition] {cause : Refusal}
    {next : Unit → Result β} {last : β → Prop} (h : condition) :
    Yields (require condition cause >>= next) last ↔ Yields (next ()) last := by
  rw [require, if_pos h]
  exact Iff.rfl

/-- What comes after a step only matters for the values that the step gives. -/
theorem bind_congr_of_ok {ε : Type} {x : Except ε α} {next next' : α → Except ε β}
    (h : ∀ a, x = .ok a → next a = next' a) : (x >>= next) = (x >>= next') := by
  cases x with
  | ok a => exact h a rfl
  | error stop => rfl

theorem mapError_eq_ok {ε ε' : Type} {x : Except ε α} {report : ε → ε'} {a : α} :
    x.mapError report = .ok a ↔ x = .ok a := by
  cases x <;> simp [Except.mapError]

theorem mapError_eq_error {ε ε' : Type} {x : Except ε α} {report : ε → ε'} {stop : ε'} :
    x.mapError report = .error stop ↔ ∃ cause, x = .error cause ∧ report cause = stop := by
  cases x <;> simp [Except.mapError]

theorem bind_eq_error {ε : Type} {x : Except ε α} {next : α → Except ε β} {stop : ε} :
    (x >>= next) = .error stop ↔ x = .error stop ∨ ∃ a, x = .ok a ∧ next a = .error stop := by
  cases x <;> simp [bind, Except.bind]

theorem exists_of_isOk (h : r.isOk = true) : ∃ a, r = .ok a := by
  cases r with
  | ok a => exact ⟨a, rfl⟩
  | error stop => contradiction

theorem exists_of_map_eq_ok {ε : Type} {x : Except ε α} {f : α → β} {b : β} (h : x.map f = .ok b) :
    ∃ a, x = .ok a ∧ f a = b := by
  cases x with
  | ok a => exact ⟨a, rfl, Except.ok.inj h⟩
  | error stop => contradiction

/-- Steps that each yield a value together yield the list of these values. -/
theorem yields_mapM {f : α → Result β} {rel : α → β → Prop} {l : List α}
    (h : ∀ a ∈ l, Yields (f a) (rel a)) : Yields (l.mapM f) (List.Forall₂ rel l) := by
  induction l with
  | nil => exact List.Forall₂.nil
  | cons a l ih =>
    rw [List.mapM_cons]
    apply (h a List.mem_cons_self).bind
    intro b hb
    refine (ih fun a ha => h a (List.mem_cons_of_mem _ ha)).bind fun bs hbs => ?_
    exact yields_pure (List.Forall₂.cons hb hbs)

/-- Steps that each give a value together give the list of these values. -/
theorem mapM_eq_ok {ε : Type} {f : α → Except ε β} {value : α → β} {l : List α}
    (h : ∀ a ∈ l, f a = .ok (value a)) : l.mapM f = .ok (l.map value) := by
  induction l with
  | nil => rfl
  | cons a l ih =>
    rw [List.mapM_cons, h a List.mem_cons_self, ih fun a ha => h a (List.mem_cons_of_mem _ ha)]
    rfl

theorem exists_first_of_not_forall {keeps : α → Prop} {l : List α} (h : ¬ ∀ a ∈ l, keeps a) :
    ∃ before a after, l = before ++ a :: after ∧ (∀ b ∈ before, keeps b) ∧ ¬ keeps a := by
  induction l with
  | nil => exact absurd (by simp) h
  | cons b l ih =>
    by_cases hb : keeps b
    · obtain ⟨before, a, after, rfl, hbefore, ha⟩ := ih fun hl => h (List.forall_mem_cons.mpr ⟨hb, hl⟩)
      exact ⟨b :: before, a, after, rfl, List.forall_mem_cons.mpr ⟨hb, hbefore⟩, ha⟩
    · exact ⟨[], b, l, rfl, by simp, hb⟩

/-- The first step that stops decides how all of them end. -/
theorem mapM_eq_error {ε : Type} {f : α → Except ε β} {stop : ε} {before after : List α} {a : α}
    (hbefore : ∀ b ∈ before, ∃ value, f b = .ok value) (ha : f a = .error stop) :
    (before ++ a :: after).mapM f = .error stop := by
  induction before with
  | nil =>
    rw [List.nil_append, List.mapM_cons, ha]
    rfl
  | cons b before ih =>
    obtain ⟨value, hvalue⟩ := hbefore b List.mem_cons_self
    rw [List.cons_append, List.mapM_cons, hvalue, ih fun c hc => hbefore c (List.mem_cons_of_mem _ hc)]
    rfl

/-- Steps that together give values each give one of these. -/
theorem ok_of_mapM {f : α → Result β} {l : List α} {values : List β} (h : l.mapM f = .ok values)
    {a : α} (ha : a ∈ l) : ∃ b ∈ values, f a = .ok b := by
  induction l generalizing values with
  | nil => contradiction
  | cons c l ih =>
    rw [List.mapM_cons] at h
    obtain ⟨b, hb, h⟩ := bind_eq_ok.mp h
    obtain ⟨bs, hbs, h⟩ := bind_eq_ok.mp h
    obtain rfl := Except.ok.inj h
    rcases List.mem_cons.mp ha with rfl | ha
    · exact ⟨b, List.mem_cons_self, hb⟩
    · obtain ⟨b', hmem, hb'⟩ := ih hbs ha
      exact ⟨b', List.mem_cons_of_mem _ hmem, hb'⟩

/-! ### Asking for memory -/

namespace Word

theorem yields_reserve (count : Nat) : Yields (reserve count) fun _ => count < shortageFrom := by
  unfold reserve
  split
  · trivial
  · split
    · trivial
    · rename_i h
      exact Nat.not_le.mp h

theorem lt_of_reserve {count : Nat} (h : reserve count = .ok ()) : count < shortageFrom :=
  (yields_reserve count).of_ok h

/-- A smaller buffer can be had where a larger one can. -/
theorem reserve_of_le {m n : Nat} (hle : m ≤ n) (h : reserve n = .ok ()) : reserve m = .ok () :=
  reserve_of_lt (Nat.lt_of_le_of_lt hle (lt_of_reserve h))

theorem addFor_of_lt {buffer : String} {a b : Nat} (h : a + b < bound) :
    addFor buffer a b = .ok (a + b) := if_pos h

theorem yields_addFor (buffer : String) (a b : Nat) :
    Yields (addFor buffer a b) fun sum => sum = a + b := by
  unfold addFor
  split
  · rfl
  · trivial

theorem yields_mulFor (buffer : String) (a b : Nat) :
    Yields (mulFor buffer a b) fun product => product = a * b := by
  unfold mulFor
  split
  · rfl
  · trivial

theorem lt_bound_of_mulFor {buffer : String} {a b product : Nat}
    (h : mulFor buffer a b = .ok product) : a * b < bound := by
  by_contra hlarge
  rw [mulFor, if_neg hlarge] at h
  contradiction

/-- Whatever memory holds is counted by a word. -/
theorem shortageFrom_lt_bound : shortageFrom < bound := by decide

theorem total_cons (n : Nat) (ns : List Nat) : total (n :: ns) = n + total ns := rfl

theorem le_total_of_mem {n : Nat} {ns : List Nat} (h : n ∈ ns) : n ≤ total ns := by
  induction ns with
  | nil => contradiction
  | cons m ns ih =>
    rw [total_cons]
    rcases List.mem_cons.mp h with rfl | h
    · omega
    · have := ih h
      omega

end Word

theorem Rows.yields_withRoom (rows values : Nat) :
    Yields (Rows.withRoom rows values : Result (Rows α)) fun r => r = Rows.empty := by
  apply (Word.yields_reserve _).bind
  intro _ _
  apply (Word.yields_reserve _).bind
  intro _ _
  exact yields_pure rfl

theorem Rows.reserve_of_withRoom {rows values : Nat} {r : Rows α} (h : Rows.withRoom rows values = .ok r) :
    Word.reserve (rows + 1) = .ok () ∧ Word.reserve values = .ok () := by
  obtain ⟨_, hoffsets, h⟩ := bind_eq_ok.mp h
  obtain ⟨_, hvalues, _⟩ := bind_eq_ok.mp h
  refine ⟨Word.reserve_of_lt ?_, hvalues⟩
  have hlt := Word.lt_of_reserve hoffsets
  split at hlt
  · rename_i hzero
    rw [hzero]
    decide
  · exact hlt

/-- With memory for the rows, that for the values decides. -/
theorem Rows.withRoom_eq_map {rows : Nat} (hrows : Word.reserve (rows + 1) = .ok ()) (values : Nat) :
    (Rows.withRoom rows values : Result (Rows α)) = (fun _ => Rows.empty) <$> Word.reserve values := by
  have hoffsets : (if rows = 0 then 0 else rows + 1) < Word.shortageFrom := by
    have hlt := Word.lt_of_reserve hrows
    split <;> omega
  rw [withRoom, Word.reserve_of_lt hoffsets]
  cases Word.reserve values <;> rfl

theorem Rows.withRoom_eq_ok {rows values : Nat} (hrows : rows + 1 < Word.shortageFrom)
    (hvalues : values < Word.shortageFrom) : Rows.withRoom rows values = .ok (Rows.empty : Rows α) := by
  rw [withRoom_eq_map (Word.reserve_of_lt hrows), Word.reserve_of_lt hvalues]
  rfl

/-! ### Appending to a buffer -/

/-- The step did not stop. It added `found` to the end of the buffer `out`, and what it keeps for the
next step has the property `keeps`. -/
structure Appended.Adds {σ : Type} (keeps : σ → Prop) (step : Appended α σ) (out : Array α)
    (found : List α) : Prop where
  outcome : step.outcome = .ok ()
  buffer : step.buffer = out ++ found
  state : keeps step.state

/-- The values that the step left in the buffer behind those of `out`. -/
def Appended.added {σ : Type} (step : Appended α σ) (out : Array α) : List α := step.buffer.toList.drop out.size

/-- The step keeps the values of the buffer `out` and adds to them. It may be refused, but breaks nothing. -/
structure Appended.Extends {σ : Type} (step : Appended α σ) (out : Array α) : Prop where
  buffer : ∃ found : List α, step.buffer = out ++ found
  unbroken : ∀ cause, step.outcome ≠ breach cause

namespace Appended.Extends

variable {σ : Type} {step : Appended α σ} {out : Array α}

theorem buffer_eq_append (h : step.Extends out) : step.buffer = out ++ step.added out := by
  obtain ⟨found, hfound⟩ := h.buffer
  rw [added, hfound, Array.toList_appendList, ← Array.length_toList, List.drop_left]

theorem adds (h : step.Extends out) (hok : step.outcome = .ok ()) :
    step.Adds (fun _ => True) out (step.added out) :=
  ⟨hok, h.buffer_eq_append, trivial⟩

theorem ok_or_refused (h : step.Extends out) :
    step.outcome = .ok () ∨ ∃ cause, step.outcome = refuse cause := by
  cases houtcome : step.outcome with
  | ok _ => exact .inl rfl
  | error stop =>
    cases stop with
    | refused cause => exact .inr ⟨cause, rfl⟩
    | broken cause => exact absurd houtcome (h.unbroken cause)

end Appended.Extends

end Motif
