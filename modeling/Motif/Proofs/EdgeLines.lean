import Motif.EdgeList
import Motif.Proofs.Digits
import Motif.Proofs.Lines
import Motif.Proofs.Yields

/-!
# What an edge list states

Line by line, `States` says which edge a line of text states, if it is well written, and `Offends` what is reported
of a line that is not. Every line is one or the other (`readLine_eq_ok_iff`, `readLine_eq_error_iff`), so a text
is read exactly when all its lines are well written, and otherwise the first line that is not is reported, by its
number among all lines (`read_exact`).
-/

namespace Motif.EdgeList

/-- The fields of a line: what stands before the first number sign, cut at its blanks. -/
def cells (line : List Char) : List (List Char) := Text.words (Text.before '#' line)

/-- A line without fields states no edge, and one with two numbers the edge from the first to the second. -/
inductive States (line : List Char) : Option (Nat × Nat) → Prop
  | nothing (hcells : cells line = []) : States line none
  | edge {source target : List Char} {u v : Nat} (hcells : cells line = [source, target])
      (hsource : Decimal.Spells source u) (htarget : Decimal.Spells target v) : States line (some (u, v))

/-- What is reported of a line: first a wrong number of fields, then a source that is no number, and only then such
a target. -/
inductive Offends (line : List Char) : LineFault → Prop
  | fieldCount (hsome : cells line ≠ []) (htwo : (cells line).length ≠ 2) :
      Offends line (.fieldCount (content line))
  | source {source target : List Char} {cause : Decimal.Fault} (hcells : cells line = [source, target])
      (hsource : ∀ u, ¬ Decimal.Spells source u) (hcause : Decimal.readWord source = .error cause) :
      Offends line (.source cause)
  | target {source target : List Char} {u : Nat} {cause : Decimal.Fault} (hcells : cells line = [source, target])
      (hsource : Decimal.Spells source u) (htarget : ∀ v, ¬ Decimal.Spells target v)
      (hcause : Decimal.readWord target = .error cause) : Offends line (.target cause)

variable {line text : List Char} {lines : List (List Char)} {stated : Option (Nat × Nat)} {cause : LineFault}
  {edges : List (Nat × Nat)} {fault : Fault} {number u v : Nat}

/-! ### One line -/

theorem fields_content (line : List Char) : Text.fields (content line) = cells line := by
  rw [Text.fields_eq_words, content, Text.words_trim, cells]

theorem readLine_of_states (h : States line stated) : readLine line = .ok stated := by
  rw [readLine, fields_content]
  cases h with
  | nothing hcells => rw [hcells]; rfl
  | edge hcells hsource htarget =>
    rw [hcells]
    dsimp only
    rw [Decimal.readWord_eq_ok_iff.mpr hsource, Decimal.readWord_eq_ok_iff.mpr htarget]
    rfl

theorem readLine_of_offends (h : Offends line cause) : readLine line = .error cause := by
  rw [readLine, fields_content]
  cases h with
  | fieldCount hsome htwo =>
    split
    · rename_i hcells
      exact absurd hcells hsome
    · rename_i hcells
      exact absurd (congrArg List.length hcells) htwo
    · rfl
  | source hcells _ hcause =>
    rw [hcells]
    dsimp only
    rw [hcause]
    rfl
  | target hcells hsource _ hcause =>
    rw [hcells]
    dsimp only
    rw [Decimal.readWord_eq_ok_iff.mpr hsource, hcause]
    rfl

theorem spells_or_error (field : List Char) : (∃ n, Decimal.Spells field n) ∨
    ∃ cause, (∀ n, ¬ Decimal.Spells field n) ∧ Decimal.readWord field = .error cause := by
  cases hread : Decimal.readWord field with
  | ok n => exact .inl ⟨n, Decimal.readWord_eq_ok_iff.mp hread⟩
  | error cause =>
    refine .inr ⟨cause, fun n hspells => ?_, rfl⟩
    rw [Decimal.readWord_eq_ok_iff.mpr hspells] at hread
    contradiction

/-- A line is either well written or reported. -/
theorem states_or_offends (line : List Char) :
    (∃ stated, States line stated) ∨ ∃ cause, Offends line cause := by
  by_cases hnone : cells line = []
  · exact .inl ⟨none, .nothing hnone⟩
  · by_cases htwo : (cells line).length = 2
    · obtain ⟨source, target, hcells⟩ := List.length_eq_two.mp htwo
      rcases spells_or_error source with ⟨u, hu⟩ | ⟨cause, hsource, hcause⟩
      · rcases spells_or_error target with ⟨v, hv⟩ | ⟨cause, htarget, hcause⟩
        · exact .inl ⟨_, .edge hcells hu hv⟩
        · exact .inr ⟨_, .target hcells hu htarget hcause⟩
      · exact .inr ⟨_, .source hcells hsource hcause⟩
    · exact .inr ⟨_, .fieldCount hnone htwo⟩

theorem readLine_eq_ok_iff : readLine line = .ok stated ↔ States line stated := by
  refine ⟨fun h => ?_, readLine_of_states⟩
  rcases states_or_offends line with ⟨stated', hstates⟩ | ⟨cause, hoffends⟩
  · obtain rfl := Except.ok.inj (h.symm.trans (readLine_of_states hstates))
    exact hstates
  · rw [readLine_of_offends hoffends] at h
    contradiction

theorem readLine_eq_error_iff : readLine line = .error cause ↔ Offends line cause := by
  refine ⟨fun h => ?_, readLine_of_offends⟩
  rcases states_or_offends line with ⟨stated, hstates⟩ | ⟨cause', hoffends⟩
  · rw [readLine_of_states hstates] at h
    contradiction
  · obtain rfl := Except.error.inj (h.symm.trans (readLine_of_offends hoffends))
    exact hoffends

/-! ### All lines -/

/-- Lines are read when each of them is well written, and give the edges that they state. -/
theorem readLines_eq_ok_iff : readLines number lines = .ok edges ↔
    ∃ stated, List.Forall₂ States lines stated ∧ edges = stated.flatMap Option.toList := by
  induction lines generalizing number edges with
  | nil =>
    simp only [List.forall₂_nil_left_iff, exists_eq_left, List.flatMap_nil]
    exact ⟨fun h => (Except.ok.inj h).symm, fun h => congrArg Except.ok h.symm⟩
  | cons line lines ih =>
    rw [readLines, bind_eq_ok]
    simp only [mapError_eq_ok, readLine_eq_ok_iff, bind_eq_ok, ih, List.forall₂_cons_left_iff]
    refine ⟨?_, ?_⟩
    · rintro ⟨first, hfirst, _, ⟨stated, hstated, rfl⟩, h⟩
      exact ⟨first :: stated, ⟨first, stated, hfirst, hstated, rfl⟩, (Except.ok.inj h).symm⟩
    · rintro ⟨_, ⟨first, stated, hfirst, hstated, rfl⟩, rfl⟩
      exact ⟨first, hfirst, _, ⟨stated, hstated, rfl⟩, rfl⟩

theorem states_unique {stated' : Option (Nat × Nat)} (h : States line stated) (h' : States line stated') :
    stated = stated' :=
  Except.ok.inj ((readLine_of_states h).symm.trans (readLine_of_states h'))

/-- The text has a line that states the edge. -/
def Stated (text : List Char) (edge : Nat × Nat) : Prop :=
  ∃ line ∈ Text.splitLines text, States line (some edge)

theorem mem_flatMap_toList_iff {edge : Nat × Nat} {all : List (Option (Nat × Nat))}
    (h : List.Forall₂ States lines all) :
    edge ∈ all.flatMap Option.toList ↔ ∃ line ∈ lines, States line (some edge) := by
  induction h with
  | nil => simp
  | @cons line stated lines all hstates hall ih =>
    have hline : edge ∈ stated.toList ↔ States line (some edge) := by
      rw [Option.mem_toList]
      exact ⟨fun heq => heq ▸ hstates, states_unique hstates⟩
    rw [List.flatMap_cons, List.mem_append, hline, ih, List.exists_mem_cons_iff]

/-- What is read are the edges that the text states. -/
theorem mem_iff_stated {edge : Nat × Nat} (h : read text = .ok edges) : edge ∈ edges ↔ Stated text edge := by
  rw [read, Text.lines_eq_splitLines] at h
  obtain ⟨all, hall, rfl⟩ := readLines_eq_ok_iff.mp h
  exact mem_flatMap_toList_iff hall

/-- The first line that is not well written is reported, by its number. -/
theorem readLines_eq_error_iff : readLines number lines = .error fault ↔
    ∃ before line after, lines = before ++ line :: after ∧ (∀ l ∈ before, ∃ stated, States l stated) ∧
      fault.line = number + before.length ∧ Offends line fault.cause := by
  induction lines generalizing number with
  | nil => simp [readLines, pure, Except.pure]
  | cons line lines ih =>
    rw [readLines, bind_eq_error]
    simp only [mapError_eq_error, mapError_eq_ok, readLine_eq_error_iff, readLine_eq_ok_iff, bind_eq_error, ih]
    refine ⟨?_, ?_⟩
    · rintro (⟨cause, hoffends, rfl⟩ | ⟨stated, hstates, hlater | ⟨_, _, h⟩⟩)
      · exact ⟨[], line, lines, rfl, by simp, rfl, hoffends⟩
      · obtain ⟨before, line', after, rfl, hbefore, hline, hoffends⟩ := hlater
        refine ⟨line :: before, line', after, rfl, ?_, ?_, hoffends⟩
        · exact List.forall_mem_cons.mpr ⟨⟨stated, hstates⟩, hbefore⟩
        · rw [hline, List.length_cons]
          omega
      · contradiction
    · rintro ⟨before, line', after, hlines, hbefore, hline, hoffends⟩
      cases before with
      | nil =>
        obtain ⟨rfl, rfl⟩ := List.cons.inj hlines
        exact .inl ⟨fault.cause, hoffends, by rw [Fault.mk.injEq]; exact ⟨hline.symm, rfl⟩⟩
      | cons first before =>
        obtain ⟨rfl, rfl⟩ := List.cons.inj hlines
        obtain ⟨⟨stated, hstates⟩, hbefore⟩ := List.forall_mem_cons.mp hbefore
        refine .inr ⟨stated, hstates, .inl ⟨before, line', after, rfl, hbefore, ?_, hoffends⟩⟩
        rw [hline, List.length_cons]
        omega

/-- An edge list is read when all its lines are well written, and gives the edges that they state, in their order.
Of any other text the first line that is not well written is reported, counted from one. -/
theorem read_exact (text : List Char) :
    (∀ edges, read text = .ok edges ↔ ∃ stated, List.Forall₂ States (Text.splitLines text) stated ∧
      edges = stated.flatMap Option.toList) ∧
    ∀ fault, read text = .error fault ↔ ∃ before line after, Text.splitLines text = before ++ line :: after ∧
      (∀ l ∈ before, ∃ stated, States l stated) ∧ fault.line = before.length + 1 ∧ Offends line fault.cause := by
  rw [read, Text.lines_eq_splitLines]
  refine ⟨fun edges => readLines_eq_ok_iff, fun fault => ?_⟩
  simp only [Nat.add_comm _ 1]
  exact readLines_eq_error_iff

end Motif.EdgeList
