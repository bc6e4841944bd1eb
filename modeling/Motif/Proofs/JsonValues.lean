import Motif.Proofs.JsonNumbers

/-!
# Passing over what is well written

A value that nobody asked for is passed over to its end, whatever brackets it stands in (`Value.skipped`). The proof
goes along the form of the value. What has to hold of the pieces inside of a bracket is the same for lists and for
objects, once the name of a field is taken for a part of entering it (`Bracket.Holds`).
-/

namespace Motif.Json

variable {text rest gap inside part value : List Char} {parts values : List (List Char)} {brackets : List Bracket}
  {b : Bracket}

/-! ### Values without parts -/

theorem NumberText.head (h : NumberText text) : ∃ c tail, text = c :: tail ∧ (c = '-' ∨ Decimal.IsDigit c) := by
  obtain ⟨sign, whole, fraction, exponent, rfl, hsign, ⟨⟨hne, hdigits⟩, _⟩, _⟩ := h
  obtain ⟨c, tail, rfl⟩ := List.exists_cons_of_ne_nil hne
  rcases hsign with rfl | rfl
  · exact ⟨c, _, rfl, .inr (hdigits c List.mem_cons_self)⟩
  · exact ⟨'-', _, rfl, .inl rfl⟩

theorem skipScalar_numberText (h : NumberText text) (hrest : Ends rest) : skipScalar (text ++ rest) = .ok rest := by
  obtain ⟨numeral, hscan⟩ := scanNumeral_numberText .malformed h hrest
  obtain ⟨c, tail, rfl, hc⟩ := h.head
  have hother : c ≠ 'n' ∧ c ≠ 't' ∧ c ≠ 'f' ∧ c ≠ '"' := by
    refine ⟨?_, ?_, ?_, ?_⟩ <;> (rintro rfl; revert hc; decide)
  have hnumber : c = '-' ∨ (Decimal.digit? c).isSome = true :=
    hc.imp_right fun h => by rw [Decimal.digit?_of_isDigit h]; rfl
  rw [List.cons_append] at hscan ⊢
  rw [skipScalar, if_neg hother.1, if_neg hother.2.1, if_neg hother.2.2.1, if_neg hother.2.2.2, if_pos hnumber, hscan]
  rfl

theorem skipScalar_scalar (h : Scalar text) (hrest : Ends rest) : skipScalar (text ++ rest) = .ok rest := by
  cases h with
  | name h =>
    simp only [List.mem_cons, List.not_mem_nil, or_false] at h
    rcases h with rfl | rfl | rfl <;> rfl
  | @string text content h =>
    have hstring := readString_spelling h rest
    rw [List.cons_append, List.append_assoc, List.singleton_append, skipScalar, if_neg (by decide),
      if_neg (by decide), if_neg (by decide), if_pos rfl, hstring]
    rfl
  | number h => exact skipScalar_numberText h hrest

theorem Scalar.head (h : Scalar text) :
    ∃ c tail, text = c :: tail ∧ isBlank c = false ∧ c ≠ '[' ∧ c ≠ '{' ∧ c ≠ ']' := by
  cases h with
  | name h =>
    simp only [List.mem_cons, List.not_mem_nil, or_false] at h
    rcases h with rfl | rfl | rfl
    · exact ⟨'n', _, rfl, by decide⟩
    · exact ⟨'t', _, rfl, by decide⟩
    · exact ⟨'f', _, rfl, by decide⟩
  | string h => exact ⟨'"', _, rfl, by decide⟩
  | number h =>
    obtain ⟨c, tail, rfl, hc⟩ := h.head
    have hbracket : ¬ (c = '[' ∨ c = '{' ∨ c = ']') := by
      rintro (rfl | rfl | rfl) <;> revert hc <;> decide
    refine ⟨c, tail, rfl, ?_, by tauto⟩
    rcases hc with rfl | hc
    · rfl
    · exact isBlank_of_isDigit hc

/-! ### Reading on -/

/-- Reads on after a value to the end of all that the brackets enclose. -/
def resume (brackets : List Bracket) (text : List Char) : Except Fault (List Char) :=
  match afterValue brackets text with
  | .error fault => .error fault
  | .ok ([], rest) => .ok rest
  | .ok (bracket :: brackets, rest) => skipNested (bracket :: brackets) rest

theorem resume_nil (text : List Char) : resume [] text = .ok text := rfl

/-- The text is passed over as a value, in whatever brackets. -/
structure Skipped (text : List Char) : Prop where
  starts : Starts text
  skip : ∀ brackets gap rest, Gap gap → Ends rest → skipNested brackets (gap ++ (text ++ rest)) = resume brackets rest

theorem skipNested_of_afterValue (h : beginValue brackets text = afterValue brackets rest) :
    skipNested brackets text = resume brackets rest := by
  rw [skipNested, resume, ← h]
  split <;> rename_i heq <;> rw [heq]

theorem skipNested_of_ok (h : beginValue brackets text = .ok (b :: brackets, rest)) :
    skipNested brackets text = skipNested (b :: brackets) rest := by
  rw [skipNested]
  split
  · rename_i heq
    cases h.symm.trans heq
  · rename_i heq
    cases h.symm.trans heq
  · rename_i heq
    cases h.symm.trans heq
    rfl

theorem Scalar.skipped (h : Scalar text) : Skipped text := by
  obtain ⟨c, tail, htext, hblank, hlist, hobject, hclosing⟩ := h.head
  refine ⟨⟨c, tail, htext, hblank, hclosing⟩, fun brackets gap rest hgap hrest => ?_⟩
  apply skipNested_of_afterValue
  have hskip := skipScalar_scalar h hrest
  rw [htext, List.cons_append] at hskip
  rw [htext, List.cons_append, beginValue, skipBlank_gap hgap, skipBlank_cons hblank]
  split
  · contradiction
  · rename_i heq
    exact absurd (List.cons.inj heq).1 hlist
  · rename_i heq
    exact absurd (List.cons.inj heq).1 hobject
  · rw [hskip]
    rfl

/-! ### Values with parts -/

namespace Bracket

def opening : Bracket → Char
  | list => '['
  | object => '{'

def closing : Bracket → Char
  | list => ']'
  | object => '}'

theorem closing_eq (b : Bracket) : b.closing = ']' ∨ b.closing = '}' := by
  cases b
  · exact .inl rfl
  · exact .inr rfl

/-- What comes before a value inside of the bracket: in an object, the name of the field. -/
def enter : Bracket → List Char → Except Fault (List Char)
  | list => .ok
  | object => skipName

/-- Inside of the bracket, `part` is a piece with the given value. -/
structure Holds (b : Bracket) (part value : List Char) : Prop where
  starts : ∀ rest, ∃ c tail, skipBlank (part ++ rest) = c :: tail ∧ c ≠ b.closing
  enters : ∃ padded, Padded padded value ∧ ∀ rest, b.enter (part ++ rest) = .ok (padded ++ rest)

theorem holds_of_padded (h : Padded part value) (hvalue : Starts value) : list.Holds part value := by
  refine ⟨fun rest => ?_, part, h, fun rest => rfl⟩
  obtain ⟨after, _, hblank⟩ := skipBlank_padded h hvalue
  obtain ⟨c, tail, rfl, _, hclosing⟩ := hvalue
  exact ⟨c, _, hblank rest, hclosing⟩

theorem holds_of_fieldText {field : List Char × List Char} (h : FieldText false part field) :
    object.Holds part field.2 := by
  obtain ⟨before, name, middle, padded, hbefore, hname, hmiddle, hpadded, rfl⟩ := h
  refine ⟨fun rest => ⟨'"', name ++ '"' :: (middle ++ ':' :: padded) ++ rest, ?_, by decide⟩, padded, hpadded,
    fun rest => ?_⟩
  · rw [List.append_assoc, skipBlank_gap hbefore, List.cons_append, skipBlank_cons (by decide)]
  · show skipName _ = _
    simp only [List.append_assoc, List.cons_append]
    rw [skipName, skipMark_gap hbefore (by decide)]
    show (readString false (name ++ '"' :: (middle ++ ':' :: (padded ++ rest))) >>= _) = _
    rw [readString_spelling hname]
    exact skipMark_gap hmiddle (by decide) _

theorem afterValue_comma (hgap : Gap gap) {entered : List Char} (h : b.enter rest = .ok entered) :
    afterValue (b :: brackets) (gap ++ ',' :: rest) = .ok (b :: brackets, entered) := by
  have hblank : skipBlank (gap ++ ',' :: rest) = ',' :: rest := by
    rw [skipBlank_gap hgap, skipBlank_cons (by decide)]
  cases b with
  | list =>
    obtain rfl := Except.ok.inj h
    rw [afterValue, hblank]
    rfl
  | object =>
    rw [afterValue, hblank]
    show (skipName rest >>= _) = _
    rw [show skipName rest = .ok entered from h]
    rfl

theorem afterValue_closing (hgap : Gap gap) :
    afterValue (b :: brackets) (gap ++ b.closing :: rest) = afterValue brackets rest := by
  cases b with
  | list =>
    rw [afterValue, closing, skipBlank_gap hgap, skipBlank_cons (by decide)]
    rfl
  | object =>
    rw [afterValue, closing, skipBlank_gap hgap, skipBlank_cons (by decide)]
    rfl

theorem beginValue_closing (hgap : Gap gap) {gap' : List Char} (hgap' : Gap gap') :
    beginValue brackets (gap ++ b.opening :: (gap' ++ b.closing :: rest)) = afterValue brackets rest := by
  have hopening : skipBlank (gap ++ b.opening :: (gap' ++ b.closing :: rest)) =
      b.opening :: (gap' ++ b.closing :: rest) := by
    rw [skipBlank_gap hgap, skipBlank_cons (by cases b <;> decide)]
  have hclosing : skipBlank (gap' ++ b.closing :: rest) = b.closing :: rest := by
    rw [skipBlank_gap hgap', skipBlank_cons (by cases b <;> decide)]
  rw [beginValue, hopening]
  cases b with
  | list =>
    simp only [opening, closing] at hclosing ⊢
    rw [hclosing]
    rfl
  | object =>
    simp only [opening, closing] at hclosing ⊢
    rw [hclosing]
    rfl

theorem beginValue_opening (hgap : Gap gap) {c : Char} {tail entered : List Char}
    (hblank : skipBlank rest = c :: tail) (hc : c ≠ b.closing) (h : b.enter rest = .ok entered) :
    beginValue brackets (gap ++ b.opening :: rest) = .ok (b :: brackets, entered) := by
  have hopening : skipBlank (gap ++ b.opening :: rest) = b.opening :: rest := by
    rw [skipBlank_gap hgap, skipBlank_cons (by cases b <;> decide)]
  rw [beginValue, hopening]
  cases b with
  | list =>
    obtain rfl := Except.ok.inj h
    simp only [opening]
    rw [hblank]
    split
    · rename_i heq
      exact absurd (List.cons.inj heq).1 hc
    · rfl
  | object =>
    simp only [opening]
    rw [hblank]
    split
    · rename_i heq
      exact absurd (List.cons.inj heq).1 hc
    · rw [show skipName rest = .ok entered from h]
      rfl

end Bracket

/-- A value inside of a bracket is passed over, with the blanks around it. -/
theorem Skipped.padded (brackets : List Bracket) {padded : List Char} (h : Skipped value)
    (hpadded : Padded padded value) (hrest : Ends rest) :
    ∃ after, Gap after ∧ skipNested brackets (padded ++ rest) = resume brackets (after ++ rest) := by
  obtain ⟨before, after, hbefore, hafter, hends, htext⟩ := hpadded.append hrest
  exact ⟨after, hafter, htext ▸ h.skip brackets before _ hbefore hends⟩

/-- After one of its values, all others and the end of the bracket are passed over. -/
theorem resume_parts (hparts : List.Forall₂ b.Holds parts values) (hvalues : ∀ value ∈ values, Skipped value)
    (hgap : Gap gap) :
    resume (b :: brackets) (gap ++ (parts.flatMap (',' :: ·) ++ b.closing :: rest)) = resume brackets rest := by
  induction hparts generalizing gap with
  | nil =>
    rw [resume, List.flatMap_nil, List.nil_append, Bracket.afterValue_closing hgap, resume]
  | @cons part value parts values hpart _ ih =>
    obtain ⟨hvalue, hvalues⟩ := List.forall_mem_cons.mp hvalues
    obtain ⟨padded, hpadded, henters⟩ := hpart.enters
    obtain ⟨after, hafter, hskip⟩ :=
      hvalue.padded (b :: brackets) hpadded (ends_flatMap parts b.closing_eq rest)
    rw [List.flatMap_cons, List.append_assoc, List.cons_append, resume, Bracket.afterValue_comma hgap (henters _)]
    dsimp only
    rw [hskip, ih hvalues hafter]

theorem skipped_of_inside (hinside : Inside b.Holds inside values) (hvalues : ∀ value ∈ values, Skipped value) :
    Skipped (b.opening :: (inside ++ [b.closing])) := by
  have hstarts : Starts (b.opening :: (inside ++ [b.closing])) := by
    refine ⟨b.opening, _, rfl, ?_⟩
    cases b <;> decide
  refine ⟨hstarts, fun brackets gap rest hgap hrest => ?_⟩
  rw [List.cons_append, List.append_assoc, List.singleton_append]
  cases hinside with
  | blank hblank => exact skipNested_of_afterValue (Bracket.beginValue_closing hgap hblank)
  | @pieces part parts value values hpieces =>
    obtain ⟨hpart, hparts⟩ := List.forall₂_cons.mp hpieces
    obtain ⟨hvalue, hvalues⟩ := List.forall_mem_cons.mp hvalues
    obtain ⟨padded, hpadded, henters⟩ := hpart.enters
    obtain ⟨after, hafter, hskip⟩ :=
      hvalue.padded (b :: brackets) hpadded (ends_flatMap parts b.closing_eq rest)
    rw [commas_cons, List.append_assoc]
    obtain ⟨c, tail, hblank, hc⟩ := hpart.starts (parts.flatMap (',' :: ·) ++ b.closing :: rest)
    rw [skipNested_of_ok (Bracket.beginValue_opening hgap hblank hc (henters _)), hskip,
      resume_parts hparts hvalues hafter]

section Map

variable {α β : Type} {piece : List Char → α → Prop} {piece' : List Char → β → Prop} {items : List α} {f : α → β}

theorem forall₂_map_of_mem (h : List.Forall₂ piece parts items)
    (himp : ∀ part, ∀ item ∈ items, piece part item → piece' part (f item)) :
    List.Forall₂ piece' parts (items.map f) := by
  induction h with
  | nil => exact .nil
  | cons hpiece _ ih =>
    refine .cons (himp _ _ List.mem_cons_self hpiece) (ih fun part item hitem => ?_)
    exact himp part item (List.mem_cons_of_mem _ hitem)

theorem Inside.map (h : Inside piece inside items)
    (himp : ∀ part, ∀ item ∈ items, piece part item → piece' part (f item)) :
    Inside piece' inside (items.map f) := by
  cases h with
  | blank hgap => exact .blank hgap
  | pieces hpieces => exact .pieces (forall₂_map_of_mem hpieces himp)

end Map

/-- Whatever is well written is passed over. -/
theorem Value.skipped (h : Value text) : Skipped text := by
  induction h with
  | scalar h => exact h.skipped
  | @list text items h _ ih =>
    obtain ⟨inside, hinside, rfl⟩ := h
    have hholds := hinside.map (f := id) fun part item hitem hpart =>
      Bracket.holds_of_padded hpart (ih item hitem).starts
    rw [List.map_id] at hholds
    exact skipped_of_inside hholds ih
  | @object text fields h _ ih =>
    obtain ⟨inside, hinside, rfl⟩ := h
    have hholds := hinside.map fun part field _ hpart => Bracket.holds_of_fieldText hpart
    refine skipped_of_inside hholds fun value hvalue => ?_
    obtain ⟨field, hfield, rfl⟩ := List.mem_map.mp hvalue
    exact ih field hfield

/-- A value that is well written is passed over to its end. -/
theorem skipValue_value (h : Value text) (hgap : Gap gap) (hrest : Ends rest) :
    skipValue (gap ++ (text ++ rest)) = .ok rest :=
  (h.skipped.skip [] gap rest hgap hrest).trans (resume_nil rest)

end Motif.Json
