import Mathlib.Data.List.TakeWhile
import Motif.Proofs.JsonValues

/-!
# Readers and what is written for them

A reader takes a value off the front of a text that is written as this value (`Reader.Takes`), whatever blanks stand
around it. Readers of words, of lists and of unasked values do, and an object is read field by field, from state to
state (`Fills`). In the other direction, whatever text a reader accepts, what it gives has a property of its own
(`Reader.Gives`).
-/

namespace Motif.Json

variable {α σ : Type} {reader item : Reader α} {text rest gap inside part start : List Char}
  {parts items : List (List Char)} {values : List α} {value : α} {isFirst : Bool}
  {field : σ → List Char → Except Fault (Reader σ)} {state next last : σ} {fields : List (List Char × List Char)}

/-! ### Reading what is written -/

/-- A text that starts with `text` is read as `value` up to its end. -/
structure Reader.Takes (reader : Reader α) (text : List Char) (value : α) : Prop where
  starts : Starts text
  read : ∀ gap rest, Gap gap → Ends rest → reader.read (gap ++ (text ++ rest)) = .ok (value, rest)

theorem Reader.Takes.padded {padded : List Char} (h : reader.Takes text value) (hpadded : Padded padded text)
    (hrest : Ends rest) : ∃ after, Gap after ∧ reader.read (padded ++ rest) = .ok (value, after ++ rest) := by
  obtain ⟨before, after, hbefore, hafter, hends, htext⟩ := hpadded.append hrest
  exact ⟨after, hafter, htext ▸ h.read before _ hbefore hends⟩

theorem takes_word {n : Nat} (h : n < Word.bound) : word.Takes (Decimal.render n) n := by
  refine ⟨?_, fun gap rest hgap hrest => readWord_render h hgap hrest⟩
  obtain ⟨c, tail, htext⟩ := List.exists_cons_of_ne_nil (Decimal.render_ne_nil n)
  have hc : Decimal.IsDigit c := Decimal.isDigit_of_mem_render (htext ▸ List.mem_cons_self)
  refine ⟨c, tail, htext, isBlank_of_isDigit hc, ?_⟩
  rintro rfl
  contradiction

theorem Reader.Takes.map {store : α → σ} (h : reader.Takes text value) :
    (reader.map store).Takes text (store value) := by
  refine ⟨h.starts, fun gap rest hgap hrest => ?_⟩
  show (reader.read (gap ++ (text ++ rest)) >>= _) = _
  rw [h.read gap rest hgap hrest]
  rfl

theorem takes_ignored (h : Value text) (state : σ) : (ignored state).Takes text state := by
  refine ⟨h.skipped.starts, fun gap rest hgap hrest => ?_⟩
  show (skipValue (gap ++ (text ++ rest)) >>= _) = _
  rw [skipValue_value h hgap hrest]
  rfl

/-! ### Lists -/

theorem readItems_of_none (hnext : nextItem isFirst text = .ok none) (hclose : closeList text = .ok rest) :
    readItems item isFirst text = .ok ([], rest) := by
  rw [readItems]
  split
  · rename_i heq
    cases hnext.symm.trans heq
  · rw [hclose]
    rfl
  · rename_i heq
    cases hnext.symm.trans heq

theorem readItems_of_some {after : List Char} (hnext : nextItem isFirst text = .ok (some start))
    (hread : item.read start = .ok (value, after)) (hitems : readItems item false after = .ok (values, rest)) :
    readItems item isFirst text = .ok (value :: values, rest) := by
  rw [readItems]
  split
  · rename_i heq
    cases hnext.symm.trans heq
  · rename_i heq
    cases hnext.symm.trans heq
  · rename_i heq
    cases hnext.symm.trans heq
    split
    · rename_i heq
      cases hread.symm.trans heq
    · rename_i heq
      cases hread.symm.trans heq
      rw [hitems]
      rfl

theorem nextItem_closing (hgap : Gap gap) (rest : List Char) : nextItem isFirst (gap ++ ']' :: rest) = .ok none := by
  rw [nextItem, skipBlank_gap hgap, skipBlank_cons (by decide)]
  rfl

theorem nextItem_first (h : skipBlank text = start) (hstart : Starts start) :
    nextItem true text = .ok (some start) := by
  obtain ⟨c, tail, rfl, _, hclosing⟩ := hstart
  rw [nextItem, h]
  exact if_neg hclosing

theorem nextItem_comma (hgap : Gap gap) (h : skipBlank text = start) (hstart : Starts start) :
    nextItem false (gap ++ ',' :: text) = .ok (some start) := by
  obtain ⟨c, tail, rfl, _, hclosing⟩ := hstart
  rw [nextItem, skipBlank_gap hgap, skipBlank_cons (by decide)]
  dsimp only
  rw [if_neg (by decide), if_neg (by decide), if_pos rfl, h]
  exact if_neg hclosing

theorem Starts.append (h : Starts text) (rest : List Char) : Starts (text ++ rest) := by
  obtain ⟨c, tail, rfl, hblank, hclosing⟩ := h
  exact ⟨c, tail ++ rest, rfl, hblank, hclosing⟩

/-- After one of its values, all others and the end of the list are read. -/
theorem readItems_parts (hparts : List.Forall₂ Padded parts items) (hitems : List.Forall₂ item.Takes items values)
    (hgap : Gap gap) :
    readItems item false (gap ++ (parts.flatMap (',' :: ·) ++ ']' :: rest)) = .ok (values, rest) := by
  induction hparts generalizing values gap with
  | nil =>
    cases hitems
    exact readItems_of_none (nextItem_closing hgap rest) (skipMark_gap hgap (by decide) rest)
  | @cons part text parts items hpart _ ih =>
    cases hitems with
    | @cons _ value _ values htakes hitems =>
      obtain ⟨after, hafter, hblank⟩ := skipBlank_padded hpart htakes.starts
      rw [List.flatMap_cons, List.append_assoc, List.cons_append]
      refine readItems_of_some (nextItem_comma hgap (hblank _) (htakes.starts.append _)) ?_ (ih hitems hafter)
      exact htakes.read [] _ gap_nil (ends_append hafter (ends_flatMap parts (.inl rfl) rest))

theorem readItems_inside (hinside : Inside Padded inside items) (hitems : List.Forall₂ item.Takes items values) :
    readItems item true (inside ++ ']' :: rest) = .ok (values, rest) := by
  cases hinside with
  | blank hgap =>
    cases hitems
    exact readItems_of_none (nextItem_closing hgap rest) (skipMark_gap hgap (by decide) rest)
  | @pieces part parts text items hpieces =>
    obtain ⟨hpart, hparts⟩ := List.forall₂_cons.mp hpieces
    cases hitems with
    | @cons _ value _ values htakes hitems =>
      obtain ⟨after, hafter, hblank⟩ := skipBlank_padded hpart htakes.starts
      rw [commas_cons, List.append_assoc]
      refine readItems_of_some (nextItem_first (hblank _) (htakes.starts.append _)) ?_
        (readItems_parts hparts hitems hafter)
      exact htakes.read [] _ gap_nil (ends_append hafter (ends_flatMap parts (.inl rfl) rest))

theorem takes_list (h : ListText text items) (hitems : List.Forall₂ item.Takes items values) :
    (list item).Takes text values := by
  obtain ⟨inside, hinside, rfl⟩ := h
  refine ⟨⟨'[', _, rfl, by decide⟩, fun gap rest hgap hrest => ?_⟩
  show readList item _ = _
  rw [List.cons_append, List.append_assoc, List.singleton_append, readList, skipBlank_gap hgap,
    skipBlank_cons (by decide)]
  exact readItems_inside hinside hitems

/-! ### Names -/

theorem readChoice_spelling {choices : List (List Char × α)} {name : List Char} (h : Spelling true text name)
    (hchoice : choices.lookup name = some value) (rest : List Char) :
    readChoice choices (text ++ '"' :: rest) = .ok (value, rest) := by
  refine bind_eq_ok.mpr ⟨(name, rest), readString_spelling h rest, ?_⟩
  dsimp only
  rw [hchoice]
  rfl

theorem readNull_padded {padded : List Char} (h : Padded padded "null".toList) (rest : List Char) :
    ∃ after, Gap after ∧ readNull (padded ++ rest) = .ok (after ++ rest) := by
  obtain ⟨after, hafter, hblank⟩ := skipBlank_padded h ⟨'n', _, rfl, by decide⟩
  refine ⟨after, hafter, ?_⟩
  rw [readNull, hblank]
  rfl

theorem readName_object {choices : List (List Char × α)} {quoted : List Char} (hobject : skipBlank text = '{' :: inside)
    (hquote : skipBlank inside = '"' :: quoted) :
    readName choices text = (do
      let (value, rest) ← readChoice choices quoted
      let rest ← skipMark ':' rest
      let rest ← readNull rest
      return (value, ← skipMark '}' rest)) := by
  simp only [readName, hobject, hquote]

theorem takes_name {choices : List (List Char × α)} {chosen : List Char} (h : NameText text chosen)
    (hchoice : choices.lookup chosen = some value) : (name choices).Takes text value := by
  cases h with
  | @string spelled _ h =>
    refine ⟨⟨'"', _, rfl, by decide⟩, fun gap rest hgap hrest => ?_⟩
    show readName choices _ = _
    rw [List.cons_append, List.append_assoc, List.singleton_append, readName, skipBlank_gap hgap,
      skipBlank_cons (by decide)]
    exact readChoice_spelling h hchoice rest
  | object h =>
    obtain ⟨inside, hinside, rfl⟩ := h
    refine ⟨⟨'{', _, rfl, by decide⟩, fun gap rest hgap hrest => ?_⟩
    cases hinside with
    | @pieces part parts _ _ hpieces =>
      obtain ⟨hpart, hparts⟩ := List.forall₂_cons.mp hpieces
      cases hparts
      obtain ⟨before, spelled, middle, padded, hbefore, hname, hmiddle, hpadded, rfl⟩ := hpart
      obtain ⟨after, hafter, hnull⟩ := readNull_padded hpadded ('}' :: rest)
      have hquote : skipBlank (before ++ '"' :: (spelled ++ '"' :: (middle ++ ':' :: (padded ++ '}' :: rest)))) =
          '"' :: (spelled ++ '"' :: (middle ++ ':' :: (padded ++ '}' :: rest))) := by
        rw [skipBlank_gap hbefore, skipBlank_cons (by decide)]
      show readName choices _ = _
      rw [commas_cons, List.flatMap_nil, List.append_nil]
      simp only [List.append_assoc, List.cons_append, List.nil_append]
      rw [readName_object (by rw [skipBlank_gap hgap, skipBlank_cons (by decide)]) hquote,
        readChoice_spelling hname hchoice]
      show (skipMark ':' (middle ++ ':' :: (padded ++ '}' :: rest)) >>= _) = _
      rw [skipMark_gap hmiddle (by decide)]
      show (readNull (padded ++ '}' :: rest) >>= _) = _
      rw [hnull]
      show (skipMark '}' (after ++ '}' :: rest) >>= _) = _
      rw [skipMark_gap hafter (by decide)]
      rfl

/-! ### Objects -/

/-- The values of the fields, read one after another, lead from one state to another. -/
inductive Fills (field : σ → List Char → Except Fault (Reader σ)) : σ → List (List Char × List Char) → σ → Prop where
  | nil {state : σ} : Fills field state [] state
  | cons {state next last : σ} {reader : Reader σ} {name value : List Char} {fields : List (List Char × List Char)}
      (hfield : field state name = .ok reader) (htakes : reader.Takes value next)
      (hfills : Fills field next fields last) : Fills field state ((name, value) :: fields) last

theorem readFields_of_none (hnext : nextField isFirst text = .ok none) (hclose : skipMark '}' text = .ok rest) :
    readFields field state isFirst text = .ok (state, rest) := by
  rw [readFields]
  split
  · rename_i heq
    cases hnext.symm.trans heq
  · rw [hclose]
    rfl
  · rename_i heq
    cases hnext.symm.trans heq

theorem readFields_of_some {reader : Reader σ} {name after value after' : List Char}
    (hnext : nextField isFirst text = .ok (some start)) (hname : readString true start = .ok (name, after))
    (hfield : field state name = .ok reader) (hcolon : skipMark ':' after = .ok value)
    (hread : reader.read value = .ok (next, after')) :
    readFields field state isFirst text = readFields field next false after' := by
  rw [readFields]
  split
  · rename_i heq
    cases hnext.symm.trans heq
  · rename_i heq
    cases hnext.symm.trans heq
  · rename_i heq
    cases hnext.symm.trans heq
    split
    · rename_i heq
      cases hname.symm.trans heq
    · rename_i heq
      cases hname.symm.trans heq
      rw [hfield]
      dsimp only
      split
      · rename_i heq
        cases hcolon.symm.trans heq
      · rename_i heq
        cases hcolon.symm.trans heq
        split
        · rename_i heq
          cases hread.symm.trans heq
        · rename_i heq
          cases hread.symm.trans heq
          rfl

theorem nextField_closing (hgap : Gap gap) (rest : List Char) :
    nextField isFirst (gap ++ '}' :: rest) = .ok none := by
  rw [nextField, skipBlank_gap hgap, skipBlank_cons (by decide)]
  rfl

theorem nextField_first (hgap : Gap gap) (rest : List Char) :
    nextField true (gap ++ '"' :: rest) = .ok (some rest) := by
  rw [nextField, skipBlank_gap hgap, skipBlank_cons (by decide)]
  rfl

theorem nextField_comma (hgap : Gap gap) {gap' : List Char} (hgap' : Gap gap') (rest : List Char) :
    nextField false (gap ++ ',' :: (gap' ++ '"' :: rest)) = .ok (some rest) := by
  rw [nextField, skipBlank_gap hgap, skipBlank_cons (by decide)]
  show (skipMark '"' (gap' ++ '"' :: rest) >>= _) = _
  rw [skipMark_gap hgap' (by decide)]
  rfl

/-- One field is read: `front` is what stands in front of it. -/
theorem readFields_fieldText (front : List Char) {reader : Reader σ} {name value : List Char}
    (h : FieldText true part (name, value))
    (hnext : ∀ gap rest, Gap gap → nextField isFirst (front ++ (gap ++ '"' :: rest)) = .ok (some rest))
    (hfield : field state name = .ok reader) (htakes : reader.Takes value next) (hrest : Ends rest) :
    ∃ after, Gap after ∧
      readFields field state isFirst (front ++ (part ++ rest)) = readFields field next false (after ++ rest) := by
  obtain ⟨before, spelled, middle, padded, hbefore, hname, hmiddle, hpadded, rfl⟩ := h
  obtain ⟨after, hafter, hread⟩ := htakes.padded hpadded hrest
  refine ⟨after, hafter, ?_⟩
  simp only [List.append_assoc, List.cons_append]
  exact readFields_of_some (hnext before _ hbefore) (readString_spelling hname _) hfield
    (skipMark_gap hmiddle (by decide) _) hread

/-- After one of its fields, all others and the end of the object are read. -/
theorem readFields_parts (hparts : List.Forall₂ (FieldText true) parts fields)
    (hfills : Fills field state fields last) (hgap : Gap gap) :
    readFields field state false (gap ++ (parts.flatMap (',' :: ·) ++ '}' :: rest)) = .ok (last, rest) := by
  induction hparts generalizing state gap with
  | nil =>
    cases hfills
    exact readFields_of_none (nextField_closing hgap rest) (skipMark_gap hgap (by decide) rest)
  | @cons part _ parts fields hpart _ ih =>
    cases hfills with
    | cons hfield htakes hfills =>
      have hnext : ∀ gap' rest, Gap gap' →
          nextField false ((gap ++ [',']) ++ (gap' ++ '"' :: rest)) = .ok (some rest) := by
        intro gap' rest hgap'
        rw [List.append_assoc, List.singleton_append]
        exact nextField_comma hgap hgap' rest
      obtain ⟨after, hafter, hread⟩ :=
        readFields_fieldText _ hpart hnext hfield htakes (ends_flatMap parts (.inr rfl) rest)
      rw [List.append_assoc, List.singleton_append] at hread
      rw [List.flatMap_cons, List.append_assoc, List.cons_append, hread, ih hfills hafter]

theorem readFields_inside (hinside : Inside (FieldText true) inside fields) (hfills : Fills field state fields last) :
    readFields field state true (inside ++ '}' :: rest) = .ok (last, rest) := by
  cases hinside with
  | blank hgap =>
    cases hfills
    exact readFields_of_none (nextField_closing hgap rest) (skipMark_gap hgap (by decide) rest)
  | @pieces part parts _ fields hpieces =>
    obtain ⟨hpart, hparts⟩ := List.forall₂_cons.mp hpieces
    cases hfills with
    | cons hfield htakes hfills =>
      obtain ⟨after, hafter, hread⟩ := readFields_fieldText [] hpart
        (fun gap rest hgap => nextField_first hgap rest) hfield htakes (ends_flatMap parts (.inr rfl) rest)
      rw [commas_cons, List.append_assoc]
      exact hread.trans (readFields_parts hparts hfills hafter)

/-! ### Whole texts -/

theorem atEnd_eq_ok_iff {rest : List Char} : atEnd rest = .ok () ↔ Gap rest := by
  have hblank : skipBlank rest = [] ↔ Gap rest := List.dropWhile_eq_nil_iff
  rw [← hblank, atEnd]
  cases skipBlank rest <;> simp

/-! ### What readers give -/

/-- Whatever the reader accepts, it gives a value with the property `post`. -/
def Reader.Gives (reader : Reader α) (post : α → Prop) : Prop :=
  ∀ text value rest, reader.read text = .ok (value, rest) → post value

variable {post : α → Prop}

theorem gives_word : word.Gives (· < Word.bound) := by
  intro text n rest h
  change readWord text = _ at h
  rw [readWord] at h
  split at h
  · contradiction
  · split at h
    · obtain ⟨⟨numeral, _⟩, _, h⟩ := bind_eq_ok.mp h
      obtain ⟨_, hvalue, h⟩ := bind_eq_ok.mp h
      cases h
      rw [Numeral.value] at hvalue
      split at hvalue
      · contradiction
      · split at hvalue
        · contradiction
        · split at hvalue
          · rename_i hlt
            obtain rfl := Except.ok.inj hvalue
            exact hlt
          · contradiction
    · contradiction

theorem gives_list (h : item.Gives post) : (list item).Gives fun values => ∀ value ∈ values, post value := by
  have hitems : ∀ isFirst text values rest, readItems item isFirst text = .ok (values, rest) →
      ∀ value ∈ values, post value := by
    intro isFirst text
    fun_induction readItems item isFirst text with
    | case1 => simp
    | case2 isFirst text =>
      intro values rest hread
      obtain ⟨_, _, hread⟩ := bind_eq_ok.mp hread
      cases hread
      simp
    | case3 => simp
    | case4 isFirst text start _ value after hvalue ih =>
      intro values rest hread
      obtain ⟨⟨values, _⟩, hitems, hread⟩ := bind_eq_ok.mp hread
      cases hread
      exact List.forall_mem_cons.mpr ⟨h _ _ _ hvalue, ih _ _ hitems⟩
  intro text values rest hread
  change readList item text = _ at hread
  rw [readList] at hread
  split at hread
  · contradiction
  · split at hread
    · exact hitems _ _ _ _ hread
    · contradiction

theorem Reader.Gives.map {post' : σ → Prop} {store : α → σ} (h : reader.Gives post)
    (himp : ∀ value, post value → post' (store value)) : (reader.map store).Gives post' := by
  intro text value rest hread
  obtain ⟨⟨value, _⟩, hvalue, hread⟩ := bind_eq_ok.mp hread
  cases hread
  exact himp _ (h _ _ _ hvalue)

theorem gives_ignored {post : σ → Prop} (h : post state) : (ignored state).Gives post := by
  intro text value rest hread
  obtain ⟨_, _, hread⟩ := bind_eq_ok.mp hread
  cases hread
  exact h

/-- What every field keeps of the state holds of the last one. -/
theorem readFields_gives {post : σ → Prop}
    (hfield : ∀ state name reader, post state → field state name = .ok reader → reader.Gives post)
    (hstate : post state) (h : readFields field state isFirst text = .ok (last, rest)) : post last := by
  fun_induction readFields field state isFirst text with
  | case1 => contradiction
  | case2 state isFirst text =>
    obtain ⟨_, _, h⟩ := bind_eq_ok.mp h
    cases h
    exact hstate
  | case3 => contradiction
  | case4 => contradiction
  | case5 => contradiction
  | case6 => contradiction
  | case7 state isFirst text start _ name after _ reader hreader value _ next after' hread ih =>
    exact ih (hfield _ _ _ hstate hreader _ _ _ hread) h

end Motif.Json
