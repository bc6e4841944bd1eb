import Motif.Pattern.Json
import Motif.Proofs.Fronts
import Motif.Proofs.JsonReaders
import Motif.Proofs.Yields

/-!
# Patterns as texts

A text that states lists of positions makes the pattern that these lists make, or is turned down for what is wrong
with them (`ofJson_states`). It makes no difference that it has other fields, or blanks, or spells a name with escapes.
A pattern is written as such a text (`states_toJson`), so it is read back. And no text makes a pattern in any other way
than through the check of its lists (`ofJson_exact`).
-/

namespace Motif.Pattern

variable {text : List Char} {lists : List (List Nat)} {p : Pattern}

/-! ### Lists that are checked -/

theorem required_of_arrangeAll {i : Nat} {arranged : List (List Nat)} (h : arrangeAll i lists = .ok arranged) :
    arranged = lists.map Sorted.sort := by
  induction lists generalizing i arranged with
  | nil => exact (Except.ok.inj h).symm
  | cons l lists ih =>
    obtain ⟨first, rest, hfirst, hrest, rfl⟩ := arrangeAll_cons h
    have hsort : first = Sorted.sort l := by
      rw [arrange] at hfirst
      split at hfirst
      · contradiction
      · split at hfirst
        · contradiction
        · split at hfirst
          · contradiction
          · exact (Except.ok.inj hfirst).symm
    rw [hsort, ih hrest, List.map_cons]

/-- The lists of a pattern are those that it was made from, put in order. -/
theorem required_of_ofLists (h : ofLists lists = .ok p) : p.required = lists.map Sorted.sort := by
  cases lists with
  | nil => contradiction
  | cons l lists =>
    rw [ofLists] at h
    split at h
    · contradiction
    · rename_i harranged
      obtain rfl := Except.ok.inj h
      exact required_of_arrangeAll harranged

/-- The first position requires none. -/
theorem required_zero (p : Pattern) : p.required[0]? = some [] := by
  obtain ⟨l, lists, hrequired⟩ := List.exists_cons_of_ne_nil p.nonempty
  have hl : p.required[0]? = some l := by
    rw [hrequired]
    rfl
  rw [hl, List.eq_nil_iff_forall_not_mem.mpr fun position hposition =>
    Nat.not_lt_zero position ((p.admissible 0 l hl).earlier position hposition)]

theorem ofLists_required (p : Pattern) : ofLists p.required = .ok p :=
  ofLists_of_admissible p.nonempty p.admissible

/-! ### Texts that state lists -/

/-- Every position is a number that a machine word can hold. -/
def HoldsWords (lists : List (List Nat)) : Prop := ∀ l ∈ lists, ∀ position ∈ l, position < Word.bound

instance : DecidablePred HoldsWords := fun lists =>
  haveI : DecidablePred fun l : List Nat => ∀ position ∈ l, position < Word.bound := fun l => List.decidableBAll _ l
  List.decidableBAll _ lists

/-- A list of machine words. -/
def WordsText (text : List Char) (words : List Nat) : Prop :=
  Json.ListText text (words.map Decimal.render) ∧ ∀ n ∈ words, n < Word.bound

def ListsText (text : List Char) (lists : List (List Nat)) : Prop :=
  ∃ items, Json.ListText text items ∧ List.Forall₂ WordsText items lists

/-- The text is an object with one field `required`, whatever else it has, or a list of one value, and the value there
is the given lists. -/
inductive States : List Char → List (List Nat) → Prop where
  | object {before after text value : List Char} {former later : List (List Char × List Char)}
      {lists : List (List Nat)} (hbefore : Json.Gap before) (hafter : Json.Gap after)
      (htext : Json.ObjectText true text (former ++ ("required".toList, value) :: later))
      (hothers : ∀ other ∈ former ++ later, other.1 ≠ "required".toList ∧ Json.Value other.2)
      (hvalue : ListsText value lists) : States (before ++ (text ++ after)) lists
  | list {before after text value : List Char} {lists : List (List Nat)} (hbefore : Json.Gap before)
      (hafter : Json.Gap after) (htext : Json.ListText text [value]) (hvalue : ListsText value lists) :
      States (before ++ (text ++ after)) lists

theorem takes_words {words : List Nat} (h : WordsText text words) : (Json.list Json.word).Takes text words := by
  refine Json.takes_list h.1 ?_
  rw [List.forall₂_map_left_iff, List.forall₂_same]
  exact fun n hn => Json.takes_word (h.2 n hn)

theorem takes_lists (h : ListsText text lists) : positionsReader.Takes text lists := by
  obtain ⟨items, htext, hitems⟩ := h
  exact Json.takes_list htext (hitems.imp fun _ _ => takes_words)

theorem fills_others {others : List (List Char × List Char)} (found : Option (List (List Nat)))
    (h : ∀ other ∈ others, other.1 ≠ "required".toList ∧ Json.Value other.2)
    {fields : List (List Char × List Char)} {last : Option (List (List Nat))}
    (hfills : Json.Fills field found fields last) :
    Json.Fills field found (others ++ fields) last := by
  induction others with
  | nil => exact hfills
  | cons other others ih =>
    obtain ⟨⟨hname, hvalue⟩, hothers⟩ := List.forall_mem_cons.mp h
    exact .cons (if_neg hname) (Json.takes_ignored hvalue found) (ih hothers)

theorem readPositions_states (h : States text lists) :
    ∃ rest, Json.Gap rest ∧ readPositions text = .ok (lists, rest) := by
  cases h with
  | @object before after text value former later lists hbefore hafter htext hothers hvalue =>
    obtain ⟨inside, hinside, rfl⟩ := htext
    obtain ⟨hformer, hlater⟩ := List.forall_mem_append.mp hothers
    have hlast : Json.Fills field (some lists) later (some lists) := by
      simpa using fills_others (some lists) hlater .nil
    have hfield : field none "required".toList = .ok (positionsReader.map some) := by rw [field, if_pos rfl]
    have hfills := fills_others none hformer (.cons hfield (takes_lists hvalue).map hlast)
    refine ⟨after, hafter, ?_⟩
    rw [List.cons_append, List.append_assoc, List.singleton_append, readPositions, Json.skipBlank_gap hbefore,
      Json.skipBlank_cons (by decide)]
    show (Json.readFields field none true (inside ++ '}' :: after) >>= _) = _
    rw [Json.readFields_inside hinside hfills]
    rfl
  | @list before after text value lists hbefore hafter htext hvalue =>
    obtain ⟨inside, hinside, rfl⟩ := htext
    cases hinside with
    | @pieces part parts _ _ hpieces =>
      obtain ⟨hpart, hparts⟩ := List.forall₂_cons.mp hpieces
      cases hparts
      have htakes := takes_lists hvalue
      obtain ⟨after', hafter', hblank⟩ := Json.skipBlank_padded hpart htakes.starts
      refine ⟨after, hafter, ?_⟩
      rw [List.cons_append, List.append_assoc, List.singleton_append, readPositions, Json.skipBlank_gap hbefore,
        Json.skipBlank_cons (by decide), Json.commas_cons, List.flatMap_nil, List.append_nil]
      show (Json.nextItem true (part ++ ']' :: after) >>= _) = _
      rw [Json.nextItem_first (hblank _) (htakes.starts.append _)]
      show (positionsReader.read (value ++ (after' ++ ']' :: after)) >>= _) = _
      have hread := htakes.read [] (after' ++ ']' :: after) Json.gap_nil
        (Json.ends_append hafter' (Json.ends_flatMap [] (.inl rfl) after))
      rw [List.nil_append] at hread
      rw [hread]
      show (Json.skipMark ']' (after' ++ ']' :: after) >>= _) = _
      rw [Json.skipMark_gap hafter' (by decide)]
      rfl

/-- A text that states lists makes the pattern that the lists make. -/
theorem ofJson_states (h : States text lists) : ofJson text = (ofLists lists).mapError .pattern := by
  obtain ⟨rest, hrest, hread⟩ := readPositions_states h
  rw [ofJson, hread]
  show ((ofLists lists).mapError _ >>= _) = _
  cases ofLists lists with
  | error cause => rfl
  | ok p =>
    show ((Json.atEnd rest).mapError _ >>= _) = _
    rw [Json.atEnd_eq_ok_iff.mpr hrest]
    rfl

/-- A text makes a pattern only by the lists that are read from it, with nothing but blanks behind them. -/
theorem ofJson_eq_ok_iff : ofJson text = .ok p ↔
    ∃ lists rest, readPositions text = .ok (lists, rest) ∧ Json.Gap rest ∧ ofLists lists = .ok p := by
  refine ⟨fun h => ?_, fun ⟨lists, rest, hread, hrest, hlists⟩ => ?_⟩
  · obtain ⟨⟨lists, rest⟩, hread, h⟩ := bind_eq_ok.mp h
    obtain ⟨p', hlists, h⟩ := bind_eq_ok.mp h
    obtain ⟨⟨⟩, hrest, h⟩ := bind_eq_ok.mp h
    obtain rfl := Except.ok.inj h
    exact ⟨lists, rest, mapError_eq_ok.mp hread, Json.atEnd_eq_ok_iff.mp (mapError_eq_ok.mp hrest),
      mapError_eq_ok.mp hlists⟩
  · rw [ofJson, hread]
    show ((ofLists lists).mapError _ >>= _) = _
    rw [hlists]
    show ((Json.atEnd rest).mapError _ >>= _) = _
    rw [Json.atEnd_eq_ok_iff.mpr hrest]
    rfl

/-! ### Patterns that are written -/

/-- Lists as they are written. -/
def writeLists (lists : List (List Nat)) : List Char :=
  Json.writeList (lists.map fun l => Json.writeList (l.map Json.writeNat))

theorem listsText_writeLists (hwords : HoldsWords lists) : ListsText (writeLists lists) lists := by
  refine ⟨_, Json.listText_writeList _, ?_⟩
  rw [List.forall₂_map_left_iff, List.forall₂_same]
  exact fun l hl => ⟨Json.listText_writeList _, hwords l hl⟩

theorem states_toJson (hwords : HoldsWords p.required) : States p.toJson p.required := by
  have hplain : Json.Plain "required".toList := by decide +kernel
  have hobject : Json.ObjectText true p.toJson ([] ++ ("required".toList, writeLists p.required) :: []) :=
    @Json.objectText_writeObject [("required", writeLists p.required)] (List.forall_mem_singleton.mpr hplain)
  simpa using States.object Json.gap_nil Json.gap_nil hobject (by simp) (listsText_writeLists hwords)

theorem gives_positionsReader : positionsReader.Gives HoldsWords :=
  Json.gives_list (Json.gives_list Json.gives_word)

theorem gives_field {found : Option (List (List Nat))} {name : List Char}
    {reader : Json.Reader (Option (List (List Nat)))} (hfound : ∀ lists ∈ found, HoldsWords lists)
    (h : field found name = .ok reader) : reader.Gives fun found => ∀ lists ∈ found, HoldsWords lists := by
  rw [field.eq_def] at h
  split at h
  · split at h
    · contradiction
    · obtain rfl := Except.ok.inj h
      refine gives_positionsReader.map fun lists hwords lists' hsome => ?_
      rw [← Option.some.inj hsome]
      exact hwords
  · obtain rfl := Except.ok.inj h
    exact Json.gives_ignored hfound

/-- The positions that are read are words. -/
theorem holdsWords_of_readPositions {rest : List Char} (h : readPositions text = .ok (lists, rest)) :
    HoldsWords lists := by
  rw [readPositions] at h
  split at h
  · obtain ⟨next, _, h⟩ := bind_eq_ok.mp h
    cases next with
    | none => contradiction
    | some start =>
      obtain ⟨_, hread, h⟩ := bind_eq_ok.mp h
      obtain ⟨_, _, h⟩ := bind_eq_ok.mp h
      cases h
      exact gives_positionsReader _ _ _ hread
  · obtain ⟨⟨found, _⟩, hread, h⟩ := bind_eq_ok.mp h
    have hstart : ∀ lists ∈ (none : Option (List (List Nat))), HoldsWords lists := fun _ hnone => by contradiction
    have hfound := Json.readFields_gives (fun _ _ _ => gives_field) hstart hread
    cases found with
    | none => contradiction
    | some lists =>
      cases h
      exact hfound lists rfl
  · contradiction

theorem holdsWords_of_ofLists (h : ofLists lists = .ok p) (hwords : HoldsWords lists) : HoldsWords p.required := by
  rw [required_of_ofLists h]
  intro l hl position hposition
  obtain ⟨l', hl', rfl⟩ := List.mem_map.mp hl
  exact hwords l' hl' position (Sorted.mem_sort.mp hposition)

theorem ofJson_toJson (hwords : HoldsWords p.required) : ofJson p.toJson = .ok p := by
  rw [ofJson_states (states_toJson hwords), ofLists_required]
  rfl

/-- A pattern is read back from the text that is written for it. Whatever text is read as a pattern, the lists in it
have passed the check that any lists have to pass, they are put in order, and the pattern is written and read back
again. And every text that states lists is judged by this check alone. -/
theorem ofJson_exact :
    (∀ p : Pattern, HoldsWords p.required → ofJson p.toJson = .ok p) ∧
    (∀ text p, ofJson text = .ok p →
      (∃ lists rest, readPositions text = .ok (lists, rest) ∧ Json.Gap rest ∧ ofLists lists = .ok p ∧
        p.required = lists.map Sorted.sort) ∧
      p.required ≠ [] ∧ p.required[0]? = some [] ∧
      (∀ i l, 0 < i → p.required[i]? = some l → l ≠ [] ∧ l.Pairwise (· < ·) ∧ ∀ position ∈ l, position < i) ∧
      ofJson p.toJson = .ok p) ∧
    ∀ text lists, States text lists → ofJson text = (ofLists lists).mapError .pattern := by
  refine ⟨fun p hwords => ofJson_toJson hwords, fun text p h => ?_, fun text lists h => ofJson_states h⟩
  obtain ⟨lists, rest, hread, hrest, hlists⟩ := ofJson_eq_ok_iff.mp h
  refine ⟨⟨lists, rest, hread, hrest, hlists, required_of_ofLists hlists⟩, p.nonempty, p.required_zero, ?_,
    ofJson_toJson (holdsWords_of_ofLists hlists (holdsWords_of_readPositions hread))⟩
  intro i l hi hl
  have hadmissible := p.admissible i l hl
  exact ⟨hadmissible.anchored hi, hadmissible.ascending, hadmissible.earlier⟩

/-- Three positions, in an object that has another field and writes the name `required` with an escape. -/
def noted : List Char := "\x7b\"note\":[null,-1.5e3], \"\\u0072equired\" : [[],[0],[1,0]]\x7d\n".toList

theorem value_note : Json.Value "[null,-1.5e3]".toList := by
  have hdigit : ∀ c ∈ ['1', '5', '3'], Json.SomeDigits [c] := by simp [Json.SomeDigits, Decimal.IsDigit]
  have hnumber : Json.NumberText "-1.5e3".toList :=
    ⟨['-'], ['1'], ['.', '5'], ['e', '3'], rfl, .inr rfl, ⟨hdigit '1' (by simp), by simp⟩,
      .inr ⟨['5'], rfl, hdigit '5' (by simp)⟩,
      .inr ⟨'e', [], ['3'], rfl, .inl rfl, .inl rfl, hdigit '3' (by simp)⟩⟩
  refine .list (Json.listText_writeList ["null".toList, "-1.5e3".toList]) (List.forall_mem_cons.mpr ⟨?_, ?_⟩)
  · exact .scalar (.name (by decide))
  · exact List.forall_mem_singleton.mpr (.scalar (.number hnumber))

theorem states_noted : States noted [[], [0], [1, 0]] := by
  have hname : Json.Spelling true "\\u0072equired".toList "required".toList := by
    have hunit : Json.UnitText "0072".toList 0x72 := ⟨[0, 0, 7, 2], by decide +kernel, rfl, rfl⟩
    have hplain : Json.Plain "equired".toList := by decide +kernel
    exact .unit hunit (by decide) (hplain.spelling true)
  have hnote : Json.FieldText true "\"note\":[null,-1.5e3]".toList ("note".toList, "[null,-1.5e3]".toList) := by
    have hplain : Json.Plain "note".toList := by decide +kernel
    exact Json.fieldText_writeName hplain (Json.padded_self _)
  have hrequired : Json.FieldText true " \"\\u0072equired\" : [[],[0],[1,0]]".toList
      ("required".toList, writeLists [[], [0], [1, 0]]) := by
    refine ⟨[' '], _, [' '], ' ' :: writeLists [[], [0], [1, 0]], by decide, hname, by decide,
      ⟨[' '], [], by decide, Json.gap_nil, by simp⟩, ?_⟩
    decide +kernel
  have hother : ∀ other ∈ [("note".toList, "[null,-1.5e3]".toList)],
      other.1 ≠ "required".toList ∧ Json.Value other.2 :=
    List.forall_mem_singleton.mpr ⟨by decide +kernel, value_note⟩
  have hlists : ListsText (writeLists [[], [0], [1, 0]]) [[], [0], [1, 0]] := listsText_writeLists (by decide)
  have hstates := @States.object [] ['\n'] _ _ [("note".toList, _)] [] _ Json.gap_nil (by decide)
    ⟨_, .pieces (.cons hnote (.cons hrequired .nil)), rfl⟩ hother hlists
  have hnoted : noted = [] ++ ('{' :: (Json.commas ["\"note\":[null,-1.5e3]".toList,
      " \"\\u0072equired\" : [[],[0],[1,0]]".toList] ++ ['}']) ++ ['\n']) := by
    decide +kernel
  rw [hnoted]
  exact hstates

theorem ofJson_exact_noted : ∃ p : Pattern, p.required = [[], [0], [0, 1]] ∧ HoldsWords p.required ∧
    ofJson p.toJson = .ok p ∧ p.toJson = "\x7b\"required\":[[],[0],[0,1]]\x7d".toList ∧
    States noted [[], [0], [1, 0]] ∧ ofJson noted = .ok p ∧
    ∃ lists rest, readPositions noted = .ok (lists, rest) ∧ ofLists lists = .ok p ∧
      p.required = lists.map Sorted.sort := by
  obtain ⟨hwritten, haccepted, hstated⟩ := ofJson_exact
  have hmade : (ofLists [[], [0], [1, 0]]).map required = .ok [[], [0], [0, 1]] := by decide +kernel
  obtain ⟨p, hp, hrequired⟩ := exists_of_map_eq_ok hmade
  have hread : ofJson noted = .ok p := by
    rw [hstated noted _ states_noted, hp]
    rfl
  have hwords : HoldsWords p.required := by
    rw [hrequired]
    decide
  obtain ⟨⟨lists, rest, hpositions, _, hlists, hsorted⟩, _⟩ := haccepted noted p hread
  refine ⟨p, hrequired, hwords, hwritten p hwords, ?_, states_noted, hread, lists, rest, hpositions, hlists, hsorted⟩
  rw [toJson, hrequired]
  decide +kernel

end Motif.Pattern
