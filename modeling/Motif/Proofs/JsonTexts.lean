import Mathlib.Data.List.Forall2
import Motif.Json.Reader
import Motif.Json.Writer
import Motif.Proofs.Digits

/-!
# How JSON is written

What a text of JSON looks like is said here without reading it: blanks, strings, numbers, the lists and the objects
that are put together from them, and, as `Value`, everything that is well written. A string may hold lone code units
where nobody looks at it, which is why `Spelling` comes in two kinds.

Blanks are passed over, and what is written as a string is read as such, whatever follows (`readString_spelling`).
-/

namespace Motif.Json

/-! ### The form of texts -/

/-- Blanks, any number of them. -/
def Gap (gap : List Char) : Prop := ∀ c ∈ gap, isBlank c = true

instance : DecidablePred Gap := fun gap => List.decidableBAll _ gap

/-- A value can end before this text. -/
def Ends (rest : List Char) : Prop := ∀ c ∈ rest.head?, isBlank c = true ∨ c = ',' ∨ c = ']' ∨ c = '}'

/-- The text starts with something that is no blank and does not close a list. -/
def Starts (text : List Char) : Prop := ∃ c tail, text = c :: tail ∧ isBlank c = false ∧ c ≠ ']'

/-- The text is `core` with blanks around it. -/
def Padded (text core : List Char) : Prop := ∃ before after, Gap before ∧ Gap after ∧ text = before ++ core ++ after

/-- Four hexadecimal digits and the code unit that they make up. -/
def UnitText (digits : List Char) (unit : Nat) : Prop :=
  ∃ values, List.Forall₂ (fun c value => hexDigit? c = some value) digits values ∧ digits.length = 4 ∧
    unit = Nat.ofDigits 16 values.reverse

/-- The text between the quotes of a string, and what it stands for. Only in a `strict` one does the second code unit
of a pair have to come right after the first. -/
inductive Spelling (strict : Bool) : List Char → List Char → Prop where
  | nil : Spelling strict [] []
  | plain {c : Char} {text content : List Char} (hquote : c ≠ '"') (hslash : c ≠ '\\') (hprinted : 0x20 ≤ c.toNat)
      (htext : Spelling strict text content) : Spelling strict (c :: text) (c :: content)
  | short {c d : Char} {text content : List Char} (hshort : shortEscapes.lookup c = some d)
      (htext : Spelling strict text content) : Spelling strict ('\\' :: c :: text) (d :: content)
  | unit {digits text content : List Char} {unit : Nat} (hunit : UnitText digits unit)
      (halone : strict = true → isLeading unit = false ∧ isTrailing unit = false)
      (htext : Spelling strict text content) :
      Spelling strict ('\\' :: 'u' :: (digits ++ text)) (Char.ofNat unit :: content)
  | pair {digits digits' text content : List Char} {leading trailing : Nat} (hstrict : strict = true)
      (hunit : UnitText digits leading) (hunit' : UnitText digits' trailing) (hleading : isLeading leading = true)
      (htrailing : isTrailing trailing = true) (htext : Spelling strict text content) :
      Spelling strict ('\\' :: 'u' :: (digits ++ '\\' :: 'u' :: (digits' ++ text)))
        (pairChar leading trailing :: content)

/-- Characters that stand for themselves in a string. -/
def Plain (text : List Char) : Prop := ∀ c ∈ text, c ≠ '"' ∧ c ≠ '\\' ∧ 0x20 ≤ c.toNat

instance : DecidablePred Plain := fun text => List.decidableBAll _ text

/-- At least one digit. -/
def SomeDigits (text : List Char) : Prop := text ≠ [] ∧ ∀ c ∈ text, Decimal.IsDigit c

/-- Digits without a superfluous zero in front. -/
def WholeText (text : List Char) : Prop := SomeDigits text ∧ ∀ rest, text = '0' :: rest → rest = []

def FractionText (text : List Char) : Prop := text = [] ∨ ∃ digits, text = '.' :: digits ∧ SomeDigits digits

def ExponentText (text : List Char) : Prop :=
  text = [] ∨ ∃ mark sign digits, text = mark :: (sign ++ digits) ∧ (mark = 'e' ∨ mark = 'E') ∧
    (sign = [] ∨ sign = ['+'] ∨ sign = ['-']) ∧ SomeDigits digits

/-- A number, perhaps with a minus sign, a fraction or an exponent. -/
def NumberText (text : List Char) : Prop :=
  ∃ sign whole fraction exponent, text = sign ++ (whole ++ (fraction ++ exponent)) ∧ (sign = [] ∨ sign = ['-']) ∧
    WholeText whole ∧ FractionText fraction ∧ ExponentText exponent

/-- What stands between two brackets: the pieces with commas in between, or only blanks. -/
inductive Inside {α : Type} (piece : List Char → α → Prop) : List Char → List α → Prop where
  | blank {gap : List Char} (h : Gap gap) : Inside piece gap []
  | pieces {part : List Char} {parts : List (List Char)} {item : α} {items : List α}
      (h : List.Forall₂ piece (part :: parts) (item :: items)) : Inside piece (commas (part :: parts)) (item :: items)

/-- A list of the given values. -/
def ListText (text : List Char) (items : List (List Char)) : Prop :=
  ∃ inside, Inside Padded inside items ∧ text = '[' :: (inside ++ [']'])

/-- A field with the given name and value. -/
def FieldText (strict : Bool) (text : List Char) (field : List Char × List Char) : Prop :=
  ∃ before name middle value, Gap before ∧ Spelling strict name field.1 ∧ Gap middle ∧ Padded value field.2 ∧
    text = before ++ '"' :: (name ++ '"' :: (middle ++ ':' :: value))

/-- An object with the given fields, in this order. -/
def ObjectText (strict : Bool) (text : List Char) (fields : List (List Char × List Char)) : Prop :=
  ∃ inside, Inside (FieldText strict) inside fields ∧ text = '{' :: (inside ++ ['}'])

/-- One of a choice of names: a string, or an object with `null` in a field of this name and no other field. -/
inductive NameText : List Char → List Char → Prop where
  | string {text name : List Char} (h : Spelling true text name) : NameText ('"' :: (text ++ ['"'])) name
  | object {text name : List Char} (h : ObjectText true text [(name, "null".toList)]) : NameText text name

/-- A value without parts. -/
inductive Scalar : List Char → Prop where
  | name {name : String} (h : name ∈ ["null", "true", "false"]) : Scalar name.toList
  | string {text content : List Char} (h : Spelling false text content) : Scalar ('"' :: (text ++ ['"']))
  | number {text : List Char} (h : NumberText text) : Scalar text

/-- Any value that is well written. -/
inductive Value : List Char → Prop where
  | scalar {text : List Char} (h : Scalar text) : Value text
  | list {text : List Char} {items : List (List Char)} (h : ListText text items)
      (hitems : ∀ item ∈ items, Value item) : Value text
  | object {text : List Char} {fields : List (List Char × List Char)} (h : ObjectText false text fields)
      (hfields : ∀ field ∈ fields, Value field.2) : Value text

variable {c mark : Char} {gap rest text content digits core : List Char} {strict : Bool}

/-! ### Blanks -/

theorem gap_nil : Gap [] := fun _ h => absurd h List.not_mem_nil

theorem padded_self (text : List Char) : Padded text text := ⟨[], [], gap_nil, gap_nil, by simp⟩

theorem skipBlank_gap (h : Gap gap) (text : List Char) : skipBlank (gap ++ text) = skipBlank text :=
  List.dropWhile_append_of_pos h

theorem skipBlank_cons (h : isBlank c = false) (text : List Char) : skipBlank (c :: text) = c :: text :=
  List.dropWhile_cons_of_neg (by simp [h])

/-- The mark that has to come is passed, with blanks in front. -/
theorem skipMark_gap (h : Gap gap) (hmark : isBlank mark = false) (rest : List Char) :
    skipMark mark (gap ++ mark :: rest) = .ok rest := by
  rw [skipMark, skipBlank_gap h, skipBlank_cons hmark]
  exact if_pos rfl

theorem ends_append (h : Gap gap) (hrest : Ends rest) : Ends (gap ++ rest) := by
  cases gap with
  | nil => exact hrest
  | cons c gap =>
    intro c' hc'
    obtain rfl := Option.some.inj hc'
    exact .inl (h _ List.mem_cons_self)

/-- The blanks around a value can be set apart from what stands behind them. -/
theorem Padded.append (h : Padded text core) (hrest : Ends rest) : ∃ before after, Gap before ∧ Gap after ∧
    Ends (after ++ rest) ∧ text ++ rest = before ++ (core ++ (after ++ rest)) := by
  obtain ⟨before, after, hbefore, hafter, rfl⟩ := h
  refine ⟨before, after, hbefore, hafter, ends_append hafter hrest, ?_⟩
  rw [List.append_assoc, List.append_assoc]

/-- Of a value with blanks around it, those in front can be passed over. -/
theorem skipBlank_padded (h : Padded text core) (hcore : Starts core) :
    ∃ after, Gap after ∧ ∀ rest, skipBlank (text ++ rest) = core ++ (after ++ rest) := by
  obtain ⟨before, after, hbefore, hafter, rfl⟩ := h
  obtain ⟨c, tail, rfl, hc, _⟩ := hcore
  refine ⟨after, hafter, fun rest => ?_⟩
  rw [List.append_assoc, List.append_assoc, skipBlank_gap hbefore, List.cons_append, skipBlank_cons hc]

theorem ends_flatMap (parts : List (List Char)) (hmark : mark = ']' ∨ mark = '}') (rest : List Char) :
    Ends (parts.flatMap (',' :: ·) ++ mark :: rest) := by
  cases parts with
  | nil =>
    intro c hc
    obtain rfl := Option.some.inj hc
    exact .inr (.inr hmark)
  | cons part parts =>
    intro c hc
    obtain rfl := Option.some.inj hc
    exact .inr (.inl rfl)

theorem commas_cons (part : List Char) (parts : List (List Char)) :
    commas (part :: parts) = part ++ parts.flatMap (',' :: ·) := by
  induction parts generalizing part with
  | nil => simp [commas, List.intercalate]
  | cons part' parts ih =>
    have hsplit : commas (part :: part' :: parts) = part ++ ',' :: commas (part' :: parts) := by
      simp [commas, List.intercalate]
    rw [hsplit, ih]
    rfl

/-! ### Strings -/

theorem readUnit_unitText {unit : Nat} (h : UnitText digits unit) (rest : List Char) :
    readUnit (digits ++ rest) = .ok (unit, rest) := by
  obtain ⟨values, hvalues, hlength, rfl⟩ := h
  match digits, values, hlength, hvalues with
  | [a, b, c, d], [a', b', c', d'], _, .cons ha (.cons hb (.cons hc (.cons hd .nil))) =>
    rw [List.cons_append, List.cons_append, List.cons_append, List.singleton_append, readUnit, ha, hb, hc, hd]
    simp [Nat.ofDigits_cons]
    ring

theorem readString_plain (hquote : c ≠ '"') (hslash : c ≠ '\\') (hprinted : 0x20 ≤ c.toNat)
    (h : readString strict text = .ok (content, rest)) :
    readString strict (c :: text) = .ok (c :: content, rest) := by
  rw [readString.eq_def]
  split
  · contradiction
  · rename_i heq
    exact absurd (List.cons.inj heq).1 hquote
  · rename_i heq
    exact absurd (List.cons.inj heq).1 hslash
  · rename_i heq
    obtain ⟨rfl, rfl⟩ := List.cons.inj heq
    rw [if_neg (by omega), h]
    rfl

theorem readString_escape {tail after : List Char} (hescape : readEscape strict tail = .ok (c, after))
    (h : readString strict after = .ok (content, rest)) :
    readString strict ('\\' :: tail) = .ok (c :: content, rest) := by
  rw [readString.eq_def]
  split
  · contradiction
  · rename_i heq
    exact absurd (List.cons.inj heq).1 (by decide)
  · rename_i heq
    obtain rfl := (List.cons.inj heq).2
    split
    · rename_i hfault
      rw [hescape] at hfault
      contradiction
    · rename_i hread
      rw [hescape] at hread
      obtain ⟨rfl, rfl⟩ := Prod.mk.inj (Except.ok.inj hread)
      rw [h]
      rfl
  · rename_i hslash heq
    exact absurd (List.cons.inj heq).1.symm hslash

/-- What is written between the quotes is read. -/
theorem readString_spelling (h : Spelling strict text content) (rest : List Char) :
    readString strict (text ++ '"' :: rest) = .ok (content, rest) := by
  induction h with
  | nil => rw [List.nil_append, readString]
  | plain hquote hslash hprinted _ ih => exact readString_plain hquote hslash hprinted ih
  | @short c d text content hshort _ ih =>
    have hu : c ≠ 'u' := by
      rintro rfl
      contradiction
    refine readString_escape ?_ ih
    show readEscape strict (c :: (text ++ '"' :: rest)) = _
    rw [readEscape, if_neg hu, hshort]
  | @unit digits text content unit hunit halone _ ih =>
    refine readString_escape ?_ ih
    show readEscape strict ('u' :: (digits ++ text ++ '"' :: rest)) = _
    rw [readEscape, if_pos rfl, List.append_assoc, readUnit_unitText hunit]
    cases strict with
    | false => rfl
    | true =>
      obtain ⟨hleading, htrailing⟩ := halone rfl
      show (if true && isTrailing unit then _ else if true && isLeading unit then _ else _) = _
      rw [hleading, htrailing]
      rfl
  | @pair digits digits' text content leading trailing hstrict hunit hunit' hleading htrailing _ ih =>
    subst hstrict
    have hfirst : isTrailing leading = false := by
      simp only [isLeading, isTrailing, Bool.and_eq_true, decide_eq_true_eq] at hleading ⊢
      simp
      omega
    refine readString_escape ?_ ih
    show readEscape true ('u' :: (digits ++ '\\' :: 'u' :: (digits' ++ text) ++ '"' :: rest)) = _
    rw [readEscape, if_pos rfl, List.append_assoc, readUnit_unitText hunit]
    show (if true && isTrailing leading then _ else if true && isLeading leading then _ else _) = _
    rw [hfirst, hleading]
    show readTrailing leading ('\\' :: 'u' :: (digits' ++ text ++ '"' :: rest)) = _
    rw [readTrailing, List.append_assoc, readUnit_unitText hunit']
    exact if_pos htrailing

theorem Plain.spelling (h : Plain text) (strict : Bool) : Spelling strict text text := by
  induction text with
  | nil => exact .nil
  | cons c text ih =>
    obtain ⟨⟨hquote, hslash, hprinted⟩, htext⟩ := List.forall_mem_cons.mp h
    exact .plain hquote hslash hprinted (ih htext)

/-! ### Texts that are written -/

theorem listText_writeList (items : List (List Char)) : ListText (writeList items) items := by
  refine ⟨commas items, ?_, rfl⟩
  cases items with
  | nil => exact .blank gap_nil
  | cons item items => exact .pieces (List.forall₂_same.mpr fun item _ => padded_self item)

theorem nameText_writeName {name : String} (h : Plain name.toList) : NameText (writeName name) name.toList :=
  .string (h.spelling true)

theorem fieldText_writeName {name : String} {value : List Char} (h : Plain name.toList) (hvalue : Padded value core) :
    FieldText true (writeName name ++ ':' :: value) (name.toList, core) := by
  refine ⟨[], _, [], value, gap_nil, h.spelling true, gap_nil, hvalue, ?_⟩
  simp [writeName]

/-- An object that is written has its fields in the order they are written in. -/
theorem objectText_writeObject {fields : List (String × List Char)} (h : ∀ field ∈ fields, Plain field.1.toList) :
    ObjectText true (writeObject fields) (fields.map fun field => (field.1.toList, field.2)) := by
  have hfield : ∀ field ∈ fields, FieldText true (writeName field.1 ++ ':' :: field.2) (field.1.toList, field.2) :=
    fun field hmem => fieldText_writeName (h field hmem) (padded_self _)
  refine ⟨_, ?_, rfl⟩
  cases fields with
  | nil => exact .blank gap_nil
  | cons field fields =>
    refine .pieces (List.forall₂_cons.mpr ⟨hfield field List.mem_cons_self, ?_⟩)
    rw [List.forall₂_map_left_iff, List.forall₂_map_right_iff, List.forall₂_same]
    exact fun field hmem => hfield field (List.mem_cons_of_mem _ hmem)

end Motif.Json
