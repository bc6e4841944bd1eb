import Motif.Json.Skip

/-!
# Reading what was asked for

A `Reader` takes a value of one kind off the front of a text. It always takes at least one character,
so that a list of values and an object with any number of fields can be read to their end.

Whatever stands in the place of the value asked for is judged as it is read: `misfit` tells a value of
another kind from something that is no value at all. A list or an object of the wrong kind is not read
to its end.
-/

namespace Motif.Json

/-- What is wrong with a text that should start with a value of another kind. -/
def misfit (text : List Char) : Fault :=
  match text with
  | [] => .truncated
  | c :: rest =>
    if c = '[' ∨ c = '{' then .mismatched
    else if c = '"' then
      match readString true rest with
      | .error fault => fault
      | .ok _ => .mismatched
    else if c = '-' ∨ (Decimal.digit? c).isSome then
      match scanNumeral .truncated (c :: rest) with
      | .error fault => fault
      | .ok (numeral, _) => if numeral.overflows then .malformed else .mismatched
    else
      match skipScalar (c :: rest) with
      | .error fault => fault
      | .ok _ => .mismatched

/-- A way to take a value off the front of a text. -/
structure Reader (α : Type) where
  read : List Char → Except Fault (α × List Char)
  shortens : ∀ {text value rest}, read text = .ok (value, rest) → rest.length < text.length

/-! ### Words -/

def readWord (text : List Char) : Except Fault (Nat × List Char) :=
  match skipBlank text with
  | [] => .error .truncated
  | c :: rest =>
    if c = '-' ∨ (Decimal.digit? c).isSome then do
      let (numeral, rest) ← scanNumeral .truncated (c :: rest)
      return (← numeral.value, rest)
    else .error (misfit (c :: rest))

def word : Reader Nat where
  read := readWord
  shortens {text value rest} h := by
    have hblank := length_skipBlank text
    rw [readWord] at h
    split at h
    · contradiction
    · rename_i htext
      rw [htext] at hblank
      split at h
      · obtain ⟨⟨numeral, after⟩, hscan, h⟩ := bind_eq_ok.mp h
        obtain ⟨_, _, h⟩ := bind_eq_ok.mp h
        cases h
        have := length_scanNumeral hscan
        omega
      · contradiction

/-! ### Lists -/

/-- Looks for the next value in a list, and says where it starts. -/
def nextItem (isFirst : Bool) (text : List Char) : Except Fault (Option (List Char)) :=
  match skipBlank text with
  | [] => .error .truncated
  | c :: rest =>
    if c = ']' then .ok none
    else if isFirst then .ok (some (c :: rest))
    else if c = ',' then
      match skipBlank rest with
      | [] => .error .truncated
      | c :: rest => if c = ']' then .error .malformed else .ok (some (c :: rest))
    else .error .malformed

def closeList (text : List Char) : Except Fault (List Char) := skipMark ']' text

theorem length_nextItem {isFirst : Bool} {text item : List Char}
    (h : nextItem isFirst text = .ok (some item)) : item.length ≤ text.length := by
  have hblank := length_skipBlank text
  rw [nextItem] at h
  split at h
  · contradiction
  · rename_i c tail htext
    rw [htext] at hblank
    have hinner := length_skipBlank tail
    repeat' split at h
    · cases h
    · cases h
      exact hblank
    · contradiction
    · contradiction
    · rename_i hrest _
      cases h
      rw [hrest] at hinner
      simp only [List.length_cons] at hblank hinner ⊢
      omega
    · contradiction

def readItems {α : Type} (item : Reader α) (isFirst : Bool) (text : List Char) :
    Except Fault (List α × List Char) :=
  match _hnext : nextItem isFirst text with
  | .error fault => .error fault
  | .ok none => do return ([], ← closeList text)
  | .ok (some start) =>
    match _hread : item.read start with
    | .error fault => .error fault
    | .ok (value, rest) => do
      let (values, rest) ← readItems item false rest
      return (value :: values, rest)
termination_by text.length
decreasing_by
  have := length_nextItem _hnext
  have := item.shortens _hread
  omega

theorem length_readItems {α : Type} {item : Reader α} {isFirst : Bool} {text rest : List Char}
    {values : List α} (h : readItems item isFirst text = .ok (values, rest)) :
    rest.length < text.length := by
  fun_induction readItems item isFirst text generalizing values with
  | case1 => contradiction
  | case2 isFirst text hnext =>
    obtain ⟨closed, hclosed, h⟩ := bind_eq_ok.mp h
    cases h
    exact length_skipMark hclosed
  | case3 => contradiction
  | case4 isFirst text start hnext value after hread ih =>
    obtain ⟨⟨values, left⟩, hitems, h⟩ := bind_eq_ok.mp h
    cases h
    have := ih hitems
    have := length_nextItem hnext
    have := item.shortens hread
    omega

def readList {α : Type} (item : Reader α) (text : List Char) : Except Fault (List α × List Char) :=
  match skipBlank text with
  | [] => .error .truncated
  | c :: rest => if c = '[' then readItems item true rest else .error (misfit (c :: rest))

def list {α : Type} (item : Reader α) : Reader (List α) where
  read := readList item
  shortens {text value rest} h := by
    have hblank := length_skipBlank text
    rw [readList] at h
    split at h
    · contradiction
    · rename_i htext
      rw [htext, List.length_cons] at hblank
      split at h
      · have := length_readItems h
        omega
      · contradiction

/-! ### Names -/

/-- Reads one of the given names as what it stands for. -/
def readChoice {α : Type} (choices : List (List Char × α)) (text : List Char) :
    Except Fault (α × List Char) := do
  let (name, rest) ← readString true text
  match choices.lookup name with
  | some value => return (value, rest)
  | none => .error .mismatched

def readNull (text : List Char) : Except Fault (List Char) :=
  match skipBlank text with
  | 'n' :: rest => skipWord "ull".toList rest
  | text => .error (misfit text)

/-- Reads one of the given names. A name may also be the only field of an object, and its value there
is `null`. -/
def readName {α : Type} (choices : List (List Char × α)) (text : List Char) :
    Except Fault (α × List Char) :=
  match skipBlank text with
  | [] => .error .truncated
  | '"' :: rest => readChoice choices rest
  | '{' :: rest =>
    match skipBlank rest with
    | [] => .error .truncated
    | '"' :: rest => do
      let (value, rest) ← readChoice choices rest
      let rest ← skipMark ':' rest
      let rest ← readNull rest
      return (value, ← skipMark '}' rest)
    | _ => .error .malformed
  | _ => .error .malformed

theorem length_readChoice {α : Type} {choices : List (List Char × α)} {text rest : List Char}
    {value : α} (h : readChoice choices text = .ok (value, rest)) : rest.length < text.length := by
  obtain ⟨⟨name, after⟩, hread, h⟩ := bind_eq_ok.mp h
  have := length_readString hread
  dsimp only at h
  split at h
  · cases h
    exact this
  · contradiction

theorem length_readNull {text rest : List Char} (h : readNull text = .ok rest) :
    rest.length ≤ text.length := by
  have hblank := length_skipBlank text
  rw [readNull] at h
  split at h
  · rename_i htext
    rw [htext, List.length_cons] at hblank
    have := length_skipWord h
    omega
  · contradiction

def name {α : Type} (choices : List (List Char × α)) : Reader α where
  read := readName choices
  shortens {text value rest} h := by
    have hblank := length_skipBlank text
    rw [readName] at h
    split at h
    · contradiction
    · rename_i htext
      rw [htext, List.length_cons] at hblank
      have := length_readChoice h
      omega
    · rename_i tail htext
      rw [htext, List.length_cons] at hblank
      have hinner := length_skipBlank tail
      split at h
      · contradiction
      · rename_i hrest
        rw [hrest, List.length_cons] at hinner
        obtain ⟨⟨choice, after⟩, hchoice, h⟩ := bind_eq_ok.mp h
        obtain ⟨valued, hvalued, h⟩ := bind_eq_ok.mp h
        obtain ⟨ended, hended, h⟩ := bind_eq_ok.mp h
        obtain ⟨closed, hclosed, h⟩ := bind_eq_ok.mp h
        cases h
        have := length_readChoice hchoice
        have := length_skipMark hvalued
        have := length_readNull hended
        have := length_skipMark hclosed
        omega
      · contradiction
    · contradiction

/-! ### Objects -/

/-- The reader of a value nobody asked for, which leaves the state as it is. -/
def ignored {σ : Type} (state : σ) : Reader σ where
  read text := do return (state, ← skipValue text)
  shortens {text value rest} h := by
    obtain ⟨skipped, hskipped, h⟩ := bind_eq_ok.mp h
    cases h
    exact length_skipValue hskipped

/-- The reader of a value that is put into a state. -/
def Reader.map {α σ : Type} (reader : Reader α) (store : α → σ) : Reader σ where
  read text := do
    let (value, rest) ← reader.read text
    return (store value, rest)
  shortens {text value rest} h := by
    obtain ⟨⟨value, after⟩, hread, h⟩ := bind_eq_ok.mp h
    cases h
    exact reader.shortens hread

/-- Looks for the next field of an object, and says where its name starts after the quote. -/
def nextField (isFirst : Bool) (text : List Char) : Except Fault (Option (List Char)) :=
  match skipBlank text with
  | [] => .error .truncated
  | c :: rest =>
    if c = '}' then .ok none
    else if isFirst then if c = '"' then .ok (some rest) else .error .malformed
    else if c = ',' then do return some (← skipMark '"' rest)
    else .error .malformed

theorem length_nextField {isFirst : Bool} {text field : List Char}
    (h : nextField isFirst text = .ok (some field)) : field.length < text.length := by
  have hblank := length_skipBlank text
  rw [nextField] at h
  split at h
  · contradiction
  · rename_i c tail htext
    rw [htext, List.length_cons] at hblank
    repeat' split at h
    · cases h
    · cases h
      omega
    · contradiction
    · obtain ⟨quoted, hquoted, h⟩ := bind_eq_ok.mp h
      cases h
      have := length_skipMark hquoted
      omega
    · contradiction

/-- Reads the fields of an object up to its end. For each name, `field` gives the reader of the value,
which may depend on the fields before it, or turns the name down. -/
def readFields {σ : Type} (field : σ → List Char → Except Fault (Reader σ)) (state : σ)
    (isFirst : Bool) (text : List Char) : Except Fault (σ × List Char) :=
  match _hnext : nextField isFirst text with
  | .error fault => .error fault
  | .ok none => do return (state, ← skipMark '}' text)
  | .ok (some start) =>
    match _hname : readString true start with
    | .error fault => .error fault
    | .ok (name, rest) =>
      match field state name with
      | .error fault => .error fault
      | .ok reader =>
        match _hcolon : skipMark ':' rest with
        | .error fault => .error fault
        | .ok rest =>
          match _hvalue : reader.read rest with
          | .error fault => .error fault
          | .ok (state, rest) => readFields field state false rest
termination_by text.length
decreasing_by
  have := length_nextField _hnext
  have := length_readString _hname
  have := length_skipMark _hcolon
  have := reader.shortens _hvalue
  omega

/-! ### Whole texts -/

/-- Nothing but blanks may follow. -/
def atEnd (text : List Char) : Except Fault Unit :=
  match skipBlank text with
  | [] => .ok ()
  | _ => .error .malformed

end Motif.Json
