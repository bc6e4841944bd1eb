import Motif.Json.Numeral

/-!
# Passing over a JSON value

The value of a field that nobody asked for is read past. It has to be well written, however deeply it
is nested, but its strings may hold lone code units and its numbers may be of any size.

The brackets that are open form a stack. `beginValue` reads up to the next value that has to come
inside of the innermost bracket, and the stack is empty when the whole value has been passed.
-/

namespace Motif.Json

/-- A bracket that has not been closed. -/
inductive Bracket where
  | list
  | object
deriving DecidableEq, Repr

/-- Passes over a value without parts, the first character of which is not a blank. -/
def skipScalar : List Char → Except Fault (List Char)
  | [] => .error .truncated
  | c :: rest =>
    if c = 'n' then skipWord "ull".toList rest
    else if c = 't' then skipWord "rue".toList rest
    else if c = 'f' then skipWord "alse".toList rest
    else if c = '"' then do return (← readString false rest).2
    else if c = '-' ∨ (Decimal.digit? c).isSome then do
      return (← scanNumeral .malformed (c :: rest)).2
    else .error .malformed

/-- Passes over the name of a field and the colon after it. -/
def skipName (text : List Char) : Except Fault (List Char) := do
  let rest ← skipMark '"' text
  let (_, rest) ← readString false rest
  skipMark ':' rest

/-- Reads on after a value, inside of the given brackets, to the next value or to the end. -/
def afterValue : List Bracket → List Char → Except Fault (List Bracket × List Char)
  | [], text => .ok ([], text)
  | .list :: brackets, text =>
    match skipBlank text with
    | [] => .error .truncated
    | c :: rest =>
      if c = ',' then .ok (.list :: brackets, rest)
      else if c = ']' then afterValue brackets rest
      else .error .malformed
  | .object :: brackets, text =>
    match skipBlank text with
    | [] => .error .truncated
    | c :: rest =>
      if c = ',' then do return (.object :: brackets, ← skipName rest)
      else if c = '}' then afterValue brackets rest
      else .error .malformed

/-- Passes over a value without parts, or over an opening bracket, and reads on to the next value. -/
def beginValue (brackets : List Bracket) (text : List Char) :
    Except Fault (List Bracket × List Char) :=
  match skipBlank text with
  | [] => .error .truncated
  | '[' :: rest =>
    match skipBlank rest with
    | ']' :: rest => afterValue brackets rest
    | _ => .ok (.list :: brackets, rest)
  | '{' :: rest =>
    match skipBlank rest with
    | '}' :: rest => afterValue brackets rest
    | _ => do return (.object :: brackets, ← skipName rest)
  | text => do afterValue brackets (← skipScalar text)

theorem length_skipScalar {text rest : List Char} (h : skipScalar text = .ok rest) :
    rest.length < text.length := by
  cases text with
  | nil => contradiction
  | cons c tail =>
    rw [skipScalar] at h
    simp only [List.length_cons]
    repeat' split at h
    · exact Nat.lt_succ_of_le (length_skipWord h)
    · exact Nat.lt_succ_of_le (length_skipWord h)
    · exact Nat.lt_succ_of_le (length_skipWord h)
    · obtain ⟨read, hread, h⟩ := bind_eq_ok.mp h
      cases h
      have := length_readString hread
      omega
    · obtain ⟨read, hread, h⟩ := bind_eq_ok.mp h
      cases h
      have := length_scanNumeral hread
      simp only [List.length_cons] at this
      omega
    · contradiction

theorem length_skipName {text rest : List Char} (h : skipName text = .ok rest) :
    rest.length < text.length := by
  obtain ⟨quoted, hquoted, h⟩ := bind_eq_ok.mp h
  obtain ⟨read, hread, h⟩ := bind_eq_ok.mp h
  have := length_skipMark hquoted
  have := length_readString hread
  have := length_skipMark h
  omega

theorem length_afterValue {brackets left : List Bracket} {text rest : List Char}
    (h : afterValue brackets text = .ok (left, rest)) : rest.length ≤ text.length := by
  have hblank := length_skipBlank text
  fun_induction afterValue brackets text with
  | case1 text =>
    cases h
    exact Nat.le_refl _
  | case2 => contradiction
  | case3 brackets text tail htext =>
    cases h
    rw [htext, List.length_cons] at hblank
    omega
  | case4 brackets text tail htext _ ih =>
    rw [htext, List.length_cons] at hblank
    have := ih h (length_skipBlank tail)
    omega
  | case5 => contradiction
  | case6 => contradiction
  | case7 brackets text tail htext =>
    obtain ⟨skipped, hskipped, h⟩ := bind_eq_ok.mp h
    cases h
    have := length_skipName hskipped
    rw [htext, List.length_cons] at hblank
    omega
  | case8 brackets text tail htext _ ih =>
    rw [htext, List.length_cons] at hblank
    have := ih h (length_skipBlank tail)
    omega
  | case9 => contradiction

theorem length_beginValue {brackets left : List Bracket} {text rest : List Char}
    (h : beginValue brackets text = .ok (left, rest)) : rest.length < text.length := by
  have hblank := length_skipBlank text
  rw [beginValue] at h
  split at h
  · contradiction
  · rename_i tail htext
    rw [htext, List.length_cons] at hblank
    have hinner := length_skipBlank tail
    split at h
    · rename_i htail
      rw [htail, List.length_cons] at hinner
      have := length_afterValue h
      omega
    · cases h
      omega
  · rename_i tail htext
    rw [htext, List.length_cons] at hblank
    have hinner := length_skipBlank tail
    split at h
    · rename_i htail
      rw [htail, List.length_cons] at hinner
      have := length_afterValue h
      omega
    · obtain ⟨skipped, hskipped, h⟩ := bind_eq_ok.mp h
      cases h
      have := length_skipName hskipped
      omega
  · obtain ⟨skipped, hskipped, h⟩ := bind_eq_ok.mp h
    have := length_skipScalar hskipped
    have := length_afterValue h
    omega

/-- Passes over a value inside of the given brackets and over all that closes them. -/
def skipNested (brackets : List Bracket) (text : List Char) : Except Fault (List Char) :=
  match _h : beginValue brackets text with
  | .error fault => .error fault
  | .ok ([], rest) => .ok rest
  | .ok (bracket :: brackets, rest) => skipNested (bracket :: brackets) rest
termination_by text.length
decreasing_by exact length_beginValue _h

def skipValue (text : List Char) : Except Fault (List Char) := skipNested [] text

theorem length_skipNested {brackets : List Bracket} {text rest : List Char}
    (h : skipNested brackets text = .ok rest) : rest.length < text.length := by
  fun_induction skipNested brackets text with
  | case1 => contradiction
  | case2 brackets text after hbegin =>
    cases h
    exact length_beginValue hbegin
  | case3 brackets text bracket left after hbegin ih =>
    have := ih h
    have := length_beginValue hbegin
    omega

theorem length_skipValue {text rest : List Char} (h : skipValue text = .ok rest) :
    rest.length < text.length := length_skipNested h

end Motif.Json
