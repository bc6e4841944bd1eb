import Motif.Failure

/-!
# The pieces of a JSON text

A JSON text is read from left to right, and the first problem met decides what is wrong with it. A
`Fault` tells three kinds of problem apart: a character that cannot stand where it does, the end of the
text where more had to come, and a well written piece that is not what was asked for.

This file reads the pieces that have no parts: blanks, the three words, and strings. Each reader gives
back the text that is left, and the lemmas say that it is shorter, which is why the loops over these
readers end.
-/

namespace Motif.Json

/-- What is wrong with a text. -/
inductive Fault where
  /-- A character cannot stand where it does. -/
  | malformed
  /-- The text ends too early. -/
  | truncated
  /-- What is written is not what was asked for. -/
  | mismatched
deriving DecidableEq, Repr

namespace Fault

def message : Fault → String
  | malformed => "json syntax error"
  | truncated => "json eof error"
  | mismatched => "json data error"

end Fault

/-! ### Blanks and words -/

def isBlank (c : Char) : Bool := c = ' ' || c = '\t' || c = '\n' || c = '\r'

def skipBlank (text : List Char) : List Char := text.dropWhile isBlank

theorem length_skipBlank (text : List Char) : (skipBlank text).length ≤ text.length :=
  (List.dropWhile_suffix isBlank).length_le

def skipWord : (word text : List Char) → Except Fault (List Char)
  | [], text => .ok text
  | _ :: _, [] => .error .truncated
  | w :: word, c :: text => if c = w then skipWord word text else .error .malformed

theorem length_skipWord {word text rest : List Char} (h : skipWord word text = .ok rest) :
    rest.length ≤ text.length := by
  fun_induction skipWord word text with
  | case1 text =>
    obtain rfl := Except.ok.inj h
    exact Nat.le_refl _
  | case2 => contradiction
  | case3 w word text ih =>
    have := ih h
    rw [List.length_cons]
    omega
  | case4 => contradiction

/-- Passes over the blanks a text starts with and over one character after them. -/
def skipMark (mark : Char) (text : List Char) : Except Fault (List Char) :=
  match skipBlank text with
  | [] => .error .truncated
  | c :: rest => if c = mark then .ok rest else .error .malformed

theorem length_skipMark {mark : Char} {text rest : List Char}
    (h : skipMark mark text = .ok rest) : rest.length < text.length := by
  have hblank := length_skipBlank text
  rw [skipMark] at h
  split at h
  · contradiction
  · rename_i htext
    rw [htext, List.length_cons] at hblank
    split at h
    · cases h
      omega
    · contradiction

/-! ### Strings -/

def hexDigit? (c : Char) : Option Nat :=
  if '0' ≤ c ∧ c ≤ '9' then some (c.toNat - '0'.toNat)
  else if 'a' ≤ c ∧ c ≤ 'f' then some (c.toNat - 'a'.toNat + 10)
  else if 'A' ≤ c ∧ c ≤ 'F' then some (c.toNat - 'A'.toNat + 10)
  else none

def byteLength (text : List Char) : Nat := text.foldr (fun c n => c.utf8Size + n) 0

/-- Reads the four hexadecimal digits of a code unit. A text of fewer than four bytes ends too early;
what these bytes are is looked at only when all four are there. -/
def readUnit : List Char → Except Fault (Nat × List Char)
  | a :: b :: c :: d :: rest =>
    match hexDigit? a, hexDigit? b, hexDigit? c, hexDigit? d with
    | some a, some b, some c, some d => .ok (((a * 16 + b) * 16 + c) * 16 + d, rest)
    | _, _, _, _ => .error .malformed
  | text => if byteLength text < 4 then .error .truncated else .error .malformed

/-- Whether a code unit is the first of a pair that stands for one character. -/
def isLeading (unit : Nat) : Bool := 0xd800 ≤ unit && unit < 0xdc00

/-- Whether a code unit is the second of such a pair. -/
def isTrailing (unit : Nat) : Bool := 0xdc00 ≤ unit && unit < 0xe000

/-- The character that a pair of code units stands for. -/
def pairChar (leading trailing : Nat) : Char :=
  Char.ofNat (0x10000 + (leading - 0xd800) * 0x400 + (trailing - 0xdc00))

/-- Reads the second code unit of a pair, with its backslash. -/
def readTrailing (leading : Nat) : List Char → Except Fault (Char × List Char)
  | [] => .error .truncated
  | ['\\'] => .error .truncated
  | '\\' :: 'u' :: rest => do
    let (trailing, rest) ← readUnit rest
    if isTrailing trailing then return (pairChar leading trailing, rest) else .error .malformed
  | _ => .error .malformed

/-- The characters that a backslash and one more character stand for. -/
def shortEscapes : List (Char × Char) :=
  [('"', '"'), ('\\', '\\'), ('/', '/'), ('b', '\x08'), ('f', '\x0c'), ('n', '\n'), ('r', '\r'),
    ('t', '\t')]

/-- Reads what follows a backslash. Only a `strict` reader asks for the code units of a pair to come
together; for any other the character a lone unit is read as does not matter. -/
def readEscape (strict : Bool) : List Char → Except Fault (Char × List Char)
  | [] => .error .truncated
  | c :: rest =>
    if c = 'u' then do
      let (unit, rest) ← readUnit rest
      if strict && isTrailing unit then .error .malformed
      else if strict && isLeading unit then readTrailing unit rest
      else return (Char.ofNat unit, rest)
    else match shortEscapes.lookup c with
      | some short => .ok (short, rest)
      | none => .error .malformed

theorem length_readUnit {text rest : List Char} {unit : Nat}
    (h : readUnit text = .ok (unit, rest)) : rest.length < text.length := by
  rw [readUnit.eq_def] at h
  split at h
  · split at h
    · cases h
      simp only [List.length_cons]
      omega
    · contradiction
  · split at h <;> contradiction

theorem length_readTrailing {text rest : List Char} {leading : Nat} {c : Char}
    (h : readTrailing leading text = .ok (c, rest)) : rest.length < text.length := by
  rw [readTrailing.eq_def] at h
  split at h
  · contradiction
  · contradiction
  · obtain ⟨⟨trailing, after⟩, hread, h⟩ := bind_eq_ok.mp h
    have := length_readUnit hread
    dsimp only at h
    split at h
    · obtain ⟨_, rfl⟩ := Prod.mk.inj (Except.ok.inj h)
      simp only [List.length_cons]
      omega
    · contradiction
  · contradiction

theorem length_readEscape {strict : Bool} {text rest : List Char} {c : Char}
    (h : readEscape strict text = .ok (c, rest)) : rest.length < text.length := by
  rw [readEscape.eq_def] at h
  split at h
  · contradiction
  · split at h
    · obtain ⟨⟨unit, after⟩, hread, h⟩ := bind_eq_ok.mp h
      have := length_readUnit hread
      simp only [List.length_cons]
      dsimp only at h
      split at h
      · contradiction
      · split at h
        · have := length_readTrailing h
          omega
        · obtain ⟨_, rfl⟩ := Prod.mk.inj (Except.ok.inj h)
          omega
    · split at h
      · obtain ⟨_, rfl⟩ := Prod.mk.inj (Except.ok.inj h)
        simp
      · contradiction

/-- Reads a string after its opening quote. -/
def readString (strict : Bool) (text : List Char) : Except Fault (List Char × List Char) :=
  match text with
  | [] => .error .truncated
  | '"' :: rest => .ok ([], rest)
  | '\\' :: tail =>
    match _h : readEscape strict tail with
    | .error fault => .error fault
    | .ok (c, rest) => do
      let (content, rest) ← readString strict rest
      return (c :: content, rest)
  | c :: rest =>
    if c.toNat < 0x20 then .error .malformed
    else do
      let (content, rest) ← readString strict rest
      return (c :: content, rest)
termination_by text.length
decreasing_by
  · have := length_readEscape _h
    simp only [List.length_cons]
    omega
  · simp

theorem length_readString {strict : Bool} {text content rest : List Char}
    (h : readString strict text = .ok (content, rest)) : rest.length < text.length := by
  fun_induction readString strict text generalizing content with
  | case1 => contradiction
  | case2 tail =>
    cases h
    simp
  | case3 => contradiction
  | case4 tail c after hescape ih =>
    obtain ⟨read, hread, h⟩ := bind_eq_ok.mp h
    cases h
    have := length_readEscape hescape
    have := ih hread
    simp only [List.length_cons]
    omega
  | case5 => contradiction
  | case6 c tail _ _ _ ih =>
    obtain ⟨read, hread, h⟩ := bind_eq_ok.mp h
    cases h
    have := ih hread
    simp only [List.length_cons]
    omega

end Motif.Json
