import Motif.Json.Lexeme
import Motif.Decimal

/-!
# Numbers in JSON

A number has an optional minus sign, digits without a superfluous zero in front, and optionally a
fraction and an exponent. `scanNumeral` reads that form and keeps the digits; `Numeral.value` says
which numbers are machine words.

Every other number is only looked at for its size. A reader that evaluates numbers in the 53 bits of
binary floating point takes the largest part of the digits that is a word, scales it by a power of ten,
and turns down a number that comes out infinite: `Numeral.overflows` decides that in exact arithmetic.
-/

namespace Motif.Json

/-- A number as it is written. -/
structure Numeral where
  negative : Bool
  whole : List Nat
  fraction : List Nat
  /-- Whether the exponent is negative, and its digits. -/
  exponent : Option (Bool × List Nat)
deriving DecidableEq, Repr

/-! ### The form of a number -/

def scanDigits : List Char → List Nat × List Char
  | [] => ([], [])
  | c :: rest =>
    match Decimal.digit? c with
    | some d =>
      let (digits, rest) := scanDigits rest
      (d :: digits, rest)
    | none => ([], c :: rest)

/-- Reads at least one digit; `atEnd` is the fault when the text ends instead. -/
def scanSomeDigits (atEnd : Fault) (text : List Char) : Except Fault (List Nat × List Char) :=
  match scanDigits text with
  | ([], []) => .error atEnd
  | ([], _) => .error .malformed
  | digits => .ok digits

def scanMinus : List Char → Bool × List Char
  | '-' :: rest => (true, rest)
  | text => (false, text)

/-- Reads the sign of an exponent, if there is one, and says whether it is negative. -/
def scanSign : List Char → Bool × List Char
  | '-' :: rest => (true, rest)
  | '+' :: rest => (false, rest)
  | text => (false, text)

def scanExponent (atEnd : Fault) : List Char → Except Fault (Option (Bool × List Nat) × List Char)
  | [] => return (none, [])
  | c :: rest =>
    if c = 'e' ∨ c = 'E' then do
      let (digits, after) ← scanSomeDigits atEnd (scanSign rest).2
      return (some ((scanSign rest).1, digits), after)
    else return (none, c :: rest)

def scanFraction (atEnd : Fault) : List Char → Except Fault (List Nat × List Char)
  | '.' :: rest => scanSomeDigits atEnd rest
  | text => .ok ([], text)

/-- Reads the digits before the point. A zero stands alone. -/
def scanWhole (atEnd : Fault) (text : List Char) : Except Fault (List Nat × List Char) := do
  match ← scanSomeDigits atEnd text with
  | (0 :: _ :: _, _) => .error .malformed
  | digits => return digits

/-- Reads a number; `atEnd` is the fault when the text ends in the middle of it. -/
def scanNumeral (atEnd : Fault) (text : List Char) : Except Fault (Numeral × List Char) := do
  let (whole, rest) ← scanWhole atEnd (scanMinus text).2
  let (fraction, rest) ← scanFraction atEnd rest
  let (exponent, rest) ← scanExponent atEnd rest
  return (⟨(scanMinus text).1, whole, fraction, exponent⟩, rest)

theorem length_scanDigits (text : List Char) :
    (scanDigits text).1.length + (scanDigits text).2.length = text.length := by
  induction text with
  | nil => rfl
  | cons c rest ih =>
    rw [scanDigits]
    split
    · simp only [List.length_cons]
      omega
    · simp

theorem length_scanSomeDigits {atEnd : Fault} {text rest : List Char} {digits : List Nat}
    (h : scanSomeDigits atEnd text = .ok (digits, rest)) : rest.length < text.length := by
  have hlength := length_scanDigits text
  rw [scanSomeDigits] at h
  split at h
  · contradiction
  · contradiction
  · rename_i hne1 hne2
    have h := Except.ok.inj h
    rw [h] at hlength hne1 hne2
    cases digits with
    | nil =>
      cases rest with
      | nil => exact absurd rfl hne1
      | cons c rest => exact absurd rfl (hne2 _)
    | cons d digits =>
      simp only [List.length_cons] at hlength
      omega

theorem length_scanMinus (text : List Char) : (scanMinus text).2.length ≤ text.length := by
  rw [scanMinus.eq_def]
  split <;> simp

theorem length_scanSign (text : List Char) : (scanSign text).2.length ≤ text.length := by
  rw [scanSign.eq_def]
  split <;> simp

theorem length_scanWhole {atEnd : Fault} {text rest : List Char} {digits : List Nat}
    (h : scanWhole atEnd text = .ok (digits, rest)) : rest.length < text.length := by
  obtain ⟨scanned, hscanned, h⟩ := bind_eq_ok.mp h
  split at h
  · contradiction
  · cases h
    exact length_scanSomeDigits hscanned

theorem length_scanFraction {atEnd : Fault} {text rest : List Char} {digits : List Nat}
    (h : scanFraction atEnd text = .ok (digits, rest)) : rest.length ≤ text.length := by
  rw [scanFraction.eq_def] at h
  split at h
  · have := length_scanSomeDigits h
    simp only [List.length_cons]
    omega
  · cases h
    exact Nat.le_refl _

theorem length_scanExponent {atEnd : Fault} {text rest : List Char}
    {exponent : Option (Bool × List Nat)}
    (h : scanExponent atEnd text = .ok (exponent, rest)) : rest.length ≤ text.length := by
  cases text with
  | nil =>
    cases h
    exact Nat.le_refl _
  | cons c tail =>
    rw [scanExponent] at h
    split at h
    · obtain ⟨scanned, hscanned, h⟩ := bind_eq_ok.mp h
      cases h
      have := length_scanSomeDigits hscanned
      have := length_scanSign tail
      simp only [List.length_cons]
      omega
    · cases h
      exact Nat.le_refl _

theorem length_scanNumeral {atEnd : Fault} {text rest : List Char} {numeral : Numeral}
    (h : scanNumeral atEnd text = .ok (numeral, rest)) : rest.length < text.length := by
  obtain ⟨whole, hwhole, h⟩ := bind_eq_ok.mp h
  obtain ⟨fraction, hfraction, h⟩ := bind_eq_ok.mp h
  obtain ⟨exponent, hexponent, h⟩ := bind_eq_ok.mp h
  cases h
  have := length_scanMinus text
  have := length_scanWhole hwhole
  have := length_scanFraction hfraction
  have := length_scanExponent hexponent
  omega

/-! ### The value of a number -/

def digitsValue (digits : List Nat) : Nat := digits.foldl (fun value d => value * 10 + d) 0

/-- Appends digits to a value as long as it stays a word, and gives the digits left over. -/
def absorb (value : Nat) : List Nat → Nat × List Nat
  | [] => (value, [])
  | d :: digits =>
    if value * 10 + d < Word.bound then absorb (value * 10 + d) digits else (value, d :: digits)

/-- A number rounded to 53 significant bits, to an even last bit when it lies in the middle. -/
def roundedToDouble (n : Nat) : Nat :=
  let shift := n.log2 + 1 - 53
  let unit := Nat.pow 2 shift
  let rest := n % unit
  let kept := n / unit
  let up := unit < 2 * rest ∨ 2 * rest = unit ∧ kept % 2 = 1
  (if up then kept + 1 else kept) * unit

/-- The least number that floating point rounds to infinity: half a unit below `2 ^ 1024`. -/
def infiniteFrom : Nat := Nat.pow 2 1024 - Nat.pow 2 970

/-- Whether `significand * 10 ^ scale`, with both factors and the product rounded to floating point,
is infinite. The largest power of ten there is in floating point has the exponent 308. -/
def isInfinite (significand : Nat) (scale : Int) : Bool :=
  if significand = 0 ∨ scale < 0 then false
  else if 308 < scale then true
  else
    decide (infiniteFrom ≤
      roundedToDouble significand * roundedToDouble (Nat.pow 10 scale.toNat))

namespace Numeral

/-- Whether the number is too large for floating point. -/
def overflows (n : Numeral) : Bool :=
  let (significand, left) := absorb 0 n.whole
  let (significand, unused) := absorb significand n.fraction
  let scale : Int := (left.length : Int) - ((n.fraction.length : Int) - (unused.length : Int))
  let exponent : Int := match n.exponent with
    | some (true, digits) => -(digitsValue digits : Int)
    | some (false, digits) => (digitsValue digits : Int)
    | none => 0
  isInfinite significand (scale + exponent)

/-- The number as a machine word. A number with a sign, a fraction or an exponent is none, whatever
its value; one that is too large for floating point is not a number. -/
def value (n : Numeral) : Except Fault Nat :=
  if n.overflows then .error .malformed
  else if n.negative ∨ n.fraction ≠ [] ∨ n.exponent.isSome then .error .mismatched
  else if digitsValue n.whole < Word.bound then .ok (digitsValue n.whole)
  else .error .mismatched

end Numeral

end Motif.Json
