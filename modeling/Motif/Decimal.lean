import Motif.Word

/-!
# Decimal numbers

Numbers are written with the digits `0` to `9` and nothing else. A number that is read may have zeros
and one plus sign in front, and it has to be a machine word. Reading goes digit by digit and stops at
the first character that does not fit, whichever way it fails to: a character that is no digit, or a
digit that makes the number too large.
-/

namespace Motif.Decimal

inductive Fault where
  | empty
  /-- A character is no digit, or a sign stands alone. -/
  | invalidDigit
  /-- The number is not a machine word. -/
  | tooLarge
deriving DecidableEq, Repr

namespace Fault

def message : Fault → String
  | empty => "cannot parse integer from empty string"
  | invalidDigit => "invalid digit found in string"
  | tooLarge => "number too large to fit in target type"

end Fault

def digitChar (d : Nat) : Char := Char.ofNat ('0'.toNat + d)

def digit? (c : Char) : Option Nat :=
  if '0' ≤ c ∧ c ≤ '9' then some (c.toNat - '0'.toNat) else none

/-- The digits of a number, without leading zeros. -/
def render (n : Nat) : List Char :=
  if n < 10 then [digitChar n] else render (n / 10) ++ [digitChar (n % 10)]

/-- Reads digits after those that make up `value`. -/
def readDigits (value : Nat) : List Char → Except Fault Nat
  | [] => return value
  | c :: rest =>
    match digit? c with
    | none => .error .invalidDigit
    | some d =>
      if value * 10 + d < Word.bound then readDigits (value * 10 + d) rest else .error .tooLarge

def readWord : List Char → Except Fault Nat
  | [] => .error .empty
  | ['+'] => .error .invalidDigit
  | '+' :: digits => readDigits 0 digits
  | digits => readDigits 0 digits

end Motif.Decimal
