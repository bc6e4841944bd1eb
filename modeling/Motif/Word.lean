import Motif.Failure

/-!
# Machine words and memory

Vertices, positions and sizes are natural numbers below `2 ^ 64`. Most of the library never leaves
that range, and computes with `Nat`. This file holds the operations for the few places where the
bound can be met: sums and products that wrap around, sums and products that are refused when they
do not fit, and the rule that decides whether a buffer of words can be had.
-/

namespace Motif.Word

/-- The number of machine words, `2 ^ 64`. -/
def bound : Nat := 18446744073709551616

/-- The number of bytes from which on an object cannot be addressed, `2 ^ 63`. -/
def addressable : Nat := 9223372036854775808

/-- The sum of two words, taken around the end of the range. -/
def add (a b : Nat) : Nat := (a + b) % bound

/-- The difference of two words, taken around the end of the range. -/
def sub (a b : Nat) : Nat := (a + (bound - b)) % bound

/-- The product of two words, taken around the end of the range. -/
def mul (a b : Nat) : Nat := a * b % bound

def total (ns : List Nat) : Nat := ns.foldr (· + ·) 0

/-- The sum of two words, refused for `buffer` when it is not a word. -/
def addFor (buffer : String) (a b : Nat) : Result Nat :=
  if a + b < bound then .ok (a + b) else refuse (.capacity buffer)

/-- The product of two words, refused for `buffer` when it is not a word. -/
def mulFor (buffer : String) (a b : Nat) : Result Nat :=
  if a * b < bound then .ok (a * b) else refuse (.capacity buffer)

/-- The number of words from which on no memory is large enough, `2 ^ 50`. -/
def shortageFrom : Nat := 1125899906842624

/-- Asks for a buffer of `count` words of eight bytes: refused when it cannot be addressed, or when
no memory is that large. -/
def reserve (count : Nat) : Result Unit :=
  if addressable ≤ 8 * count then refuse (.allocation .beyondLimit)
  else if shortageFrom ≤ count then refuse (.allocation .exhausted)
  else .ok ()

/-- A collection of `count` entries of `bytes` bytes each has to be addressable. -/
def fits (count bytes : Nat) : Result Unit := rely (count * bytes < addressable) .oversize

@[simp] theorem reserve_of_lt {count : Nat} (h : count < shortageFrom) :
    reserve count = .ok () := by
  have h1 : ¬ addressable ≤ 8 * count := by simp only [addressable, shortageFrom] at *; omega
  have h2 : ¬ shortageFrom ≤ count := Nat.not_le.mpr h
  simp [reserve, h1, h2]

theorem add_of_lt {a b : Nat} (h : a + b < bound) : add a b = a + b := Nat.mod_eq_of_lt h

theorem sub_of_le {a b : Nat} (hab : b ≤ a) (ha : a < bound) : sub a b = a - b := by
  have hb : b < bound := Nat.lt_of_le_of_lt hab ha
  have : a + (bound - b) = (a - b) + bound := by omega
  rw [sub, this, Nat.add_mod_right, Nat.mod_eq_of_lt (by omega)]

theorem mul_of_lt {a b : Nat} (h : a * b < bound) : mul a b = a * b := Nat.mod_eq_of_lt h

end Motif.Word
