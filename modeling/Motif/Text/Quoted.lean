import Motif.Text.Hidden

/-!
# Quoted text

A message that repeats a piece of its input puts it in double quotes, in such a way that every
character can be seen. The quote and the backslash get a backslash, four common controls have short
names, and every other hidden character is given by its code point in hexadecimal.
-/

namespace Motif.Text

/-- The digits of a number to base sixteen, in lower case and without leading zeros. -/
def hexDigits (n : Nat) : List Char :=
  if n < 16 then [Nat.digitChar n] else hexDigits (n / 16) ++ [Nat.digitChar (n % 16)]

/-- A character as it is written between quotes. -/
def quoteChar (c : Char) : List Char :=
  if c = '\x00' then ['\\', '0']
  else if c = '\t' then ['\\', 't']
  else if c = '\r' then ['\\', 'r']
  else if c = '\n' then ['\\', 'n']
  else if c = '\\' ∨ c = '"' then ['\\', c]
  else if isHidden c then ['\\', 'u', '\x7b'] ++ hexDigits c.toNat ++ ['\x7d']
  else [c]

def quote (text : List Char) : List Char := '"' :: text.flatMap quoteChar ++ ['"']

end Motif.Text
