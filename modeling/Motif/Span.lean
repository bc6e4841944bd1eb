import Motif.Word

/-!
# Spans of rows

Work on the rows of a table is shared out in spans, half-open ranges of row numbers. `Span.split` cuts
the rows of a table into a given number of spans of equal length, except that the first one takes what
is left over as well. The spans lie one after another, and there may be more of them than rows.
-/

namespace Motif

/-- The rows from `lo` up to, but without, `hi`. -/
structure Span where
  lo : Nat
  hi : Nat
deriving DecidableEq, Repr

namespace Span

/-- The number of rows, as a word: the difference of the two ends. -/
def length (s : Span) : Nat := Word.sub s.hi s.lo

def isEmpty (s : Span) : Bool := s.lo == s.hi

def rows (s : Span) : List Nat := List.range' s.lo (s.hi - s.lo)

/-- `n` spans of `size` rows each, one after another from row `lo` on. -/
def consecutive (size : Nat) : (n lo : Nat) → List Span
  | 0, _ => []
  | n + 1, lo =>
    let hi := Word.add lo size
    ⟨lo, hi⟩ :: consecutive size n hi

/-- Cuts `rows` rows into `parts` spans, or into one when `parts` is zero. -/
def split (rows parts : Nat) : List Span :=
  let parts := max parts 1
  let size := rows / parts
  let first := Word.add size (rows % parts)
  ⟨0, first⟩ :: consecutive size (parts - 1) first

/-- Where the last of the given spans ends; without spans, at row zero. -/
def last (spans : List Span) : Nat := (spans.getLast?.map (·.hi)).getD 0

/-- The bytes that one span takes up. -/
def bytes : Nat := 16

/-- Cuts `rows` rows into `parts` spans, of which there must not be more than can be held. -/
def splitRows (rows parts : Nat) : Result (List Span) := do
  Word.fits (max parts 1) bytes
  return split rows parts

end Span

end Motif
