import Motif.Word

/-!
# Rows in one buffer

A table whose rows differ in length is kept as two arrays. `values` holds the rows one after another,
and `offsets` says where each row starts; its last entry says where the last row ends. A table of
`n` rows therefore has `n + 1` offsets. This is the compressed form in which the library keeps the
adjacency of a graph, the candidates of a step, and every table of partial matches.

`Rows.Wf` is the invariant that makes the two arrays a table. `Rows.toLists` is the table itself, and
the lemmas beside this file say what each operation does to it.
-/

namespace Motif

/-- Rows of varying length in one flat buffer. -/
structure Rows (α : Type) where
  /-- Where each row starts, followed by where the last one ends. -/
  offsets : Array Nat
  /-- The rows, one after another. -/
  values : Array α
deriving DecidableEq, Repr

/-- What a step that appends to a buffer leaves behind, whether it stopped or not. -/
structure Appended (α σ : Type) where
  outcome : Result Unit
  state : σ
  buffer : Array α

namespace Rows

variable {α σ : Type}

/-- The offsets start at zero, never decrease, and end at the number of values. -/
structure Wf (r : Rows α) : Prop where
  first : r.offsets[0]? = some 0
  ascending : r.offsets.toList.Pairwise (· ≤ ·)
  last : r.offsets.back? = some r.values.size

def empty : Rows α := ⟨#[0], #[]⟩

def count (r : Rows α) : Nat := r.offsets.size - 1

def size (r : Rows α) : Nat := r.values.size

/-- Whether there are no values; rows there may be. -/
def isEmpty (r : Rows α) : Bool := r.values.isEmpty

/-! ### Reading rows -/

/-- Where row `i` starts in the buffer. -/
def start (r : Rows α) (i : Nat) : Nat := r.offsets.getD i 0

/-- The values of row `i`; none when there is no such row. -/
def row (r : Rows α) (i : Nat) : List α :=
  (r.values.extract (r.start i) (r.start (i + 1))).toList

def toLists (r : Rows α) : List (List α) := (List.range r.count).map r.row

def row? (r : Rows α) (i : Nat) : Option (List α) :=
  if i < r.count then some (r.row i) else none

/-- The values of row `i`, which has to exist. -/
def rowAt (r : Rows α) (i : Nat) : Result (List α) :=
  if i < r.count then .ok (r.row i) else breach (.row i)

/-- Where row `i`, which has to exist, starts and ends. -/
def rowRange (r : Rows α) (i : Nat) : Result (Nat × Nat) :=
  if i < r.count then .ok (r.start i, r.start (i + 1)) else breach (.row i)

def rowLength (r : Rows α) (i : Nat) : Result Nat := do
  let (start, stop) ← r.rowRange i
  return stop - start

/-! ### Building rows -/

/-- Appends one row that `fill` writes to the end of the buffer, and gives the state `fill` ends in.
When `fill` is refused, what it wrote is taken back. When it breaks a condition nothing is put in order:
what it wrote stays in the buffer, and no offset tells of it. -/
def pushWith (r : Rows α) (fill : Array α → Appended α σ) : Rows α × Result σ :=
  match r with
  | ⟨offsets, values⟩ =>
    let start := values.size
    match fill values with
    | ⟨.ok (), state, values⟩ => (⟨offsets.push values.size, values⟩, .ok state)
    | ⟨.error (.refused cause), _, values⟩ => (⟨offsets, values.shrink start⟩, refuse cause)
    | ⟨.error (.broken cause), _, values⟩ => (⟨offsets, values⟩, breach cause)

def push (r : Rows α) (row : List α) : Rows α :=
  (r.pushWith fun values => ⟨.ok (), (), values ++ row⟩).1

def ofLists (rows : List (List α)) : Rows α := rows.foldl push empty

/-- No rows yet, with room for `rows` rows and `values` values. The first offset is there already,
so only further rows ask for memory. -/
def withRoom (rows values : Nat) : Result (Rows α) := do
  Word.reserve (if rows = 0 then 0 else rows + 1)
  Word.reserve values
  return empty

/-- The index, counted from `i`, of the first entry that is larger than the next one. -/
def firstDrop (i : Nat) : List Nat → Option Nat
  | a :: b :: rest => if b < a then some i else firstDrop (i + 1) (b :: rest)
  | _ => none

/-- Takes two arrays as a table after checking that they are one. -/
def ofParts (offsets : Array Nat) (values : Array α) : Except Mismatch (Rows α) :=
  match offsets.toList with
  | [] => .error .noOffsets
  | first :: rest =>
    if first ≠ 0 then .error (.firstOffset first)
    else match firstDrop 0 (first :: rest) with
      | some row => .error (.offsetsDecrease row)
      | none =>
        if rest.getLastD first = values.size then .ok ⟨offsets, values⟩
        else .error (.lastOffset (rest.getLastD first) values.size)

/-- Cuts a buffer into rows of one width. -/
def uniform (width : Nat) (values : Array α) : Result (Rows α) :=
  if width = 0 then
    if values.isEmpty then .ok empty else refuse (.mismatch .zeroWidth)
  else if values.size % width ≠ 0 then refuse (.mismatch (.unevenWidth values.size width))
  else do
    let rows := values.size / width
    Word.reserve (← Word.addFor "row offsets" rows 1)
    return ⟨(Array.range (rows + 1)).map (· * width), values⟩

end Rows

end Motif
