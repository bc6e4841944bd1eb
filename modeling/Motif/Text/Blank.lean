/-!
# Blanks, lines and fields

Text is read line by line, and a line field by field. A line ends at a line feed, and a carriage
return right before that belongs to the line end. Fields are separated by blanks, the characters that
Unicode calls white space.
-/

namespace Motif.Text

/-- The characters that Unicode calls white space. -/
def blanks : List Nat :=
  [0x9, 0xa, 0xb, 0xc, 0xd, 0x20, 0x85, 0xa0, 0x1680, 0x2000, 0x2001, 0x2002, 0x2003, 0x2004, 0x2005,
    0x2006, 0x2007, 0x2008, 0x2009, 0x200a, 0x2028, 0x2029, 0x202f, 0x205f, 0x3000]

def isBlank (c : Char) : Bool := blanks.contains c.toNat

/-- A line without the carriage return at its end, if it has one. -/
def dropReturn (line : List Char) : List Char :=
  if line.getLast? = some '\r' then line.dropLast else line

/-- The lines of a text. There is none after a line feed that ends the text. -/
def lines (text : List Char) : List (List Char) :=
  match _h : text.dropWhile (· != '\n') with
  | [] => if text = [] then [] else [text]
  | _ :: rest => dropReturn (text.takeWhile (· != '\n')) :: lines rest
termination_by text.length
decreasing_by
  have := (List.dropWhile_suffix (l := text) (· != '\n')).length_le
  rw [_h, List.length_cons] at this
  omega

def before (mark : Char) (line : List Char) : List Char := line.takeWhile (· != mark)

def trim (line : List Char) : List Char :=
  ((line.dropWhile isBlank).reverse.dropWhile isBlank).reverse

/-- The fields of a line: its longest pieces without a blank. -/
def fields (line : List Char) : List (List Char) :=
  match _h : line.dropWhile isBlank with
  | [] => []
  | c :: rest => (c :: rest.takeWhile (!isBlank ·)) :: fields (rest.dropWhile (!isBlank ·))
termination_by line.length
decreasing_by
  have hline := (List.dropWhile_suffix (l := line) isBlank).length_le
  have hrest := (List.dropWhile_suffix (l := rest) (!isBlank ·)).length_le
  rw [_h, List.length_cons] at hline
  omega

end Motif.Text
