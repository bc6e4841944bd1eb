import Mathlib.Data.List.TakeWhile
import Motif.Text.Blank

/-!
# Lines and fields as pieces of a text

Lines and fields are cut off one after another. The same pieces come from cutting the whole text at once, at
its line feeds (`lines_eq_splitLines`), and a line at its blanks (`fields_eq_words`). That blanks around a line
do not matter, and that a line can be cut at any of its blanks, is then seen on the pieces.
-/

namespace Motif.Text

variable {line text rest gap : List Char} {c : Char}

/-! ### Lines -/

/-- The pieces between line feeds, without the carriage return that may stand right before a line feed. What
follows the last line feed is a line unless it is empty. -/
def splitLines (text : List Char) : List (List Char) :=
  (text.splitOn '\n').dropLast.map dropReturn ++ ((text.splitOn '\n').getLast?.filter (· ≠ [])).toList

theorem splitLines_of_not_mem (h : '\n' ∉ text) : splitLines text = if text = [] then [] else [text] := by
  have hsplit : text.splitOn '\n' = [text] := by
    rw [List.splitOn_eq_splitOnP]
    exact List.splitOnP_eq_singleton fun c hc => beq_eq_false_iff_ne.mpr fun heq => h (heq ▸ hc)
  rw [splitLines, hsplit]
  by_cases hempty : text = []
  · simp [hempty]
  · simp [hempty]

theorem splitLines_append (h : '\n' ∉ line) (rest : List Char) :
    splitLines (line ++ '\n' :: rest) = dropReturn line :: splitLines rest := by
  have hsplit : (line ++ '\n' :: rest).splitOn '\n' = line :: rest.splitOn '\n' := by
    rw [List.splitOn_eq_splitOnP, List.splitOn_eq_splitOnP]
    have hline : ∀ c ∈ line, (c == '\n') = false :=
      fun c hc => beq_eq_false_iff_ne.mpr fun heq => h (heq ▸ hc)
    exact List.splitOnP_append_cons_of_forall_mem hline _ (beq_self_eq_true _) rest
  have hne : rest.splitOn '\n' ≠ [] := List.splitOnP_ne_nil _ rest
  rw [splitLines, hsplit, List.dropLast_cons_of_ne_nil hne, List.getLast?_cons_of_ne_nil hne]
  rfl

theorem not_mem_takeWhile (mark : Char) (text : List Char) : mark ∉ text.takeWhile (· != mark) := by
  intro hmem
  have hmark := List.mem_takeWhile_imp hmem
  simp at hmark

theorem lines_eq_splitLines (text : List Char) : lines text = splitLines text := by
  fun_induction lines text with
  | case1 htext => rfl
  | case2 text hnone hne =>
    have hall : '\n' ∉ text := by
      intro hmem
      have := List.dropWhile_eq_nil_iff.mp hnone _ hmem
      simp at this
    rw [splitLines_of_not_mem hall, if_neg hne]
  | case3 text c rest hrest ih =>
    -- the text is its first line, a line feed, and the rest
    have hc : c = '\n' := by
      have := List.head?_dropWhile_not (· != '\n') text
      rw [hrest] at this
      simpa using this
    have htext := List.takeWhile_append_dropWhile (p := (· != '\n')) (l := text)
    rw [hrest, hc] at htext
    calc dropReturn (text.takeWhile (· != '\n')) :: lines rest
        = splitLines (text.takeWhile (· != '\n') ++ '\n' :: rest) := by
          rw [ih, splitLines_append (not_mem_takeWhile '\n' text)]
      _ = splitLines text := by rw [htext]

theorem dropReturn_of_not_mem (h : '\r' ∉ line) : dropReturn line = line :=
  if_neg fun hlast => h (List.mem_of_getLast? hlast)

/-- Lines that are each ended by a line feed are the lines of the text that they make. -/
theorem splitLines_flatMap {all : List (List Char)} (h : ∀ line ∈ all, '\n' ∉ line ∧ '\r' ∉ line) :
    splitLines (all.flatMap (· ++ ['\n'])) = all := by
  induction all with
  | nil => exact splitLines_of_not_mem List.not_mem_nil
  | cons line all ih =>
    obtain ⟨⟨hfeed, hreturn⟩, hall⟩ := List.forall_mem_cons.mp h
    rw [List.flatMap_cons, List.append_assoc, List.singleton_append, splitLines_append hfeed,
      dropReturn_of_not_mem hreturn, ih hall]

/-! ### Fields -/

/-- The pieces between blanks that are not empty. -/
def words (line : List Char) : List (List Char) := (line.splitOnP isBlank).filter (· ≠ [])

theorem words_append (hc : isBlank c = true) (line rest : List Char) :
    words (line ++ c :: rest) = words line ++ words rest := by
  rw [words, List.splitOnP_append_cons _ _ hc, List.filter_append]
  rfl

theorem words_nil : words [] = [] := by
  simp [words]

theorem words_of_forall (hne : line ≠ []) (h : ∀ c ∈ line, isBlank c = false) : words line = [line] := by
  rw [words, List.splitOnP_eq_singleton h]
  simp [hne]

theorem words_append_gap (h : ∀ c ∈ gap, isBlank c = true) (line : List Char) : words (line ++ gap) = words line := by
  induction gap generalizing line with
  | nil => rw [List.append_nil]
  | cons c gap ih =>
    have hgap := ih (fun c' hc' => h c' (List.mem_cons_of_mem _ hc')) []
    rw [words_append (h c List.mem_cons_self), ← List.nil_append gap, hgap, words_nil, List.append_nil]

theorem words_gap_append (h : ∀ c ∈ gap, isBlank c = true) (line : List Char) : words (gap ++ line) = words line := by
  induction gap with
  | nil => rfl
  | cons c gap ih =>
    have hfirst : words (c :: (gap ++ line)) = words (gap ++ line) := words_append (h c List.mem_cons_self) [] _
    rw [List.cons_append, hfirst, ih fun c' hc' => h c' (List.mem_cons_of_mem _ hc')]

/-- Blanks in front of a line are not part of a field. -/
theorem words_dropWhile (line : List Char) : words (line.dropWhile isBlank) = words line := by
  have hgap : ∀ c ∈ line.takeWhile isBlank, isBlank c = true := fun c hc => List.mem_takeWhile_imp hc
  have hwords := words_gap_append hgap (line.dropWhile isBlank)
  rw [List.takeWhile_append_dropWhile] at hwords
  exact hwords.symm

/-- Blanks around a line are not part of a field. -/
theorem words_trim (line : List Char) : words (trim line) = words line := by
  rw [trim, ← words_dropWhile line]
  generalize line.dropWhile isBlank = line
  have hparts : (line.reverse.dropWhile isBlank).reverse ++ (line.reverse.takeWhile isBlank).reverse = line := by
    rw [← List.reverse_append, List.takeWhile_append_dropWhile, List.reverse_reverse]
  have hgap : ∀ c ∈ (line.reverse.takeWhile isBlank).reverse, isBlank c = true :=
    fun c hc => List.mem_takeWhile_imp (List.mem_reverse.mp hc)
  have hwords := words_append_gap hgap (line.reverse.dropWhile isBlank).reverse
  rwa [hparts, eq_comm] at hwords

theorem fields_eq_words (line : List Char) : fields line = words line := by
  fun_induction fields line with
  | case1 line hnone =>
    rw [← words_dropWhile, hnone, words_nil]
  | case2 line c rest hrest ih =>
    have hc : isBlank c = false := by
      have := List.head?_dropWhile_not isBlank line
      rw [hrest] at this
      simpa using this
    have hword : ∀ c' ∈ c :: rest.takeWhile (!isBlank ·), isBlank c' = false := by
      refine List.forall_mem_cons.mpr ⟨hc, fun c' hc' => ?_⟩
      simpa using List.mem_takeWhile_imp hc'
    have hfirst := words_of_forall (List.cons_ne_nil _ _) hword
    have hparts := List.takeWhile_append_dropWhile (p := (!isBlank ·)) (l := rest)
    rw [← words_dropWhile line, hrest, ih]
    -- what follows the first field is nothing or starts with a blank
    cases hafter : rest.dropWhile (!isBlank ·) with
    | nil =>
      rw [hafter, List.append_nil] at hparts
      rw [hparts] at hfirst ⊢
      rw [hfirst, words_nil]
    | cons b after =>
      have hb : isBlank b = true := by
        have := List.head?_dropWhile_not (!isBlank ·) rest
        rw [hafter] at this
        simpa using this
      have hblank : words (b :: after) = words after := words_append hb [] after
      have hsecond := words_append hb (c :: rest.takeWhile (!isBlank ·)) after
      rw [hafter] at hparts
      rw [List.cons_append, hparts, hfirst] at hsecond
      rw [hsecond, hblank]
      rfl

end Motif.Text
