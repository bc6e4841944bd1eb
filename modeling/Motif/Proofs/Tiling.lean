import Mathlib.Data.List.Basic
import Motif.Span
import Motif.Word

/-!
# Spans that cover all rows

Spans tile a range of rows when each of them starts where the one before it ended. The rows of such spans
are the rows of the range, each once and in order (`Tiles.flatMap_rows`), and the spans a search works
with tile the rows of its table (`tiles_split`).
-/

namespace Motif.Span

/-- The spans lie one after another from row `lo` to row `hi`. Spans without rows may be among them. -/
def Tiles : List Span → (lo hi : Nat) → Prop
  | [], lo, hi => lo = hi
  | span :: spans, lo, hi => span.lo = lo ∧ lo ≤ span.hi ∧ Tiles spans span.hi hi

variable {spans : List Span} {lo hi : Nat}

theorem mem_rows {span : Span} {i : Nat} : i ∈ span.rows ↔ span.lo ≤ i ∧ i < span.hi := by
  rw [rows, List.mem_range'_1]
  omega

/-- The rows of a span, with one of them picked out. -/
theorem rows_eq_append {span : Span} {i : Nat} (hlo : span.lo ≤ i) (hhi : i < span.hi) :
    span.rows = List.range' span.lo (i - span.lo) ++ i :: List.range' (i + 1) (span.hi - (i + 1)) := by
  have hjoin := @List.range'_append_1 span.lo (i - span.lo) (span.hi - i)
  rw [show span.lo + (i - span.lo) = i by omega,
    show i - span.lo + (span.hi - i) = span.hi - span.lo by omega,
    show span.hi - i = span.hi - (i + 1) + 1 by omega, List.range'_succ] at hjoin
  exact hjoin.symm

namespace Tiles

theorem le (h : Tiles spans lo hi) : lo ≤ hi := by
  induction spans generalizing lo with
  | nil => exact Nat.le_of_eq h
  | cons span spans ih =>
    obtain ⟨_, hle, htail⟩ := h
    exact Nat.le_trans hle (ih htail)

theorem bounds (h : Tiles spans lo hi) : ∀ span ∈ spans, span.lo ≤ span.hi ∧ span.hi ≤ hi := by
  induction spans generalizing lo with
  | nil => simp
  | cons span spans ih =>
    obtain ⟨rfl, hle, htail⟩ := h
    intro s hs
    rcases List.mem_cons.mp hs with rfl | hs
    · exact ⟨hle, htail.le⟩
    · exact ih htail s hs

theorem flatMap_rows (h : Tiles spans lo hi) : spans.flatMap rows = List.range' lo (hi - lo) := by
  induction spans generalizing lo with
  | nil =>
    obtain rfl : lo = hi := h
    simp
  | cons span spans ih =>
    obtain ⟨rfl, hle, htail⟩ := h
    have hend := htail.le
    have hjoin := @List.range'_append_1 span.lo (span.hi - span.lo) (hi - span.hi)
    rw [show span.lo + (span.hi - span.lo) = span.hi by omega,
      show span.hi - span.lo + (hi - span.hi) = hi - span.lo by omega] at hjoin
    rw [List.flatMap_cons, ih htail, rows, hjoin]

/-- From row zero on, the rows are those of the table. -/
theorem flatMap_rows_zero (h : Tiles spans 0 hi) : spans.flatMap rows = List.range hi := by
  rw [h.flatMap_rows, List.range_eq_range', Nat.sub_zero]

/-- A row of the range lies in one of the spans, and the spans before that one end before the row. -/
theorem exists_span (h : Tiles spans lo hi) {i : Nat} (hlo : lo ≤ i) (hhi : i < hi) :
    ∃ before span after, spans = before ++ span :: after ∧ span.lo ≤ i ∧ i < span.hi ∧
      ∀ earlier ∈ before, earlier.hi ≤ i := by
  induction spans generalizing lo with
  | nil =>
    obtain rfl : lo = hi := h
    omega
  | cons span spans ih =>
    obtain ⟨rfl, hle, htail⟩ := h
    by_cases hi' : i < span.hi
    · exact ⟨[], span, spans, rfl, hlo, hi', by simp⟩
    · have hge := Nat.not_lt.mp hi'
      obtain ⟨before, found, after, rfl, hbounds, hlt, hbefore⟩ := ih htail hge
      refine ⟨span :: before, found, after, rfl, hbounds, hlt, ?_⟩
      intro earlier hearlier
      rcases List.mem_cons.mp hearlier with rfl | hearlier
      · exact hge
      · exact hbefore earlier hearlier

theorem last_eq (h : Tiles spans lo hi) : (spans.getLast?.map (·.hi)).getD lo = hi := by
  induction spans generalizing lo with
  | nil => exact h
  | cons span spans ih =>
    obtain ⟨_, _, htail⟩ := h
    rw [← ih htail, List.getLast?_cons]
    cases spans.getLast? with
    | none => rfl
    | some last => rfl

/-- From row zero on, the last span ends where the rows end, also when there are no spans. -/
theorem last_zero (h : Tiles spans 0 hi) : Span.last spans = hi := h.last_eq

end Tiles

/-! ### The spans of a search -/

theorem tiles_consecutive {size n lo : Nat} (h : lo + n * size < Word.bound) :
    Tiles (consecutive size n lo) lo (lo + n * size) := by
  induction n generalizing lo with
  | zero => simp [consecutive, Tiles]
  | succ n ih =>
    rw [Nat.succ_mul] at h ⊢
    have hnext : Word.add lo size = lo + size := Word.add_of_lt (by omega)
    have htail : Tiles (consecutive size n (lo + size)) (lo + size) (lo + size + n * size) :=
      ih (by omega)
    rw [show lo + size + n * size = lo + (n * size + size) by omega] at htail
    rw [consecutive, hnext]
    exact ⟨rfl, Nat.le_add_right lo size, htail⟩

/-- The first span, and the others after it, end where the rows end. -/
theorem first_add_others (rows parts : Nat) :
    rows / max parts 1 + rows % max parts 1 + (max parts 1 - 1) * (rows / max parts 1) = rows := by
  obtain ⟨others, hparts⟩ : ∃ others, max parts 1 = others + 1 := ⟨max parts 1 - 1, by omega⟩
  have hrows := Nat.div_add_mod' rows (others + 1)
  rw [Nat.mul_succ, Nat.mul_comm] at hrows
  rw [hparts, Nat.add_sub_cancel]
  omega

theorem first_lt_bound {rows : Nat} (parts : Nat) (h : rows < Word.bound) :
    rows / max parts 1 + rows % max parts 1 < Word.bound := by
  have hend := first_add_others rows parts
  omega

/-- The first span takes what is left over, and so all spans together end where the rows end. -/
theorem tiles_split {rows : Nat} (parts : Nat) (h : rows < Word.bound) :
    Tiles (split rows parts) 0 rows := by
  have hend := first_add_others rows parts
  have htail := tiles_consecutive (hend.symm ▸ h)
  rw [hend] at htail
  rw [split, Word.add_of_lt (first_lt_bound parts h)]
  exact ⟨rfl, Nat.zero_le _, htail⟩

end Motif.Span
