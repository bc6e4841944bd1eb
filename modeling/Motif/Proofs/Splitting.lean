import Mathlib.Data.List.Chain
import Motif.Proofs.Tiling
import Motif.Proofs.Yields

/-!
# Spans of equal length

`Span.splitRows` cuts the rows of a table into as many spans as it is asked for, one after another, and each row lies in
one of them (`splitRows_exact`). The spans have one length, except that the first takes what is left over.

All of it stays among the machine words: `splitChecked` cuts the rows in the same way, but turns down every sum that is
no word, and gives the same spans (`splitChecked_eq`). No sum on the way is larger than the number of rows.
-/

namespace Motif.Span

variable {spans : List Span} {lo hi size n rows parts : Nat}

/-! ### Rows in spans that tile -/

namespace Tiles

theorem isChain (h : Tiles spans lo hi) : spans.IsChain fun a b => a.hi = b.lo := by
  induction spans generalizing lo with
  | nil => exact .nil
  | cons span spans ih =>
    obtain ⟨_, _, htail⟩ := h
    cases spans with
    | nil => exact .singleton span
    | cons next spans => exact .cons_cons htail.1.symm (ih htail)

theorem le_lo (h : Tiles spans lo hi) : ∀ span ∈ spans, lo ≤ span.lo := by
  induction spans generalizing lo with
  | nil => simp
  | cons span spans ih =>
    obtain ⟨rfl, hle, htail⟩ := h
    intro s hs
    rcases List.mem_cons.mp hs with rfl | hs
    · exact Nat.le_refl _
    · exact hle.trans (ih htail s hs)

/-- A span ends before every later one starts. -/
theorem pairwise (h : Tiles spans lo hi) : spans.Pairwise fun a b => a.hi ≤ b.lo := by
  induction spans generalizing lo with
  | nil => exact .nil
  | cons span spans ih =>
    obtain ⟨_, _, htail⟩ := h
    exact List.pairwise_cons.mpr ⟨htail.le_lo, ih htail⟩

theorem existsUnique_index (h : Tiles spans lo hi) {r : Nat} (hlo : lo ≤ r) (hhi : r < hi) :
    ∃! i : Nat, ∃ span : Span, spans[i]? = some span ∧ span.lo ≤ r ∧ r < span.hi := by
  obtain ⟨before, span, after, rfl, hfrom, hto, _⟩ := h.exists_span hlo hhi
  refine ⟨before.length, ⟨span, by simp, hfrom, hto⟩, ?_⟩
  -- two spans with the row would overlap
  rintro i ⟨other, hother, hfrom', hto'⟩
  obtain ⟨hi, hother⟩ := List.getElem?_eq_some_iff.mp hother
  have hspan : (before ++ span :: after)[before.length]? = some span := by simp
  obtain ⟨hlength, hspan⟩ := List.getElem?_eq_some_iff.mp hspan
  have hapart := List.pairwise_iff_getElem.mp h.pairwise
  rcases Nat.lt_trichotomy i before.length with hlt | heq | hgt
  · have := hapart i before.length hi hlength hlt
    rw [hother, hspan] at this
    omega
  · exact heq
  · have := hapart before.length i hlength hi hgt
    rw [hother, hspan] at this
    omega

end Tiles

/-! ### Sums that are checked -/

/-- Spans of `size` rows each, as `consecutive` lays them, where every end has to be a word. -/
def consecutiveChecked (size : Nat) : (n lo : Nat) → Result (List Span)
  | 0, _ => .ok []
  | n + 1, lo => do
    let hi ← Word.addFor "spans" lo size
    return ⟨lo, hi⟩ :: (← consecutiveChecked size n hi)

/-- Cuts rows as `split` does, where every sum has to be a word. -/
def splitChecked (rows parts : Nat) : Result (List Span) := do
  let parts := max parts 1
  let size := rows / parts
  let first ← Word.addFor "spans" size (rows % parts)
  return ⟨0, first⟩ :: (← consecutiveChecked size (parts - 1) first)

theorem consecutiveChecked_eq (h : lo + n * size < Word.bound) :
    consecutiveChecked size n lo = .ok (consecutive size n lo) := by
  induction n generalizing lo with
  | zero => rfl
  | succ n ih =>
    rw [Nat.succ_mul] at h
    have hnext : lo + size < Word.bound := by omega
    have htail : consecutiveChecked size n (lo + size) = .ok (consecutive size n (lo + size)) := ih (by omega)
    rw [consecutiveChecked, consecutive, Word.addFor_of_lt hnext, Word.add_of_lt hnext]
    show (consecutiveChecked size n (lo + size) >>= _) = _
    rw [htail]
    rfl

theorem length_consecutive (size n lo : Nat) : (consecutive size n lo).length = n := by
  induction n generalizing lo with
  | zero => rfl
  | succ n ih => rw [consecutive, List.length_cons, ih]

theorem length_of_mem_consecutive (h : lo + n * size < Word.bound) :
    ∀ span ∈ consecutive size n lo, span.length = size := by
  induction n generalizing lo with
  | zero => simp [consecutive]
  | succ n ih =>
    rw [Nat.succ_mul] at h
    have hnext : lo + size < Word.bound := by omega
    rw [consecutive, Word.add_of_lt hnext]
    intro span hspan
    rcases List.mem_cons.mp hspan with rfl | hspan
    · rw [length, Word.sub_of_le (Nat.le_add_right lo size) hnext, Nat.add_sub_cancel_left]
    · exact ih (by omega) span hspan

/-! ### The spans of a table -/

theorem splitChecked_eq (parts : Nat) (hrows : rows < Word.bound) :
    splitChecked rows parts = .ok (split rows parts) := by
  have hend := first_add_others rows parts
  have hfirst := first_lt_bound parts hrows
  rw [splitChecked, split, Word.addFor_of_lt hfirst, Word.add_of_lt hfirst]
  show (consecutiveChecked _ _ _ >>= _) = _
  rw [consecutiveChecked_eq (hend.symm ▸ hrows)]
  rfl

theorem length_split (rows parts : Nat) : (split rows parts).length = max parts 1 := by
  rw [split, List.length_cons, length_consecutive]
  omega

theorem length_of_split (hrows : rows < Word.bound) {i : Nat} {span : Span}
    (hspan : (split rows parts)[i]? = some span) :
    span.length = rows / max parts 1 + if i = 0 then rows % max parts 1 else 0 := by
  have hend := first_add_others rows parts
  have hfirst := first_lt_bound parts hrows
  rw [split, Word.add_of_lt hfirst] at hspan
  cases i with
  | zero =>
    obtain rfl := Option.some.inj hspan
    rw [length, Word.sub_of_le (Nat.zero_le _) hfirst, Nat.sub_zero, if_pos rfl]
  | succ i =>
    have hmem := List.mem_of_getElem? (List.getElem?_cons_succ ▸ hspan)
    rw [length_of_mem_consecutive (hend.symm ▸ hrows) span hmem, if_neg (Nat.succ_ne_zero i), Nat.add_zero]

/-- Rows are cut into the number of spans that was asked for, and at least into one. The spans follow one another from
row zero to the last row, each row lies in one of them, and all but the first have the same length. No sum on the way
leaves the machine words. -/
theorem splitRows_exact (hrows : rows < Word.bound) (hroom : Word.fits (max parts 1) bytes = .ok ()) :
    ∃ spans, splitRows rows parts = .ok spans ∧ splitChecked rows parts = .ok spans ∧
      spans.length = max parts 1 ∧ (∀ span ∈ spans, span.lo ≤ span.hi) ∧
      spans.head?.map (·.lo) = some 0 ∧ spans.IsChain (fun a b => a.hi = b.lo) ∧
      spans.getLast?.map (·.hi) = some rows ∧
      (∀ r < rows, ∃! i : Nat, ∃ span : Span, spans[i]? = some span ∧ span.lo ≤ r ∧ r < span.hi) ∧
      ∀ i span, spans[i]? = some span →
        span.length = rows / max parts 1 + if i = 0 then rows % max parts 1 else 0 := by
  have htiles := tiles_split parts hrows
  refine ⟨split rows parts, ?_, splitChecked_eq parts hrows, length_split rows parts, ?_, rfl, htiles.isChain, ?_,
    fun r hr => htiles.existsUnique_index (Nat.zero_le r) hr, fun i span => length_of_split hrows⟩
  · rw [splitRows, hroom]
    rfl
  · intro span hspan
    have hbounds := htiles.bounds span hspan
    exact hbounds.1
  · have hlast := htiles.last_eq
    rw [split, List.getLast?_cons, Option.map_some, Option.getD_some] at hlast
    rw [split, List.getLast?_cons, Option.map_some, hlast]

/-- The most rows that a word can count, in three spans and in more spans than rows. -/
theorem splitRows_exact_most :
    (∃ spans, splitRows (Word.bound - 1) 3 = .ok spans ∧ spans.length = 3 ∧
      spans.getLast?.map (·.hi) = some (Word.bound - 1)) ∧
    ∃ spans, splitRows 2 5 = .ok spans ∧ spans.length = 5 ∧
      ∃! i : Nat, ∃ span : Span, spans[i]? = some span ∧ span.lo ≤ 1 ∧ 1 < span.hi := by
  obtain ⟨spans, hspans, _, hlength, _, _, _, hlast, _⟩ :=
    @splitRows_exact (Word.bound - 1) 3 (by decide) (by decide)
  obtain ⟨many, hmany, _, hmanyLength, _, _, _, _, hrow, _⟩ :=
    @splitRows_exact 2 5 (by decide) (by decide)
  exact ⟨⟨spans, hspans, hlength, hlast⟩, many, hmany, hmanyLength, hrow 1 (by decide)⟩

end Motif.Span
