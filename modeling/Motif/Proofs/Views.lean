import Mathlib.Data.List.Lex
import Motif.Proofs.Stages

/-!
# The views of a result

A result is one buffer, and each way to look at it finds the bounds of the tuples anew: a look-up
multiplies and adds words, a pass over all tuples cuts the buffer into pieces, and sorting goes on from
these. They agree as long as the buffer is cut without a rest and no end of a tuple is too large for a
word, which is what `Matches.Whole` says. For look-ups past the end the two overflows work together: a
start that is no word is turned down, and an end that comes round to a small word lies before its start.

That a buffer is cut without a rest is not checked anywhere. It comes from the run, which reads out one
tuple for each walk (`tuples_of_findExtending`). The run also gives the order of the tuples, for a step
keeps ascending tuples ascending, and single vertices ascend. Nothing here depends on exact counters, so
no bound on the number of required positions is asked for.
-/

namespace Motif

namespace Sorted

theorem cons_le_cons_iff {a b : Nat} {l m : List Nat} : a :: l ≤ b :: m ↔ a < b ∨ a = b ∧ l ≤ m := by
  have hcons : a :: l ≤ b :: m ↔ ¬ (b < a ∨ b = a ∧ m < l) :=
    not_lt.symm.trans (not_congr List.cons_lt_cons_iff)
  have hrest : l ≤ m ↔ ¬ m < l := not_lt.symm
  rw [hcons, hrest]
  rcases Nat.lt_trichotomy a b with hlt | rfl | hgt
  · simp [hlt, Nat.le_of_lt hlt, Nat.ne_of_gt hlt]
  · simp
  · simp [hgt, Nat.le_of_lt hgt, Nat.ne_of_gt hgt]

theorem precedes_eq_true_iff {l m : List Nat} : precedes l m = true ↔ l ≤ m := by
  induction l generalizing m with
  | nil =>
    have hleast : [] ≤ m := not_lt.mp (List.not_lt_nil m)
    simp [precedes, hleast]
  | cons a l ih =>
    cases m with
    | nil =>
      have hnot : ¬ a :: l ≤ [] := not_le.mpr (List.nil_lt_cons a l)
      simp only [precedes, hnot, Bool.false_eq_true]
    | cons b m =>
      rw [cons_le_cons_iff, precedes, Bool.or_eq_true, Bool.and_eq_true, decide_eq_true_iff,
        beq_iff_eq, ih]

end Sorted

namespace Matches

variable {m m' : Matches}

/-! ### The tuples of a buffer -/

/-- The tuples fill the buffer, and it is small enough for words. -/
structure Whole (m : Matches) : Prop where
  arity_pos : 0 < m.arity
  arity_lt : m.arity < Word.bound
  divides : m.arity ∣ m.values.size
  room : m.values.size < Word.shortageFrom

theorem getElem?_toList {i : Nat} (h : i < m.count) :
    m.toList[i]? = some (m.values.extract (i * m.arity) ((i + 1) * m.arity)).toList := by
  rw [toList, List.getElem?_map, List.getElem?_range h, Option.map_some]

theorem Whole.count_mul_arity (h : m.Whole) : m.count * m.arity = m.values.size :=
  Nat.div_mul_cancel h.divides

theorem Whole.stop_le (h : m.Whole) {i : Nat} (hi : i < m.count) : (i + 1) * m.arity ≤ m.values.size := by
  rw [← h.count_mul_arity]
  exact Nat.mul_le_mul_right _ hi

theorem Whole.length_of_mem (h : m.Whole) : ∀ t ∈ m.toList, t.length = m.arity := by
  intro t ht
  obtain ⟨i, hi, rfl⟩ := List.mem_map.mp ht
  have hstop := h.stop_le (List.mem_range.mp hi)
  rw [Array.length_toList, Array.size_extract, Nat.min_eq_left hstop, Nat.succ_mul, Nat.add_sub_cancel_left]

theorem flatten_pieces {α : Type} (l : List α) (width count : Nat) :
    ((List.range count).map fun i => (l.drop (i * width)).take width).flatten =
      l.take (count * width) := by
  induction count with
  | zero => simp
  | succ count ih =>
    rw [List.range_succ, List.map_append, List.flatten_append, ih, Nat.succ_mul, List.take_add]
    simp

theorem Whole.flatten_toList (h : m.Whole) : m.toList.flatten = m.values.toList := by
  have hpieces : m.toList =
      (List.range m.count).map fun i => (m.values.toList.drop (i * m.arity)).take m.arity := by
    refine List.map_congr_left fun i _ => ?_
    rw [Array.toList_extract, List.extract_eq_take_drop, Nat.succ_mul, Nat.add_sub_cancel_left]
  rw [hpieces, flatten_pieces, h.count_mul_arity, ← Array.length_toList, List.take_length]

theorem Whole.isEmpty_iff (h : m.Whole) : m.isEmpty = true ↔ m.count = 0 := by
  rw [isEmpty, Array.isEmpty_iff_size_eq_zero, ← h.count_mul_arity, Nat.mul_eq_zero,
    or_iff_left (Nat.ne_of_gt h.arity_pos)]

/-! ### Looking a tuple up -/

/-- Past the last tuple there is nothing, also where an end of the tuple would be no word. -/
theorem Whole.get?_eq_none (h : m.Whole) {i : Nat} (hi : m.count ≤ i) : m.get? i = none := by
  have hstart : m.values.size ≤ i * m.arity := by
    rw [← h.count_mul_arity]
    exact Nat.mul_le_mul_right _ hi
  have hpos := h.arity_pos
  have harity := h.arity_lt
  rw [get?]
  dsimp only
  split
  · rename_i hword
    rw [if_neg]
    rintro ⟨hstop, hwithin⟩
    -- the end is past the buffer, or it has come round and is before the start
    by_cases hround : i * m.arity + m.arity < Word.bound
    · rw [Word.add_of_lt hround] at hwithin
      omega
    · rw [Word.add, Nat.mod_eq_sub_mod (Nat.not_lt.mp hround),
        Nat.mod_eq_of_lt (by omega)] at hstop
      omega
  · rfl

theorem Whole.get?_eq (h : m.Whole) (i : Nat) : m.get? i = m.toList[i]? := by
  rcases Nat.lt_or_ge i m.count with hi | hi
  · have hstop := h.stop_le hi
    rw [Nat.succ_mul] at hstop
    have hroom := Nat.lt_trans (Nat.lt_of_le_of_lt hstop h.room) Word.shortageFrom_lt_bound
    rw [getElem?_toList hi, get?, if_pos (Nat.lt_of_le_of_lt (Nat.le_add_right _ _) hroom),
      Word.add_of_lt hroom, if_pos ⟨Nat.le_add_right _ _, hstop⟩, Nat.succ_mul]
  · rw [h.get?_eq_none hi, List.getElem?_eq_none (by rwa [length_toList])]

/-! ### Sorting -/

theorem sorted_perm (m : Matches) : m.sorted.Perm m.toList := by
  rw [sorted, Sorted.sortBy_eq]
  exact List.mergeSort_perm _ _

theorem sorted_ascending (m : Matches) : m.sorted.Pairwise (· ≤ ·) := by
  have hsorted : (m.toList.mergeSort Sorted.precedes).Pairwise fun s t => Sorted.precedes s t = true := by
    refine List.pairwise_mergeSort ?_ ?_ _
    · intro a b c
      simp only [Sorted.precedes_eq_true_iff]
      exact le_trans
    · intro a b
      simp only [Bool.or_eq_true, Sorted.precedes_eq_true_iff]
      exact le_total a b
  rw [sorted, Sorted.sortBy_eq]
  exact hsorted.imp Sorted.precedes_eq_true_iff.mp

theorem sorted_of_ascending (h : m.toList.Pairwise (· < ·)) : m.sorted = m.toList := by
  rw [sorted, Sorted.sortBy_eq]
  exact List.mergeSort_of_pairwise (h.imp fun hst => Sorted.precedes_eq_true_iff.mpr (le_of_lt hst))

/-! ### Comparing two results -/

theorem Whole.beq_iff (h : m.Whole) (h' : m'.Whole) :
    (m == m') = true ↔ m.arity = m'.arity ∧ m.toList = m'.toList := by
  show (m.arity == m'.arity && m.values == m'.values) = true ↔ _
  rw [Bool.and_eq_true, beq_iff_eq, beq_iff_eq]
  refine and_congr_right fun harity => ⟨fun hvalues => ?_, fun hlist => ?_⟩
  · rw [toList, toList, count, count, harity, hvalues]
  · apply Array.ext'
    rw [← h.flatten_toList, ← h'.flatten_toList, hlist]

end Matches

/-! ### What a run reads out -/

namespace Search

variable {s : Search} {g : Graph} {p : Pattern} {walks : Walks} {target ts : List (List Nat)}

theorem tuples_of_findExtending {m : Matches}
    (hstands : Stands ⟨g, p, .listing⟩ s.settings.reuse target walks.arity walks ts)
    (h : s.findExtending g p walks = .ok m) : m.arity = p.size ∧
      ∃ found : List (List Nat), m.values.toList = found.flatten ∧ (∀ t ∈ found, t.length = m.arity) ∧
        (ts.Pairwise (· < ·) → found.Pairwise (· < ·)) := by
  obtain ⟨⟨outcome, levels⟩, hrun, h⟩ := bind_eq_ok.mp h
  obtain rfl := Except.ok.inj h
  cases outcome with
  | listing values =>
    obtain ⟨_, found, hlast, hread, hascending⟩ := (run_eq_ok.mp hrun).exists_last hstands rfl
    exact ⟨rfl, found, (yields_readOut hlast.holds).of_ok hread, hlast.holds.length, hascending⟩
  | nothing => exact ⟨rfl, [], rfl, by simp, fun _ => List.Pairwise.nil⟩
  | number count => exact ⟨rfl, [], rfl, by simp, fun _ => List.Pairwise.nil⟩

theorem whole_of_findExtending {m : Matches} (hsize : p.size < Word.bound)
    (hstands : Stands ⟨g, p, .listing⟩ s.settings.reuse target walks.arity walks ts)
    (h : s.findExtending g p walks = .ok m) : m.Whole := by
  obtain ⟨harity, found, hvalues, hlength, _⟩ := tuples_of_findExtending hstands h
  refine ⟨harity ▸ p.size_pos, harity ▸ hsize, ⟨found.length, ?_⟩, room_of_findExtending hstands h⟩
  rw [← Array.length_toList, hvalues, length_flatten_of_forall hlength, Nat.mul_comm]

theorem whole_of_find {m : Matches} (hsize : p.size < Word.bound) (h : s.find g p = .ok m) : m.Whole := by
  obtain ⟨walks, hwalks, h⟩ := bind_eq_ok.mp h
  exact whole_of_findExtending hsize (stands_singles hwalks) h

theorem whole_of_findFrom {seeds : Rows Nat} {m : Matches} (hsize : p.size < Word.bound)
    (h : s.findFrom g p seeds = .ok m) : m.Whole := by
  obtain ⟨start, hstart, h⟩ := bind_eq_ok.mp h
  cases start with
  | none =>
    obtain rfl := Except.ok.inj h
    exact ⟨p.size_pos, hsize, Nat.dvd_zero _, (by decide : 0 < Word.shortageFrom)⟩
  | some walks =>
    obtain ⟨_, hwalks, hcheck⟩ := of_seedWalks_some hstart
    exact whole_of_findExtending hsize (stands_ofSeeds hwalks hcheck) h

/-- Single vertices ascend, and so do the tuples they grow into. -/
theorem ascending_of_find {m : Matches} (h : s.find g p = .ok m) : m.toList.Pairwise (· < ·) := by
  obtain ⟨walks, hwalks, h⟩ := bind_eq_ok.mp h
  obtain ⟨harity, found, hvalues, hlength, hascending⟩ := tuples_of_findExtending (stands_singles hwalks) h
  rw [Matches.toList_of_flatten (harity ▸ p.size_pos) hlength hvalues]
  apply hascending
  rw [List.pairwise_map]
  exact List.pairwise_lt_range.imp fun huv => List.cons_lt_cons_iff.mpr (.inl huv)

end Search

/-! ### Results of searches -/

namespace Matches

/-- A search returned these matches, from every vertex or from seeds. The positions of its pattern are
numbered by words. -/
inductive Returned (m : Matches) : Prop
  | find {s : Search} {g : Graph} {p : Pattern} (hsize : p.size < Word.bound) (h : s.find g p = .ok m)
  | findFrom {s : Search} {g : Graph} {p : Pattern} {seeds : Rows Nat} (hsize : p.size < Word.bound)
      (h : s.findFrom g p seeds = .ok m)

theorem Returned.whole {m : Matches} (h : m.Returned) : m.Whole := by
  cases h with
  | find hsize h => exact Search.whole_of_find hsize h
  | findFrom hsize h => exact Search.whole_of_findFrom hsize h

/-- A look-up gives the entry of the list of tuples for every number, also for one that leads past the
range of words. The tuples have the length of the arity and fill the buffer. Sorting puts them in order,
which those of a search without seeds are in already. Two results are the same if their arities and lists
of tuples are. -/
theorem Returned.views_agree {m : Matches} (h : m.Returned) :
    (∀ i, m.get? i = m.toList[i]?) ∧ m.toList.length = m.count ∧
      m.count * m.arity = m.values.size ∧ (∀ t ∈ m.toList, t.length = m.arity) ∧
      m.toList.flatten = m.values.toList ∧ (m.isEmpty = true ↔ m.count = 0) ∧
      m.sorted.Perm m.toList ∧ m.sorted.Pairwise (· ≤ ·) ∧
      (∀ s g p, Search.find s g p = .ok m → m.sorted = m.toList) ∧
      ∀ m' : Matches, m'.Returned → ((m == m') = true ↔ m.arity = m'.arity ∧ m.toList = m'.toList) := by
  have hwhole := h.whole
  refine ⟨hwhole.get?_eq, m.length_toList, hwhole.count_mul_arity, hwhole.length_of_mem,
    hwhole.flatten_toList, hwhole.isEmpty_iff, m.sorted_perm, m.sorted_ascending, ?_, ?_⟩
  · intro s g p hfind
    exact sorted_of_ascending (Search.ascending_of_find hfind)
  · intro m' h'
    exact hwhole.beq_iff h'.whole

/-- The number `6148914691236517205` is a third of the largest word. The tuple there would start at that
word, and the next one past it. -/
theorem views_agree_ladder : ∃ m seeded : Matches,
    (Search.ofSettings ⟨3, .forbidden, .tally⟩ 1).find Search.ladder Search.triangle = .ok m ∧
      (Search.ofSettings ⟨2, .forbidden, .intersect⟩ 1).findFrom Search.ladder Search.triangle
        ⟨#[0, 2, 4], #[0, 2, 0, 1]⟩ = .ok seeded ∧
      m.get? 1 = some [0, 2, 3] ∧ m.get? 6148914691236517205 = none ∧
      m.get? 6148914691236517206 = none ∧ m.sorted = m.toList ∧
      seeded.toList = [[0, 2, 3], [0, 1, 3]] ∧ (m == seeded) = false := by
  have hok : ((Search.ofSettings ⟨3, .forbidden, .tally⟩ 1).find Search.ladder
      Search.triangle).isOk = true := by
    decide +kernel
  have hseeded : ((Search.ofSettings ⟨2, .forbidden, .intersect⟩ 1).findFrom Search.ladder Search.triangle
      ⟨#[0, 2, 4], #[0, 2, 0, 1]⟩).isOk = true := by
    decide +kernel
  obtain ⟨m, hm⟩ := exists_of_isOk hok
  obtain ⟨seeded, hs⟩ := exists_of_isOk hseeded
  have hlist : m.toList = [[0, 1, 3], [0, 2, 3]] := by
    rw [Search.toList_find (by decide) hm]
    decide +kernel
  have hlist' : seeded.toList = [[0, 2, 3], [0, 1, 3]] := by
    rw [(Search.toList_findFrom (by decide) hs).1]
    decide +kernel
  obtain ⟨hget, _, _, _, _, _, _, _, hsorted, hsame⟩ := Returned.views_agree (.find (by decide) hm)
  refine ⟨m, seeded, hm, hs, ?_, ?_, ?_, hsorted _ _ _ hm, hlist', ?_⟩
  · rw [hget, hlist]
    rfl
  · rw [hget, hlist]
    rfl
  · rw [hget, hlist]
    rfl
  · rw [Bool.eq_false_iff, ne_eq, hsame seeded (.findFrom (by decide) hs), hlist, hlist']
    rintro ⟨_, hlists⟩
    contradiction

end Matches

end Motif
