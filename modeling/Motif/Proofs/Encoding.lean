import Motif.Proofs.Blocks
import Motif.Proofs.Tables

/-!
# Tables as encodings

A table of rows stands for the list of its rows, and for no other list. Whatever made it, its arrays are in
the form that `Rows.ofParts` checks for, and every way of reading it gives the rows of one list
(`Rows.Encodes`): all of them in one pass over the offsets, or a single one by its number. The other way
round, the list determines the table down to its arrays, so tables are equal when their rows are
(`made_canonical`).
-/

namespace Motif.Rows

variable {α : Type} {r s : Rows α} {i : Nat}

/-- The rows as one pass over the offsets reads them, the values between each offset and the next. -/
def slices (r : Rows α) : List (List α) :=
  List.zipWith (fun lo hi => (r.values.extract lo hi).toList) r.offsets.toList r.offsets.toList.tail

/-- The tables that can be made. A row is written to the end of a table by any step that only appends, also
by one that is refused, but not by one that breaks a condition: what such a step leaves is no table
(`not_wf_of_broken`). -/
inductive Made : Rows α → Prop
  | empty : Made empty
  | withRoom {rows values : Nat} {r : Rows α} (h : withRoom rows values = .ok r) : Made r
  | ofParts {offsets : Array Nat} {values : Array α} {r : Rows α} (h : ofParts offsets values = .ok r) :
      Made r
  | uniform {width : Nat} {values : Array α} {r : Rows α} (h : uniform width values = .ok r) : Made r
  | pushWith {σ : Type} {r : Rows α} {fill : Array α → Appended α σ} (hr : Made r)
      (hextends : (fill r.values).Extends r.values) : Made (r.pushWith fill).1

/-- Every way of reading the table gives the rows of the list. -/
structure Encodes (r : Rows α) (lists : List (List α)) : Prop where
  slices : r.slices = lists
  count : r.count = lists.length
  values : r.values.toList = lists.flatten
  row? : ∀ i : Nat, r.row? i = lists[i]?
  rowAt : ∀ (i : Nat) (hi : i < lists.length), r.rowAt i = .ok lists[i]
  rowLength : ∀ (i : Nat) (hi : i < lists.length), r.rowLength i = .ok lists[i].length
  rowRange : ∀ i < lists.length,
    r.rowRange i = .ok ((lists.take i).flatten.length, (lists.take (i + 1)).flatten.length)
  missing : ∀ i, lists.length ≤ i → r.rowAt i = breach (.row i) ∧ r.rowLength i = breach (.row i) ∧
    r.rowRange i = breach (.row i)

/-! ### Reading a table -/

theorem slices_eq_toLists (r : Rows α) : r.slices = r.toLists := by
  apply List.ext_getElem
  · simp [slices, count]
  · intro i hi hi'
    have hlt : i + 1 < r.offsets.size := by
      rw [length_toLists, count] at hi'
      omega
    rw [toLists_getElem, row, start, start, Array.getD_eq_getD_getElem?, Array.getD_eq_getD_getElem?,
      Array.getElem?_eq_getElem (Nat.lt_of_succ_lt hlt), Array.getElem?_eq_getElem hlt]
    simp [slices]

theorem Wf.encodes (h : r.Wf) : r.Encodes r.slices := by
  have hcount := length_toLists r
  rw [slices_eq_toLists]
  refine ⟨slices_eq_toLists r, hcount.symm, h.flatten_toLists.symm, fun i => ?_, fun i hi => ?_,
    fun i hi => ?_, fun i hi => ?_, fun i hi => ?_⟩
  · by_cases hi : i < r.count
    · rw [row?, if_pos hi, List.getElem?_eq_getElem (hcount ▸ hi), toLists_getElem]
    · rw [row?, if_neg hi, List.getElem?_eq_none (by omega)]
  · rw [rowAt, if_pos (hcount ▸ hi), toLists_getElem]
  · rw [toLists_getElem, h.length_row (hcount ▸ hi), rowLength, rowRange, if_pos (hcount ▸ hi)]
    rfl
  · have hlt : i < r.count := hcount ▸ hi
    rw [rowRange, if_pos hlt, ← h.start_eq (Nat.le_of_lt hlt), ← h.start_eq hlt]
  · have hge : ¬ i < r.count := by omega
    rw [rowLength, rowAt, rowRange, if_neg hge, if_neg hge]
    exact ⟨rfl, rfl, rfl⟩

/-! ### Making a table -/

theorem ofParts_eq_ok_iff {offsets : Array Nat} {values : Array α} :
    ofParts offsets values = .ok r ↔ r = ⟨offsets, values⟩ ∧ r.Wf := by
  refine ⟨fun h => ⟨?_, wf_of_ofParts h⟩, ?_⟩
  · rw [ofParts] at h
    split at h
    · contradiction
    · split at h
      · contradiction
      · split at h
        · contradiction
        · split at h
          · exact (Except.ok.inj h).symm
          · contradiction
  · rintro ⟨rfl, hwf⟩
    exact ofParts_of_wf hwf

theorem wf_of_uniform {width : Nat} {values : Array α} (h : uniform width values = .ok r) : r.Wf := by
  rw [uniform] at h
  split at h
  · split at h
    · obtain rfl := Except.ok.inj h
      exact wf_empty
    · contradiction
  · split at h
    · contradiction
    · rename_i hmod
      obtain ⟨rows, _, h⟩ := bind_eq_ok.mp h
      obtain ⟨_, _, h⟩ := bind_eq_ok.mp h
      obtain rfl := Except.ok.inj h
      exact wf_regular (Nat.div_mul_cancel (Nat.dvd_of_mod_eq_zero (not_not.mp hmod))).symm

/-- A step that is refused leaves the table as it was. -/
theorem pushWith_restores {σ : Type} {fill : Array α → Appended α σ} {cause : Refusal}
    (hextends : (fill r.values).Extends r.values) (hcause : (fill r.values).outcome = refuse cause) :
    r.pushWith fill = (r, refuse cause) := by
  have hshrink : (fill r.values).buffer.shrink r.values.size = r.values := by
    rw [hextends.buffer_eq_append]
    apply Array.ext'
    simp
  rw [pushWith_of_refused hcause, hshrink]

/-- What a step wrote before it broke a condition belongs to no row, so two arrays are left that are no table. -/
theorem not_wf_of_broken {σ : Type} {fill : Array α → Appended α σ} {cause : Breach} {found : List α}
    (hr : r.Wf) (hcause : (fill r.values).outcome = breach cause)
    (hbuffer : (fill r.values).buffer = r.values ++ found) (hne : found ≠ []) : ¬ (r.pushWith fill).1.Wf := by
  rw [pushWith_of_broken hcause, hbuffer]
  intro hwf
  have hsize : (r.values ++ found).size = r.values.size := Option.some.inj (hwf.last.symm.trans hr.last)
  rw [← Array.length_toList, Array.toList_appendList, List.length_append, Array.length_toList,
    Nat.add_eq_left] at hsize
  exact hne (List.eq_nil_of_length_eq_zero hsize)

example : (pushWith ⟨#[0, 2, 4], #[5, 6, 7, 8]⟩ fun values => ⟨breach .bounds, (), values ++ [9]⟩).1 =
    ⟨#[0, 2, 4], #[5, 6, 7, 8, 9]⟩ := rfl

theorem Made.wf (h : r.Made) : r.Wf := by
  induction h with
  | empty => exact wf_empty
  | withRoom h =>
    obtain rfl := (yields_withRoom _ _).of_ok h
    exact wf_empty
  | ofParts h => exact wf_of_ofParts h
  | uniform h => exact wf_of_uniform h
  | pushWith _ hextends ih =>
    rcases hextends.ok_or_refused with hok | ⟨cause, hcause⟩
    · rw [pushWith_of_adds (hextends.adds hok)]
      exact ih.push _
    · rw [pushWith_restores hextends hcause]
      exact ih

/-- Two arrays are taken as a table when the offsets start at zero, never decrease and end at the number of
values. Every table that can be made is of this form, is taken back from its two arrays and rebuilt from its
rows, reads as one list in every way, and equals any other table with the same rows. -/
theorem made_canonical :
    (∀ (offsets : Array Nat) (values : Array α) (r : Rows α),
      ofParts offsets values = .ok r ↔ r = ⟨offsets, values⟩ ∧ r.Wf) ∧
    ∀ r : Rows α, r.Made → r.Wf ∧ r.Encodes r.slices ∧ ofParts r.offsets r.values = .ok r ∧
      r.slices.foldl push empty = r ∧ ∀ s : Rows α, s.Made → (r = s ↔ r.slices = s.slices) := by
  refine ⟨fun offsets values r => ofParts_eq_ok_iff, fun r hr => ?_⟩
  have hwf := hr.wf
  refine ⟨hwf, hwf.encodes, ofParts_of_wf hwf, ?_, fun s hs => ?_⟩
  · rw [slices_eq_toLists]
    exact hwf.eq_ofLists.symm
  · rw [slices_eq_toLists, slices_eq_toLists]
    exact ⟨congrArg toLists, hwf.ext_toLists hs.wf⟩

/-- Two rows of one width, after a row that was refused when a value of it had been written. -/
theorem made_canonical_uniform :
    let giveUp : Array Nat → Appended Nat Unit := fun values => ⟨refuse (.capacity "row"), (), values ++ [9]⟩
    let r : Rows Nat := (pushWith ⟨#[0, 2, 4], #[5, 6, 7, 8]⟩ giveUp).1
    r.Made ∧ r.slices = [[5, 6], [7, 8]] ∧ ofParts r.offsets r.values = .ok r ∧
      ∀ s : Rows Nat, s.Made → s.slices = [[5, 6], [7, 8]] → r = s := by
  intro giveUp r
  have huniform : Made ⟨#[0, 2, 4], #[5, 6, 7, 8]⟩ :=
    .uniform (show Rows.uniform 2 #[5, 6, 7, 8] = _ by decide +kernel)
  have hmade : r.Made := huniform.pushWith ⟨⟨[9], rfl⟩, fun cause => by simp [giveUp, refuse, breach]⟩
  have hslices : r.slices = [[5, 6], [7, 8]] := by decide +kernel
  obtain ⟨_, _, hparts, _, heq⟩ := made_canonical.2 r hmade
  exact ⟨hmade, hslices, hparts, fun s hs hsame => (heq s hs).mpr (hslices.trans hsame.symm)⟩

end Motif.Rows
