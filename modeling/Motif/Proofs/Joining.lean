import Mathlib.Data.List.Flatten
import Motif.Proofs.Blocks

/-!
# Joining in groups

Joining blocks appends their lists of rows, and nothing else about the blocks shows in the table: not their spans,
nor where one ends and the next begins. So blocks can be joined in groups, and the tables of the groups joined
again, to the same end (`concat_exact`). A group takes no more memory than all blocks together, so it is only
refused where the whole is (`exists_concat_of_mem`).
-/

namespace Motif.Block

variable {blocks : List Block} {r : Rows Nat}

/-- The rows of the blocks, one block after another. -/
def rowLists (blocks : List Block) : List (List Nat) := blocks.flatMap fun b => b.rows.toLists

theorem rowLists_append (blocks more : List Block) : rowLists (blocks ++ more) = rowLists blocks ++ rowLists more :=
  List.flatMap_append

theorem concat_eq_ok_iff (pool : Pool) (h : ∀ b ∈ blocks, b.rows.Wf) :
    concat pool blocks = .ok r ↔ Word.reserve ((rowLists blocks).length + 1) = .ok () ∧
      Word.reserve (rowLists blocks).flatten.length = .ok () ∧ r = Rows.ofLists (rowLists blocks) := by
  refine ⟨fun hconcat => ?_, ?_⟩
  · rw [concat_eq pool h] at hconcat
    obtain ⟨offsets, hsum, hconcat⟩ := bind_eq_ok.mp hconcat
    obtain rfl := (Word.yields_addFor _ _ _).of_ok hsum
    obtain ⟨_, hrows, hconcat⟩ := bind_eq_ok.mp hconcat
    obtain ⟨_, hvalues, hconcat⟩ := bind_eq_ok.mp hconcat
    exact ⟨hrows, hvalues, (Except.ok.inj hconcat).symm⟩
  · rintro ⟨hrows, hvalues, rfl⟩
    exact concat_eq_ok pool h rfl hrows hvalues

/-! ### Groups of blocks -/

variable {groups : List (List Block)} {parts : List Block}

/-- Where all blocks can be joined, so can those of each group. -/
theorem exists_concat_of_mem (pool : Pool) (h : ∀ b ∈ groups.flatten, b.rows.Wf)
    (hconcat : concat pool groups.flatten = .ok r) {group : List Block} (hgroup : group ∈ groups) :
    ∃ part, concat pool group = .ok part := by
  obtain ⟨hrows, hvalues, _⟩ := (concat_eq_ok_iff pool h).mp hconcat
  have hsublist : (rowLists group).Sublist (rowLists groups.flatten) :=
    (List.sublist_flatten_of_mem hgroup).flatMap _
  have hwf : ∀ b ∈ group, b.rows.Wf := fun b hb => h b (List.mem_flatten_of_mem hgroup hb)
  refine ⟨_, (concat_eq_ok_iff pool hwf).mpr ⟨?_, ?_, rfl⟩⟩
  · exact Word.reserve_of_le (Nat.succ_le_succ hsublist.length_le) hrows
  · exact Word.reserve_of_le hsublist.flatten.length_le hvalues

theorem rowLists_parts (pool : Pool) (h : ∀ b ∈ groups.flatten, b.rows.Wf)
    (hparts : List.Forall₂ (fun group b => concat pool group = .ok b.rows) groups parts) :
    (∀ b ∈ parts, b.rows.Wf) ∧ rowLists parts = rowLists groups.flatten := by
  induction hparts with
  | nil => exact ⟨by simp, rfl⟩
  | @cons group b groups parts hb _ ih =>
    rw [List.flatten_cons, List.forall_mem_append] at h
    obtain ⟨hgroup, hgroups⟩ := h
    obtain ⟨_, _, hrows⟩ := (concat_eq_ok_iff pool hgroup).mp hb
    obtain ⟨hwf, hlists⟩ := ih hgroups
    refine ⟨List.forall_mem_cons.mpr ⟨hrows ▸ Rows.wf_ofLists _, hwf⟩, ?_⟩
    rw [List.flatten_cons, rowLists_append, ← hlists, rowLists, List.flatMap_cons, hrows, Rows.toLists_ofLists]
    rfl

/-- Joining blocks is refused only for want of memory, for the offsets or for the values. Otherwise it gives a well
formed table, whose rows are those of all blocks in the order of the blocks. When the blocks are cut into groups, the
blocks of each group can be joined as well, and blocks that hold the tables of the groups, whatever their spans, are
joined to the table of all blocks. -/
theorem concat_exact (pool : Pool) (h : ∀ b ∈ blocks, b.rows.Wf) :
    (∀ stop, concat pool blocks = .error stop → stop.ForMemory) ∧
    (Word.reserve (Word.total (blocks.map (·.rows.count)) + 1) = .ok () →
      Word.reserve (Word.total (blocks.map size)) = .ok () → ∃ r, concat pool blocks = .ok r) ∧
    (∀ r, concat pool blocks = .ok r → r.Wf ∧ r.toLists = blocks.flatMap fun b => b.rows.toLists) ∧
    ∀ groups : List (List Block), groups.flatten = blocks →
      (∀ r, concat pool blocks = .ok r → ∀ group ∈ groups, ∃ part, concat pool group = .ok part) ∧
      ∀ parts : List Block, List.Forall₂ (fun group b => concat pool group = .ok b.rows) groups parts →
        concat pool parts = concat pool blocks := by
  refine ⟨fun stop => (yields_concat pool h).forMemory, fun hrows hvalues => ?_, fun r hr => ?_, ?_⟩
  · rw [total_counts] at hrows
    rw [total_sizes h] at hvalues
    exact ⟨_, (concat_eq_ok_iff pool h).mpr ⟨hrows, hvalues, rfl⟩⟩
  · obtain ⟨_, _, rfl⟩ := (concat_eq_ok_iff pool h).mp hr
    exact ⟨Rows.wf_ofLists _, Rows.toLists_ofLists _⟩
  · rintro groups rfl
    refine ⟨fun r hr group hgroup => exists_concat_of_mem pool h hr hgroup, fun parts hparts => ?_⟩
    obtain ⟨hwf, hlists⟩ := rowLists_parts pool h hparts
    rw [rowLists, rowLists] at hlists
    -- what joining does, and what it is refused for, depends on the list of all rows alone
    rw [concat_eq pool hwf, concat_eq pool h, hlists]

/-- A block without rows and one whose rows are empty, with spans that have nothing to do with them. -/
theorem concat_exact_grouped :
    let blocks : List Block :=
      [⟨⟨5, 2⟩, Rows.empty⟩, ⟨⟨0, 9⟩, Rows.ofLists [[], []]⟩, ⟨⟨0, 9⟩, Rows.ofLists [[3], [1, 2]]⟩]
    let pool := Pool.ofWorkers 2
    ∃ r, concat pool blocks = .ok r ∧ r.toLists = [[], [], [3], [1, 2]] ∧
      ∃ front back, concat pool (blocks.take 2) = .ok front ∧ concat pool (blocks.drop 2) = .ok back ∧
        concat pool [⟨⟨0, 0⟩, front⟩, ⟨⟨7, 8⟩, back⟩] = .ok r := by
  intro blocks pool
  have hwf : ∀ b ∈ blocks, b.rows.Wf := by
    simp only [blocks, List.forall_mem_cons]
    exact ⟨Rows.wf_empty, Rows.wf_ofLists _, Rows.wf_ofLists _, by simp⟩
  obtain ⟨_, hroom, hrows, hgroups⟩ := concat_exact pool hwf
  obtain ⟨r, hr⟩ := hroom (by decide +kernel) (by decide +kernel)
  obtain ⟨hparts, hwhole⟩ := hgroups [blocks.take 2, blocks.drop 2] (by simp)
  obtain ⟨front, hfront⟩ := hparts r hr (blocks.take 2) (by simp)
  obtain ⟨back, hback⟩ := hparts r hr (blocks.drop 2) (by simp)
  refine ⟨r, hr, ?_, front, back, hfront, hback, ?_⟩
  · rw [(hrows r hr).2]
    decide +kernel
  · rw [hwhole [⟨⟨0, 0⟩, front⟩, ⟨⟨7, 8⟩, back⟩] (.cons hfront (.cons hback .nil)), hr]

end Motif.Block
