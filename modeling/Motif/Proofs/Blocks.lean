import Motif.Block.Concat
import Motif.Proofs.RowLists
import Motif.Proofs.Scattered
import Motif.Proofs.Tasks
import Motif.Proofs.Tiling

/-!
# From rows to blocks to one table

A transform that appends a list of values for each row gives, span by span, blocks whose rows are these
lists (`yields_ofSpans`); and joining blocks gives the table of all their rows, in order
(`yields_concat`). Both together make one table of the lists for all rows, and how the rows were cut
into spans is forgotten.

The transform may pass a state on from row to row. What it appends must be determined up to `rel`
whenever the state has the property `keeps`, which the transform has to preserve.
-/

namespace Motif

theorem Rows.pushWith_of_adds {α σ : Type} {r : Rows α} {fill : Array α → Appended α σ}
    {keeps : σ → Prop} {found : List α} (h : (fill r.values).Adds keeps r.values found) :
    r.pushWith fill = (r.push found, .ok (fill r.values).state) := by
  rw [pushWith_of_ok h.outcome, h.buffer, push, pushWith_of_ok rfl]

namespace Block

variable {σ : Type} {transform : Nat → σ → Array Nat → Appended Nat σ} {fresh : σ}
  {keeps : σ → Prop} {rel : Nat → List Nat → Prop}

/-! ### Mapping rows -/

theorem pushRows_eq {is : List Nat}
    (h : ∀ i ∈ is, ∀ state, keeps state → ∀ out,
      ∃ found, rel i found ∧ (transform i state out).Adds keeps out found)
    {state : σ} (hstate : keeps state) (rows : Rows Nat) :
    ∃ lists, List.Forall₂ rel is lists ∧
      pushRows transform is state rows = .ok (lists.foldl Rows.push rows) := by
  induction is generalizing state rows with
  | nil => exact ⟨[], List.Forall₂.nil, rfl⟩
  | cons i is ih =>
    obtain ⟨found, hrel, hadds⟩ := h i List.mem_cons_self state hstate rows.values
    obtain ⟨lists, hlists, heq⟩ :=
      ih (fun j hj => h j (List.mem_cons_of_mem _ hj)) hadds.state (rows.push found)
    refine ⟨found :: lists, List.Forall₂.cons hrel hlists, ?_⟩
    rw [pushRows, Rows.pushWith_of_adds hadds]
    exact heq

theorem yields_ofSpan {span : Span}
    (h : ∀ i ∈ span.rows, ∀ state, keeps state → ∀ out,
      ∃ found, rel i found ∧ (transform i state out).Adds keeps out found)
    (hfresh : keeps fresh) :
    Yields (ofSpan transform fresh span) fun b =>
      b.rows.Wf ∧ List.Forall₂ rel span.rows b.rows.toLists := by
  apply (Rows.yields_withRoom _ _).bind
  intro rows hrows
  subst hrows
  obtain ⟨lists, hlists, heq⟩ := pushRows_eq h hfresh Rows.empty
  rw [heq]
  refine yields_pure ⟨Rows.wf_ofLists lists, ?_⟩
  exact (Rows.toLists_ofLists lists).symm ▸ hlists

/-- The blocks of spans that tile the rows hold one list for each row, in order. -/
theorem yields_ofSpans (pool : Pool) {spans : List Span} {n : Nat} (htiles : Span.Tiles spans 0 n)
    (h : ∀ i < n, ∀ state, keeps state → ∀ out,
      ∃ found, rel i found ∧ (transform i state out).Adds keeps out found)
    (hfresh : keeps fresh) :
    Yields (ofSpans pool spans transform fresh) fun blocks =>
      (∀ b ∈ blocks, b.rows.Wf) ∧
        List.Forall₂ rel (List.range n) (blocks.flatMap fun b => b.rows.toLists) := by
  have hspan : ∀ span ∈ spans, Yields (ofSpan transform fresh span) fun b =>
      b.rows.Wf ∧ List.Forall₂ rel span.rows b.rows.toLists := by
    intro span hspan
    refine yields_ofSpan (fun i hi => h i ?_) hfresh
    have hmem : i ∈ spans.flatMap Span.rows := List.mem_flatMap.mpr ⟨span, hspan, hi⟩
    rwa [htiles.flatMap_rows_zero, List.mem_range] at hmem
  apply (Pool.yields_settle pool hspan).mono
  intro blocks hblocks
  rw [← htiles.flatMap_rows_zero]
  clear hspan htiles
  induction hblocks with
  | nil => exact ⟨by simp, List.Forall₂.nil⟩
  | cons hb _ ih =>
    obtain ⟨hwf, hlists⟩ := ih
    refine ⟨?_, ?_⟩
    · intro b hmem
      rcases List.mem_cons.mp hmem with rfl | hmem
      · exact hb.1
      · exact hwf b hmem
    · rw [List.flatMap_cons, List.flatMap_cons]
      exact List.rel_append hb.2 hlists

/-! ### Joining blocks -/

/-- What a task writes that joins a block: where its rows end, and its values. -/
def joined : Block × Slice × Slice → Writes
  | (b, offsets, values) => ⟨Write.run offsets.start (Rows.ends values.start b.rows.toLists),
      Write.run values.start b.rows.toLists.flatten⟩

theorem writes_eq_joined {b : Block} {offsets values : Slice} (hwf : b.rows.Wf)
    (hoffsets : offsets.length = b.rows.count) (hvalues : values.length = b.size) :
    b.writes offsets values = .ok (joined (b, offsets, values)) := by
  have hends : b.rows.offsets.toList.tail.map (· + values.start) =
      Rows.ends values.start b.rows.toLists := by
    rw [hwf.eq_ofLists, Rows.offsets_ofLists, List.tail_cons, Rows.map_add_ends, Nat.zero_add,
      Rows.toLists_ofLists]
  have hflatten : b.rows.toLists.flatten.length = values.length := by
    rw [hvalues]
    exact hwf.size_eq.symm
  rw [writes, hends, Slice.spread_eq (by rw [Rows.length_ends, Rows.length_toLists, hoffsets]),
    ← hwf.flatten_toLists, Slice.copy_eq hflatten]
  rfl

/-- Each block with its slices, the first of which start at the given cells. -/
def placedFrom (so sv : Nat) (blocks : List Block) : List (Block × Slice × Slice) :=
  blocks.zip ((Slice.consecutive so (blocks.map (·.rows.count))).zip
    (Slice.consecutive sv (blocks.map size)))

variable {blocks : List Block}

theorem placed_eq (blocks : List Block) : placed blocks = .ok (placedFrom 1 0 blocks) := by
  simp only [placed, Slice.cut_eq, Nat.le_refl, if_true]
  rfl

theorem mem_placedFrom {so sv : Nat} {b : Block} {offsets values : Slice}
    (h : (b, offsets, values) ∈ placedFrom so sv blocks) :
    b ∈ blocks ∧ offsets.length = b.rows.count ∧ values.length = b.size := by
  induction blocks generalizing so sv with
  | nil => contradiction
  | cons c blocks ih =>
    rcases List.mem_cons.mp h with h | h
    · cases h
      exact ⟨List.mem_cons_self, rfl, rfl⟩
    · obtain ⟨hmem, hlengths⟩ := ih h
      exact ⟨List.mem_cons_of_mem _ hmem, hlengths⟩

/-- The tasks write where the rows of all blocks end, one after another. -/
theorem flatten_offsets (h : ∀ b ∈ blocks, b.rows.Wf) (so sv : Nat) :
    (((placedFrom so sv blocks).map joined).map (·.offsets)).flatten =
      Write.run so (Rows.ends sv (blocks.flatMap fun b => b.rows.toLists)) := by
  induction blocks generalizing so sv with
  | nil => rfl
  | cons b blocks ih =>
    have hsize : b.size = b.rows.toLists.flatten.length := (h b List.mem_cons_self).size_eq
    rw [List.flatMap_cons, Rows.ends_append, Write.run_append, Rows.length_ends,
      Rows.length_toLists, ← hsize, ← ih fun c hc => h c (List.mem_cons_of_mem _ hc)]
    rfl

/-- The tasks write the values of all blocks, one after another. -/
theorem flatten_values (h : ∀ b ∈ blocks, b.rows.Wf) (so sv : Nat) :
    (((placedFrom so sv blocks).map joined).map (·.values)).flatten =
      Write.run sv (blocks.flatMap fun b => b.rows.toLists).flatten := by
  induction blocks generalizing so sv with
  | nil => rfl
  | cons b blocks ih =>
    have hsize : b.size = b.rows.toLists.flatten.length := (h b List.mem_cons_self).size_eq
    rw [List.flatMap_cons, List.flatten_append, Write.run_append, ← hsize,
      ← ih (fun c hc => h c (List.mem_cons_of_mem _ hc)) (so + b.rows.count)]
    rfl

theorem total_counts (blocks : List Block) :
    Word.total (blocks.map (·.rows.count)) = (blocks.flatMap fun b => b.rows.toLists).length := by
  induction blocks with
  | nil => rfl
  | cons b blocks ih =>
    rw [List.map_cons, Word.total_cons, ih, List.flatMap_cons, List.length_append,
      Rows.length_toLists]

theorem total_sizes (h : ∀ b ∈ blocks, b.rows.Wf) :
    Word.total (blocks.map size) = (blocks.flatMap fun b => b.rows.toLists).flatten.length := by
  induction blocks with
  | nil => rfl
  | cons b blocks ih =>
    have hsize : b.size = b.rows.toLists.flatten.length := (h b List.mem_cons_self).size_eq
    rw [List.flatMap_cons, List.flatten_append, List.length_append, ← hsize,
      ← ih fun c hc => h c (List.mem_cons_of_mem _ hc)]
    rfl

theorem commit_offsets (h : ∀ b ∈ blocks, b.rows.Wf) :
    Scatter.commit ((blocks.flatMap fun b => b.rows.toLists).length + 1)
      (((placedFrom 1 0 blocks).map joined).map (·.offsets)) =
        (Rows.ofLists (blocks.flatMap fun b => b.rows.toLists)).offsets := by
  have hoffsets := flatten_offsets h 1 0
  generalize blocks.flatMap (fun b => b.rows.toLists) = lists at *
  rw [Scatter.commit_run hoffsets (by simp [Nat.add_comm])]
  apply Array.ext'
  rw [Rows.offsets_ofLists]
  simp [Nat.add_comm]

theorem commit_values (h : ∀ b ∈ blocks, b.rows.Wf) :
    Scatter.commit (blocks.flatMap fun b => b.rows.toLists).flatten.length
      (((placedFrom 1 0 blocks).map joined).map (·.values)) =
        (Rows.ofLists (blocks.flatMap fun b => b.rows.toLists)).values := by
  have hvalues := flatten_values h 1 0
  generalize blocks.flatMap (fun b => b.rows.toLists) = lists at *
  rw [Scatter.commit_run hvalues (by simp)]
  apply Array.ext'
  rw [Rows.values_ofLists]
  simp

theorem writes_of_mem_placedFrom (h : ∀ b ∈ blocks, b.rows.Wf) :
    ∀ task ∈ placedFrom 1 0 blocks, task.1.writes task.2.1 task.2.2 = .ok (joined task) := by
  rintro ⟨b, offsets, values⟩ htask
  obtain ⟨hmem, hcount, hsize⟩ := mem_placedFrom htask
  exact writes_eq_joined (h b hmem) hcount hsize

/-- Joining asks for the two buffers of the new table, and fills them with the rows of all blocks. -/
theorem concat_eq (pool : Pool) (h : ∀ b ∈ blocks, b.rows.Wf) :
    concat pool blocks = (do
      let lists := blocks.flatMap fun b => b.rows.toLists
      Word.reserve (← Word.addFor "candidate offsets" lists.length 1)
      Word.reserve lists.flatten.length
      return Rows.ofLists lists) := by
  have hwritten : Pool.settle (pool.runAll (placedFrom 1 0 blocks)
      fun _ (block, offsets, values) => block.writes offsets values) =
        .ok ((placedFrom 1 0 blocks).map joined) :=
    Pool.settle_eq_ok pool (writes_of_mem_placedFrom h)
  have hends := commit_offsets h
  have hflat := commit_values h
  rw [concat, total_counts, total_sizes h]
  generalize blocks.flatMap (fun b => b.rows.toLists) = lists at *
  have hparts := Rows.ofParts_of_wf (Rows.wf_ofLists lists)
  apply bind_congr_of_ok
  intro offsets hsum
  obtain rfl := (Word.yields_addFor _ _ _).of_ok hsum
  apply bind_congr_of_ok
  intro _ _
  apply bind_congr_of_ok
  intro _ _
  rw [placed_eq]
  show (Pool.settle _ >>= _) = _
  rw [hwritten]
  simp only [bind, Except.bind, hends, hflat, hparts]

theorem concat_eq_ok (pool : Pool) (h : ∀ b ∈ blocks, b.rows.Wf) {lists : List (List Nat)}
    (hlists : (blocks.flatMap fun b => b.rows.toLists) = lists)
    (hrows : Word.reserve (lists.length + 1) = .ok ())
    (hvalues : Word.reserve lists.flatten.length = .ok ()) :
    concat pool blocks = .ok (Rows.ofLists lists) := by
  have hword : lists.length + 1 < Word.bound :=
    Nat.lt_trans (Word.lt_of_reserve hrows) Word.shortageFrom_lt_bound
  simp only [concat_eq pool h, hlists, Word.addFor_of_lt hword]
  show (Word.reserve (lists.length + 1) >>= _) = _
  rw [hrows, hvalues]
  rfl

theorem yields_concat (pool : Pool) (h : ∀ b ∈ blocks, b.rows.Wf) :
    Yields (concat pool blocks) fun r =>
      r = Rows.ofLists (blocks.flatMap fun b => b.rows.toLists) := by
  rw [concat_eq pool h]
  apply (Word.yields_addFor _ _ _).bind
  intro _ _
  apply (Word.yields_reserve _).bind
  intro _ _
  apply (Word.yields_reserve _).bind
  intro _ _
  exact yields_pure rfl

end Block

end Motif
