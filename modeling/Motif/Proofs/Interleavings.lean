import Mathlib.Data.List.Nodup
import Mathlib.Logic.Relation
import Motif.Proofs.Blocks
import Motif.Proofs.Built

/-!
# Tasks that write at the same time

The tasks that join blocks, and those that extend a table of walks, write to two buffers which all of them
share. `Scatter.commit` carries out one task after another. Here the tasks are at work together: a `Step`
is a single write to a single cell, of any task that has one left, so a sequence of steps interleaves the
tasks in any way.

What keeps the tasks apart is that their slices lie side by side. Each cell is then written once and by one
task (`Shares`), two writes that are still to come never meet, and it makes no difference which of them is
carried out first (`Awaits.write`). So the buffers come out as `commit` leaves them, and these are the
buffers of the table that is returned (`scatter_race_free`).
-/

namespace Motif

namespace Scatter

/-! ### Steps -/

/-- A write to the first or to the second of two buffers. -/
inductive Access
  | first (w : Write)
  | second (w : Write)

namespace Access

def first? : Access → Option Write
  | first w => some w
  | second _ => none

def second? : Access → Option Write
  | first _ => none
  | second w => some w

end Access

/-- Two buffers at work. -/
structure Progress where
  first : Array Nat
  second : Array Nat
  /-- What each task has still to write. -/
  pending : List (List Access)

/-- A task that has something left to write carries out its next write. -/
inductive Step : Progress → Progress → Prop
  | first {a b : Array Nat} {before after : List (List Access)} {rest : List Access} {w : Write} :
      Step ⟨a, b, before ++ (.first w :: rest) :: after⟩ ⟨write a w, b, before ++ rest :: after⟩
  | second {a b : Array Nat} {before after : List (List Access)} {rest : List Access} {w : Write} :
      Step ⟨a, b, before ++ (.second w :: rest) :: after⟩ ⟨a, write b w, before ++ rest :: after⟩

/-- What one task has to write. -/
structure Job where
  first : List Write
  second : List Write

/-- The task does what the job asks for. It may change between the buffers at any time, and take the cells
of either in any order. -/
structure Job.DoneBy (job : Job) (task : List Access) : Prop where
  first : (task.filterMap Access.first?).Perm job.first
  second : (task.filterMap Access.second?).Perm job.second

/-- The tasks write to the cells of a slice, to each of them once, and no two tasks to the same cell. -/
structure Shares (s : Slice) (tasks : List (List Write)) : Prop where
  apart : tasks.Pairwise fun ws others => ∀ w ∈ ws, ∀ o ∈ others, w.cell ≠ o.cell
  once : (tasks.flatten.map Write.cell).Perm s.cells

/-- The jobs share a slice of each of two buffers. If tasks do them, interleaved in any way, the buffers
come out as they do when one job is done after another. The first buffer has `m` cells and the second
one `n`. -/
structure RaceFree (m n : Nat) (first second : Slice) (jobs : List Job) : Prop where
  first : Shares first (jobs.map Job.first)
  second : Shares second (jobs.map Job.second)
  ends_alike : ∀ tasks, List.Forall₂ Job.DoneBy jobs tasks → ∀ s : Progress,
    Relation.ReflTransGen Step ⟨Array.replicate m 0, Array.replicate n 0, tasks⟩ s →
      (∀ next, ¬ Step s next) →
        s.first = commit m (jobs.map Job.first) ∧ s.second = commit n (jobs.map Job.second)

/-! ### Writes that do not meet -/

variable {buffer target : Array Nat} {jobs : List Job} {tasks : List (List Access)} {s next : Progress}

theorem cells_run (start : Nat) (values : List Nat) :
    (Write.run start values).map Write.cell = List.range' start values.length := by
  induction values generalizing start with
  | nil => rfl
  | cons v values ih => rw [Write.run_cons, List.map_cons, ih, List.length_cons, List.range'_succ]

/-- Tasks whose writes make up one run share the cells of the run. -/
theorem shares_of_run {start length : Nat} {values : List Nat} {tasks : List (List Write)}
    (h : tasks.flatten = Write.run start values) (hlength : values.length = length) :
    Shares ⟨start, length⟩ tasks := by
  have hcells : tasks.flatten.map Write.cell = List.range' start length := by
    rw [h, cells_run, hlength]
  refine ⟨?_, List.Perm.of_eq hcells⟩
  have hnodup : (tasks.flatten.map Write.cell).Pairwise (· ≠ ·) := hcells ▸ List.nodup_range'
  rw [List.pairwise_map, List.pairwise_flatten] at hnodup
  exact hnodup.2

theorem Shares.nodup {slice : Slice} {tasks : List (List Write)} (h : Shares slice tasks) :
    (tasks.flatten.map Write.cell).Nodup := h.once.nodup_iff.mpr List.nodup_range'

/-- Writes to different cells can be carried out in any order. -/
theorem writeAll_perm {ws others : List Write} (hnodup : (ws.map Write.cell).Nodup)
    (h : ws.Perm others) : writeAll buffer ws = writeAll buffer others := by
  apply h.foldl_eq'
  intro v hv w hw buffer
  by_cases hsame : v = w
  · rw [hsame]
  · have hcell : v.cell ≠ w.cell := fun heq => hsame (List.inj_on_of_nodup_map hnodup hv hw heq)
    exact Array.setIfInBounds_comm _ _ hcell

/-- The writes that are still to come go to different cells, and lead to the target. -/
structure Awaits (buffer : Array Nat) (ws : List Write) (target : Array Nat) : Prop where
  nodup : (ws.map Write.cell).Nodup
  leads : writeAll buffer ws = target

/-- Whichever write is carried out next, the target is the same. -/
theorem Awaits.write {before after : List Write} {w : Write}
    (h : Awaits buffer (before ++ w :: after) target) :
    Awaits (write buffer w) (before ++ after) target := by
  have hfront : (before ++ w :: after).Perm (w :: (before ++ after)) := List.perm_middle
  have hnodup := (hfront.map Write.cell).nodup_iff.mp h.nodup
  refine ⟨(List.nodup_cons.mp hnodup).2, ?_⟩
  rw [← h.leads, writeAll_perm h.nodup hfront]
  rfl

/-! ### Any sequence of steps -/

/-- Both buffers wait for the writes of the tasks only. -/
structure Progress.Approaches (s : Progress) (first second : Array Nat) : Prop where
  first : Awaits s.first (s.pending.flatten.filterMap Access.first?) first
  second : Awaits s.second (s.pending.flatten.filterMap Access.second?) second

theorem filterMap_flatten_append {α : Type} (f : Access → Option α) (before after : List (List Access))
    (task : List Access) : (before ++ task :: after).flatten.filterMap f =
      before.flatten.filterMap f ++ (task.filterMap f ++ after.flatten.filterMap f) := by
  rw [List.flatten_append, List.flatten_cons, List.filterMap_append, List.filterMap_append]

theorem Progress.Approaches.step {first second : Array Nat} (h : s.Approaches first second)
    (hstep : Step s next) : next.Approaches first second := by
  obtain ⟨hfirst, hsecond⟩ := h
  -- the write is taken out of the list of one buffer, and the list of the other stays as it is
  cases hstep with
  | first =>
    simp only [filterMap_flatten_append] at hfirst hsecond
    refine ⟨?_, ?_⟩
    · rw [filterMap_flatten_append]
      exact hfirst.write
    · rw [filterMap_flatten_append]
      exact hsecond
  | second =>
    simp only [filterMap_flatten_append] at hfirst hsecond
    refine ⟨?_, ?_⟩
    · rw [filterMap_flatten_append]
      exact hfirst
    · rw [filterMap_flatten_append]
      exact hsecond.write

theorem approaches_of_steps {first second : Array Nat} (h : s.Approaches first second)
    (hsteps : Relation.ReflTransGen Step s next) : next.Approaches first second := by
  induction hsteps with
  | refl => exact h
  | tail _ hstep ih => exact ih.step hstep

/-- The steps go on until nothing is left to write. -/
theorem flatten_pending_of_stuck (hstuck : ∀ next, ¬ Step s next) : s.pending.flatten = [] := by
  rw [List.flatten_eq_nil_iff]
  intro task htask
  obtain ⟨a, b, pending⟩ := s
  obtain ⟨before, after, rfl⟩ := List.append_of_mem htask
  cases task with
  | nil => rfl
  | cons access rest =>
    cases access with
    | first w => exact absurd .first (hstuck _)
    | second w => exact absurd .second (hstuck _)

/-- Tasks that do their jobs have the writes of all jobs among them, in some order. -/
theorem perm_flatten_of_forall₂ {field : Job → List Write} {f : Access → Option Write}
    (h : List.Forall₂ (fun job task => (task.filterMap f).Perm (field job)) jobs tasks) :
    (jobs.map field).flatten.Perm (tasks.flatten.filterMap f) := by
  induction h with
  | nil => exact .refl _
  | cons hjob _ ih =>
    rw [List.flatten_cons, List.filterMap_append, List.map_cons, List.flatten_cons]
    exact hjob.symm.append ih

theorem awaits_of_perm {slice : Slice} {size : Nat} {writes : List (List Write)} {ws : List Write}
    (h : Shares slice writes) (hperm : writes.flatten.Perm ws) :
    Awaits (Array.replicate size 0) ws (commit size writes) where
  nodup := (hperm.map Write.cell).nodup_iff.mp h.nodup
  leads := by rw [commit_eq, writeAll_perm h.nodup hperm]

/-- Jobs that share their slices can be done at the same time. -/
theorem raceFree_of_shares {m n : Nat} {first second : Slice} (hfirst : Shares first (jobs.map Job.first))
    (hsecond : Shares second (jobs.map Job.second)) : RaceFree m n first second jobs where
  first := hfirst
  second := hsecond
  ends_alike tasks htasks s hsteps hstuck := by
    have hstart : Progress.Approaches ⟨Array.replicate m 0, Array.replicate n 0, tasks⟩
        (commit m (jobs.map Job.first)) (commit n (jobs.map Job.second)) :=
      ⟨awaits_of_perm hfirst (perm_flatten_of_forall₂ (htasks.imp fun _ _ h => h.first)),
        awaits_of_perm hsecond (perm_flatten_of_forall₂ (htasks.imp fun _ _ h => h.second))⟩
    obtain ⟨hends, hends'⟩ := approaches_of_steps hstart hsteps
    rw [flatten_pending_of_stuck hstuck] at hends hends'
    exact ⟨hends.leads, hends'.leads⟩

end Scatter

/-! ### The two phases -/

namespace Block

def Writes.job (w : Writes) : Scatter.Job := ⟨w.offsets, w.values⟩

variable {blocks : List Block}

theorem raceFree_joined (h : ∀ b ∈ blocks, b.rows.Wf) :
    Scatter.RaceFree (Word.total (blocks.map (·.rows.count)) + 1) (Word.total (blocks.map size))
      ⟨1, Word.total (blocks.map (·.rows.count))⟩ ⟨0, Word.total (blocks.map size)⟩
      (((placedFrom 1 0 blocks).map joined).map Writes.job) := by
  apply Scatter.raceFree_of_shares
  · rw [List.map_map]
    refine Scatter.shares_of_run (flatten_offsets h 1 0) ?_
    rw [Rows.length_ends, total_counts]
  · rw [List.map_map]
    refine Scatter.shares_of_run (flatten_values h 1 0) ?_
    rw [total_sizes h]

end Block

namespace Walks

def Writes.job (w : Writes) : Scatter.Job := ⟨w.vertices, w.positions⟩

variable {arity : Nat} {ws : List Walk} {candidates : Rows Nat} {spans : List Span}

theorem raceFree_laid (h : ∀ w ∈ ws, w.Shaped arity) (hwf : candidates.Wf)
    (hcount : candidates.count = ws.length) (htiles : Span.Tiles spans 0 ws.length) :
    Scatter.RaceFree (candidates.size * (arity + 1)) (candidates.size * (arity + 1))
      ⟨0, candidates.size * (arity + 1)⟩ ⟨0, candidates.size * (arity + 1)⟩
      (((allotted candidates (arity + 1) spans).map ((ofList arity ws).laid candidates)).map
        Writes.job) := by
  have hshaped := shaped_of_mem_written h hcount (fits_of_tiles hcount htiles)
  have hlength : ((ofList arity ws).written candidates spans).length = candidates.size := by
    rw [length_written, length_rows_of_tiles hcount htiles hwf]
  have hvertices : ∀ w ∈ (ofList arity ws).written candidates spans,
      w.vertices.length = arity + 1 := fun w hw => (hshaped w hw).length_vertices
  have hpositions : ∀ w ∈ (ofList arity ws).written candidates spans,
      w.positions.length = arity + 1 := fun w hw => (hshaped w hw).length_positions
  apply Scatter.raceFree_of_shares
  · rw [List.map_map]
    refine Scatter.shares_of_run (flatten_laid _ (fun _ _ => rfl) hvertices) ?_
    rw [← List.flatMap_def, length_flatMap_of_forall hvertices, hlength]
  · rw [List.map_map]
    refine Scatter.shares_of_run (flatten_laid _ (fun _ _ => rfl) hpositions) ?_
    rw [← List.flatMap_def, length_flatMap_of_forall hpositions, hlength]

end Walks

/-- The tasks that join blocks have nothing to do with each other, whatever the blocks are, and neither
have those that extend a table over all of its rows. Each cell of the new table is written once, but for the
first offset, which is zero. The tasks can be interleaved in any way, and the buffers that they leave are
those of the table that is returned. -/
theorem scatter_race_free :
    (∀ blocks : List Block, (∀ b ∈ blocks, b.rows.Wf) → ∃ tasks written,
      Block.placed blocks = .ok tasks ∧
      (tasks.mapM fun (block, offsets, values) => block.writes offsets values) = .ok written ∧
      Scatter.RaceFree (Word.total (blocks.map (·.rows.count)) + 1) (Word.total (blocks.map Block.size))
        ⟨1, Word.total (blocks.map (·.rows.count))⟩ ⟨0, Word.total (blocks.map Block.size)⟩
        (written.map Block.Writes.job) ∧
      ∀ pool joined, Block.concat pool blocks = .ok joined →
        joined.offsets = Scatter.commit (Word.total (blocks.map (·.rows.count)) + 1)
          (written.map (·.offsets)) ∧
        joined.values = Scatter.commit (Word.total (blocks.map Block.size)) (written.map (·.values))) ∧
    ∀ t : Walks, t.Built → ∀ candidates : Rows Nat, candidates.Wf → candidates.count = t.count →
      ∀ spans, Span.Tiles spans 0 t.count →
      ∀ total, Word.mulFor "walk table" candidates.size (t.arity + 1) = .ok total →
      ∃ widths slices written, spans.mapM (Walks.width candidates (t.arity + 1)) = .ok widths ∧
        Slice.cut 0 total widths = .ok slices ∧
        ((spans.zip slices).mapM fun (span, slice) => t.writes candidates span slice) = .ok written ∧
        Scatter.RaceFree total total ⟨0, total⟩ ⟨0, total⟩ (written.map Walks.Writes.job) ∧
        ∀ pool longer, t.extend pool spans candidates = .ok longer →
          longer.vertices.values = Scatter.commit total (written.map (·.vertices)) ∧
          longer.positions = Scatter.commit total (written.map (·.positions)) := by
  refine ⟨fun blocks hwf => ?_, fun t ht candidates hwf hcount spans htiles total htotal => ?_⟩
  · refine ⟨_, _, Block.placed_eq blocks, mapM_eq_ok (Block.writes_of_mem_placedFrom hwf),
      Block.raceFree_joined hwf, fun pool joined hjoined => ?_⟩
    obtain rfl := (Block.yields_concat pool hwf).of_ok hjoined
    rw [Block.total_counts, Block.total_sizes hwf]
    exact ⟨(Block.commit_offsets hwf).symm, (Block.commit_values hwf).symm⟩
  · obtain ⟨ws, htable, hshaped⟩ := ht.eq_ofList_shaped
    generalize t.arity = arity at *
    subst htable
    rw [Walks.count_ofList] at hcount htiles
    have hbound := Word.lt_bound_of_mulFor htotal
    obtain rfl := (Word.yields_mulFor _ _ _).of_ok htotal
    have hfits := Walks.fits_of_tiles hcount htiles
    have hroom := Nat.le_of_eq (Walks.length_rows_of_tiles hcount htiles hwf)
    refine ⟨_, _, _, Walks.widths_eq hwf hbound (Nat.succ_pos arity) hfits, Walks.cut_widths hroom,
      mapM_eq_ok (Walks.writes_of_mem_allotted hshaped hcount hfits),
      Walks.raceFree_laid hshaped hwf hcount htiles, fun pool longer hlonger => ?_⟩
    have hextended := ((Walks.yields_extend pool hshaped hwf hcount
      (htiles.last_zero.trans hcount.symm) hfits hroom).of_ok hlonger).1
    obtain ⟨hvertices, hpositions⟩ := Walks.commit_writes hshaped hcount hfits hroom
    rw [hextended]
    exact ⟨hvertices.symm, hpositions.symm⟩

/-- Two blocks are joined by tasks of which one starts with the offsets and the other with the values, and
two seeds are extended, one by two vertices and one by none. -/
theorem scatter_race_free_pair :
    let blocks : List Block := [⟨⟨0, 1⟩, ⟨#[0, 1], #[5]⟩⟩, ⟨⟨1, 2⟩, ⟨#[0, 1], #[8]⟩⟩]
    let start : Scatter.Progress :=
      ⟨#[0, 0, 0], #[0, 0], [[.first ⟨1, 1⟩, .second ⟨0, 5⟩], [.second ⟨1, 8⟩, .first ⟨2, 2⟩]]⟩
    Block.concat (Pool.ofWorkers 2) blocks = .ok ⟨#[0, 1, 2], #[5, 8]⟩ ∧
      Relation.ReflTransGen Scatter.Step start ⟨#[0, 1, 2], #[5, 8], [[], []]⟩ ∧
      (∀ s, Relation.ReflTransGen Scatter.Step start s → (∀ next, ¬ Scatter.Step s next) →
        s.first = #[0, 1, 2] ∧ s.second = #[5, 8]) ∧
      Scatter.RaceFree 6 6 ⟨0, 6⟩ ⟨0, 6⟩
        [⟨Write.run 0 [3, 5, 5, 0, 3, 5], Write.run 0 [1, 2, 0, 2, 1, 0]⟩, ⟨[], []⟩] := by
  intro blocks start
  obtain ⟨hblocks, hwalks⟩ := scatter_race_free
  have hjoined : Block.concat (Pool.ofWorkers 2) blocks = .ok ⟨#[0, 1, 2], #[5, 8]⟩ := by
    decide +kernel
  refine ⟨hjoined, ?_, ?_, ?_⟩
  · have hvalue : Scatter.Step start ⟨#[0, 0, 0], #[0, 8], _⟩ :=
      @Scatter.Step.second #[0, 0, 0] #[0, 0] [[.first ⟨1, 1⟩, .second ⟨0, 5⟩]] []
        [.first ⟨2, 2⟩] ⟨1, 8⟩
    have hoffset : Scatter.Step _ ⟨#[0, 1, 0], #[0, 8], _⟩ :=
      @Scatter.Step.first #[0, 0, 0] #[0, 8] [] [[.first ⟨2, 2⟩]] [.second ⟨0, 5⟩] ⟨1, 1⟩
    have hoffset' : Scatter.Step _ ⟨#[0, 1, 2], #[0, 8], _⟩ :=
      @Scatter.Step.first #[0, 1, 0] #[0, 8] [[.second ⟨0, 5⟩]] [] [] ⟨2, 2⟩
    have hvalue' : Scatter.Step _ ⟨#[0, 1, 2], #[5, 8], _⟩ :=
      @Scatter.Step.second #[0, 1, 2] #[0, 8] [] [[]] [] ⟨0, 5⟩
    exact (((Relation.ReflTransGen.single hvalue).tail hoffset).tail hoffset').tail hvalue'
  · have hwf : ∀ b ∈ blocks, b.rows.Wf := by
      intro b hb
      rcases List.mem_pair.mp hb with rfl | rfl
      · exact ⟨by decide, by decide, by decide⟩
      · exact ⟨by decide, by decide, by decide⟩
    obtain ⟨tasks, written, htasks, hwritten, hfree, hsame⟩ := hblocks blocks hwf
    have htasks' : Block.placed blocks = .ok [(⟨⟨0, 1⟩, ⟨#[0, 1], #[5]⟩⟩, ⟨1, 1⟩, ⟨0, 1⟩),
        (⟨⟨1, 2⟩, ⟨#[0, 1], #[8]⟩⟩, ⟨2, 1⟩, ⟨1, 1⟩)] := by decide +kernel
    obtain rfl := Except.ok.inj (htasks.symm.trans htasks')
    obtain rfl : [⟨[⟨1, 1⟩], [⟨0, 5⟩]⟩, ⟨[⟨2, 2⟩], [⟨1, 8⟩]⟩] = written :=
      Except.ok.inj (Eq.trans (by decide +kernel) hwritten)
    obtain ⟨hoffsets, hvalues⟩ := hsame _ _ hjoined
    intro s hsteps hstuck
    have hdone : List.Forall₂ Scatter.Job.DoneBy
        [⟨[⟨1, 1⟩], [⟨0, 5⟩]⟩, ⟨[⟨2, 2⟩], [⟨1, 8⟩]⟩] start.pending :=
      .cons ⟨.refl _, .refl _⟩ (.cons ⟨.refl _, .refl _⟩ .nil)
    obtain ⟨hfirst, hsecond⟩ := hfree.ends_alike _ hdone s hsteps hstuck
    exact ⟨hfirst.trans hoffsets.symm, hsecond.trans hvalues.symm⟩
  · have hbuilt : Walks.Built ⟨2, ⟨#[0, 2, 4], #[3, 5, 4, 4]⟩, #[1, 0, 0, 1]⟩ :=
      .ofSeeds (show Walks.ofSeeds ⟨#[0, 2, 4], #[5, 3, 4, 4]⟩ = _ by decide +kernel)
    have htiles : Span.Tiles [⟨0, 1⟩, ⟨1, 2⟩] 0 2 := by simp [Span.Tiles]
    obtain ⟨widths, slices, written, hwidths, hslices, hwritten, hfree, _⟩ :=
      hwalks _ hbuilt ⟨#[0, 2, 2], #[5, 0]⟩ ⟨by decide, by decide, by decide⟩ rfl _ htiles 6 rfl
    obtain rfl : [6, 0] = widths := Except.ok.inj (Eq.trans (by decide +kernel) hwidths)
    obtain rfl : [⟨0, 6⟩, ⟨6, 0⟩] = slices := Except.ok.inj (Eq.trans (by decide +kernel) hslices)
    obtain rfl : [⟨Write.run 0 [3, 5, 5, 0, 3, 5], Write.run 0 [1, 2, 0, 2, 1, 0]⟩, ⟨[], []⟩] =
        written := Except.ok.inj (Eq.trans (by decide +kernel) hwritten)
    exact hfree

end Motif
