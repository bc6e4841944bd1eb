import Motif.Proofs.Exact

/-!
# Seeds that are turned down

A search from seeds ends with the refusal that its seeds deserve, or starts if they deserve none; from there
on only memory stops it (`seeds_judged`). The seeds have to be in memory, as any table a caller can
give is, since a table that no memory can hold would be refused for its size.
-/

namespace Motif

variable {g : Graph} {p : Pattern} {reuse : Reuse} {row : List Nat} {before rows : List (List Nat)}

namespace Walks

/-! ### Tables of seeds -/

theorem firstOfOtherLength_eq_none {length : Nat} (h : ∀ r ∈ rows, r.length = length) (i : Nat) :
    firstOfOtherLength length i rows = none := by
  induction rows generalizing i with
  | nil => rfl
  | cons row rows ih =>
    rw [firstOfOtherLength, if_pos (h row List.mem_cons_self)]
    exact ih (fun r hr => h r (List.mem_cons_of_mem _ hr)) _

theorem firstOfOtherLength_append {length : Nat} (h : ∀ r ∈ before, r.length = length) (i : Nat) :
    firstOfOtherLength length i (before ++ rows) =
      firstOfOtherLength length (i + before.length) rows := by
  induction before generalizing i with
  | nil => rfl
  | cons row before ih =>
    rw [List.cons_append, firstOfOtherLength, if_pos (h row List.mem_cons_self),
      ih (fun r hr => h r (List.mem_cons_of_mem _ hr)), List.length_cons, Nat.add_comm before.length,
      ← Nat.add_assoc]

end Walks

/-- A table that is in memory: its two arrays are the rows of a table, and there was room for them. -/
structure Rows.Held {α : Type} (r : Rows α) : Prop extends r.Wf where
  values_room : Word.reserve r.values.size = .ok ()
  offsets_room : Word.reserve r.offsets.size = .ok ()

namespace Walks

variable {seeds : Rows Nat} {first : List Nat} {rest : List (List Nat)}

theorem ofSeeds_of_empty (hseeds : seeds.toLists = [] :: rest) :
    ofSeeds seeds = refuse (.mismatch .emptySeeds) := by
  rw [ofSeeds, hseeds]
  rfl

theorem ofSeeds_of_seedLength (hseeds : seeds.toLists = first :: rest) (hfirst : first ≠ [])
    {after : List (List Nat)} (hrows : first :: rest = before ++ row :: after)
    (hbefore : ∀ r ∈ before, r.length = first.length) (hrow : row.length ≠ first.length) :
    ofSeeds seeds = refuse (.mismatch (.seedLength before.length row.length first.length)) := by
  cases before with
  | nil =>
    rw [List.nil_append, List.cons.injEq] at hrows
    exact absurd (congrArg List.length hrows.1.symm) hrow
  | cons b before =>
    rw [List.cons_append, List.cons.injEq] at hrows
    obtain ⟨rfl, rfl⟩ := hrows
    have hother : firstOfOtherLength first.length 1 (before ++ row :: after) =
        some ((first :: before).length, row.length) := by
      rw [firstOfOtherLength_append (fun r hr => hbefore r (List.mem_cons_of_mem _ hr)),
        firstOfOtherLength, if_neg hrow, List.length_cons, Nat.add_comm]
    rw [ofSeeds, hseeds]
    dsimp only
    rw [hother, require, if_pos (by simpa using hfirst)]
    rfl

theorem ofSeeds_eq_ok (hheld : seeds.Held) (hseeds : seeds.toLists = first :: rest)
    (hfirst : first ≠ []) (hlength : ∀ r ∈ first :: rest, r.length = first.length) :
    ofSeeds seeds = .ok (ofList first.length ((first :: rest).map ofRow)) := by
  have hpos : 0 < first.length := List.length_pos_iff.mpr hfirst
  have hcount : seeds.count = (first :: rest).length := by rw [← hseeds, Rows.length_toLists]
  have htotal : seeds.count * first.length = seeds.values.size := by
    rw [← Array.length_toList, ← hheld.flatten_toLists, hseeds, length_flatten_of_forall hlength, hcount]
  have hword : seeds.count * first.length < Word.bound := by
    rw [htotal]
    exact Nat.lt_trans (Word.lt_of_reserve hheld.values_room) Word.shortageFrom_lt_bound
  have hoffsets : Word.reserve (seeds.count + 1) = .ok () := by
    rw [← hheld.offsets_size]
    exact hheld.offsets_room
  have hshaped := shaped_of_mem_map_ofRow hlength
  have hsize : (((first :: rest).map ofRow).map Walk.vertices).flatten.toArray.size =
      seeds.count * first.length := by
    rw [List.size_toArray, length_flatten_of_forall (length_of_mem_vertices hshaped), hcount,
      List.length_map, List.length_map]
  rw [ofSeeds, hseeds]
  dsimp only
  rw [firstOfOtherLength_eq_none (fun r hr => hlength r (List.mem_cons_of_mem _ hr)), require,
    if_pos (Nat.pos_iff_ne_zero.mp hpos), Word.mulFor, if_pos hword, map_fst_flatMap_byVertex,
    map_snd_flatMap_byVertex, Rows.uniform_eq_ok hpos hsize hoffsets, htotal]
  show (Word.reserve seeds.values.size >>= _) = _
  rw [hheld.values_room, ofList, List.length_map, ← hcount]
  rfl

end Walks

/-! ### Searches from seeds -/

namespace Search

variable {s : Search} {seeds : Rows Nat} {first : List Nat} {rest : List (List Nat)}

theorem seedWalks_of_nil (hseeds : seeds.toLists = []) : s.seedWalks g p seeds = .ok none := by
  have hcount : seeds.count = 0 := by rw [← Rows.length_toLists, hseeds, List.length_nil]
  rw [seedWalks, if_pos hcount]
  rfl

theorem seedWalks_of_cons (hseeds : seeds.toLists = first :: rest) : s.seedWalks g p seeds = (do
    let walks ← Walks.ofSeeds seeds
    walks.check g p s.settings.reuse
    return some walks) := by
  have hcount : seeds.count ≠ 0 := by
    rw [← Rows.length_toLists, hseeds, List.length_cons]
    exact Nat.succ_ne_zero _
  rw [seedWalks, if_neg hcount]

theorem seedWalks_of_admitted (hheld : seeds.Held) (hseeds : seeds.toLists = first :: rest)
    (hfirst : first ≠ []) (hlength : ∀ r ∈ first :: rest, r.length = first.length)
    (hsize : first.length ≤ p.size) (hmatch : ∀ r ∈ first :: rest, IsMatch g p s.settings.reuse r) :
    ∃ walks, Walks.ofSeeds seeds = .ok walks ∧ walks.check g p s.settings.reuse = .ok () ∧
      s.seedWalks g p seeds = .ok (some walks) := by
  have htable := Walks.ofSeeds_eq_ok hheld hseeds hfirst hlength
  have hcheck : (Walks.ofList _ _).check g p s.settings.reuse = _ :=
    Walks.check_of_vertices hsize hlength fun r hr => (hmatch r hr).vertices
  rw [Walks.checkFrom_of_isMatch hmatch hlength Array.size_replicate] at hcheck
  refine ⟨_, htable, hcheck, ?_⟩
  rw [seedWalks_of_cons hseeds, htable]
  show (Walks.check _ _ _ _ >>= _) = _
  rw [hcheck]
  rfl

theorem seedWalks_of_seedFault (hheld : seeds.Held) (hseeds : seeds.toLists = first :: rest)
    {cause : Refusal} (h : SeedFault g p s.settings.reuse first (first :: rest) cause) :
    s.seedWalks g p seeds = refuse cause := by
  rw [seedWalks_of_cons hseeds]
  cases h with
  | emptySeeds hempty =>
    rw [Walks.ofSeeds_of_empty (hempty ▸ hseeds)]
    rfl
  | seedLength hfirst hrows hbefore hrow =>
    rw [Walks.ofSeeds_of_seedLength hseeds hfirst hrows hbefore hrow]
    rfl
  | tooManyPositions hfirst hlength hsize =>
    rw [Walks.ofSeeds_eq_ok hheld hseeds hfirst hlength]
    show (Walks.check _ _ _ _ >>= _) = _
    rw [Walks.check_of_size_lt hsize]
    rfl
  | vertexOutOfRange hfirst hlength hsize hrows hbefore hv hout hleast =>
    rw [Walks.ofSeeds_eq_ok hheld hseeds hfirst hlength]
    show (Walks.check _ _ _ _ >>= _) = _
    rw [hrows, Walks.check_of_vertexOutOfRange hsize hbefore hv hout hleast]
    rfl
  | @row before after row _ hfirst hlength hsize hvertices hrows hbefore hrow =>
    rw [Walks.ofSeeds_eq_ok hheld hseeds hfirst hlength]
    show (Walks.check _ _ _ _ >>= _) = _
    have hmem : row ∈ first :: rest := by simp [hrows]
    rw [Walks.check_of_vertices hsize hlength hvertices]
    rw [hrows] at hlength ⊢
    rw [Walks.checkFrom_of_rowFault hbefore hlength (hvertices row hmem) Array.size_replicate hrow]
    rfl

theorem yields_findExtending {target : List (List Nat)} {walks : Walks}
    (h : State.Leads ⟨g, p, .listing⟩ s.settings.reuse target (.binding walks.arity walks)) :
    Yields (s.findExtending g p walks) fun _ => True :=
  (yields_run h).bind fun _ _ => yields_pure trivial

theorem yields_find (s : Search) (g : Graph) (p : Pattern) : Yields (s.find g p) fun _ => True := by
  rw [find]
  cases hsingles : Walks.singles g.order with
  | error stop => exact (Walks.yields_singles_holds g.order).forMemory hsingles
  | ok walks => exact yields_findExtending (leads_singles hsingles)

theorem yields_countExtending {target : List (List Nat)} {walks : Walks}
    (h : State.Leads ⟨g, p, .number⟩ s.settings.reuse target (.binding walks.arity walks)) :
    Yields (s.countExtending g p walks) fun _ => True :=
  (yields_run h).bind fun _ _ => yields_pure trivial

/-- Without seeds nothing is found. Seeds with a fault are turned down for it, and seeds without one are
the start of a search that only memory can stop. It makes no difference whether matches are listed or
counted. -/
theorem seeds_judged (s : Search) (g : Graph) (p : Pattern) {seeds : Rows Nat} (hheld : seeds.Held) :
    (seeds.toLists = [] → s.findFrom g p seeds = .ok ⟨p.size, #[], s.profile []⟩ ∧
      s.countFrom g p seeds = .ok ⟨0, s.profile []⟩) ∧
    ∀ first rest, seeds.toLists = first :: rest →
      (∀ cause, SeedFault g p s.settings.reuse first (first :: rest) cause →
        s.findFrom g p seeds = refuse cause ∧ s.countFrom g p seeds = refuse cause) ∧
      ((∀ cause, ¬ SeedFault g p s.settings.reuse first (first :: rest) cause) →
        (∃ walks, Walks.ofSeeds seeds = .ok walks ∧
          s.findFrom g p seeds = s.findExtending g p walks ∧
          s.countFrom g p seeds = s.countExtending g p walks) ∧
        (∀ stop, s.findFrom g p seeds = .error stop → stop.ForMemory) ∧
        ∀ stop, s.countFrom g p seeds = .error stop → stop.ForMemory) := by
  refine ⟨fun hseeds => ?_, fun first rest hseeds => ⟨fun cause hfault => ?_, fun hnone => ?_⟩⟩
  · rw [findFrom, countFrom, seedWalks_of_nil hseeds]
    exact ⟨rfl, rfl⟩
  · rw [findFrom, countFrom, seedWalks_of_seedFault hheld hseeds hfault]
    exact ⟨rfl, rfl⟩
  · obtain ⟨hfirst, hlength, hsize, hmatch⟩ := admitted_of_not_seedFault hnone
    obtain ⟨walks, hwalks, hcheck, hstart⟩ :=
      seedWalks_of_admitted hheld hseeds hfirst hlength hsize hmatch
    have hfind : s.findFrom g p seeds = s.findExtending g p walks := by
      rw [findFrom, hstart]
      rfl
    have hcount : s.countFrom g p seeds = s.countExtending g p walks := by
      rw [countFrom, hstart]
      rfl
    refine ⟨⟨walks, hwalks, hfind, hcount⟩, fun stop hstop => ?_, fun stop hstop => ?_⟩
    · exact (yields_findExtending (leads_ofSeeds hwalks hcheck)).forMemory (hfind ▸ hstop)
    · exact (yields_countExtending (leads_ofSeeds hwalks hcheck)).forMemory (hcount ▸ hstop)

/-- The second seed has the edge from its first vertex to its second, but neither of those to its third. -/
theorem seeds_judged_backward :
    let seeds : Rows Nat := ⟨#[0, 3, 6], #[0, 1, 3, 2, 3, 0]⟩
    seeds.Held ∧ ∀ settings, (ofSettings settings 1).findFrom ladder triangle seeds =
        refuse (.seedEdge 1 0 2) ∧
      (ofSettings settings 1).countFrom ladder triangle seeds = refuse (.seedEdge 1 0 2) := by
  intro seeds
  have hheld : seeds.Held := ⟨⟨by decide, by decide, by decide⟩, by decide, by decide⟩
  refine ⟨hheld, fun settings => ?_⟩
  have hmatch : ∀ reuse, IsMatch ladder triangle reuse [0, 1, 3] := by
    intro reuse
    cases reuse <;> decide +kernel
  have hleast : ∀ source target, Lacks ladder triangle [2, 3, 0] source target →
      2 < target ∨ 2 = target ∧ 0 ≤ source := by
    rintro source target ⟨htarget, hsource, hedge⟩
    match target, htarget with
    | 0, _ => exact absurd hsource List.not_mem_nil
    | 1, _ =>
      rw [List.mem_singleton.mp hsource] at hedge
      exact absurd (by decide +kernel) hedge
    | 2, _ => exact Or.inr ⟨rfl, Nat.zero_le _⟩
  have hfault : RowFault ladder triangle settings.reuse 1 [2, 3, 0] (.seedEdge 1 0 2) :=
    .seedEdge (fun _ => by decide) ⟨by decide, by decide, by decide +kernel⟩ hleast
  have hrows : [[0, 1, 3], [2, 3, 0]] = [[0, 1, 3]] ++ [2, 3, 0] :: [] := rfl
  exact ((seeds_judged (ofSettings settings 1) ladder triangle hheld).2 [0, 1, 3] [[2, 3, 0]]
    (by decide)).1 _ (.row (by decide) (by decide) (by decide) (by decide) hrows
      (by simpa using hmatch _) hfault)

end Search

end Motif
