import Motif.Search.Basic
import Motif.Proofs.Candidates
import Motif.Proofs.Holding
import Motif.Proofs.Matching

/-!
# One step of a search

A step finds candidates for each tuple that its walks hold (`candidates_adds_found`), joins them and
extends the walks. What it finds for a partial match are the vertices that follow it, as long as no
position requires `2 ^ 32` others or more; beyond that counting may go wrong, but what it finds are
still vertices of the graph in ascending order, so the search keeps running.

`yields_bindNext` is the step as a whole, in terms of the lists that were found.
-/

namespace Motif

/-- No position requires more than counters can count. -/
def Pattern.Narrow (p : Pattern) : Prop := ∀ l ∈ p.required, l.length < UInt32.size

instance (p : Pattern) : Decidable p.Narrow :=
  inferInstanceAs (Decidable (∀ l ∈ p.required, l.length < UInt32.size))

/-- What a step may find for a tuple. -/
structure Found (q : Query) (reuse : Reuse) (t found : List Nat) : Prop where
  vertices : ∀ v ∈ found, v < q.graph.order
  ascending : found.Pairwise (· < ·)
  exact : q.pattern.Narrow → IsMatch q.graph q.pattern reuse t →
    found = follows q.graph q.pattern reuse t

namespace Search

variable {q : Query} {s : Search} {x : Extender} {w : Walk} {t : List Nat}

/-! ### Candidates of one walk -/

/-- The required positions of the next position are bound, each once and to a vertex. -/
theorem binds_of_required (hw : w.Stores t) (hvertices : ∀ v ∈ t, v < q.graph.order)
    (hreq : q.pattern.required[t.length]? = some x.required) :
    ∀ p ∈ x.required, ∃ u < q.graph.order, w.Binds p u := by
  intro p hp
  have hlt := (q.pattern.admissible _ _ hreq).earlier p hp
  exact ⟨t[p], hvertices _ (List.getElem_mem hlt), hw.binds (List.getElem?_eq_getElem hlt)⟩

theorem common_eq_follows (hw : w.Stores t) (hgraph : x.graph = q.graph)
    (hreq : q.pattern.required[t.length]? = some x.required)
    (hmatch : IsMatch q.graph q.pattern x.reuse t) :
    x.graph.common (x.sources w) (x.mask w) = follows q.graph q.pattern x.reuse t := by
  have hnodup : x.required.Nodup := (q.pattern.admissible _ _ hreq).ascending.imp Nat.ne_of_lt
  have hbound := binds_of_required hw hmatch.vertices hreq
  apply Sorted.eq_of_mem_iff (Graph.common_ascending _ _ _) (follows_ascending _ _ _ _)
  intro v
  have hlist : q.pattern.required.getD t.length [] = x.required := by
    rw [List.getD_eq_getElem?_getD, hreq, Option.getD_some]
  rw [Extender.mem_common_sources hnodup fun p hp => (hbound p hp).imp fun _ h => h.2,
    mem_follows, isMatch_concat_iff hmatch, hlist, hgraph]
  refine and_congr_right fun _ => and_congr (forall₂_congr fun p hp => ?_) ?_
  · have hlt := (q.pattern.admissible _ _ hreq).earlier p hp
    have hbinds := hw.binds (List.getElem?_eq_getElem hlt)
    rw [List.getD_eq_getElem _ _ hlt]
    refine ⟨?_, ?_⟩
    · exact fun h => h _ hbinds
    · intro h u hu
      rwa [hu.unique hbinds]
  · rw [hw.mem_vertices]

theorem candidates_adds_found (hw : w.Stores t) (hvertices : ∀ v ∈ t, v < q.graph.order)
    (hgraph : x.graph = q.graph) (hreq : q.pattern.required[t.length]? = some x.required)
    {space : Workspace} (hclean : space.Clean) (out : Array Nat) :
    ∃ found, Found q x.reuse t found ∧
      (x.candidates w space out).Adds Workspace.Clean out found := by
  have hnodup : x.required.Nodup := (q.pattern.admissible _ _ hreq).ascending.imp Nat.ne_of_lt
  have hbound := binds_of_required hw hvertices hreq
  obtain ⟨found, hadds, hfound, hexact⟩ := Extender.candidates_adds hnodup (hgraph ▸ hbound)
    (x.mask_ascending hw.ascending) hclean out
  obtain ⟨found', hascending, happend⟩ := x.candidates_appends_ascending w space out
  have hsame : out.toList ++ found = out.toList ++ found' := by
    rw [← Array.toList_appendList, ← hadds.buffer, happend, Array.toList_appendList]
  obtain rfl := List.append_cancel_left hsame
  refine ⟨found, ⟨hgraph ▸ hfound, hascending, fun hnarrow hmatch => ?_⟩, hadds⟩
  rw [hexact (hnarrow _ (List.mem_of_getElem? hreq))]
  exact common_eq_follows hw hgraph hreq hmatch

/-! ### Candidates of all walks -/

/-- A relation to the entries of a list, by their numbers. -/
theorem forall₂_of_range {α β : Type} {rel : α → β → Prop} {l : List α} {m : List β}
    (h : List.Forall₂ (fun i b => ∃ a, l[i]? = some a ∧ rel a b) (List.range l.length) m) :
    List.Forall₂ rel l m := by
  have hlength : l.length = m.length := by rw [← h.length_eq, List.length_range]
  refine List.forall₂_iff_get.mpr ⟨hlength, fun i hl hm => ?_⟩
  obtain ⟨a, ha, hrel⟩ := h.get (by rwa [List.length_range]) hm
  rw [List.get_eq_getElem, List.getElem_range, List.getElem?_eq_getElem hl] at ha
  obtain rfl := Option.some.inj ha
  exact hrel

theorem yields_candidates {position : Nat} {walks : Walks} {ts : List (List Nat)}
    (hwalks : walks.Holds position ts) (hvertices : ∀ t ∈ ts, ∀ v ∈ t, v < q.graph.order)
    (hgraph : x.graph = q.graph) (hreq : q.pattern.required[position]? = some x.required)
    {spans : List Span} (htiles : Span.Tiles spans 0 walks.count) :
    Yields (s.candidates x walks spans) fun blocks => (∀ b ∈ blocks, b.rows.Wf) ∧
      List.Forall₂ (Found q x.reuse) ts (blocks.flatMap fun b => b.rows.toLists) := by
  rw [hwalks.count_eq] at htiles
  refine (@Block.yields_ofSpans _ _ _ Workspace.Clean
    (fun i found => ∃ t, ts[i]? = some t ∧ Found q x.reuse t found) s.pool spans _ htiles ?_
    Workspace.clean_fresh).mono fun blocks hblocks => ⟨hblocks.1, forall₂_of_range hblocks.2⟩
  · intro i hi space hclean out
    obtain ⟨w, hw, hstores⟩ := hwalks.walkAt hi
    have hmem := List.getElem_mem hi
    have hreq' : q.pattern.required[ts[i].length]? = some x.required := by
      rw [hwalks.length _ hmem, hreq]
    obtain ⟨found, hfound, hadds⟩ :=
      candidates_adds_found hstores (hvertices _ hmem) hgraph hreq' hclean out
    refine ⟨found, ⟨ts[i], List.getElem?_eq_getElem hi, hfound⟩, ?_⟩
    rwa [hw]

/-! ### The step -/

/-- A position that is still to be bound exists and requires something. -/
theorem requiredAt_eq {p : Pattern} {position : Nat} (hpos : 0 < position)
    (hlt : position < p.size) :
    ∃ required, p.requiredAt position = .ok required ∧ p.required[position]? = some required ∧
      required ≠ [] := by
  have hget := List.getElem?_eq_getElem hlt
  refine ⟨p.required[position], ?_, hget, (p.admissible _ _ hget).anchored hpos⟩
  rw [Pattern.requiredAt, hget]

/-- What a step that found the given lists leads to. -/
inductive Advances (q : Query) (position : Nat) (ts lists : List (List Nat)) : Advance → Prop
  | nothing (hnone : lists.flatten = []) : Advances q position ts lists (.ended .nothing)
  | number (hsome : lists.flatten ≠ []) (hgoal : q.goal = .number)
      (hlast : position + 1 = q.pattern.size) :
      Advances q position ts lists (.ended (.number lists.flatten.length))
  | grown {longer : Walks} (hsome : lists.flatten ≠ [])
      (hmore : ¬ (q.goal = .number ∧ position + 1 = q.pattern.size))
      (hlonger : longer.Holds (position + 1) (extendEach ts lists)) :
      Advances q position ts lists (.grown longer)

theorem yields_bindNext {position : Nat} {walks : Walks} {ts : List (List Nat)}
    (hwalks : walks.Holds position ts) (hvertices : ∀ t ∈ ts, ∀ v ∈ t, v < q.graph.order)
    (hpos : 0 < position) (hlt : position < q.pattern.size) :
    Yields (s.bindNext q position walks) fun result => ∃ lists,
      List.Forall₂ (Found q s.settings.reuse) ts lists ∧
        result.1 = Level.untimed position ts.length lists.flatten.length ∧
          Advances q position ts lists result.2 := by
  obtain ⟨required, hrequired, hget, hne⟩ := requiredAt_eq hpos hlt
  have htiles := Span.tiles_split s.pool.workers
    (Nat.lt_trans hwalks.room Word.shortageFrom_lt_bound)
  rw [bindNext, hrequired, yields_ok_bind, Extender.ofRequired, dif_neg hne]
  show Yields (s.candidates _ _ _ >>= _) _
  refine (yields_candidates (x := ⟨q.graph, required, s.settings.reuse, s.settings.method, hne⟩)
    hwalks hvertices rfl hget htiles).bind fun blocks hblocks => ?_
  obtain ⟨hwf, hlists⟩ := hblocks
  rw [Block.total_sizes hwf]
  generalize hflat : (blocks.flatMap fun b => b.rows.toLists) = lists at *
  have hrecord : Level.untimed position walks.count lists.flatten.length =
      Level.untimed position ts.length lists.flatten.length := by rw [hwalks.count_eq]
  dsimp only
  by_cases hnone : lists.flatten.length = 0
  · rw [if_pos hnone]
    exact yields_pure ⟨lists, hlists, hrecord, .nothing (List.length_eq_zero_iff.mp hnone)⟩
  · have hsome : lists.flatten ≠ [] := fun h => hnone (List.length_eq_zero_iff.mpr h)
    rw [if_neg hnone]
    by_cases hend : q.goal = .number ∧ position + 1 = q.pattern.size
    · rw [if_pos hend]
      exact yields_pure ⟨lists, hlists, hrecord, .number hsome hend.1 hend.2⟩
    · rw [if_neg hend]
      apply (Block.yields_concat s.pool hwf).bind
      intro joined hjoined
      rw [hflat] at hjoined
      subst hjoined
      refine (hwalks.grow s.pool htiles hlists.length_eq.symm).bind fun longer hlonger => ?_
      exact yields_pure ⟨lists, hlists, hrecord, .grown hsome hend hlonger⟩

end Search

end Motif
