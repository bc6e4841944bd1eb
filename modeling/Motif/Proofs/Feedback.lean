import Mathlib.Data.Prod.Lex
import Motif.Command.Run
import Motif.Proofs.Loading
import Motif.Proofs.Overriding
import Motif.Proofs.Shapes
import Motif.Proofs.Stages

/-!
# Printed edges as an edge list

The matches of a path of two positions are the edges of the graph (`allMatches_path_two`). A run prints them one on
a line, which is how an edge list states them (`read_matchLines`), so what such a run prints can be loaded, and gives
the graph that was searched (`edges_fed_back`).
-/

namespace Motif

/-! ### Edges as matches -/

variable {g : Graph} {p : Pattern} {m : Matches} {s : Search}

theorem Graph.edges_ascending (g : Graph) : g.edges.Pairwise (Prod.Lex (· < ·) (· < ·)) := by
  rw [edges, List.pairwise_flatMap]
  refine ⟨fun u _ => ?_, List.pairwise_lt_range.imp fun {u u'} hlt => ?_⟩
  · rw [List.pairwise_map]
    exact (g.adjacent_ascending u).imp fun hlt => .right u hlt
  · rintro _ hedge _ hedge'
    obtain ⟨v, _, rfl⟩ := List.mem_map.mp hedge
    obtain ⟨v', _, rfl⟩ := List.mem_map.mp hedge'
    exact .left v v' hlt

theorem allMatches_path_two (hp : Shape.path.pattern 2 = .ok p) :
    allMatches g p .allowed = g.edges.map fun e => [e.1, e.2] := by
  apply Sorted.eq_of_mem_iff (allMatches_ascending g p .allowed)
  · rw [List.pairwise_map]
    refine g.edges_ascending.imp fun hlt => ?_
    rcases Prod.lex_def.mp hlt with hfirst | ⟨hfirst, hsecond⟩
    · exact List.cons_lt_cons_iff.mpr (.inl hfirst)
    · exact List.cons_lt_cons_iff.mpr (.inr ⟨hfirst, List.cons_lt_cons_iff.mpr (.inl hsecond)⟩)
  · intro t
    rw [mem_allMatches, Shape.size_of_pattern hp, List.mem_map]
    refine ⟨fun ⟨hlength, hmatch⟩ => ?_, ?_⟩
    · obtain ⟨u, v, rfl⟩ := List.length_eq_two.mp hlength
      have hchain := ((Shape.isMatch_path_iff hp hlength).mp hmatch).2.1
      exact ⟨(u, v), Graph.mem_edges.mpr (List.isChain_pair.mp hchain), rfl⟩
    · rintro ⟨⟨u, v⟩, hedge, rfl⟩
      have hv := Graph.mem_edges.mp hedge
      refine ⟨rfl, (Shape.isMatch_path_iff hp rfl).mpr ⟨?_, List.isChain_pair.mpr hv, by simp⟩⟩
      simpa using ⟨Graph.source_lt_order_of_mem_adjacent hv, Graph.lt_order_of_mem_adjacent hv⟩

/-! ### Printed edges -/

theorem Decimal.isDigit_iff {c : Char} : IsDigit c ↔ 48 ≤ c.toNat ∧ c.toNat ≤ 57 := Iff.rfl

theorem Decimal.isBlank_of_isDigit {c : Char} (h : IsDigit c) : Text.isBlank c = false := by
  have hrange := isDigit_iff.mp h
  simp [Text.isBlank, Text.blanks]
  omega

namespace EdgeList

/-- The two numbers of an edge with a blank in between. -/
def edgeText (e : Nat × Nat) : List Char := Decimal.render e.1 ++ ' ' :: Decimal.render e.2

theorem mem_edgeText {e : Nat × Nat} {c : Char} (h : c ∈ edgeText e) : Decimal.IsDigit c ∨ c = ' ' := by
  rw [edgeText, List.mem_append, List.mem_cons] at h
  rcases h with hsource | rfl | htarget
  · exact .inl (Decimal.isDigit_of_mem_render hsource)
  · exact .inr rfl
  · exact .inl (Decimal.isDigit_of_mem_render htarget)

theorem not_mem_edgeText {e : Nat × Nat} {c : Char} (hdigit : ¬ Decimal.IsDigit c) (hblank : c ≠ ' ') :
    c ∉ edgeText e := fun h => (mem_edgeText h).elim hdigit hblank

theorem words_render (n : Nat) : Text.words (Decimal.render n) = [Decimal.render n] :=
  Text.words_of_forall (Decimal.render_ne_nil n) fun _ hc =>
    Decimal.isBlank_of_isDigit (Decimal.isDigit_of_mem_render hc)

theorem cells_edgeText (e : Nat × Nat) : cells (edgeText e) = [Decimal.render e.1, Decimal.render e.2] := by
  have hcomment : Text.before '#' (edgeText e) = edgeText e := by
    rw [Text.before, List.takeWhile_eq_self_iff]
    intro c hc
    have hmark : '#' ∉ edgeText e := not_mem_edgeText (by decide) (by decide)
    simpa using fun heq : c = '#' => hmark (heq ▸ hc)
  rw [cells, hcomment, edgeText, Text.words_append (by decide), words_render, words_render]
  rfl

theorem spells_render {n : Nat} (h : n < Word.bound) : Decimal.Spells (Decimal.render n) n :=
  Decimal.readWord_eq_ok_iff.mp (Decimal.readWord_render h)

theorem states_edgeText {e : Nat × Nat} (he : e.1 < Word.bound ∧ e.2 < Word.bound) :
    States (edgeText e) (some e) := .edge (cells_edgeText e) (spells_render he.1) (spells_render he.2)

/-- Edges that are written one on a line are read. -/
theorem read_flatMap_edgeText {edges : List (Nat × Nat)} (h : ∀ e ∈ edges, e.1 < Word.bound ∧ e.2 < Word.bound) :
    read (edges.flatMap fun e => edgeText e ++ ['\n']) = .ok edges := by
  have hlines : Text.splitLines (edges.flatMap fun e => edgeText e ++ ['\n']) = edges.map edgeText := by
    rw [← List.flatMap_map (f := edgeText) (g := (· ++ ['\n'])), Text.splitLines_flatMap]
    intro line hline
    obtain ⟨e, _, rfl⟩ := List.mem_map.mp hline
    exact ⟨not_mem_edgeText (by decide) (by decide), not_mem_edgeText (by decide) (by decide)⟩
  rw [read, Text.lines_eq_splitLines, hlines, readLines_eq_ok_iff]
  refine ⟨edges.map some, ?_, ?_⟩
  · rw [List.forall₂_map_left_iff, List.forall₂_map_right_iff, List.forall₂_same]
    exact fun e he => states_edgeText (h e he)
  · rw [List.flatMap_map]
    exact (List.flatMap_singleton' edges).symm

end EdgeList

namespace Command

theorem matchLines_eq (hp : Shape.path.pattern 2 = .ok p) (hreuse : s.settings.reuse = .allowed)
    (h : s.find g p = .ok m) :
    matchLines m = g.edges.flatMap fun e => EdgeList.edgeText e ++ ['\n'] := by
  have hnarrow : p.Narrow := Shape.narrow_of_pattern hp (by simp)
  rw [matchLines, Search.toList_find hnarrow h, hreuse, allMatches_path_two hp, List.flatMap_map]
  refine List.flatMap_congr fun e _ => ?_
  rw [tupleLine, List.map_cons, List.map_singleton]
  simp [List.intercalate, EdgeList.edgeText]

/-- What is printed is the list of the edges. -/
theorem read_matchLines (hp : Shape.path.pattern 2 = .ok p) (hreuse : s.settings.reuse = .allowed)
    (h : s.find g p = .ok m) : EdgeList.read (matchLines m) = .ok g.edges := by
  have horder : g.order < Word.bound := by
    have hlt := Word.lt_of_reserve (Search.vertices_room_of_find h)
    have hword := Word.shortageFrom_lt_bound
    omega
  rw [matchLines_eq hp hreuse h]
  apply EdgeList.read_flatMap_edgeText
  rintro ⟨u, v⟩ hedge
  have hv := Graph.mem_edges.mp hedge
  exact ⟨Nat.lt_trans (Graph.source_lt_order_of_mem_adjacent hv) horder,
    Nat.lt_trans (Graph.lt_order_of_mem_adjacent hv) horder⟩

/-- A search that found the edges had room for them. -/
theorem edges_room_of_find (hp : Shape.path.pattern 2 = .ok p) (hreuse : s.settings.reuse = .allowed)
    (h : s.find g p = .ok m) : Word.reserve g.edgeCount = .ok () := by
  have hrows := Search.rows_room_of_find (Shape.narrow_of_pattern hp (by simp)) h
  rw [hreuse, allMatches_path_two hp, List.length_map, Graph.length_edges] at hrows
  exact Word.reserve_of_lt (Nat.lt_of_succ_lt hrows)

theorem reuse_of_loadSettings {disk : Disk} {o : Options} {settings : Settings} {reuse : Reuse}
    (h : o.reuse = some reuse) (hsettings : loadSettings disk o = .ok settings) : settings.reuse = reuse := by
  obtain ⟨base, _, rfl⟩ := loadSettings_eq_ok_iff.mp hsettings
  show o.reuse.getD base.reuse = reuse
  rw [h]
  rfl

theorem loadPattern_path_two (disk : Disk) : loadPattern disk "path:2" =
    (Shape.path.pattern 2).mapError (Halt.ofStop (.patternShape "path:2")) := by
  have hname : splitShape "path:2".toList = some (.path, ['2']) := by decide +kernel
  have hsize : Decimal.readWord ['2'] = .ok 2 := by decide +kernel
  rw [loadPattern, hname]
  dsimp only
  rw [hsize]
  rfl

theorem perform_of_listing {disk : Disk} {available : Nat} {o : Options} {settings : Settings} {loaded : Graph}
    (hlisting : o.countOnly = false) (hsettings : loadSettings disk o = .ok settings)
    (hp : loadPattern disk o.pattern = .ok p) (hload : loadGraph disk o.graph o.nodes = .ok loaded)
    (hgraph : (if o.symmetric then loaded.symmetrize else .ok loaded) = .ok g) :
    perform disk available o =
      (((Search.ofSettings settings available).find g p).mapError (Halt.ofStop .refused)).map matchLines := by
  rw [perform, hsettings]
  show (loadPattern disk o.pattern >>= _) = _
  rw [hp]
  show (loadGraph disk o.graph o.nodes >>= _) = _
  rw [hload]
  dsimp only [Bind.bind, Except.bind]
  rw [hlisting]
  cases hsymmetric : o.symmetric with
  | false =>
    rw [hsymmetric] at hgraph
    obtain rfl := Except.ok.inj hgraph
    rfl
  | true =>
    rw [hsymmetric, if_pos rfl] at hgraph
    rw [hgraph]
    rfl

/-- A search for the edges of a graph is only stopped by memory. What it finds, with one match on a line, is read as
the edges, ascending and each of them once, and with as many vertices is loaded as the graph that was searched. A run
that is asked for the path of two positions, where vertices may repeat, prints what such a search finds, whatever its
workers and its method. -/
theorem edges_fed_back (g : Graph) : ∃ p, Shape.path.pattern 2 = .ok p ∧
    (∀ s : Search, s.settings.reuse = .allowed →
      (∀ stop, s.find g p = .error stop → stop.ForMemory) ∧
      ∀ m, s.find g p = .ok m → EdgeList.read (matchLines m) = .ok g.edges ∧
        ∀ disk name, disk name = .ok (matchLines m) → loadGraph disk name (some g.order) = .ok g) ∧
    g.edges.Pairwise (Prod.Lex (· < ·) (· < ·)) ∧ (∀ u v, (u, v) ∈ g.edges ↔ g.hasEdge u v = .ok true) ∧
    ∀ disk available o settings loaded, o.pattern = "path:2" → o.reuse = some .allowed → o.countOnly = false →
      loadSettings disk o = .ok settings → loadGraph disk o.graph o.nodes = .ok loaded →
      (if o.symmetric then loaded.symmetrize else .ok loaded) = .ok g →
      settings.reuse = .allowed ∧ perform disk available o =
        (((Search.ofSettings settings available).find g p).mapError (Halt.ofStop .refused)).map matchLines := by
  obtain ⟨p, hp⟩ : ∃ p, Shape.path.pattern 2 = .ok p := exists_of_isOk (by decide +kernel)
  refine ⟨p, hp, fun s hreuse => ⟨fun stop hstop => (Search.yields_find s g p).forMemory hstop, fun m hm => ?_⟩,
    g.edges_ascending, fun u v => ?_, ?_⟩
  · have hread := read_matchLines hp hreuse hm
    refine ⟨hread, fun disk name hdisk => (loadGraph_eq_ok_iff hdisk hread).mpr ?_⟩
    exact Graph.ofEdges_edges (Search.vertices_room_of_find hm) (edges_room_of_find hp hreuse hm)
  · rw [Graph.mem_edges, Graph.hasEdge_eq_ok_true_iff]
  · intro disk available o settings loaded hpattern hreuse hlisting hsettings hload hgraph
    have hpath : loadPattern disk o.pattern = .ok p := by
      rw [hpattern, loadPattern_path_two, hp]
      rfl
    exact ⟨reuse_of_loadSettings hreuse hsettings, perform_of_listing hlisting hsettings hpath hload hgraph⟩

/-- A self-loop, and two vertices without an edge. -/
def looped : Graph := Graph.ofAscending [[0, 3], [], [0], [], []] (by decide) (by decide)

/-- Three workers print the edges in order, a repeated one once, and the graph is loaded from what they print. -/
theorem edges_fed_back_looped : ∃ text,
    perform (fun _ => .ok "2 0\n0 3\n0 0 # loop\n2 0".toList) 1
      ⟨"edges", "path:2", some 5, some 3, some .allowed, some .tally, false, false, none⟩ = .ok text ∧
    EdgeList.read text = .ok [(0, 0), (0, 3), (2, 0)] ∧
    loadGraph (fun _ => .ok text) "printed" (some 5) = .ok looped := by
  have hload : loadGraph (fun _ => .ok "2 0\n0 3\n0 0 # loop\n2 0".toList) "edges" (some 5) = .ok looped := by
    decide +kernel
  have hfound : (Shape.path.pattern 2 >>= fun p =>
      (Search.ofSettings ⟨3, .allowed, .tally⟩ 1).find looped p).isOk = true := by
    decide +kernel
  obtain ⟨p, hp, hsearch, _, _, hrun⟩ := edges_fed_back looped
  obtain ⟨m, hm⟩ := exists_of_isOk hfound
  obtain ⟨p', hp', hm⟩ := bind_eq_ok.mp hm
  obtain rfl := Except.ok.inj (hp.symm.trans hp')
  obtain ⟨hread, hagain⟩ := (hsearch _ rfl).2 m hm
  refine ⟨matchLines m, ?_, hread, hagain _ "printed" rfl⟩
  rw [(hrun _ 1 _ ⟨3, .allowed, .tally⟩ _ rfl rfl rfl rfl hload rfl).2, hm]
  rfl

end Command

end Motif
