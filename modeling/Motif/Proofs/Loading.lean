import Motif.Command.Load
import Motif.Proofs.EdgeLines
import Motif.Proofs.EdgeSets

/-!
# Graphs from files

A file that is read as an edge list makes the graph with the edges that its lines state. Without a given number of
vertices there are as many as the edges need, so no edge is turned down; with one, the first edge that leaves the
vertices is reported (`loadGraph_exact`). How the edges are laid out in the file, and how often each is stated, does
not matter.
-/

namespace Motif

namespace Graph

variable {g : Graph} {n : Nat} {edges edges' : List (Nat × Nat)}

/-- A graph that was made had memory for its vertices and edges, and its edges lead from vertex to vertex. -/
theorem room_of_ofEdges (h : ofEdges n edges = .ok g) :
    Word.reserve (n + 1) = .ok () ∧ ∀ e ∈ edges, Inside n e := by
  obtain ⟨_, _, h⟩ := bind_eq_ok.mp h
  split at h
  · contradiction
  · rename_i hstray
    refine ⟨?_, fun e he => ?_⟩
    · obtain ⟨_, hroom, _⟩ := bind_eq_ok.mp h
      rw [length_bySource] at hroom
      exact (Rows.reserve_of_withRoom hroom).1
    · have hedge := List.find?_eq_none.mp hstray e he
      simpa [Inside] using hedge

/-- The same edges, listed in another way, make the same graph. -/
theorem ofEdges_congr (hsame : ∀ e, e ∈ edges ↔ e ∈ edges') (hroom : Word.reserve edges'.length = .ok ())
    (h : ofEdges n edges = .ok g) : ofEdges n edges' = .ok g := by
  obtain ⟨hn, hinside⟩ := room_of_ofEdges h
  obtain ⟨g', hg'⟩ := exists_ofEdges hn fun e he => hinside e ((hsame e).mpr he)
  rw [hroom] at hg'
  obtain rfl := (eq_iff_of_ofEdges h hg').mpr hsame
  exact hg'

end Graph

namespace Command

variable {disk disk' : Disk} {name name' : String} {text text' : List Char} {nodes : Option Nat}
  {edges edges' : List (Nat × Nat)} {largest n id : Nat} {g : Graph}

/-! ### As many vertices as the edges need -/

/-- The vertices that edges lead from and to. -/
def ends (edges : List (Nat × Nat)) : List Nat := edges.flatMap fun e => [e.1, e.2]

theorem mem_ends : id ∈ ends edges ↔ ∃ e ∈ edges, id = e.1 ∨ id = e.2 := by
  simp [ends]

theorem forall_inside_iff : (∀ e ∈ edges, Graph.Inside n e) ↔ ∀ id ∈ ends edges, id < n := by
  simp only [mem_ends, Graph.Inside]
  refine ⟨?_, fun h e he => ⟨h _ ⟨e, he, .inl rfl⟩, h _ ⟨e, he, .inr rfl⟩⟩⟩
  rintro h id ⟨e, he, rfl | rfl⟩
  · exact (h e he).1
  · exact (h e he).2

theorem isGreatest_inferredOrder (edges : List (Nat × Nat)) :
    IsGreatest {n | n ∈ 0 :: edges.map fun e => Word.add (max e.1 e.2) 1} (inferredOrder edges) :=
  Sorted.isGreatest_foldl_max 0 _

theorem inferredOrder_congr (hsame : ∀ e, e ∈ edges ↔ e ∈ edges') : inferredOrder edges = inferredOrder edges' := by
  have hgreatest := isGreatest_inferredOrder edges
  have hset : {n | n ∈ 0 :: edges.map fun e => Word.add (max e.1 e.2) 1} =
      {n | n ∈ 0 :: edges'.map fun e => Word.add (max e.1 e.2) 1} := by
    ext n
    simp only [Set.mem_ofPred_eq, List.mem_cons, List.mem_map, hsame]
  rw [hset] at hgreatest
  exact hgreatest.unique (isGreatest_inferredOrder edges')

/-- One more than the largest vertex, which is a word. -/
theorem inferredOrder_of_isGreatest (h : IsGreatest {id | id ∈ ends edges} largest)
    (hword : largest + 1 < Word.bound) : inferredOrder edges = largest + 1 := by
  obtain ⟨hmem, hupper⟩ := h
  have hedge : ∀ e ∈ edges, e.1 ≤ largest ∧ e.2 ≤ largest := fun e he =>
    ⟨hupper (mem_ends.mpr ⟨e, he, .inl rfl⟩), hupper (mem_ends.mpr ⟨e, he, .inr rfl⟩)⟩
  have hsum : ∀ e ∈ edges, Word.add (max e.1 e.2) 1 = max e.1 e.2 + 1 := fun e he =>
    Word.add_of_lt (by have := hedge e he; omega)
  refine (isGreatest_inferredOrder edges).unique ⟨?_, fun n hn => ?_⟩
  · obtain ⟨e, he, hend⟩ := mem_ends.mp hmem
    refine List.mem_cons_of_mem _ (List.mem_map.mpr ⟨e, he, ?_⟩)
    rw [hsum e he]
    have := hedge e he
    omega
  · rcases List.mem_cons.mp hn with rfl | hn
    · exact Nat.zero_le _
    · obtain ⟨e, he, rfl⟩ := List.mem_map.mp hn
      rw [hsum e he]
      have := hedge e he
      omega

theorem exists_isGreatest_ends (hne : edges ≠ []) : ∃ largest, IsGreatest {id | id ∈ ends edges} largest := by
  obtain ⟨e, rest, rfl⟩ := List.exists_cons_of_ne_nil hne
  exact ⟨_, Sorted.isGreatest_foldl_max e.1 (e.2 :: ends rest)⟩

/-! ### Loading -/

theorem loadGraph_eq (hdisk : disk name = .ok text) (hread : EdgeList.read text = .ok edges) :
    loadGraph disk name nodes =
      (Graph.ofEdges (nodes.getD (inferredOrder edges)) edges).mapError (Halt.ofStop .refused) := by
  rw [loadGraph, readFile, hdisk]
  show ((EdgeList.read text).mapError _ >>= _) = _
  rw [hread]
  rfl

theorem loadGraph_eq_ok_iff (hdisk : disk name = .ok text) (hread : EdgeList.read text = .ok edges) :
    loadGraph disk name nodes = .ok g ↔ Graph.ofEdges (nodes.getD (inferredOrder edges)) edges = .ok g := by
  rw [loadGraph_eq hdisk hread, mapError_eq_ok]

/-- A loaded graph has the edges that the text states. -/
theorem hasEdge_of_loadGraph (hdisk : disk name = .ok text) (hread : EdgeList.read text = .ok edges)
    (h : loadGraph disk name nodes = .ok g) (u v : Nat) :
    g.hasEdge u v = .ok true ↔ EdgeList.Stated text (u, v) := by
  obtain ⟨_, hedges⟩ := Graph.of_ofEdges ((loadGraph_eq_ok_iff hdisk hread).mp h)
  rw [Graph.hasEdge_eq_ok_true_iff, hedges, EdgeList.mem_iff_stated hread]

theorem order_of_loadGraph (hdisk : disk name = .ok text) (hread : EdgeList.read text = .ok edges)
    (h : loadGraph disk name nodes = .ok g) : g.order = nodes.getD (inferredOrder edges) :=
  (Graph.of_ofEdges ((loadGraph_eq_ok_iff hdisk hread).mp h)).1

theorem exists_loadGraph (nodes : Option Nat) (hdisk : disk name = .ok text) (hread : EdgeList.read text = .ok edges)
    (hroom : Word.reserve edges.length = .ok ()) (hn : Word.reserve (nodes.getD (inferredOrder edges) + 1) = .ok ())
    (hinside : ∀ id ∈ ends edges, id < nodes.getD (inferredOrder edges)) :
    ∃ g, loadGraph disk name nodes = .ok g := by
  obtain ⟨g, hg⟩ := Graph.exists_ofEdges hn (forall_inside_iff.mpr hinside)
  rw [hroom] at hg
  exact ⟨g, (loadGraph_eq_ok_iff hdisk hread).mpr hg⟩

/-- Without a given number of vertices no edge leaves them. -/
theorem exists_loadGraph_none (hdisk : disk name = .ok text) (hread : EdgeList.read text = .ok edges)
    (hroom : Word.reserve edges.length = .ok ()) (hends : ∀ id ∈ ends edges, Word.reserve (id + 2) = .ok ()) :
    ∃ g, loadGraph disk name none = .ok g ∧ (edges = [] → g.order = 0) ∧
      ∀ largest, IsGreatest {id | id ∈ ends edges} largest → g.order = largest + 1 := by
  have horder : ∀ largest, IsGreatest {id | id ∈ ends edges} largest → inferredOrder edges = largest + 1 := by
    intro largest hlargest
    have hlt := Word.lt_of_reserve (hends largest hlargest.1)
    have hword := Word.shortageFrom_lt_bound
    exact inferredOrder_of_isGreatest hlargest (by omega)
  have hn : Word.reserve (inferredOrder edges + 1) = .ok () ∧ ∀ id ∈ ends edges, id < inferredOrder edges := by
    by_cases hne : edges = []
    · subst hne
      exact ⟨by decide +kernel, by simp [ends]⟩
    · obtain ⟨largest, hlargest⟩ := exists_isGreatest_ends hne
      rw [horder largest hlargest]
      exact ⟨hends largest hlargest.1, fun id hid => Nat.lt_succ_of_le (hlargest.2 hid)⟩
  obtain ⟨g, hg⟩ := exists_loadGraph none hdisk hread hroom hn.1 hn.2
  have hinferred := order_of_loadGraph hdisk hread hg
  refine ⟨g, hg, ?_, fun largest hlargest => hinferred.trans (horder largest hlargest)⟩
  rintro rfl
  exact hinferred

/-- Of edges that leave the given vertices the first is reported. -/
theorem loadGraph_of_not_inside {before after : List (Nat × Nat)} {u v : Nat} (hdisk : disk name = .ok text)
    (hread : EdgeList.read text = .ok (before ++ (u, v) :: after)) (hn : Word.reserve (n + 1) = .ok ())
    (hbefore : ∀ id ∈ ends before, id < n) (hedge : ¬ (u < n ∧ v < n)) :
    loadGraph disk name (some n) = .error (.failed (.refused (.graph (.edgeOutOfRange u v n)))) := by
  rw [loadGraph_eq hdisk hread, Option.getD_some,
    Graph.ofEdges_of_not_inside hn (forall_inside_iff.mpr hbefore) hedge]
  rfl

/-- Texts that state the same edges are loaded as the same graph. -/
theorem loadGraph_congr (hdisk : disk name = .ok text) (hread : EdgeList.read text = .ok edges)
    (hdisk' : disk' name' = .ok text') (hread' : EdgeList.read text' = .ok edges')
    (hroom' : Word.reserve edges'.length = .ok ()) (hsame : ∀ e, EdgeList.Stated text e ↔ EdgeList.Stated text' e)
    (h : loadGraph disk name nodes = .ok g) : loadGraph disk' name' nodes = .ok g := by
  have hedges : ∀ e, e ∈ edges ↔ e ∈ edges' := fun e => by
    rw [EdgeList.mem_iff_stated hread, EdgeList.mem_iff_stated hread', hsame]
  rw [loadGraph_eq_ok_iff hdisk hread, inferredOrder_congr hedges] at h
  exact (loadGraph_eq_ok_iff hdisk' hread').mpr (Graph.ofEdges_congr hedges hroom' h)

/-- An edge list that is read, with vertices and edges that memory has room for, is loaded. Without a given number
of vertices there is one more than the largest vertex that an edge names, or none without edges. With one, the
list is loaded exactly when it names no larger vertex, and otherwise the first edge that does is reported. The edges
are those that some line states, so another text that states them is loaded as the same graph. -/
theorem loadGraph_exact (hdisk : disk name = .ok text) (hread : EdgeList.read text = .ok edges)
    (hroom : Word.reserve edges.length = .ok ()) :
    ((∀ id ∈ ends edges, Word.reserve (id + 2) = .ok ()) → ∃ g, loadGraph disk name none = .ok g ∧
      (edges = [] → g.order = 0) ∧ (∀ largest, IsGreatest {id | id ∈ ends edges} largest → g.order = largest + 1) ∧
      ∀ u v, g.hasEdge u v = .ok true ↔ EdgeList.Stated text (u, v)) ∧
    (∀ n, Word.reserve (n + 1) = .ok () →
      ((∃ g, loadGraph disk name (some n) = .ok g) ↔ ∀ id ∈ ends edges, id < n) ∧
      (∀ g, loadGraph disk name (some n) = .ok g →
        g.order = n ∧ ∀ u v, g.hasEdge u v = .ok true ↔ EdgeList.Stated text (u, v)) ∧
      ∀ before u v after, edges = before ++ (u, v) :: after → (∀ id ∈ ends before, id < n) → ¬ (u < n ∧ v < n) →
        loadGraph disk name (some n) = .error (.failed (.refused (.graph (.edgeOutOfRange u v n))))) ∧
    ∀ disk' name' text' edges', disk' name' = .ok text' → EdgeList.read text' = .ok edges' →
      Word.reserve edges'.length = .ok () → (∀ e, EdgeList.Stated text e ↔ EdgeList.Stated text' e) →
      ∀ nodes g, loadGraph disk name nodes = .ok g → loadGraph disk' name' nodes = .ok g := by
  refine ⟨fun hends => ?_, fun n hn => ⟨⟨?_, fun hinside => ?_⟩, fun g hg => ?_, ?_⟩, ?_⟩
  · obtain ⟨g, hg, hempty, hlargest⟩ := exists_loadGraph_none hdisk hread hroom hends
    exact ⟨g, hg, hempty, hlargest, hasEdge_of_loadGraph hdisk hread hg⟩
  · rintro ⟨g, hg⟩
    exact forall_inside_iff.mp (Graph.room_of_ofEdges ((loadGraph_eq_ok_iff hdisk hread).mp hg)).2
  · exact exists_loadGraph (some n) hdisk hread hroom hn hinside
  · exact ⟨order_of_loadGraph hdisk hread hg, hasEdge_of_loadGraph hdisk hread hg⟩
  · rintro before u v after rfl hbefore hedge
    exact loadGraph_of_not_inside hdisk hread hn hbefore hedge
  · intro disk' name' text' edges' hdisk' hread' hroom' hsame nodes g hg
    exact loadGraph_congr hdisk hread hdisk' hread' hroom' hsame hg

/-- Two edges, one of them stated twice, among comments and a line without edge. -/
def commented : List Char := "# twice\n0 3\r\n\n+2\t1 # once\n0 3".toList

theorem loadGraph_exact_commented : ∃ g,
    loadGraph (fun _ => .ok commented) "edges" none = .ok g ∧ g.order = 4 ∧
      (∀ u v, g.hasEdge u v = .ok true ↔ (u, v) = (0, 3) ∨ (u, v) = (2, 1)) ∧
      loadGraph (fun _ => .ok commented) "edges" (some 3) =
        .error (.failed (.refused (.graph (.edgeOutOfRange 0 3 3)))) ∧
      loadGraph (fun _ => .ok "2 1\n0 3\n".toList) "edges" none = .ok g := by
  have hread : EdgeList.read commented = .ok [(0, 3), (2, 1), (0, 3)] := by decide +kernel
  have hread' : EdgeList.read "2 1\n0 3\n".toList = .ok [(2, 1), (0, 3)] := by decide +kernel
  have hstated : ∀ e, EdgeList.Stated commented e ↔ e = (0, 3) ∨ e = (2, 1) := by
    intro e
    rw [← EdgeList.mem_iff_stated hread]
    grind
  have hsame : ∀ e, EdgeList.Stated commented e ↔ EdgeList.Stated "2 1\n0 3\n".toList e := by
    intro e
    rw [hstated, ← EdgeList.mem_iff_stated hread']
    grind
  obtain ⟨hinferred, hgiven, hcongr⟩ :=
    @loadGraph_exact (fun _ => .ok commented) "edges" _ _ rfl hread (by decide +kernel)
  obtain ⟨g, hg, _, horder, hedges⟩ := hinferred (by decide +kernel)
  have hlargest : ∀ id ∈ [0, 3, 2, 1, 0, 3], id ≤ 3 := by decide
  refine ⟨g, hg, horder 3 ⟨by decide, hlargest⟩, fun u v => ?_, ?_, ?_⟩
  · rw [hedges, hstated]
  · exact (hgiven 3 (by decide +kernel)).2.2 [] 0 3 [(2, 1), (0, 3)] rfl (by simp [ends]) (by decide)
  · exact hcongr (fun _ => .ok _) "edges" _ _ rfl hread' (by decide +kernel) hsame none g hg

end Command

end Motif
