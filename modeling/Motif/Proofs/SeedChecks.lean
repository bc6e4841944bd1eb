import Motif.Walks.Check
import Motif.Proofs.SeedFaults
import Motif.Proofs.Starts

/-!
# The check of seeds

Seeds are put into a table that is sorted by vertex and are then checked one by one in a single array. None
of this shows in what is reported, which depends on the rows alone. A table that passes has partial
matches in it (`isMatch_of_check`), for a row that is none has a fault and is reported.
-/

namespace Motif

variable {g : Graph} {p : Pattern} {reuse : Reuse} {row : List Nat}

namespace Walks

/-! ### The edges of one row -/

theorem findSomeM?_eq_find? {α β : Type} {f : α → Result (Option β)} {l : List α} (toEntry : α → β)
    (test : β → Bool) (h : ∀ a ∈ l, f a = .ok (if test (toEntry a) then some (toEntry a) else none)) :
    l.findSomeM? f = .ok ((l.map toEntry).find? test) := by
  induction l with
  | nil => rfl
  | cons a l ih =>
    rw [List.findSomeM?_cons, h a List.mem_cons_self, ih fun b hb => h b (List.mem_cons_of_mem _ hb),
      List.map_cons, List.find?_cons]
    cases test (toEntry a) <;> rfl

theorem firstMissingEdge_eq {required : List (List Nat)} {target : Nat}
    (hedges : ∀ e ∈ requiredEdges target required, e.1 < row.length ∧ e.2 < row.length)
    (hvertices : ∀ v ∈ row, v < g.order) :
    firstMissingEdge g row.toArray target required =
      .ok ((requiredEdges target required).find? (unlinked g row)) := by
  induction required generalizing target with
  | nil => rfl
  | cons sources required ih =>
    rw [firstMissingEdge, requiredEdges, List.find?_append,
      ih fun e he => hedges e (List.mem_append_right _ he),
      findSomeM?_eq_find? (·, target) (unlinked g row)]
    · cases (sources.map (·, target)).find? (unlinked g row) <;> rfl
    · intro source hs
      obtain ⟨hsource, htarget⟩ := hedges (source, target)
        (List.mem_append_left _ (List.mem_map.mpr ⟨source, hs, rfl⟩))
      have hedge : g.hasEdge row[source] row[target] = .ok (g.linked row[source] row[target]) :=
        Graph.hasEdge_of_lt (hvertices _ (List.getElem_mem hsource))
      simp only [List.getElem?_toArray, List.getElem?_eq_getElem hsource,
        List.getElem?_eq_getElem htarget, hedge, unlinked, List.getD_eq_getElem _ _ hsource,
        List.getD_eq_getElem _ _ htarget]
      cases g.linked row[source] row[target] <;> rfl

theorem firstMissingEdge_take (hvertices : ∀ v ∈ row, v < g.order) :
    firstMissingEdge g row.toArray 0 (p.required.take row.length) =
      .ok ((requiredEdges 0 (p.required.take row.length)).find? (unlinked g row)) := by
  refine firstMissingEdge_eq ?_ hvertices
  rintro ⟨source, target⟩ he
  obtain ⟨htarget, hsource⟩ := mem_requiredEdges_take.mp he
  exact ⟨Nat.lt_trans (Pattern.earlier_of_mem hsource) htarget, htarget⟩

/-! ### The check of one row -/

theorem checkRepeats_of_nodup (i : Nat) (h : reuse = .forbidden → row.Nodup) :
    checkRepeats reuse i (ofRow row) = .ok () := by
  cases reuse with
  | allowed => rfl
  | forbidden =>
    have hnodup := (stores_ofRow row).vertices_perm.nodup_iff.mpr (h rfl)
    simp only [checkRepeats, firstRepeat_of_nodup hnodup]
    rfl

theorem checkRepeats_of_repeat (i : Nat) {v : Nat} (hv : 1 < row.count v)
    (hleast : ∀ u, 1 < row.count u → v ≤ u) :
    checkRepeats .forbidden i (ofRow row) = refuse (.seedRepeat i v) := by
  have hstores := stores_ofRow row
  have hcount : ∀ u, (ofRow row).vertices.count u = row.count u :=
    fun u => hstores.vertices_perm.count_eq u
  have hfirst : Sorted.firstRepeat (ofRow row).vertices = some v :=
    firstRepeat_eq_some_of_least hstores.ascending (by rwa [hcount])
      fun u hu => hleast u (by rwa [hcount] at hu)
  simp only [checkRepeats, hfirst]

theorem checkWalk_eq {cells : Array Nat} {i : Nat} (hsize : cells.size = row.length)
    (hvertices : ∀ v ∈ row, v < g.order) (hdistinct : reuse = .forbidden → row.Nodup) :
    checkWalk g p reuse row.length i (ofRow row) cells =
      match (requiredEdges 0 (p.required.take row.length)).find? (unlinked g row) with
      | some (source, target) => refuse (.seedEdge i source target)
      | none => .ok row.toArray := by
  rw [checkWalk, checkRepeats_of_nodup i hdistinct, (stores_ofRow row).writeTo_of_size_eq hsize]
  show (firstMissingEdge _ _ _ _ >>= _) = _
  rw [firstMissingEdge_take hvertices]
  cases (requiredEdges 0 (p.required.take row.length)).find? (unlinked g row) <;> rfl

theorem checkWalk_of_isMatch {cells : Array Nat} (i : Nat) (hsize : cells.size = row.length)
    (h : IsMatch g p reuse row) :
    checkWalk g p reuse row.length i (ofRow row) cells = .ok row.toArray := by
  have hnone : (requiredEdges 0 (p.required.take row.length)).find? (unlinked g row) = none := by
    rw [List.find?_eq_none]
    rintro ⟨source, target⟩ he hunlinked
    exact ((isMatch_iff_of_vertices h.vertices).mp h).2 source target (lacks_iff.mpr ⟨he, hunlinked⟩)
  rw [checkWalk_eq hsize h.vertices h.distinct, hnone]

theorem checkWalk_of_rowFault {cells : Array Nat} {i : Nat} {cause : Refusal}
    (hsize : cells.size = row.length) (hvertices : ∀ v ∈ row, v < g.order)
    (h : RowFault g p reuse i row cause) :
    checkWalk g p reuse row.length i (ofRow row) cells = refuse cause := by
  cases h with
  | seedRepeat hreuse hv hleast =>
    subst hreuse
    rw [checkWalk, checkRepeats_of_repeat i hv hleast]
    rfl
  | @seedEdge source target hdistinct hlacks hleast =>
    obtain ⟨hmem, hunlinked⟩ := lacks_iff.mp hlacks
    have hordered : (requiredEdges 0 (p.required.take row.length)).Pairwise NotAfter := by
      refine requiredEdges_ordered (fun l hl => ?_) 0
      obtain ⟨j, hj⟩ := List.getElem?_of_mem (List.mem_of_mem_take hl)
      exact (p.admissible j l hj).ascending
    have hfind := find?_eq_some_of_least hordered hmem hunlinked fun e he hun =>
      hleast e.1 e.2 (lacks_iff.mpr ⟨he, hun⟩)
    rw [checkWalk_eq hsize hvertices hdistinct, hfind]

/-! ### The check of a table -/

variable {arity : Nat} {before rows : List (List Nat)}

/-- Rows that are matches are passed over. -/
theorem checkFrom_append (rows : List (List Nat)) (hbefore : ∀ r ∈ before, IsMatch g p reuse r)
    (hlength : ∀ r ∈ before, r.length = arity) {cells : Array Nat} (hsize : cells.size = arity) (i : Nat) :
    ∃ cells' : Array Nat, cells'.size = arity ∧
      checkFrom g p reuse arity i ((before ++ rows).map ofRow) cells =
        checkFrom g p reuse arity (i + before.length) (rows.map ofRow) cells' := by
  induction before generalizing i cells with
  | nil => exact ⟨cells, hsize, rfl⟩
  | cons row before ih =>
    obtain rfl : row.length = arity := hlength row List.mem_cons_self
    have hwalk := checkWalk_of_isMatch i hsize (hbefore row List.mem_cons_self)
    obtain ⟨cells', hsize', heq⟩ := ih (fun r hr => hbefore r (List.mem_cons_of_mem _ hr))
      (fun r hr => hlength r (List.mem_cons_of_mem _ hr)) (show row.toArray.size = row.length from List.size_toArray) (i + 1)
    refine ⟨cells', hsize', ?_⟩
    rw [List.cons_append, List.map_cons, checkFrom, hwalk, List.length_cons, Nat.add_comm before.length,
      ← Nat.add_assoc, ← heq]
    rfl

theorem checkFrom_of_isMatch (hmatch : ∀ r ∈ rows, IsMatch g p reuse r)
    (hlength : ∀ r ∈ rows, r.length = arity) {cells : Array Nat} (hsize : cells.size = arity) (i : Nat) :
    checkFrom g p reuse arity i (rows.map ofRow) cells = .ok () := by
  obtain ⟨_, _, heq⟩ := checkFrom_append [] hmatch hlength hsize i
  rw [List.append_nil] at heq
  exact heq

theorem checkFrom_of_rowFault {after : List (List Nat)} {cause : Refusal}
    (hbefore : ∀ r ∈ before, IsMatch g p reuse r)
    (hlength : ∀ r ∈ before ++ row :: after, r.length = arity) (hvertices : ∀ v ∈ row, v < g.order)
    {cells : Array Nat} (hsize : cells.size = arity)
    (h : RowFault g p reuse before.length row cause) :
    checkFrom g p reuse arity 0 ((before ++ row :: after).map ofRow) cells = refuse cause := by
  obtain ⟨cells', hsize', heq⟩ := checkFrom_append (row :: after) hbefore
    (fun r hr => hlength r (List.mem_append_left _ hr)) hsize 0
  obtain rfl : row.length = arity := hlength row (by simp)
  rw [Nat.zero_add] at heq
  rw [heq, List.map_cons, checkFrom, checkWalk_of_rowFault hsize' hvertices h]
  rfl

theorem values_ofList_map_ofRow (arity : Nat) (rows : List (List Nat)) :
    (ofList arity (rows.map ofRow)).vertices.values.toList =
      rows.flatMap fun row => (ofRow row).vertices := by
  rw [List.flatMap_def, ofList, Rows.regular, List.toList_toArray, List.map_map]
  rfl

theorem find?_outOfRange_eq_none (hvertices : ∀ r ∈ rows, ∀ v ∈ r, v < g.order) :
    (rows.flatMap fun row => (ofRow row).vertices).find? (fun v => decide (g.order ≤ v)) = none := by
  rw [List.find?_eq_none]
  intro v hv
  obtain ⟨row, hrow, hv⟩ := List.mem_flatMap.mp hv
  have := hvertices row hrow v ((stores_ofRow row).mem_vertices.mp hv)
  simpa using this

theorem check_of_size_lt (hsize : p.size < arity) (ws : List Walk) :
    (ofList arity ws).check g p reuse = refuse (.mismatch (.tooManyPositions arity p.size)) := by
  rw [check, require, if_neg (show ¬ (ofList arity ws).arity ≤ p.size from Nat.not_le.mpr hsize)]
  rfl

theorem check_of_vertexOutOfRange {after : List (List Nat)} {v : Nat} (hsize : arity ≤ p.size)
    (hbefore : ∀ r ∈ before, ∀ u ∈ r, u < g.order) (hv : v ∈ row) (hout : g.order ≤ v)
    (hleast : ∀ u ∈ row, g.order ≤ u → v ≤ u) :
    (ofList arity ((before ++ row :: after).map ofRow)).check g p reuse =
      refuse (.mismatch (.vertexOutOfRange v g.order)) := by
  have hstores := stores_ofRow row
  have hrow : (ofRow row).vertices.find? (fun v => decide (g.order ≤ v)) = some v :=
    find?_eq_some_of_least hstores.ascending (hstores.mem_vertices.mpr hv) (by simpa using hout)
      fun u hu hle => hleast u (hstores.mem_vertices.mp hu) (by simpa using hle)
  rw [check, values_ofList_map_ofRow, List.flatMap_append, List.flatMap_cons, List.find?_append,
    find?_outOfRange_eq_none hbefore, List.find?_append, hrow, require,
    if_pos (show (ofList arity _).arity ≤ p.size from hsize)]
  rfl

theorem check_of_vertices (hsize : arity ≤ p.size) (hlength : ∀ r ∈ rows, r.length = arity)
    (hvertices : ∀ r ∈ rows, ∀ v ∈ r, v < g.order) :
    (ofList arity (rows.map ofRow)).check g p reuse =
      checkFrom g p reuse arity 0 (rows.map ofRow) (Array.replicate arity 0) := by
  rw [check, values_ofList_map_ofRow, find?_outOfRange_eq_none hvertices,
    toList_ofList (shaped_of_mem_map_ofRow hlength), require,
    if_pos (show (ofList arity _).arity ≤ p.size from hsize)]
  rfl

theorem isMatch_of_check {t : Walks} (htable : t = ofList t.arity (rows.map ofRow))
    (hlength : ∀ row ∈ rows, row.length = t.arity) (h : t.check g p reuse = .ok ()) :
    t.arity ≤ p.size ∧ ∀ row ∈ rows, IsMatch g p reuse row := by
  rw [htable] at h
  have hsize : t.arity ≤ p.size := by
    by_contra hlt
    rw [check_of_size_lt (Nat.not_le.mp hlt)] at h
    contradiction
  have hvertices : ∀ row ∈ rows, ∀ v ∈ row, v < g.order := by
    by_contra hother
    obtain ⟨before, row, after, rfl, hbefore, hrow⟩ := exists_first_of_not_forall hother
    push Not at hrow
    obtain ⟨v, ⟨hv, hout⟩, hleast⟩ := exists_least hrow
    rw [check_of_vertexOutOfRange hsize hbefore hv hout fun u hu hle => hleast u ⟨hu, hle⟩] at h
    contradiction
  refine ⟨hsize, ?_⟩
  by_contra hother
  obtain ⟨before, row, after, rfl, hbefore, hrow⟩ := exists_first_of_not_forall hother
  have hrowVertices : ∀ v ∈ row, v < g.order := hvertices row (by simp)
  obtain ⟨cause, hcause⟩ := exists_rowFault hrowVertices hrow before.length
  rw [check_of_vertices hsize hlength hvertices,
    checkFrom_of_rowFault hbefore hlength hrowVertices Array.size_replicate hcause] at h
  contradiction

end Walks

end Motif
