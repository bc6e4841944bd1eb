import Motif.Proofs.Tables

/-!
# Tables a search starts from

The walks of `Walks.singles` store the tuples of one vertex, and those of `Walks.ofSeeds` store the
seeds. Seeds make a table only when there are some, all of one length that is not zero.
-/

namespace Motif.Walks

/-- The walk that binds position `0` to a vertex. -/
def single (v : Nat) : Walk := ⟨[v], [0]⟩

/-- The walk that binds position `j` to entry `j` of a row. -/
def ofRow (row : List Nat) : Walk where
  vertices := (byVertex row).map Prod.fst
  positions := (byVertex row).map Prod.snd

theorem stores_ofRow (row : List Nat) : (ofRow row).Stores row := Walk.stores_byVertex row

theorem yields_singles (n : Nat) :
    Yields (singles n) fun t =>
      t = ofList 1 ((List.range n).map single) ∧ t.count < Word.shortageFrom := by
  apply (Word.yields_reserve n).bind
  intro _ hn
  apply (Rows.yields_uniform Nat.one_pos (n := n) (by simp)).bind
  intro r hr
  apply (Word.yields_reserve n).bind
  intro _ _
  have hvertices : (((List.range n).map single).map Walk.vertices).flatten.toArray = Array.range n := by
    apply Array.ext'
    rw [List.map_map, ← List.flatMap_def, List.toList_toArray, Array.toList_range]
    exact List.flatMap_singleton' _
  have hpositions : (((List.range n).map single).map Walk.positions).flatten.toArray =
      Array.replicate n 0 := by
    apply Array.ext'
    have hmap : ((List.range n).map single).map Walk.positions = List.replicate n [0] := by
      rw [List.map_map, show Walk.positions ∘ single = fun _ => [0] from rfl, List.map_const',
        List.length_range]
    rw [hmap]
    simp
  have htable : (⟨1, r, Array.replicate n 0⟩ : Walks) = ofList 1 ((List.range n).map single) := by
    rw [ofList, hvertices, hpositions, hr.1, List.length_map, List.length_range]
  refine yields_pure ⟨htable, ?_⟩
  rw [htable, count_ofList, List.length_map, List.length_range]
  exact hn

theorem length_of_firstOfOtherLength {length i : Nat} {rows : List (List Nat)}
    (h : firstOfOtherLength length i rows = none) : ∀ row ∈ rows, row.length = length := by
  induction rows generalizing i with
  | nil => simp
  | cons row rows ih =>
    rw [firstOfOtherLength] at h
    split at h
    · rename_i hrow
      intro r hr
      rcases List.mem_cons.mp hr with rfl | hr
      · exact hrow
      · exact ih h r hr
    · contradiction

theorem map_fst_flatMap_byVertex (rows : List (List Nat)) :
    (rows.flatMap byVertex).map (·.1) = ((rows.map ofRow).map Walk.vertices).flatten := by
  rw [List.map_flatMap, List.map_map, ← List.flatMap_def]
  rfl

theorem map_snd_flatMap_byVertex (rows : List (List Nat)) :
    (rows.flatMap byVertex).map (·.2) = ((rows.map ofRow).map Walk.positions).flatten := by
  rw [List.map_flatMap, List.map_map, ← List.flatMap_def]
  rfl

theorem bounded_of_mem_map_ofRow {rows : List (List Nat)} {arity : Nat}
    (h : ∀ row ∈ rows, row.length = arity) : ∀ w ∈ rows.map ofRow, w.Bounded arity := by
  intro w hw
  obtain ⟨row, hrow, rfl⟩ := List.mem_map.mp hw
  exact h row hrow ▸ (Walk.stores_byVertex row).bounded

theorem shaped_of_mem_map_ofRow {rows : List (List Nat)} {arity : Nat}
    (h : ∀ row ∈ rows, row.length = arity) : ∀ w ∈ rows.map ofRow, w.Shaped arity :=
  fun w hw => (bounded_of_mem_map_ofRow h w hw).toShaped

theorem of_ofSeeds {seeds : Rows Nat} {t : Walks} (h : ofSeeds seeds = .ok t) :
    t = ofList t.arity (seeds.toLists.map ofRow) ∧ 0 < t.arity ∧
      (∀ row ∈ seeds.toLists, row.length = t.arity) ∧ t.count < Word.shortageFrom := by
  rw [ofSeeds] at h
  split at h
  · contradiction
  · rename_i first rest hlists
    obtain ⟨_, hpos, h⟩ := bind_eq_ok.mp h
    rw [require_eq_ok] at hpos
    split at h
    · contradiction
    · rename_i hlength
      obtain ⟨cells, _, h⟩ := bind_eq_ok.mp h
      obtain ⟨_, _, h⟩ := bind_eq_ok.mp h
      obtain ⟨vertices, hvertices, h⟩ := bind_eq_ok.mp h
      obtain rfl := Except.ok.inj h
      have hrows : ∀ row ∈ seeds.toLists, row.length = first.length := by
        intro row hrow
        rw [hlists] at hrow
        rcases List.mem_cons.mp hrow with rfl | hrow
        · rfl
        · exact length_of_firstOfOtherLength hlength row hrow
      have hshaped := shaped_of_mem_map_ofRow hrows
      have hsize : ((seeds.toLists.map ofRow).map Walk.vertices).flatten.toArray.size =
          (seeds.toLists.map ofRow).length * first.length := by
        rw [List.size_toArray, length_flatten_of_forall (length_of_mem_vertices hshaped),
          List.length_map]
      rw [← hlists, map_fst_flatMap_byVertex] at hvertices
      obtain ⟨rfl, hroom⟩ := (Rows.yields_uniform (Nat.pos_of_ne_zero hpos) hsize).of_ok hvertices
      rw [← hlists, map_snd_flatMap_byVertex]
      refine ⟨rfl, Nat.pos_of_ne_zero hpos, hrows, ?_⟩
      rw [count, Rows.count_regular]
      exact hroom

end Motif.Walks
