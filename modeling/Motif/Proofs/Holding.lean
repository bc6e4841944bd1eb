import Mathlib.Data.List.GetD
import Motif.Proofs.Blocks
import Motif.Proofs.Extension
import Motif.Proofs.Starts

/-!
# Tables that hold tuples

`Walks.Holds` relates a table to the list of tuples that its walks store. Extending the table by a table of
candidates extends each tuple by each of its candidates (`Holds.grow`), and for a search only the tuples
and what they can be completed to matter from here on.
-/

namespace Motif

/-- The tuples with each of the vertices that were found for them, in order. -/
def extendEach (ts : List (List Nat)) (lists : List (List Nat)) : List (List Nat) :=
  (List.zipWith (fun t found => found.map fun v => t ++ [v]) ts lists).flatten

/-- The walks of the table store the given tuples, one after another. -/
structure Walks.Holds (walks : Walks) (arity : Nat) (ts : List (List Nat)) : Prop where
  stored : ∃ ws, walks = Walks.ofList arity ws ∧ List.Forall₂ Walk.Stores ws ts
  length : ∀ t ∈ ts, t.length = arity
  room : walks.count < Word.shortageFrom

variable {arity : Nat} {ws : List Walk} {ts lists : List (List Nat)} {walks : Walks}

theorem shaped_of_stores (h : List.Forall₂ Walk.Stores ws ts) (hlength : ∀ t ∈ ts, t.length = arity) :
    ∀ w ∈ ws, w.Shaped arity := by
  induction h with
  | nil => simp
  | cons hw _ ih =>
    intro w hmem
    rcases List.mem_cons.mp hmem with rfl | hmem
    · exact hlength _ List.mem_cons_self ▸ hw.toShaped
    · exact ih (fun t ht => hlength t (List.mem_cons_of_mem _ ht)) w hmem

namespace Walks.Holds

theorem count_eq (h : walks.Holds arity ts) : walks.count = ts.length := by
  obtain ⟨ws, rfl, hws⟩ := h.stored
  rw [count_ofList, hws.length_eq]

theorem arity_eq (h : walks.Holds arity ts) : walks.arity = arity := by
  obtain ⟨ws, rfl, _⟩ := h.stored
  rfl

theorem walkAt (h : walks.Holds arity ts) {i : Nat} (hi : i < ts.length) :
    ∃ w, walks.walkAt i = .ok w ∧ w.Stores ts[i] := by
  obtain ⟨ws, rfl, hws⟩ := h.stored
  have hi' : i < ws.length := hws.length_eq ▸ hi
  exact ⟨ws[i], walkAt_ofList (shaped_of_stores hws h.length) hi', hws.get hi' hi⟩

end Walks.Holds

/-! ### Tuples that grow -/

theorem extendEach_cons (t : List Nat) (ts : List (List Nat)) (found : List Nat)
    (lists : List (List Nat)) :
    extendEach (t :: ts) (found :: lists) = (found.map fun v => t ++ [v]) ++ extendEach ts lists := rfl

theorem of_mem_extendEach {rel : List Nat → List Nat → Prop} (h : List.Forall₂ rel ts lists)
    {longer : List Nat} (hmem : longer ∈ extendEach ts lists) :
    ∃ t ∈ ts, ∃ found, rel t found ∧ ∃ v ∈ found, longer = t ++ [v] := by
  induction h with
  | nil => contradiction
  | @cons t found ts lists hrel _ ih =>
    rcases List.mem_append.mp hmem with hmem | hmem
    · obtain ⟨v, hv, rfl⟩ := List.mem_map.mp hmem
      exact ⟨t, List.mem_cons_self, found, hrel, v, hv, rfl⟩
    · obtain ⟨t', ht', rest⟩ := ih hmem
      exact ⟨t', List.mem_cons_of_mem _ ht', rest⟩

theorem length_of_mem_extendEach (h : ∀ t ∈ ts, t.length = arity) :
    ∀ t ∈ extendEach ts lists, t.length = arity + 1 := by
  intro t ht
  obtain ⟨l, hl, ht⟩ := List.mem_flatten.mp ht
  obtain ⟨i, hi, rfl⟩ := List.mem_iff_getElem.mp hl
  rw [List.getElem_zipWith] at ht
  obtain ⟨v, _, rfl⟩ := List.mem_map.mp ht
  rw [List.length_append, List.length_singleton, h _ (List.getElem_mem _)]

theorem length_extendEach (h : ts.length = lists.length) :
    (extendEach ts lists).length = lists.flatten.length := by
  induction ts generalizing lists with
  | nil =>
    obtain rfl := List.length_eq_zero_iff.mp h.symm
    rfl
  | cons t ts ih =>
    cases lists with
    | nil => contradiction
    | cons found lists =>
      have := ih (Nat.succ.inj h)
      simp only [extendEach, List.zipWith_cons_cons, List.flatten_cons, List.length_append,
        List.length_map] at this ⊢
      rw [this]

theorem stores_extendEach (h : List.Forall₂ Walk.Stores ws ts) (hlength : ∀ t ∈ ts, t.length = arity)
    (lists : List (List Nat)) :
    List.Forall₂ Walk.Stores
      (List.zipWith (fun w found => found.map (w.insert arity)) ws lists).flatten
      (extendEach ts lists) := by
  induction h generalizing lists with
  | nil => exact List.Forall₂.nil
  | @cons w t ws ts hw _ ih =>
    cases lists with
    | nil => exact List.Forall₂.nil
    | cons found lists =>
      have htail := ih (fun t ht => hlength t (List.mem_cons_of_mem _ ht)) lists
      refine List.rel_append ?_ htail
      rw [← hlength t List.mem_cons_self]
      clear htail
      induction found with
      | nil => exact List.Forall₂.nil
      | cons v found ihFound => exact List.Forall₂.cons (hw.insert v) ihFound

/-- Row by row, the walks with their candidates are those of the lists of walks and of candidates. -/
theorem grown_range (h : ∀ w ∈ ws, w.Shaped arity) (hlength : lists.length = ws.length) :
    (List.range ws.length).flatMap ((Walks.ofList arity ws).grown (Rows.ofLists lists)) =
      (List.zipWith (fun w found => found.map (w.insert arity)) ws lists).flatten := by
  rw [List.flatMap_def]
  congr 1
  apply List.ext_getElem
  · simp [hlength]
  · intro i hi hi'
    have hws : i < ws.length := by simpa using hi
    rw [List.getElem_map, List.getElem_range, List.getElem_zipWith, Walks.grown,
      Walks.walk_ofList h hws, Rows.row_ofLists, List.getD_eq_getElem _ _ (hlength ▸ hws)]
    rfl

theorem Walks.Holds.grow (h : walks.Holds arity ts) (pool : Pool) {spans : List Span}
    (htiles : Span.Tiles spans 0 walks.count) (hlists : lists.length = ts.length) :
    Yields (walks.extend pool spans (Rows.ofLists lists)) fun longer =>
      longer.Holds (arity + 1) (extendEach ts lists) := by
  obtain ⟨ws, rfl, hws⟩ := h.stored
  have hshaped := shaped_of_stores hws h.length
  have hcount : (Rows.ofLists lists).count = ws.length := by
    rw [Rows.count_ofLists, hlists, hws.length_eq]
  rw [Walks.count_ofList] at htiles
  refine (Walks.yields_extend_of_tiles hcount htiles pool hshaped (Rows.wf_ofLists lists)).mono
    fun longer hlonger => ⟨⟨_, hlonger.1, ?_⟩, length_of_mem_extendEach h.length, hlonger.2⟩
  rw [grown_range hshaped (hlists.trans hws.length_eq.symm)]
  exact stores_extendEach hws h.length lists

/-! ### Tables to start from -/

theorem Walks.yields_singles_holds (n : Nat) :
    Yields (Walks.singles n) fun t => t.Holds 1 ((List.range n).map fun v => [v]) := by
  refine (Walks.yields_singles n).mono fun t ht => ⟨⟨_, ht.1, ?_⟩, ?_, ht.2⟩
  · rw [List.forall₂_map_left_iff, List.forall₂_map_right_iff, List.forall₂_same]
    exact fun v _ => Walk.stores_singleton v
  · intro t ht
    obtain ⟨v, _, rfl⟩ := List.mem_map.mp ht
    rfl

theorem Walks.holds_of_ofSeeds {seeds : Rows Nat} {t : Walks} (h : Walks.ofSeeds seeds = .ok t) :
    t.Holds t.arity seeds.toLists := by
  obtain ⟨htable, _, hlength, hroom⟩ := Walks.of_ofSeeds h
  refine ⟨⟨_, htable, ?_⟩, hlength, hroom⟩
  rw [List.forall₂_map_left_iff, List.forall₂_same]
  exact fun row _ => Walk.stores_byVertex row

end Motif
