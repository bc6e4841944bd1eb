import Motif.Proofs.Built
import Motif.Proofs.Holding

/-!
# Reading an extended table

The rows of a table that was extended read as the rows of the table before, each with each of its
candidates, in order (`Built.tuples_extend`). This holds of every table that can be built, also of those
that were filled up with walks of zeros on the way: a new position lies beyond those of the walk, so
writing it leaves their cells alone, wherever the new pair went (`Bounded.put_insert`).

Extending also gives the same table for all spans that tile the rows, so it is up to the caller how the
rows are shared out.
-/

namespace Motif

namespace Walk

variable {w : Walk} {cells : Array Nat} {pairs : List (Nat × Nat)}

/-! ### One cell more -/

theorem put_cons (cells : Array Nat) (p v : Nat) (pairs : List (Nat × Nat)) :
    put cells ((p, v) :: pairs) = put (cells.setIfInBounds p v) pairs := rfl

theorem put_append (cells : Array Nat) (before after : List (Nat × Nat)) :
    put cells (before ++ after) = put (put cells before) after := List.foldl_append

theorem size_put (cells : Array Nat) (pairs : List (Nat × Nat)) :
    (put cells pairs).size = cells.size := by
  induction pairs generalizing cells with
  | nil => rfl
  | cons pair pairs ih =>
    obtain ⟨p, v⟩ := pair
    rw [put_cons, ih, Array.size_setIfInBounds]

theorem setIfInBounds_push {p : Nat} (hp : p < cells.size) (x v : Nat) :
    (cells.push x).setIfInBounds p v = (cells.setIfInBounds p v).push x := by
  apply Array.ext'
  rw [Array.toList_setIfInBounds, Array.toList_push, Array.toList_push, Array.toList_setIfInBounds]
  exact List.set_append_left p v hp

theorem setIfInBounds_push_size (cells : Array Nat) (x v : Nat) :
    (cells.push x).setIfInBounds cells.size v = cells.push v := by
  apply Array.ext'
  rw [Array.toList_setIfInBounds, Array.toList_push, Array.toList_push, ← Array.length_toList,
    List.set_append_right _ v (Nat.le_refl _), Nat.sub_self]
  rfl

theorem put_push (h : ∀ p ∈ pairs.map Prod.fst, p < cells.size) (x : Nat) :
    put (cells.push x) pairs = (put cells pairs).push x := by
  induction pairs generalizing cells with
  | nil => rfl
  | cons pair pairs ih =>
    obtain ⟨p, v⟩ := pair
    have hrest : ∀ q ∈ pairs.map Prod.fst, q < (cells.setIfInBounds p v).size := by
      intro q hq
      rw [Array.size_setIfInBounds]
      exact h q (List.mem_cons_of_mem _ hq)
    rw [put_cons, put_cons, setIfInBounds_push (h p List.mem_cons_self), ih hrest]

/-- A walk that binds one more position puts the new vertex into the new cell. -/
theorem Bounded.put_insert (h : w.Bounded cells.size) (x v : Nat) :
    put (cells.push x) (w.insert cells.size v).pairs = (put cells w.pairs).push v := by
  obtain ⟨before, after, hpairs, hinsert⟩ := h.toShaped.exists_pairs_insert cells.size v
  have hlt : ∀ p ∈ (before ++ after).map Prod.fst, p < cells.size := by
    rw [← hpairs, h.map_fst_pairs]
    exact h.positions_lt
  rw [List.map_append] at hlt
  have hbefore : ∀ p ∈ before.map Prod.fst, p < cells.size :=
    fun p hp => hlt p (List.mem_append_left _ hp)
  have hafter : ∀ p ∈ after.map Prod.fst, p < (put cells before).size := by
    intro p hp
    rw [size_put]
    exact hlt p (List.mem_append_right _ hp)
  have hlast := setIfInBounds_push_size (put cells before) x v
  rw [size_put] at hlast
  calc put (cells.push x) (w.insert cells.size v).pairs
      = put (put (cells.push x) before) ((cells.size, v) :: after) := by rw [hinsert, put_append]
    _ = put (((put cells before).push x).setIfInBounds cells.size v) after := by
        rw [put_push hbefore, put_cons]
    _ = (put (put cells before) after).push v := by rw [hlast, put_push hafter]
    _ = (put cells w.pairs).push v := by rw [← put_append, ← hpairs]

end Walk

namespace Walks

variable {arity : Nat} {ws : List Walk} {cells : Array Nat} {t : Walks} {candidates : Rows Nat}
  {spans : List Span}

/-! ### Reading all rows -/

/-- The rows of the table in the order of positions, each written over the same cells. -/
def tuples (t : Walks) (cells : Array Nat) : Result (List (List Nat)) :=
  (List.range t.count).mapM fun i => do
    let tuple ← (← t.walkAt i).writeTo cells
    return tuple.toList

theorem tuples_ofList (h : ∀ w ∈ ws, w.Bounded cells.size) :
    (ofList cells.size ws).tuples cells = .ok (ws.map fun w => (Walk.put cells w.pairs).toList) := by
  have hshaped : ∀ w ∈ ws, w.Shaped cells.size := fun w hw => (h w hw).toShaped
  have hrows : ∀ i ∈ List.range ws.length, (do
      let tuple ← (← (ofList cells.size ws).walkAt i).writeTo cells
      return tuple.toList) = .ok (Walk.put cells ((ofList cells.size ws).walk i).pairs).toList := by
    intro i hi
    have hi : i < ws.length := List.mem_range.mp hi
    have hw := h _ (List.getElem_mem hi)
    have hlt : ∀ p ∈ ws[i].pairs.map Prod.fst, p < cells.size := hw.map_fst_pairs ▸ hw.positions_lt
    rw [walkAt_ofList hshaped hi, walk_ofList hshaped hi]
    show (ws[i].writeTo cells >>= _) = _
    rw [Walk.writeTo_eq_put hlt]
    rfl
  rw [tuples, count_ofList, mapM_eq_ok hrows]
  congr 1
  conv_rhs => rw [← toList_ofList hshaped, toList, count_ofList, List.map_map]
  rfl

/-- The walks with their candidates read as the tuples with their candidates. -/
theorem map_put_grown (h : ∀ w ∈ ws, w.Bounded cells.size) (hwf : candidates.Wf)
    (hcount : candidates.count = ws.length) (x : Nat) :
    ((List.range ws.length).flatMap ((ofList cells.size ws).grown candidates)).map
        (fun w => (Walk.put (cells.push x) w.pairs).toList) =
      extendEach (ws.map fun w => (Walk.put cells w.pairs).toList) candidates.toLists := by
  have hshaped : ∀ w ∈ ws, w.Shaped cells.size := fun w hw => (h w hw).toShaped
  have hlength : candidates.toLists.length = ws.length := by rw [Rows.length_toLists, hcount]
  rw [hwf.eq_ofLists, grown_range hshaped hlength, Rows.toLists_ofLists]
  generalize candidates.toLists = lists
  clear hlength hshaped hcount
  induction ws generalizing lists with
  | nil => rfl
  | cons w ws ih =>
    cases lists with
    | nil => rfl
    | cons found lists =>
      have hrest := ih (fun v hv => h v (List.mem_cons_of_mem _ hv)) lists
      have hfirst : ∀ v, (Walk.put (cells.push x) (w.insert cells.size v).pairs).toList =
          (Walk.put cells w.pairs).toList ++ [v] := by
        intro v
        rw [(h w List.mem_cons_self).put_insert, Array.toList_push]
      rw [List.zipWith_cons_cons, List.flatten_cons, List.map_append, hrest, List.map_map,
        List.map_cons, extendEach_cons]
      congr 1
      exact List.map_congr_left fun v _ => hfirst v

/-- Extending a table over all of its rows adds to each tuple each of its candidates, in order, and how
the rows are shared out among tasks does not show. -/
theorem Built.tuples_extend (ht : t.Built) (hwf : candidates.Wf) (hcount : candidates.count = t.count)
    (pool : Pool) (htiles : Span.Tiles spans 0 t.count) :
    (Yields (t.extend pool spans candidates) fun longer =>
      longer.arity = t.arity + 1 ∧ longer.count = candidates.size ∧
        ∀ (cells : Array Nat) (x : Nat), cells.size = t.arity →
          ∃ ts, t.tuples cells = .ok ts ∧
            longer.tuples (cells.push x) = .ok (extendEach ts candidates.toLists)) ∧
    ∀ (otherPool : Pool) (others : List Span), Span.Tiles others 0 t.count →
      t.extend otherPool others candidates = t.extend pool spans candidates := by
  obtain ⟨ws, htable, hbounded⟩ := ht.eq_ofList
  generalize t.arity = arity at *
  subst htable
  have hshaped : ∀ w ∈ ws, w.Shaped arity := fun w hw => (hbounded w hw).toShaped
  rw [count_ofList] at hcount htiles ⊢
  refine ⟨?_, ?_⟩
  · refine (yields_extend_of_tiles hcount htiles pool hshaped hwf).mono fun longer hlonger => ?_
    obtain ⟨rfl, _⟩ := hlonger
    refine ⟨rfl, ?_, ?_⟩
    · rw [count_ofList, length_grown, ← hcount, hwf.size_eq]
      rfl
    · intro cells x hcells
      subst hcells
      have hlonger : ∀ w ∈ (List.range ws.length).flatMap ((ofList cells.size ws).grown candidates),
          w.Bounded (cells.push x).size := by
        rw [← filled_of_tiles hcount htiles hwf, Array.size_push]
        exact forall_mem_filled hshaped hcount (fits_of_tiles hcount htiles)
          (fun w hw => (hbounded w hw).insert) (Walk.bounded_zeros _)
      refine ⟨_, tuples_ofList hbounded, ?_⟩
      rw [← Array.size_push, tuples_ofList hlonger, map_put_grown hbounded hwf hcount]
  · intro otherPool others hothers
    rw [extend_eq_of_tiles hcount hothers otherPool hshaped hwf,
      extend_eq_of_tiles hcount htiles pool hshaped hwf]

/-- A seed is extended by a vertex it has and by a smaller one, the next by none, the last by one. -/
theorem tuples_extend_seeds :
    let t : Walks := ⟨2, ⟨#[0, 2, 4, 6], #[3, 5, 1, 2, 4, 4]⟩, #[1, 0, 0, 1, 0, 1]⟩
    let candidates : Rows Nat := ⟨#[0, 2, 2, 3], #[5, 0, 4]⟩
    ∃ longer, t.extend (Pool.ofWorkers 2) [⟨0, 1⟩, ⟨1, 1⟩, ⟨1, 3⟩] candidates = .ok longer ∧
      longer.tuples #[7, 7, 7] = .ok [[5, 3, 5], [5, 3, 0], [4, 4, 4]] ∧
      t.extend (Pool.ofWorkers 1) [⟨0, 3⟩] candidates = .ok longer := by
  intro t candidates
  have hbuilt : t.Built :=
    .ofSeeds (show ofSeeds ⟨#[0, 2, 4, 6], #[5, 3, 1, 2, 4, 4]⟩ = .ok t by decide +kernel)
  have htiles : Span.Tiles [⟨0, 1⟩, ⟨1, 1⟩, ⟨1, 3⟩] 0 3 := by simp [Span.Tiles]
  have hwf : candidates.Wf := ⟨by decide, by decide, by decide⟩
  have hresult := hbuilt.tuples_extend hwf rfl (Pool.ofWorkers 2) htiles
  have hextend : t.extend (Pool.ofWorkers 2) [⟨0, 1⟩, ⟨1, 1⟩, ⟨1, 3⟩] candidates =
      .ok ⟨3, ⟨#[0, 3, 6, 9], #[3, 5, 5, 0, 3, 5, 4, 4, 4]⟩, #[1, 2, 0, 2, 1, 0, 2, 0, 1]⟩ := by
    decide +kernel
  rw [hextend] at hresult
  obtain ⟨⟨_, _, hread⟩, hsame⟩ := hresult
  obtain ⟨ts, hts, hlonger⟩ := hread #[7, 7] 7 rfl
  have htuples : t.tuples #[7, 7] = .ok [[5, 3], [1, 2], [4, 4]] := by decide +kernel
  obtain rfl := Except.ok.inj (hts.symm.trans htuples)
  have hwhole : Span.Tiles [⟨0, 3⟩] 0 3 := by simp [Span.Tiles]
  exact ⟨_, hextend, hlonger, hsame _ _ hwhole⟩

end Walks

end Motif
