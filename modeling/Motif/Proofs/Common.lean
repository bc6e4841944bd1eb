import Mathlib.Data.List.Nodup
import Motif.Extender
import Motif.Proofs.Adjacency
import Motif.Proofs.Yields

/-!
# Common neighbours, found in two ways

`Graph.common` is what both methods of an `Extender` look for: the vertices that all of some vertices have
an edge to, without those of a mask. Sifting finds them whatever lists it starts with (`intersect_adds`).
Counting finds them as long as the counters stay exact, that is for fewer than `2 ^ 32` lists
(`tally_adds`); of more lists it still finds vertices of the graph only. What either method appends is
in ascending order, whatever it starts with (`intersect_appends`, `tally_appends`).

Counting relies on counters that start at zero. `Workspace.Clean` says so, and both methods leave a clean
workspace behind. The invariant of the counting pass is `Counted`: each counter holds the number of
occurrences so far, and the vertices noted are those whose counter may not be zero.
-/

namespace Motif

namespace Graph

/-- The vertices that all of `sources` have an edge to, without those of `mask`, ascending. -/
def common (g : Graph) (sources mask : List Nat) : List Nat :=
  (List.range g.order).filter fun v => (sources.all fun u => g.linked u v) && !mask.contains v

variable {g : Graph} {sources mask : List Nat} {v : Nat}

theorem mem_common_iff (hne : sources ≠ []) :
    v ∈ g.common sources mask ↔ (∀ u ∈ sources, v ∈ g.adjacent u) ∧ v ∉ mask := by
  simp only [common, List.mem_filter, List.mem_range, Bool.and_eq_true, List.all_eq_true,
    linked_eq_true_iff, Bool.not_eq_true', List.contains_eq_mem, decide_eq_false_iff_not]
  refine ⟨?_, ?_⟩
  · exact fun h => h.2
  · intro h
    obtain ⟨u, hu⟩ := List.exists_mem_of_ne_nil sources hne
    exact ⟨lt_order_of_mem_adjacent (h.1 u hu), h⟩

theorem common_ascending (g : Graph) (sources mask : List Nat) :
    (g.common sources mask).Pairwise (· < ·) := List.pairwise_lt_range.filter _

theorem lt_order_of_mem_common (h : v ∈ g.common sources mask) : v < g.order :=
  List.mem_range.mp (List.mem_filter.mp h).1

theorem common_congr {sources' : List Nat} (h : sources.Perm sources') :
    g.common sources mask = g.common sources' mask := by
  apply List.filter_congr
  intro v _
  rw [Bool.eq_iff_iff]
  simp [h.mem_iff]

end Graph

/-- The counters are back at zero. -/
def Workspace.Clean (space : Workspace) : Prop :=
  space.hits = Array.replicate space.hits.size 0

namespace Workspace

theorem clean_fresh : fresh.Clean := rfl

theorem clean_refill {space : Workspace} (h : space.Clean) (vertices : List Nat) :
    (space.refill vertices).Clean := h

theorem Clean.eq_zero_of_mem {space : Workspace} (h : space.Clean) {count : UInt32}
    (hcount : count ∈ space.hits) : count = 0 := by
  rw [Clean] at h
  rw [h, Array.mem_replicate] at hcount
  exact hcount.2

end Workspace

namespace Extender

variable {g : Graph} {mask : List Nat}

theorem shrink_zero {α : Type} (xs : Array α) : xs.shrink 0 = #[] := by simp

/-! ### Sifting -/

theorem narrow_eq (next : Nat) (rest : List Nat) (kept spare out : Array Nat)
    (h : kept.toList.Pairwise (· ≤ ·)) :
    (narrow g next rest kept spare out).2.2 =
      out ++ kept.toList.filter fun v => (next :: rest).all fun u => (g.adjacent u).contains v := by
  fun_induction narrow g next rest kept spare out with
  | case1 next kept spare out =>
    have hadj := (g.adjacent_ascending next).imp Nat.le_of_lt
    apply (Sorted.sift_eq .common out h hadj).trans
    simp only [List.all_cons, List.all_nil, Bool.and_true]
    rfl
  | case2 next after rest kept spare out hempty =>
    have : kept.toList = [] := by simpa using hempty
    simp [this]
  | case3 next after rest kept spare out hne ih =>
    have hadj := (g.adjacent_ascending next).imp Nat.le_of_lt
    have hkept : (Sorted.sift .common kept.toList (g.adjacent next) (spare.shrink 0)).toList =
        kept.toList.filter fun v => (g.adjacent next).contains v := by
      rw [shrink_zero, Sorted.toList_sift .common h hadj]
      rfl
    rw [ih (by rw [hkept]; exact h.filter _), hkept, List.filter_filter]
    congr 1
    apply List.filter_congr
    intro v _
    rw [Bool.and_comm]
    rfl

/-- The neighbours of one vertex, sifted by the mask and by all other lists, are the common ones. -/
theorem filter_adjacent_eq_common (g : Graph) (first : Nat) (rest mask : List Nat) :
    ((g.adjacent first).filter (Sorted.Keep.missing.selects mask)).filter
      (fun v => rest.all fun u => (g.adjacent u).contains v) = g.common (first :: rest) mask := by
  apply Sorted.eq_of_mem_iff
  · exact ((g.adjacent_ascending first).filter _).filter _
  · exact g.common_ascending _ _
  · intro v
    rw [Graph.mem_common_iff (List.cons_ne_nil _ _)]
    simp [Sorted.Keep.selects, and_comm, and_left_comm]

theorem intersect_adds (first : Nat) (rest : List Nat) (hmask : mask.Pairwise (· ≤ ·))
    {space : Workspace} (hclean : space.Clean) (out : Array Nat) :
    (intersect g first rest mask space out).Adds Workspace.Clean out (g.common (first :: rest) mask) := by
  have hadj := (g.adjacent_ascending first).imp Nat.le_of_lt
  cases rest with
  | nil =>
    refine ⟨rfl, ?_, hclean⟩
    rw [intersect, Sorted.sift_eq .missing out hadj hmask, ← filter_adjacent_eq_common]
    simp
  | cons next rest =>
    refine ⟨rfl, ?_, hclean⟩
    have hkept : (Sorted.sift .missing (g.adjacent first) mask (space.kept.shrink 0)).toList =
        (g.adjacent first).filter (Sorted.Keep.missing.selects mask) := by
      rw [shrink_zero, Sorted.toList_sift .missing hadj hmask]
    rw [← filter_adjacent_eq_common, ← hkept]
    exact narrow_eq next rest _ _ _ (by rw [hkept]; exact hadj.filter _)

theorem narrow_appends (g : Graph) (next : Nat) (rest : List Nat) (kept spare out : Array Nat) :
    ∃ found : List Nat, found.Sublist kept.toList ∧
      (narrow g next rest kept spare out).2.2 = out ++ found := by
  fun_induction narrow g next rest kept spare out with
  | case1 next kept spare out => exact Sorted.sift_appends .common kept.toList (g.adjacent next) out
  | case2 next after rest kept spare out hempty => exact ⟨[], List.nil_sublist _, by simp⟩
  | case3 next after rest kept spare out hsome ih =>
    obtain ⟨found, hfound, happend⟩ := ih
    obtain ⟨left, hleft, hkept⟩ :=
      Sorted.sift_appends .common kept.toList (g.adjacent next) (spare.shrink 0)
    rw [hkept, shrink_zero, Array.toList_appendList, List.nil_append] at hfound
    exact ⟨found, hfound.trans hleft, happend⟩

/-- Sifting appends some neighbours of the first vertex, in their order, whatever the mask is. -/
theorem intersect_appends (g : Graph) (first : Nat) (rest mask : List Nat) (space : Workspace)
    (out : Array Nat) : ∃ found : List Nat, found.Pairwise (· < ·) ∧
      (intersect g first rest mask space out).buffer = out ++ found := by
  have hadj := g.adjacent_ascending first
  cases rest with
  | nil =>
    obtain ⟨found, hfound, happend⟩ := Sorted.sift_appends .missing (g.adjacent first) mask out
    exact ⟨found, hadj.sublist hfound, happend⟩
  | cons next rest =>
    obtain ⟨left, hleft, hkept⟩ :=
      Sorted.sift_appends .missing (g.adjacent first) mask (space.kept.shrink 0)
    obtain ⟨found, hfound, happend⟩ := narrow_appends g next rest
      (Sorted.sift .missing (g.adjacent first) mask (space.kept.shrink 0)) space.spare out
    rw [hkept, shrink_zero, Array.toList_appendList, List.nil_append] at hfound
    exact ⟨found, hadj.sublist (hfound.trans hleft), happend⟩

/-! ### Counting -/

/-- What the counting pass holds after it saw the vertices `done`, on a graph of `n` vertices. -/
structure Counted (n : Nat) (done : List Nat) (counted : Array Nat × Array UInt32) : Prop where
  size : counted.2.size = n
  hits : ∀ v, v < n → counted.2.getD v 0 = UInt32.ofNat (done.count v)
  noted : ∀ v, counted.2.getD v 0 ≠ 0 → v ∈ counted.1
  seen : ∀ v ∈ counted.1, v ∈ done
  /-- A vertex is noted once, as long as no counter has come round to zero. -/
  nodup : (∀ v, done.count v < UInt32.size) → counted.1.toList.Nodup

theorem counted_start (n : Nat) : Counted n [] (#[], Array.replicate n 0) where
  size := Array.size_replicate
  hits v hv := by simp [Array.getD_eq_getD_getElem?, hv]
  noted v h := by
    by_cases hv : v < n
    · simp [Array.getD_eq_getD_getElem?, hv] at h
    · simp [Array.getD_eq_getD_getElem?, hv] at h
  seen v h := by simp at h
  nodup _ := List.nodup_nil

theorem getD_modify (hits : Array UInt32) (f : UInt32 → UInt32) (v w : Nat) :
    (hits.modify v f).getD w 0 =
      if v = w ∧ w < hits.size then f (hits.getD w 0) else hits.getD w 0 := by
  rcases Nat.lt_or_ge w hits.size with hw | hw
  · by_cases hvw : v = w
    · simp [Array.getD_eq_getD_getElem?, hw, hvw, Array.getElem_modify]
    · simp [Array.getD_eq_getD_getElem?, hw, hvw, Array.getElem_modify]
  · simp [Array.getD_eq_getD_getElem?, Nat.not_lt.mpr hw]

theorem getD_strike (seen : Array Nat) (hits : Array UInt32) (v w : Nat) :
    (strike (seen, hits) v).2.getD w 0 =
      if v = w ∧ w < hits.size then hits.getD w 0 + 1 else hits.getD w 0 := by
  rw [strike, getD_modify]

theorem mem_strike {seen : Array Nat} {hits : Array UInt32} {v w : Nat} :
    w ∈ (strike (seen, hits) v).1 ↔ w ∈ seen ∨ hits.getD v 0 = 0 ∧ w = v := by
  simp only [strike]
  by_cases hzero : hits.getD v 0 = 0
  · simp only [hzero, if_true, Array.mem_push, true_and]
  · simp only [hzero, if_false, false_and, or_false]

/-- A counter that has not come round to zero is zero for the vertices that were not seen only. -/
theorem Counted.not_mem_of_zero {n v : Nat} {done : List Nat} {counted : Array Nat × Array UInt32}
    (h : Counted n done counted) (hv : v < n) (hcount : done.count v < UInt32.size)
    (hzero : counted.2.getD v 0 = 0) : v ∉ done := by
  rw [h.hits v hv] at hzero
  have hnone := congrArg UInt32.toNat hzero
  rw [UInt32.toNat_ofNat_of_lt' hcount] at hnone
  exact List.count_eq_zero.mp hnone

theorem Counted.strike {n v : Nat} {done : List Nat} {counted : Array Nat × Array UInt32}
    (h : Counted n done counted) (hv : v < n) : Counted n (done ++ [v]) (strike counted v) := by
  obtain ⟨seen, hits⟩ := counted
  refine ⟨?_, ?_, ?_, ?_, ?_⟩
  · simpa [Extender.strike] using h.size
  · intro w hw
    have hsize : hits.size = n := h.size
    have hbefore : hits.getD w 0 = UInt32.ofNat (done.count w) := h.hits w hw
    rw [getD_strike, hbefore, hsize, List.count_append, List.count_singleton]
    by_cases hvw : v = w
    · simp [hvw, hw]
    · simp [hvw]
  · intro w hw
    rw [mem_strike]
    by_cases hzero : hits.getD w 0 = 0
    · -- only the counter of `v` has changed
      rw [getD_strike] at hw
      split at hw
      · rename_i hvw
        obtain ⟨rfl, _⟩ := hvw
        exact Or.inr ⟨hzero, rfl⟩
      · exact absurd hzero hw
    · exact Or.inl (h.noted w hzero)
  · intro w hw
    rw [List.mem_append, List.mem_singleton]
    rcases mem_strike.mp hw with hw | ⟨_, hw⟩
    · exact Or.inl (h.seen w hw)
    · exact Or.inr hw
  · intro hbound
    have hdone : ∀ w, done.count w < UInt32.size := by
      intro w
      have := hbound w
      rw [List.count_append] at this
      omega
    have hbefore : seen.toList.Nodup := h.nodup hdone
    simp only [Extender.strike]
    by_cases hzero : hits.getD v 0 = 0
    · have hnot : v ∉ seen := fun hmem => h.not_mem_of_zero hv (hdone v) hzero (h.seen v hmem)
      rw [if_pos hzero, Array.toList_push, ← List.concat_eq_append, List.nodup_concat]
      exact ⟨fun hmem => hnot (Array.mem_toList_iff.mp hmem), hbefore⟩
    · rw [if_neg hzero]
      exact hbefore

theorem Counted.foldl {n : Nat} {done : List Nat} {counted : Array Nat × Array UInt32}
    (h : Counted n done counted) {vs : List Nat} (hvs : ∀ v ∈ vs, v < n) :
    Counted n (done ++ vs) (vs.foldl Extender.strike counted) := by
  induction vs generalizing done counted with
  | nil => simpa using h
  | cons v vs ih =>
    rw [List.foldl_cons, List.append_cons]
    exact ih (h.strike (hvs v List.mem_cons_self)) fun w hw => hvs w (List.mem_cons_of_mem _ hw)

/-! ### Taking what was counted in full -/

theorem getD_setIfInBounds_zero (hits : Array UInt32) (v w : Nat) :
    (hits.setIfInBounds v 0).getD w 0 = if v = w then 0 else hits.getD w 0 := by
  by_cases hvw : v = w
  · subst hvw
    by_cases hv : v < hits.size
    · simp [Array.getD_eq_getD_getElem?, hv]
    · simp [Array.getD_eq_getD_getElem?, hv]
  · simp [Array.getD_eq_getD_getElem?, hvw]

/-- What is left after the counters of the vertices `vs` were read and reset, of which those counted
`need` times were added to `kept`. -/
structure Gathered (need : UInt32) (vs : List Nat) (kept : Array Nat) (hits : Array UInt32)
    (gathered : Array Nat × Array UInt32) : Prop where
  size : gathered.2.size = hits.size
  counters : ∀ v, gathered.2.getD v 0 = if v ∈ vs then 0 else hits.getD v 0
  taken : ∀ v ∈ gathered.1, v ∈ kept ∨ v ∈ vs
  exact : vs.Nodup → gathered.1 = kept ++ vs.filter fun v => decide (hits.getD v 0 = need)
  /-- A vertex is taken once, for its counter is zero from then on. -/
  nodup : need ≠ 0 → kept.toList.Nodup → (∀ v ∈ kept, hits.getD v 0 ≠ need) → gathered.1.toList.Nodup

theorem mem_gather {need : UInt32} {kept : Array Nat} {hits : Array UInt32} {v w : Nat} :
    w ∈ (gather need (kept, hits) v).1 ↔ w ∈ kept ∨ hits.getD v 0 = need ∧ w = v := by
  simp only [gather]
  by_cases hneed : hits.getD v 0 = need
  · simp only [hneed, if_true, Array.mem_push, true_and]
  · simp only [hneed, if_false, false_and, or_false]

theorem gathered_foldl (need : UInt32) (vs : List Nat) (kept : Array Nat) (hits : Array UInt32) :
    Gathered need vs kept hits (vs.foldl (gather need) (kept, hits)) := by
  induction vs generalizing kept hits with
  | nil => exact ⟨rfl, by simp, fun _ => .inl, by simp, fun _ hkept _ => hkept⟩
  | cons v vs ih =>
    rw [List.foldl_cons]
    obtain ⟨hsize, hhits, htaken, hexact, hnodup⟩ : Gathered need vs (gather need (kept, hits) v).1
        (hits.setIfInBounds v 0) (vs.foldl (gather need) (gather need (kept, hits) v)) := ih _ _
    refine ⟨?_, ?_, ?_, ?_, ?_⟩
    · rw [hsize, Array.size_setIfInBounds]
    · intro w
      rw [hhits, getD_setIfInBounds_zero]
      by_cases hvw : v = w
      · simp [hvw]
      · simp [hvw, Ne.symm hvw]
    · intro w hw
      rw [List.mem_cons]
      rcases htaken w hw with hw | hw
      · rcases mem_gather.mp hw with hw | ⟨_, hw⟩
        · exact Or.inl hw
        · exact Or.inr (Or.inl hw)
      · exact Or.inr (Or.inr hw)
    · intro hnodup
      obtain ⟨hnot, htail⟩ := List.nodup_cons.mp hnodup
      have hsame : (vs.filter fun w => decide ((hits.setIfInBounds v 0).getD w 0 = need)) =
          vs.filter fun w => decide (hits.getD w 0 = need) := by
        apply List.filter_congr
        intro w hw
        have hvw : v ≠ w := fun h => hnot (h ▸ hw)
        rw [getD_setIfInBounds_zero, if_neg hvw]
      rw [hexact htail, hsame, List.filter_cons, gather]
      by_cases hneed : hits.getD v 0 = need
      · rw [if_pos hneed, if_pos (decide_eq_true hneed)]
        apply Array.ext'
        simp
      · rw [if_neg hneed, if_neg (by rwa [decide_eq_true_iff])]
    · intro hneed hkept hspent
      apply hnodup hneed
      · simp only [gather]
        by_cases hfull : hits.getD v 0 = need
        · have hnot : v ∉ kept := fun hmem => hspent v hmem hfull
          rw [if_pos hfull, Array.toList_push, ← List.concat_eq_append, List.nodup_concat]
          exact ⟨fun hmem => hnot (Array.mem_toList_iff.mp hmem), hkept⟩
        · rw [if_neg hfull]
          exact hkept
      · intro w hw
        rw [getD_setIfInBounds_zero]
        split
        · exact hneed.symm
        · rename_i hvw
          rcases mem_gather.mp hw with hw | ⟨_, hw⟩
          · exact hspent w hw
          · exact absurd hw.symm hvw

/-! ### The two passes together -/

theorem count_flatMap_adjacent (g : Graph) (sources : List Nat) (v : Nat) :
    (sources.flatMap g.adjacent).count v =
      sources.countP fun u => (g.adjacent u).contains v := by
  induction sources with
  | nil => rfl
  | cons u sources ih =>
    have hnodup : (g.adjacent u).Nodup := (g.adjacent_ascending u).imp Nat.ne_of_lt
    rw [List.flatMap_cons, List.count_append, ih, List.countP_cons, hnodup.count, Nat.add_comm]
    simp

theorem count_flatMap_adjacent_le (g : Graph) (sources : List Nat) (v : Nat) :
    (sources.flatMap g.adjacent).count v ≤ sources.length := by
  rw [count_flatMap_adjacent]
  exact List.countP_le_length

theorem lt_order_of_mem_flatMap {sources : List Nat} {v : Nat}
    (h : v ∈ sources.flatMap g.adjacent) : v < g.order := by
  obtain ⟨u, _, hadj⟩ := List.mem_flatMap.mp h
  exact Graph.lt_order_of_mem_adjacent hadj

/-- Fewer than `2 ^ 32` lists are counted exactly. -/
theorem ofNat_count_eq_fullCount {n lists : Nat} (hn : n ≤ lists) (hlists : lists < UInt32.size) :
    UInt32.ofNat n = fullCount lists ↔ n = lists := by
  have hmin : min lists (UInt32.size - 1) = lists := by omega
  rw [fullCount, hmin]
  refine ⟨?_, ?_⟩
  · intro h
    have := congrArg UInt32.toNat h
    rwa [UInt32.toNat_ofNat_of_lt' (by omega), UInt32.toNat_ofNat_of_lt' hlists] at this
  · exact congrArg UInt32.ofNat

/-- A vertex of all lists was counted, also where counters stop being exact. -/
theorem fullCount_ne_zero {lists : Nat} (h : lists ≠ 0) : fullCount lists ≠ 0 := by
  intro hzero
  have hnone := congrArg UInt32.toNat hzero
  rw [fullCount, UInt32.toNat_ofNat_of_lt' (by simp only [UInt32.size]; omega)] at hnone
  simp only [UInt32.size] at hnone
  have hmin : min lists (4294967296 - 1) ≠ 0 := by omega
  exact hmin hnone

/-- The counters with which the counting pass starts are zero, whichever graph they served before. -/
theorem startingHits_eq {space : Workspace} (hclean : space.Clean) (n : Nat) :
    (if space.hits.size = n then space.hits else Array.replicate n 0) = Array.replicate n 0 := by
  split
  · rename_i hsize
    rw [hclean, hsize]
  · rfl

/-- The counting pass over the lists of all `sources`. -/
theorem counted_sources (g : Graph) (sources : List Nat) :
    Counted g.order (sources.flatMap g.adjacent)
      (sources.foldl (fun counted u => (g.adjacent u).foldl strike counted)
        (#[], Array.replicate g.order 0)) := by
  rw [← List.foldl_flatMap]
  exact (counted_start g.order).foldl fun v hv => lt_order_of_mem_flatMap hv

/-- A vertex is counted in full when all lists hold it. -/
theorem count_eq_length_iff {sources : List Nat} {v : Nat} :
    (sources.flatMap g.adjacent).count v = sources.length ↔ ∀ u ∈ sources, v ∈ g.adjacent u := by
  rw [count_flatMap_adjacent, List.countP_eq_length]
  simp

/-- Of fewer than `2 ^ 32` lists, the vertices noted and counted in full are those that all lists hold. -/
theorem Counted.full_iff {sources : List Nat} {counted : Array Nat × Array UInt32}
    (h : Counted g.order (sources.flatMap g.adjacent) counted) (hne : sources ≠ [])
    (hshort : sources.length < UInt32.size) {v : Nat} :
    v ∈ counted.1 ∧ counted.2.getD v 0 = fullCount sources.length ↔
      ∀ u ∈ sources, v ∈ g.adjacent u := by
  have hcount := count_flatMap_adjacent_le g sources v
  have hexact : v < g.order →
      (counted.2.getD v 0 = fullCount sources.length ↔ ∀ u ∈ sources, v ∈ g.adjacent u) := by
    intro hv
    rw [h.hits v hv, ofNat_count_eq_fullCount hcount hshort, count_eq_length_iff]
  refine ⟨?_, ?_⟩
  · intro h'
    obtain ⟨hmem, hfull⟩ := h'
    exact (hexact (lt_order_of_mem_flatMap (h.seen v hmem))).mp hfull
  · intro hall
    obtain ⟨u, hu⟩ := List.exists_mem_of_ne_nil sources hne
    have hfull := (hexact (Graph.lt_order_of_mem_adjacent (hall u hu))).mpr hall
    refine ⟨h.noted v ?_, hfull⟩
    intro hzero
    -- a counter that is zero and full would have counted no list at all
    rw [hzero] at hfull
    have hlength := (ofNat_count_eq_fullCount (Nat.zero_le _) hshort).mp hfull
    exact hne (List.length_eq_zero_iff.mp hlength.symm)

/-- Once the counters read were reset, all of them are zero. -/
theorem clean_of_gathered {n : Nat} {done : List Nat} {counted gathered : Array Nat × Array UInt32}
    {need : UInt32} (hcounted : Counted n done counted)
    (hgathered : Gathered need counted.1.toList #[] counted.2 gathered)
    (held kept spare seen : Array Nat) :
    Workspace.Clean ⟨held, kept, spare, seen, gathered.2⟩ := by
  apply Array.ext
  · simp
  · intro v hv _
    simp only [Array.getElem_replicate]
    have hzero := hgathered.counters v
    rw [Array.getD_eq_getD_getElem?, Array.getElem?_eq_getElem hv, Option.getD_some] at hzero
    rw [hzero]
    split
    · rfl
    · rename_i hnot
      by_contra hne
      exact hnot (Array.mem_toList_iff.mpr (hcounted.noted v hne))

/-- Counting leaves clean counters behind, however many lists there are and whatever the mask. -/
theorem clean_tally (g : Graph) (sources mask : List Nat) {space : Workspace} (hclean : space.Clean)
    (out : Array Nat) : (tally g sources mask space out).state.Clean := by
  obtain ⟨held, kept, spare, seen, hits⟩ := space
  simp only [tally, startingHits_eq hclean, shrink_zero]
  exact clean_of_gathered (counted_sources g sources) (gathered_foldl _ _ _ _) _ _ _ _

/-- What was counted in full, sorted and without the mask, is the list that both methods look for. -/
theorem filter_gathered_eq_common {sources : List Nat} {counted gathered : Array Nat × Array UInt32}
    (hcounted : Counted g.order (sources.flatMap g.adjacent) counted)
    (hgathered : Gathered (fullCount sources.length) counted.1.toList #[] counted.2 gathered)
    (hne : sources ≠ []) (hshort : sources.length < UInt32.size) :
    (Sorted.sort gathered.1.toList).filter (Sorted.Keep.missing.selects mask) =
      g.common sources mask := by
  have hnodup : counted.1.toList.Nodup :=
    hcounted.nodup fun v => Nat.lt_of_le_of_lt (count_flatMap_adjacent_le g sources v) hshort
  have hlist : gathered.1.toList =
      counted.1.toList.filter fun v => counted.2.getD v 0 = fullCount sources.length := by
    rw [hgathered.exact hnodup]
    simp
  apply Sorted.eq_of_mem_iff
  · apply (Sorted.sort_ascending_of_nodup ?_).filter
    rw [hlist]
    exact hnodup.filter _
  · exact g.common_ascending _ _
  · intro v
    rw [Graph.mem_common_iff hne, List.mem_filter, Sorted.mem_sort, hlist, List.mem_filter,
      Array.mem_toList_iff, decide_eq_true_iff, hcounted.full_iff hne hshort]
    simp [Sorted.Keep.selects]

theorem tally_adds {sources : List Nat} (hne : sources ≠ []) (hmask : mask.Pairwise (· ≤ ·))
    {space : Workspace} (hclean : space.Clean) (out : Array Nat) :
    ∃ found, (tally g sources mask space out).Adds Workspace.Clean out found ∧
      (∀ v ∈ found, v < g.order) ∧ (sources.length < UInt32.size → found = g.common sources mask) := by
  have hstate := clean_tally g sources mask hclean out
  obtain ⟨held, kept, spare, seen, hits⟩ := space
  generalize hcountedEq : sources.foldl (fun counted u => (g.adjacent u).foldl strike counted)
    (#[], Array.replicate g.order 0) = counted
  generalize hgatheredEq : counted.1.toList.foldl (gather (fullCount sources.length))
    (#[], counted.2) = gathered
  have htally : tally g sources mask ⟨held, kept, spare, seen, hits⟩ out =
      ⟨.ok (), ⟨held, gathered.1, spare, counted.1, gathered.2⟩,
        Sorted.sift .missing (Sorted.sort gathered.1.toList) mask out⟩ := by
    simp only [tally, startingHits_eq hclean, shrink_zero, hcountedEq, hgatheredEq]
  have hcounted : Counted g.order (sources.flatMap g.adjacent) counted :=
    hcountedEq ▸ counted_sources g sources
  have hgathered : Gathered (fullCount sources.length) counted.1.toList #[] counted.2 gathered :=
    hgatheredEq ▸ gathered_foldl _ _ _ _
  have htaken : ∀ v ∈ gathered.1, v ∈ sources.flatMap g.adjacent := by
    intro v hv
    rcases hgathered.taken v hv with hv | hv
    · simp at hv
    · exact hcounted.seen v (Array.mem_toList_iff.mp hv)
  rw [htally] at hstate ⊢
  refine ⟨(Sorted.sort gathered.1.toList).filter (Sorted.Keep.missing.selects mask), ⟨rfl, ?_, hstate⟩,
    ?_, ?_⟩
  · exact Sorted.sift_eq .missing out (Sorted.sort_ascending _) hmask
  · intro v hv
    have hmem := Sorted.mem_sort.mp (List.mem_filter.mp hv).1
    exact lt_order_of_mem_flatMap (htaken v (Array.mem_toList_iff.mp hmem))
  · intro hshort
    exact filter_gathered_eq_common hcounted hgathered hne hshort

/-- Counting appends vertices in ascending order, also where counters may come round to zero and whatever
they hold at first. -/
theorem tally_appends {sources : List Nat} (hne : sources ≠ []) (g : Graph) (mask : List Nat)
    (space : Workspace) (out : Array Nat) : ∃ found : List Nat, found.Pairwise (· < ·) ∧
      (tally g sources mask space out).buffer = out ++ found := by
  obtain ⟨held, kept, spare, seen, hits⟩ := space
  generalize hcounted : sources.foldl (fun counted u => (g.adjacent u).foldl strike counted)
    (#[], if hits.size = g.order then hits else Array.replicate g.order 0) = counted
  have hneed : fullCount sources.length ≠ 0 :=
    fullCount_ne_zero fun hnone => hne (List.length_eq_zero_iff.mp hnone)
  have hnodup := (gathered_foldl (fullCount sources.length) counted.1.toList #[] counted.2).nodup
    hneed List.nodup_nil (by simp)
  obtain ⟨found, hfound, happend⟩ := Sorted.sift_appends .missing
    (Sorted.sort (counted.1.toList.foldl (gather (fullCount sources.length)) (#[], counted.2)).1.toList)
    mask out
  refine ⟨found, (Sorted.sort_ascending_of_nodup hnodup).sublist hfound, ?_⟩
  simp only [tally, shrink_zero, hcounted]
  exact happend

end Extender

end Motif
