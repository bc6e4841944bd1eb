import Motif.Proofs.Runs

/-!
# Searches find exactly the matches

The matches that a search returns are those of `allMatches`, in lexicographic order and each of them once
(`find_exact`). A search from seeds returns, seed by seed, the matches that the seed is the front part of
(`findFrom_exact`). Neither the workers nor the method occur in what is found. A search that only counts gives the
number of these matches (`count_count`).
-/

namespace Motif

theorem Matches.length_toList (m : Matches) : m.toList.length = m.count := by
  rw [toList, List.length_map, List.length_range]

/-- The tuples that a buffer holds, one after another. -/
theorem Matches.toList_of_flatten {m : Matches} {target : List (List Nat)} (hpos : 0 < m.arity)
    (hlength : ∀ t ∈ target, t.length = m.arity) (hvalues : m.values.toList = target.flatten) :
    m.toList = target := by
  have hsize : m.values.size = target.length * m.arity := by
    rw [← Array.length_toList, hvalues, length_flatten_of_forall hlength]
  have hcount : m.count = target.length := by
    rw [Matches.count, hsize, Nat.mul_div_cancel _ hpos]
  apply List.ext_getElem
  · rw [Matches.length_toList, hcount]
  · intro i hi hi'
    rw [← take_drop_flatten hlength hi', ← hvalues]
    simp [Matches.toList, Nat.succ_mul]

namespace Search

variable {s : Search} {g : Graph} {p : Pattern} {target : List (List Nat)}

/-- The buffer that a search leaves holds the matches it looked for. -/
theorem values_findExtending {walks : Walks} {m : Matches} (hnarrow : p.Narrow)
    (hstart : State.Leads ⟨g, p, .listing⟩ s.settings.reuse target (.binding walks.arity walks))
    (h : s.findExtending g p walks = .ok m) :
    m.arity = p.size ∧ m.values.toList = target.flatten := by
  obtain ⟨⟨outcome, levels⟩, hrun, h⟩ := bind_eq_ok.mp h
  have hreports := (yields_run hstart).of_ok hrun hnarrow
  obtain rfl := Except.ok.inj h
  refine ⟨rfl, ?_⟩
  cases outcome with
  | nothing =>
    obtain rfl : target = [] := hreports
    rfl
  | listing values => exact hreports.2
  | number count =>
    have := hreports.1
    contradiction

theorem values_find {m : Matches} (hnarrow : p.Narrow) (h : s.find g p = .ok m) :
    m.arity = p.size ∧ m.values.toList = (allMatches g p s.settings.reuse).flatten := by
  obtain ⟨walks, hwalks, h⟩ := bind_eq_ok.mp h
  exact values_findExtending hnarrow (leads_singles hwalks) h

theorem toList_find {m : Matches} (hnarrow : p.Narrow) (h : s.find g p = .ok m) :
    m.toList = allMatches g p s.settings.reuse := by
  obtain ⟨harity, hvalues⟩ := values_find hnarrow h
  refine Matches.toList_of_flatten (harity ▸ p.size_pos) (fun t ht => ?_) hvalues
  rw [harity]
  exact (mem_allMatches.mp ht).1

theorem count_find {m : Matches} (hnarrow : p.Narrow) (h : s.find g p = .ok m) :
    m.count = (allMatches g p s.settings.reuse).length := by
  rw [← toList_find hnarrow h, Matches.length_toList]

/-- What a search finds are the tuples that satisfy the pattern, in ascending order and each of them once, whatever
the number of workers and the method. -/
theorem find_exact (s : Search) (g : Graph) (p : Pattern) (hnarrow : p.Narrow) {m : Matches}
    (h : s.find g p = .ok m) :
    m.toList = allMatches g p s.settings.reuse ∧ m.toList.Pairwise (· < ·) ∧
      ∀ t, t ∈ m.toList ↔ t.length = p.size ∧ IsMatch g p s.settings.reuse t := by
  have hlist := toList_find hnarrow h
  refine ⟨hlist, ?_, fun t => ?_⟩
  · rw [hlist]
    exact allMatches_ascending _ _ _
  · rw [hlist]
    exact mem_allMatches

/-- Three positions, each with an edge from every earlier one. -/
def triangle : Pattern where
  required := [[], [0], [0, 1]]
  nonempty := List.cons_ne_nil _ _
  admissible i l h := by
    match i, h with
    | 0, h => cases h; exact ⟨by simp, by simp, by simp⟩
    | 1, h => cases h; exact ⟨by simp, by simp, by simp⟩
    | 2, h => cases h; exact ⟨by simp, by simp, by simp⟩

/-- Four vertices, each with an edge to every later one but from the second to the third. -/
def ladder : Graph := Graph.ofAscending [[1, 2, 3], [3], [3], []] (by decide) (by decide)

theorem find_exact_triangle : ∃ m,
    (ofSettings ⟨3, .forbidden, .tally⟩ 1).find ladder triangle = .ok m ∧
      m.toList = [[0, 1, 3], [0, 2, 3]] := by
  have hok : ((ofSettings ⟨3, .forbidden, .tally⟩ 1).find ladder triangle).isOk = true := by
    decide +kernel
  obtain ⟨m, hm⟩ := exists_of_isOk hok
  refine ⟨m, hm, ?_⟩
  rw [(find_exact _ ladder triangle (by decide) hm).1]
  decide +kernel

/-! ### Searches that count -/

/-- The number that a search leaves is that of the matches it looked for. -/
theorem count_countExtending {walks : Walks} {c : Tally} (hnarrow : p.Narrow)
    (hstart : State.Leads ⟨g, p, .number⟩ s.settings.reuse target (.binding walks.arity walks))
    (h : s.countExtending g p walks = .ok c) : c.count = target.length := by
  obtain ⟨⟨outcome, levels⟩, hrun, h⟩ := bind_eq_ok.mp h
  have hreports := (yields_run hstart).of_ok hrun hnarrow
  obtain rfl := Except.ok.inj h
  cases outcome with
  | nothing =>
    obtain rfl : target = [] := hreports
    rfl
  | listing values =>
    have := hreports.1
    contradiction
  | number count => exact hreports.2

theorem count_count {c : Tally} (hnarrow : p.Narrow) (h : s.count g p = .ok c) :
    c.count = (allMatches g p s.settings.reuse).length := by
  obtain ⟨walks, hwalks, h⟩ := bind_eq_ok.mp h
  exact count_countExtending hnarrow (leads_singles hwalks) h

/-! ### Searches from seeds -/

theorem of_seedWalks_none {seeds : Rows Nat} (h : s.seedWalks g p seeds = .ok none) :
    seeds.toLists = [] := by
  rw [seedWalks] at h
  split at h
  · rename_i hnone
    exact List.length_eq_zero_iff.mp (by rw [Rows.length_toLists, hnone])
  · obtain ⟨_, _, h⟩ := bind_eq_ok.mp h
    obtain ⟨_, _, h⟩ := bind_eq_ok.mp h
    cases h

theorem of_seedWalks_some {seeds : Rows Nat} {walks : Walks}
    (h : s.seedWalks g p seeds = .ok (some walks)) : seeds.toLists ≠ [] ∧
      Walks.ofSeeds seeds = .ok walks ∧ walks.check g p s.settings.reuse = .ok () := by
  rw [seedWalks] at h
  split at h
  · cases h
  · rename_i hsome
    obtain ⟨_, hwalks, h⟩ := bind_eq_ok.mp h
    obtain ⟨_, hcheck, h⟩ := bind_eq_ok.mp h
    obtain rfl := Option.some.inj (Except.ok.inj h)
    refine ⟨fun hnone => hsome ?_, hwalks, hcheck⟩
    rw [← Rows.length_toLists, hnone, List.length_nil]

theorem values_findFrom {seeds : Rows Nat} {m : Matches} (hnarrow : p.Narrow)
    (h : s.findFrom g p seeds = .ok m) : m.arity = p.size ∧
      m.values.toList = (seeds.toLists.flatMap (completions g p s.settings.reuse)).flatten := by
  obtain ⟨start, hstart, h⟩ := bind_eq_ok.mp h
  cases start with
  | none =>
    obtain rfl := Except.ok.inj h
    rw [of_seedWalks_none hstart]
    exact ⟨rfl, rfl⟩
  | some walks =>
    obtain ⟨_, hwalks, hcheck⟩ := of_seedWalks_some hstart
    exact values_findExtending hnarrow (leads_ofSeeds hwalks hcheck) h

theorem toList_findFrom {seeds : Rows Nat} {m : Matches} (hnarrow : p.Narrow)
    (h : s.findFrom g p seeds = .ok m) :
    m.toList = seeds.toLists.flatMap (completions g p s.settings.reuse) ∧
      ∀ row ∈ seeds.toLists, IsMatch g p s.settings.reuse row := by
  refine ⟨?_, ?_⟩
  · obtain ⟨harity, hvalues⟩ := values_findFrom hnarrow h
    refine Matches.toList_of_flatten (harity ▸ p.size_pos) (fun t ht => ?_) hvalues
    obtain ⟨row, _, ht⟩ := List.mem_flatMap.mp ht
    rw [harity]
    exact (mem_completions.mp ht).1
  · obtain ⟨start, hstart, _⟩ := bind_eq_ok.mp h
    cases start with
    | none =>
      rw [of_seedWalks_none hstart]
      simp
    | some walks =>
      obtain ⟨_, hwalks, hcheck⟩ := of_seedWalks_some hstart
      obtain ⟨htable, _, hlength, _⟩ := Walks.of_ofSeeds hwalks
      exact (Walks.isMatch_of_check htable hlength hcheck).2

/-- Seed by seed, and as often as a seed is given, the matches that begin with it are returned; these
are the matches of a search without seeds that begin with it. Seeds that bind every position are
returned as they are. -/
theorem findFrom_exact (s : Search) (g : Graph) (p : Pattern) (hnarrow : p.Narrow)
    {seeds : Rows Nat} {m : Matches} (h : s.findFrom g p seeds = .ok m) :
    m.toList = seeds.toLists.flatMap (completions g p s.settings.reuse) ∧
      (∀ row, (completions g p s.settings.reuse row).Pairwise (· < ·) ∧
        ∀ t, t ∈ completions g p s.settings.reuse row ↔
          t.length = p.size ∧ IsMatch g p s.settings.reuse t ∧ row <+: t) ∧
      (∀ all, s.find g p = .ok all → ∀ row, completions g p s.settings.reuse row =
        all.toList.filter fun t => row.isPrefixOf t) ∧
      ((∀ row ∈ seeds.toLists, row.length = p.size) → m.toList = seeds.toLists) := by
  obtain ⟨hlist, hmatch⟩ := toList_findFrom hnarrow h
  refine ⟨hlist, fun row => ⟨completions_ascending _ _ _ row, fun t => mem_completions⟩, ?_, ?_⟩
  · intro all hall row
    rw [completions, toList_find hnarrow hall]
  · intro hlength
    have hself : ∀ row ∈ seeds.toLists, completions g p s.settings.reuse row = [row] :=
      fun row hrow => completions_of_length_eq (hlength row hrow) (hmatch row hrow)
    rw [hlist, List.flatMap_congr hself, List.flatMap_singleton']

theorem findFrom_exact_triangle : ∃ m,
    (ofSettings ⟨2, .forbidden, .intersect⟩ 1).findFrom ladder triangle ⟨#[0, 2, 4], #[0, 2, 0, 1]⟩
      = .ok m ∧ m.toList = [[0, 2, 3], [0, 1, 3]] := by
  have hok : ((ofSettings ⟨2, .forbidden, .intersect⟩ 1).findFrom ladder triangle
      ⟨#[0, 2, 4], #[0, 2, 0, 1]⟩).isOk = true := by
    decide +kernel
  obtain ⟨m, hm⟩ := exists_of_isOk hok
  refine ⟨m, hm, ?_⟩
  rw [(findFrom_exact _ ladder triangle (by decide) hm).1]
  decide +kernel

end Search

end Motif
