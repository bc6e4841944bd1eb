import Mathlib.Data.List.Range
import Motif.Proofs.Exact
import Motif.Proofs.Rounds

/-!
# The records of a search

Each round of a search leaves a record: the position it bound, the walks it started from and the
candidates it found. Walks stand for partial matches, so the records say how many partial matches of each
length there are (`reached`), from the length the search starts with up to the first length that none
has, or up to the size of the pattern. `Trail` is this list, and every run leaves it, whether the
search lists or counts (`Rounds.trail`). The peak of a profile is the largest number in it.
-/

namespace Motif

/-- The number of partial matches of `k` positions that rows grow into, counted row by row. The rows a
search starts from are partial matches themselves, so only the positions after them ask for anything. -/
def reached (g : Graph) (p : Pattern) (reuse : Reuse) (rows : List (List Nat)) (k : Nat) : Nat :=
  (rows.flatMap (partials g p reuse k)).length

/-- The records of rounds that bind the positions from `first` to before `last`, where `count k` says how
many partial matches of `k` positions there are. Rounds go on until there are none, or until all `size`
positions are bound. -/
structure Trail (count : Nat → Nat) (first size last : Nat) (levels : List Level) : Prop where
  ordered : first ≤ last
  within : last ≤ size
  alive : ∀ k, first < k → k < last → count k ≠ 0
  stopped : last = size ∨ first < last ∧ count last = 0
  levels_eq : levels =
    (List.range' first (last - first)).map fun k => Level.untimed k (count k) (count (k + 1))

/-- The profile has the records of such rounds, and its peak is the largest number that occurs in them,
or zero where there are none. -/
def Profile.Traces (profile : Profile) (count : Nat → Nat) (first size : Nat) : Prop :=
  ∃ last, Trail count first size last profile.levels ∧ (first = last → profile.peak = 0) ∧
    (first < last → IsGreatest {n | ∃ k, first ≤ k ∧ k ≤ last ∧ n = count k} profile.peak)

/-- The profile of a search from the given rows, which are all of one length. Without rows there are no
rounds. -/
def Profile.TracesFrom (profile : Profile) (g : Graph) (p : Pattern) (reuse : Reuse)
    (rows : List (List Nat)) : Prop :=
  (rows = [] → profile.levels = [] ∧ profile.peak = 0) ∧
    (rows ≠ [] → ∃ arity, (∀ row ∈ rows, row.length = arity) ∧
      profile.Traces (reached g p reuse rows) arity p.size)

variable {count : Nat → Nat} {first size last position : Nat} {levels : List Level}

/-! ### Trails and their peaks -/

theorem Trail.nil (count : Nat → Nat) (size : Nat) : Trail count size size size [] where
  ordered := Nat.le_refl size
  within := Nat.le_refl size
  alive := by omega
  stopped := Or.inl rfl
  levels_eq := by rw [Nat.sub_self]; rfl

theorem Trail.single (hlt : position < size)
    (hstop : position + 1 = size ∨ count (position + 1) = 0) : Trail count position size (position + 1)
      [Level.untimed position (count position) (count (position + 1))] where
  ordered := Nat.le_succ position
  within := hlt
  alive := by omega
  stopped := hstop.imp_right fun h => ⟨Nat.lt_succ_self position, h⟩
  levels_eq := by rw [Nat.add_sub_cancel_left]; rfl

theorem Trail.cons (h : Trail count (position + 1) size last levels) (hsome : count (position + 1) ≠ 0) :
    Trail count position size last
      (Level.untimed position (count position) (count (position + 1)) :: levels) where
  ordered := Nat.le_of_succ_le h.ordered
  within := h.within
  alive k hfirst hlast := by
    rcases Nat.eq_or_lt_of_le (Nat.succ_le_of_lt hfirst) with rfl | hfirst
    · exact hsome
    · exact h.alive k hfirst hlast
  stopped := h.stopped.imp_right fun hstop => ⟨Nat.lt_of_succ_lt hstop.1, hstop.2⟩
  levels_eq := by
    have hleft : last - position = last - (position + 1) + 1 := by
      have := h.ordered
      omega
    rw [hleft, List.range'_succ, List.map_cons, h.levels_eq]

theorem Trail.isGreatest_peak {profile : Profile} (h : Trail count first size last profile.levels)
    (hlt : first < last) :
    IsGreatest {n | ∃ k, first ≤ k ∧ k ≤ last ∧ n = count k} profile.peak := by
  have hpeak : profile.peak = ((List.range' first (last - first)).map
      fun k => max (count k) (count (k + 1))).foldl max 0 := by
    rw [Profile.peak, h.levels_eq, List.map_map]
    rfl
  obtain ⟨hmem, hupper⟩ := Sorted.isGreatest_foldl_max 0 ((List.range' first (last - first)).map
      fun k => max (count k) (count (k + 1)))
  rw [← hpeak] at hmem hupper
  -- A number of the trail occurs in the record of its position, the last one in the record before.
  have hrecord : ∀ k, first ≤ k → k < last → max (count k) (count (k + 1)) ≤ profile.peak := by
    intro k hfirst hlast
    have hrange : k ∈ List.range' first (last - first) := List.mem_range'_1.mpr (by omega)
    exact hupper (List.mem_cons_of_mem _ (List.mem_map_of_mem hrange))
  refine ⟨?_, ?_⟩
  · rcases List.mem_cons.mp hmem with hzero | hmem
    · have hle := (Nat.le_max_left _ _).trans (hrecord first (Nat.le_refl first) hlt)
      exact ⟨first, Nat.le_refl first, Nat.le_of_lt hlt, by omega⟩
    · obtain ⟨k, hk, hmax⟩ := List.mem_map.mp hmem
      have hk := List.mem_range'_1.mp hk
      rcases max_choice (count k) (count (k + 1)) with h | h
      · exact ⟨k, hk.1, by omega, hmax.symm.trans h⟩
      · exact ⟨k + 1, by omega, by omega, hmax.symm.trans h⟩
  · intro n hn
    obtain ⟨k, hfirst, hlast, rfl⟩ := hn
    rcases Nat.lt_or_eq_of_le hlast with hlast | rfl
    · exact (Nat.le_max_left _ _).trans (hrecord k hfirst hlast)
    · have hle := hrecord (k - 1) (by omega) (by omega)
      rw [Nat.sub_add_cancel (by omega)] at hle
      exact (Nat.le_max_right _ _).trans hle

theorem Trail.traces {profile : Profile} (h : Trail count first size last profile.levels) :
    profile.Traces count first size := by
  refine ⟨last, h, fun heq => ?_, h.isGreatest_peak⟩
  have hnone : profile.levels = [] := by
    rw [h.levels_eq, heq, Nat.sub_self]
    rfl
  rw [Profile.peak, hnone]
  rfl

namespace Search

variable {s : Search} {q : Query} {g : Graph} {p : Pattern} {walks : Walks} {outcome : Outcome}
  {target rows lists : List (List Nat)}

/-! ### Rounds and their records -/

/-- The walks hold all partial matches of `position` positions that the rows grow into. -/
structure Grown (s : Search) (q : Query) (target rows : List (List Nat)) (position : Nat)
    (walks : Walks) : Prop where
  stands : Stands q s.settings.reuse target position walks
    (rows.flatMap (partials q.graph q.pattern s.settings.reuse position))
  short : ∀ row ∈ rows, row.length ≤ position

/-- A round records how many partial matches of its length there are, and how many of the next. -/
theorem Grown.bindNext (hgrown : Grown s q target rows position walks) (hnarrow : q.pattern.Narrow)
    (hlt : position < q.pattern.size) {record : Level} {advance : Advance}
    (h : s.bindNext q position walks = .ok (record, advance)) :
    record = Level.untimed position (reached q.graph q.pattern s.settings.reuse rows position)
        (reached q.graph q.pattern s.settings.reuse rows (position + 1)) ∧
      (∀ outcome, advance = .ended outcome → position + 1 = q.pattern.size ∨
        reached q.graph q.pattern s.settings.reuse rows (position + 1) = 0) ∧
      ∀ longer, advance = .grown longer →
        reached q.graph q.pattern s.settings.reuse rows (position + 1) ≠ 0 ∧
          Grown s q target rows (position + 1) longer := by
  obtain ⟨hstands, hshort⟩ := hgrown
  obtain ⟨lists, hlists, hrecord, hadvance⟩ := of_bindNext hstands hlt h
  have hnext : extendEach (rows.flatMap (partials q.graph q.pattern s.settings.reuse position)) lists =
      rows.flatMap (partials q.graph q.pattern s.settings.reuse (position + 1)) := by
    rw [extendEach_eq_flatMap hnarrow hlists hstands.holds.length (hstands.isMatch hnarrow),
      List.flatMap_assoc]
    exact List.flatMap_congr fun row hrow =>
      (partials_eq_flatMap (hshort row hrow) (Nat.le_succ position)).symm
  have hfound : lists.flatten.length =
      reached q.graph q.pattern s.settings.reuse rows (position + 1) := by
    rw [← length_extendEach hlists.length_eq, hnext, reached]
  rw [← hfound]
  refine ⟨hrecord, ?_, ?_⟩
  · rintro outcome rfl
    cases hadvance with
    | nothing hnone => exact .inr (List.length_eq_zero_iff.mpr hnone)
    | number _ _ hlast => exact .inl hlast
  · rintro longer rfl
    cases hadvance with
    | grown hsome _ hlonger =>
      have hlonger := stands_grown hstands hlt hlists hlonger
      rw [hnext] at hlonger
      exact ⟨fun hzero => hsome (List.length_eq_zero_iff.mp hzero), hlonger,
        fun row hrow => Nat.le_succ_of_le (hshort row hrow)⟩

theorem Rounds.trail (h : Rounds s q position walks outcome levels) (hnarrow : q.pattern.Narrow)
    (hgrown : Grown s q target rows position walks) :
    ∃ last, Trail (reached q.graph q.pattern s.settings.reuse rows) position q.pattern.size last
      levels := by
  induction h with
  | listed hle =>
    obtain rfl := Nat.le_antisymm hgrown.stands.within hle
    exact ⟨_, .nil _ _⟩
  | counted hle =>
    obtain rfl := Nat.le_antisymm hgrown.stands.within hle
    exact ⟨_, .nil _ _⟩
  | @ended position _ _ outcome hlt hnext =>
    obtain ⟨rfl, hstop, _⟩ := hgrown.bindNext hnarrow hlt hnext
    exact ⟨position + 1, .single hlt (hstop outcome rfl)⟩
  | @grown _ _ longer _ _ _ hlt hnext _ ih =>
    obtain ⟨rfl, _, hmore⟩ := hgrown.bindNext hnarrow hlt hnext
    obtain ⟨hsome, hlonger⟩ := hmore longer rfl
    obtain ⟨last, htrail⟩ := ih hlonger
    exact ⟨last, htrail.cons hsome⟩

theorem traces_of_run (hnarrow : q.pattern.Narrow)
    (hstands : Stands q s.settings.reuse target walks.arity walks rows)
    (hrun : s.run q (.binding walks.arity walks) = .ok (outcome, levels)) :
    (s.profile levels).Traces (reached q.graph q.pattern s.settings.reuse rows) walks.arity
      q.pattern.size := by
  have hself : rows.flatMap (partials q.graph q.pattern s.settings.reuse walks.arity) = rows := by
    rw [List.flatMap_congr fun row hrow => partials_of_length_eq (hstands.holds.length row hrow)
      (hstands.isMatch hnarrow row hrow), List.flatMap_singleton']
  have hgrown : Grown s q target rows walks.arity walks :=
    ⟨by rwa [hself], fun row hrow => Nat.le_of_eq (hstands.holds.length row hrow)⟩
  obtain ⟨last, htrail⟩ := (run_eq_ok.mp hrun).trail hnarrow hgrown
  exact htrail.traces

theorem traces_findExtending {m : Matches} (hnarrow : p.Narrow)
    (hstands : Stands ⟨g, p, .listing⟩ s.settings.reuse target walks.arity walks rows)
    (h : s.findExtending g p walks = .ok m) :
    m.profile.Traces (reached g p s.settings.reuse rows) walks.arity p.size := by
  obtain ⟨⟨outcome, levels⟩, hrun, h⟩ := bind_eq_ok.mp h
  obtain rfl := Except.ok.inj h
  exact traces_of_run hnarrow hstands hrun

theorem traces_countExtending {c : Tally} (hnarrow : p.Narrow)
    (hstands : Stands ⟨g, p, .number⟩ s.settings.reuse target walks.arity walks rows)
    (h : s.countExtending g p walks = .ok c) :
    c.profile.Traces (reached g p s.settings.reuse rows) walks.arity p.size := by
  obtain ⟨⟨outcome, levels⟩, hrun, h⟩ := bind_eq_ok.mp h
  obtain rfl := Except.ok.inj h
  exact traces_of_run hnarrow hstands hrun

/-- The records of a search count the partial matches of each length, for searches that list as for
searches that count, from all vertices or from seeds. -/
theorem levels_exact (s : Search) (g : Graph) (p : Pattern) (hnarrow : p.Narrow) :
    (∀ m, s.find g p = .ok m → m.profile.Traces
      (reached g p s.settings.reuse ((List.range g.order).map fun v => [v])) 1 p.size) ∧
    (∀ c, s.count g p = .ok c → c.profile.Traces
      (reached g p s.settings.reuse ((List.range g.order).map fun v => [v])) 1 p.size) ∧
    ∀ seeds,
      (∀ m, s.findFrom g p seeds = .ok m →
        m.profile.TracesFrom g p s.settings.reuse seeds.toLists) ∧
      ∀ c, s.countFrom g p seeds = .ok c →
        c.profile.TracesFrom g p s.settings.reuse seeds.toLists := by
  refine ⟨?_, ?_, fun seeds => ⟨?_, ?_⟩⟩
  · intro m h
    obtain ⟨walks, hwalks, h⟩ := bind_eq_ok.mp h
    have htraces := traces_findExtending hnarrow (stands_singles hwalks) h
    rwa [((Walks.yields_singles_holds g.order).of_ok hwalks).arity_eq] at htraces
  · intro c h
    obtain ⟨walks, hwalks, h⟩ := bind_eq_ok.mp h
    have htraces := traces_countExtending hnarrow (stands_singles hwalks) h
    rwa [((Walks.yields_singles_holds g.order).of_ok hwalks).arity_eq] at htraces
  · intro m h
    obtain ⟨start, hstart, h⟩ := bind_eq_ok.mp h
    cases start with
    | none =>
      obtain rfl := Except.ok.inj h
      exact ⟨fun _ => ⟨rfl, rfl⟩, fun hsome => absurd (of_seedWalks_none hstart) hsome⟩
    | some walks =>
      obtain ⟨hsome, hwalks, hcheck⟩ := of_seedWalks_some hstart
      have hstands : Stands ⟨g, p, .listing⟩ _ _ _ _ _ := stands_ofSeeds hwalks hcheck
      exact ⟨fun hnone => absurd hnone hsome,
        fun _ => ⟨walks.arity, hstands.holds.length, traces_findExtending hnarrow hstands h⟩⟩
  · intro c h
    obtain ⟨start, hstart, h⟩ := bind_eq_ok.mp h
    cases start with
    | none =>
      obtain rfl := Except.ok.inj h
      exact ⟨fun _ => ⟨rfl, rfl⟩, fun hsome => absurd (of_seedWalks_none hstart) hsome⟩
    | some walks =>
      obtain ⟨hsome, hwalks, hcheck⟩ := of_seedWalks_some hstart
      have hstands : Stands ⟨g, p, .number⟩ _ _ _ _ _ := stands_ofSeeds hwalks hcheck
      exact ⟨fun hnone => absurd hnone hsome,
        fun _ => ⟨walks.arity, hstands.holds.length, traces_countExtending hnarrow hstands h⟩⟩

theorem levels_exact_ladder : triangle.Narrow ∧ ∃ m c,
    (ofSettings ⟨3, .forbidden, .tally⟩ 1).find ladder triangle = .ok m ∧
      m.profile.Traces (reached ladder triangle .forbidden [[0], [1], [2], [3]]) 1 3 ∧
    (ofSettings ⟨3, .forbidden, .tally⟩ 1).countFrom ladder triangle ⟨#[0, 2, 4], #[0, 2, 0, 1]⟩
      = .ok c ∧ c.profile.TracesFrom ladder triangle .forbidden [[0, 2], [0, 1]] := by
  have hfind : ((ofSettings ⟨3, .forbidden, .tally⟩ 1).find ladder triangle).isOk = true := by
    decide +kernel
  have hcount : ((ofSettings ⟨3, .forbidden, .tally⟩ 1).countFrom ladder triangle
      ⟨#[0, 2, 4], #[0, 2, 0, 1]⟩).isOk = true := by
    decide +kernel
  obtain ⟨m, hm⟩ := exists_of_isOk hfind
  obtain ⟨c, hc⟩ := exists_of_isOk hcount
  have hnarrow : triangle.Narrow := by decide
  exact ⟨hnarrow, m, c, hm, (levels_exact _ ladder triangle hnarrow).1 m hm, hc,
    ((levels_exact _ ladder triangle hnarrow).2.2 _).2 c hc⟩

end Search

end Motif
