import Motif.Proofs.Fronts
import Motif.Proofs.Rounds
import Motif.Proofs.Seeds

/-!
# Searches in stages

A search can be cut in two at any position. The lists of the first `k` positions make a pattern of their
own, its matches are the partial matches of `k` positions, and these are seeds that a search for the whole
pattern accepts. It then finds what a search without seeds finds, in the same order
(`find_in_stages`).

That the matches of the first stage fit into a table of seeds is shown here as well. Each buffer that has
to be asked for is no larger than one that the first stage was given.
-/

namespace Motif

/-! ### Matches as seeds -/

namespace Rows

/-- Tuples of one length, one after another in a buffer, are cut into a table that can be held. -/
theorem exists_uniform {width : Nat} {values : Array Nat} {lists : List (List Nat)} (hwidth : 0 < width)
    (hlength : ∀ l ∈ lists, l.length = width) (hvalues : values.toList = lists.flatten)
    (hroom : Word.reserve values.size = .ok ()) (hrows : Word.reserve (lists.length + 1) = .ok ()) :
    ∃ seeds : Rows Nat, uniform width values = .ok seeds ∧ seeds.Held ∧ seeds.toLists = lists := by
  obtain rfl : values = lists.flatten.toArray := Array.ext' (by rw [hvalues, List.toList_toArray])
  have hsize : lists.flatten.toArray.size = lists.length * width := by
    rw [List.size_toArray, length_flatten_of_forall hlength]
  have hwf := wf_regular hsize
  refine ⟨_, uniform_eq_ok hwidth hsize hrows, ⟨hwf, hroom, ?_⟩, toLists_regular hlength⟩
  rw [hwf.offsets_size, count_regular]
  exact hrows

end Rows

namespace Search

variable {s : Search} {q : Query} {g : Graph} {p : Pattern} {position k : Nat} {walks : Walks}
  {target ts : List (List Nat)} {outcome : Outcome} {levels : List Level}

theorem room_of_readOut (hwalks : walks.Holds position ts) {values : Array Nat}
    (h : readOut walks = .ok values) : values.size < Word.shortageFrom := by
  have hvalues := (yields_readOut hwalks).of_ok h
  obtain ⟨cells, hcells, h⟩ := bind_eq_ok.mp h
  obtain rfl := (Word.yields_mulFor _ _ _).of_ok hcells
  obtain ⟨_, hroom, _⟩ := bind_eq_ok.mp h
  rw [← Array.length_toList, hvalues, length_flatten_of_forall hwalks.length, ← hwalks.count_eq,
    ← hwalks.arity_eq]
  exact Word.lt_of_reserve hroom

/-- The walks that a run reads out bind all positions. Their tuples ascend if those it started from do. -/
theorem Rounds.exists_last (h : Rounds s q position walks outcome levels)
    (hstands : Stands q s.settings.reuse target position walks ts) {values : Array Nat}
    (hvalues : outcome = .listing values) : ∃ (last : Walks) (found : List (List Nat)),
      Stands q s.settings.reuse target q.pattern.size last found ∧ readOut last = .ok values ∧
        (ts.Pairwise (· < ·) → found.Pairwise (· < ·)) := by
  induction h generalizing ts with
  | @listed position last _ hle _ hread =>
    obtain rfl := Outcome.listing.inj hvalues
    obtain rfl : position = q.pattern.size := Nat.le_antisymm hstands.within hle
    exact ⟨last, ts, hstands, hread, id⟩
  | counted => contradiction
  | ended hlt hnext =>
    obtain ⟨_, _, _, hadvance⟩ := of_bindNext hstands hlt hnext
    cases hadvance with
    | nothing => contradiction
    | number => contradiction
  | grown hlt hnext _ ih =>
    obtain ⟨lists, hlists, _, hadvance⟩ := of_bindNext hstands hlt hnext
    cases hadvance with
    | grown _ _ hlonger =>
      obtain ⟨last, found, hlast, hread, hascending⟩ :=
        ih (stands_grown hstands hlt hlists hlonger) hvalues
      refine ⟨last, found, hlast, hread, fun hts => hascending ?_⟩
      exact extendEach_ascending (hlists.imp fun _ _ hfound => hfound.ascending) hstands.holds.length hts

theorem room_of_findExtending {m : Matches}
    (hstands : Stands ⟨g, p, .listing⟩ s.settings.reuse target walks.arity walks ts)
    (h : s.findExtending g p walks = .ok m) : m.values.size < Word.shortageFrom := by
  obtain ⟨⟨outcome, levels⟩, hrun, h⟩ := bind_eq_ok.mp h
  obtain rfl := Except.ok.inj h
  cases outcome with
  | nothing => exact (by decide : 0 < Word.shortageFrom)
  | listing values =>
    obtain ⟨_, _, hlast, hread, _⟩ := (run_eq_ok.mp hrun).exists_last hstands rfl
    exact room_of_readOut hlast.holds hread
  | number count => exact (by decide : 0 < Word.shortageFrom)

theorem room_of_find {m : Matches} (h : s.find g p = .ok m) : m.values.size < Word.shortageFrom := by
  obtain ⟨walks, hwalks, h⟩ := bind_eq_ok.mp h
  exact room_of_findExtending (stands_singles hwalks) h

/-- A search that starts from every vertex has room for them. -/
theorem vertices_room_of_find {m : Matches} (h : s.find g p = .ok m) : Word.reserve (g.order + 1) = .ok () := by
  obtain ⟨walks, hwalks, _⟩ := bind_eq_ok.mp h
  obtain ⟨_, _, hwalks⟩ := bind_eq_ok.mp hwalks
  obtain ⟨rows, hrows, _⟩ := bind_eq_ok.mp hwalks
  have hroom := Rows.reserve_of_uniform Nat.one_pos hrows
  rwa [Array.size_range, Nat.div_one] at hroom

/-- There is room for a table with the matches of a search as its rows. With one position there are as
many matches as vertices, and with more the buffer they came in has at least two values for each. -/
theorem rows_room_of_find {m : Matches} (hnarrow : p.Narrow) (h : s.find g p = .ok m) :
    (allMatches g p s.settings.reuse).length + 1 < Word.shortageFrom := by
  rcases Nat.eq_or_lt_of_le p.size_pos with hone | hmore
  · have hsingle : partials g p s.settings.reuse (0 + 1) [] = _ := partials_succ rfl
    have hlength : (allMatches g p s.settings.reuse).length = g.order := by
      rw [← completions_nil, ← partials_size, ← hone, hsingle, follows_nil, List.length_map,
        List.length_range]
    rw [hlength]
    exact Word.lt_of_reserve (vertices_room_of_find h)
  · have hsize : m.values.size = (allMatches g p s.settings.reuse).length * p.size := by
      rw [← Array.length_toList, (values_find hnarrow h).2,
        length_flatten_of_forall fun t ht => (mem_allMatches.mp ht).1]
    have htwo := Nat.mul_le_mul_left (allMatches g p s.settings.reuse).length hmore
    have hroom := room_of_find h
    simp only [Word.shortageFrom] at hroom ⊢
    omega

/-! ### The second stage -/

theorem seedWalks_of_partials {seeds : Rows Nat} (hheld : seeds.Held) (hpos : 0 < k) (hle : k ≤ p.size)
    (hseeds : seeds.toLists = partials g p s.settings.reuse k []) :
    ∃ start, s.seedWalks g p seeds = .ok start := by
  cases hrows : seeds.toLists with
  | nil => exact ⟨none, seedWalks_of_nil hrows⟩
  | cons first rest =>
    have hmem : ∀ r ∈ first :: rest, r.length = k ∧ IsMatch g p s.settings.reuse r := by
      intro r hr
      rw [← hrows, hseeds] at hr
      exact ⟨(mem_partials.mp hr).1, (mem_partials.mp hr).2.1⟩
    have hfirst : first.length = k := (hmem first List.mem_cons_self).1
    obtain ⟨walks, _, _, hstart⟩ := seedWalks_of_admitted hheld hrows
      (List.length_pos_iff.mp (hfirst ▸ hpos)) (fun r hr => (hmem r hr).1.trans hfirst.symm)
      (hfirst ▸ hle) fun r hr => (hmem r hr).2
    exact ⟨some walks, hstart⟩

theorem yields_findFrom {seeds : Rows Nat} {start : Option Walks}
    (h : s.seedWalks g p seeds = .ok start) : Yields (s.findFrom g p seeds) fun _ => True := by
  rw [findFrom, h]
  cases start with
  | none => exact yields_pure trivial
  | some walks =>
    obtain ⟨_, hwalks, hcheck⟩ := of_seedWalks_some h
    exact yields_findExtending (leads_ofSeeds hwalks hcheck)

/-- The matches of the first `k` positions of a pattern are seeds that a search for all of it accepts, and
what they grow into is what a search without seeds finds. -/
theorem find_in_stages (s : Search) (g : Graph) (p : Pattern) (hnarrow : p.Narrow) {k : Nat}
    (hpos : 0 < k) (hle : k ≤ p.size) :
    ∃ front, Pattern.ofLists (p.required.take k) = .ok front ∧
      ∀ m, s.find g front = .ok m → ∃ seeds, Rows.uniform k m.values = .ok seeds ∧
        seeds.toLists = m.toList ∧ (∃ start, s.seedWalks g p seeds = .ok start) ∧
        (∀ stop, s.findFrom g p seeds = .error stop → stop.ForMemory) ∧
        ∀ found all, s.findFrom g p seeds = .ok found → s.find g p = .ok all →
          found.toList = all.toList ∧ (found == all) = true := by
  obtain ⟨front, hlists, hfront⟩ := p.exists_front hpos
  refine ⟨front, hlists, fun m hm => ?_⟩
  have hnarrow' : front.Narrow := fun l hl => hnarrow l (List.mem_of_mem_take (hfront ▸ hl))
  have hmatches : allMatches g front s.settings.reuse = partials g p s.settings.reuse k [] :=
    allMatches_front hfront hle
  have hlength : ∀ t ∈ partials g p s.settings.reuse k [], t.length = k :=
    fun t ht => (mem_partials.mp ht).1
  have hvalues := (values_find hnarrow' hm).2
  have hrows := rows_room_of_find hnarrow' hm
  rw [hmatches] at hvalues hrows
  obtain ⟨seeds, huniform, hheld, hseeds⟩ := Rows.exists_uniform hpos hlength hvalues
    (Word.reserve_of_lt (room_of_find hm)) (Word.reserve_of_lt hrows)
  obtain ⟨start, hstart⟩ := seedWalks_of_partials hheld hpos hle hseeds
  refine ⟨seeds, huniform, ?_, ⟨start, hstart⟩, fun stop => (yields_findFrom hstart).forMemory, ?_⟩
  · rw [hseeds, toList_find hnarrow' hm, hmatches]
  · intro found all hfound hall
    obtain ⟨harity, hvalues⟩ := values_findFrom hnarrow hfound
    obtain ⟨harity', hvalues'⟩ := values_find hnarrow hall
    have harity : found.arity = all.arity := harity.trans harity'.symm
    have hvalues : found.values = all.values := by
      apply Array.ext'
      rw [hvalues, hvalues', hseeds, flatMap_partials hle]
    refine ⟨by rw [Matches.toList, Matches.toList, Matches.count, Matches.count, harity, hvalues], ?_⟩
    show (found.arity == all.arity && found.values == all.values) = true
    rw [harity, hvalues, beq_self_eq_true, beq_self_eq_true]
    rfl

/-- One edge. -/
def edge : Pattern where
  required := [[], [0]]
  nonempty := List.cons_ne_nil _ _
  admissible i l h := by
    match i, h with
    | 0, h => cases h; exact ⟨by simp, by simp, by simp⟩
    | 1, h => cases h; exact ⟨by simp, by simp, by simp⟩

theorem find_in_stages_ladder :
    triangle.Narrow ∧ 2 ≤ triangle.size ∧ Pattern.ofLists (triangle.required.take 2) = .ok edge ∧
      ∃ m seeds found all, (ofSettings ⟨2, .forbidden, .tally⟩ 1).find ladder edge = .ok m ∧
        Rows.uniform 2 m.values = .ok seeds ∧ seeds.toLists = [[0, 1], [0, 2], [0, 3], [1, 3], [2, 3]] ∧
        (ofSettings ⟨2, .forbidden, .tally⟩ 1).findFrom ladder triangle seeds = .ok found ∧
        (ofSettings ⟨2, .forbidden, .tally⟩ 1).find ladder triangle = .ok all ∧
        found.toList = all.toList ∧ (found == all) = true := by
  have hnarrow : triangle.Narrow := by decide
  have hsize : 2 ≤ triangle.size := by decide
  have hedge : Pattern.ofLists (triangle.required.take 2) = .ok edge :=
    Pattern.ofLists_of_admissible edge.nonempty edge.admissible
  obtain ⟨front, hfront, hstages⟩ :=
    find_in_stages (ofSettings ⟨2, .forbidden, .tally⟩ 1) ladder triangle hnarrow (by decide) hsize
  obtain rfl := Except.ok.inj (hfront.symm.trans hedge)
  have hfirst : ((ofSettings ⟨2, .forbidden, .tally⟩ 1).find ladder edge).map Matches.values =
      .ok #[0, 1, 0, 2, 0, 3, 1, 3, 2, 3] := by
    decide +kernel
  obtain ⟨m, hm, hvalues⟩ : ∃ m, (ofSettings ⟨2, .forbidden, .tally⟩ 1).find ladder edge = .ok m ∧
      m.values = #[0, 1, 0, 2, 0, 3, 1, 3, 2, 3] := by
    cases hfind : (ofSettings ⟨2, .forbidden, .tally⟩ 1).find ladder edge with
    | error stop =>
      rw [hfind] at hfirst
      contradiction
    | ok m =>
      rw [hfind] at hfirst
      exact ⟨m, rfl, Except.ok.inj hfirst⟩
  obtain ⟨seeds, hseeds, _, _, _, hsame⟩ := hstages m hm
  have htable : Rows.uniform 2 m.values =
      .ok ⟨#[0, 2, 4, 6, 8, 10], #[0, 1, 0, 2, 0, 3, 1, 3, 2, 3]⟩ := by
    rw [hvalues]
    decide +kernel
  obtain rfl := Except.ok.inj (hseeds.symm.trans htable)
  have hsecond : ((ofSettings ⟨2, .forbidden, .tally⟩ 1).findFrom ladder triangle
      ⟨#[0, 2, 4, 6, 8, 10], #[0, 1, 0, 2, 0, 3, 1, 3, 2, 3]⟩).isOk = true := by
    decide +kernel
  have hwhole : ((ofSettings ⟨2, .forbidden, .tally⟩ 1).find ladder triangle).isOk = true := by
    decide +kernel
  obtain ⟨found, hfound⟩ := exists_of_isOk hsecond
  obtain ⟨all, hall⟩ := exists_of_isOk hwhole
  exact ⟨hnarrow, hsize, hedge, m, _, found, all, hm, hseeds, by decide, hfound, hall,
    hsame found all hfound hall⟩

end Search

end Motif
