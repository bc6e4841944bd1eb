import Mathlib.Data.Nat.Find
import Motif.Proofs.Matching
import Motif.Proofs.Yields

/-!
# What can be wrong with seeds

`SeedFault` says which refusal a list of rows deserves, in terms of the rows as they were given: first what
is wrong with their lengths, then with their vertices, then with one of them as a partial match
(`RowFault`). Rows without a fault are partial matches of one length (`admitted_of_not_seedFault`).

What is reported first is found by looking at things in order: rows as they come, vertices of a row
ascending, edges of a row by target and then by source. So most lemmas here speak of the first entry of an
ordered list that has a property, which is the least one (`find?_eq_some_of_least`).
-/

namespace Motif

/-! ### What can be wrong -/

/-- The row lacks the edge that position `target` requires from position `source`. -/
def Lacks (g : Graph) (p : Pattern) (row : List Nat) (source target : Nat) : Prop :=
  target < row.length ∧ source ∈ p.required.getD target [] ∧
    g.hasEdge (row.getD source 0) (row.getD target 0) ≠ .ok true

/-- What is reported of row `i`: the smallest vertex that it repeats, where that is forbidden, and of a row
without such vertices the first edge that it lacks. -/
inductive RowFault (g : Graph) (p : Pattern) (reuse : Reuse) (i : Nat) (row : List Nat) : Refusal → Prop
  | seedRepeat {v : Nat} (hreuse : reuse = .forbidden) (hv : 1 < row.count v)
      (hleast : ∀ u, 1 < row.count u → v ≤ u) : RowFault g p reuse i row (.seedRepeat i v)
  | seedEdge {source target : Nat} (hdistinct : reuse = .forbidden → row.Nodup)
      (hlacks : Lacks g p row source target)
      (hleast : ∀ source' target', Lacks g p row source' target' →
        target < target' ∨ target = target' ∧ source ≤ source') :
      RowFault g p reuse i row (.seedEdge i source target)

/-- What is reported of rows, of which `first` is the first. A fault of a kind that stands further up here
is reported before those below, and of one kind that of the first row. -/
inductive SeedFault (g : Graph) (p : Pattern) (reuse : Reuse) (first : List Nat) (rows : List (List Nat)) :
    Refusal → Prop
  | emptySeeds (hempty : first = []) : SeedFault g p reuse first rows (.mismatch .emptySeeds)
  | seedLength {before after : List (List Nat)} {row : List Nat} (hfirst : first ≠ [])
      (hrows : rows = before ++ row :: after) (hbefore : ∀ r ∈ before, r.length = first.length)
      (hrow : row.length ≠ first.length) :
      SeedFault g p reuse first rows (.mismatch (.seedLength before.length row.length first.length))
  | tooManyPositions (hfirst : first ≠ []) (hlength : ∀ r ∈ rows, r.length = first.length)
      (hsize : p.size < first.length) :
      SeedFault g p reuse first rows (.mismatch (.tooManyPositions first.length p.size))
  | vertexOutOfRange {before after : List (List Nat)} {row : List Nat} {v : Nat} (hfirst : first ≠ [])
      (hlength : ∀ r ∈ rows, r.length = first.length) (hsize : first.length ≤ p.size)
      (hrows : rows = before ++ row :: after) (hbefore : ∀ r ∈ before, ∀ u ∈ r, u < g.order)
      (hv : v ∈ row) (hout : g.order ≤ v) (hleast : ∀ u ∈ row, g.order ≤ u → v ≤ u) :
      SeedFault g p reuse first rows (.mismatch (.vertexOutOfRange v g.order))
  | row {before after : List (List Nat)} {row : List Nat} {cause : Refusal} (hfirst : first ≠ [])
      (hlength : ∀ r ∈ rows, r.length = first.length) (hsize : first.length ≤ p.size)
      (hvertices : ∀ r ∈ rows, ∀ u ∈ r, u < g.order) (hrows : rows = before ++ row :: after)
      (hbefore : ∀ r ∈ before, IsMatch g p reuse r) (hrow : RowFault g p reuse before.length row cause) :
      SeedFault g p reuse first rows cause

/-! ### The first of several -/

theorem find?_eq_some_of_least {α : Type} {le : α → α → Prop} [Std.Antisymm le] {l : List α}
    {test : α → Bool} {a : α} (hl : l.Pairwise le) (ha : a ∈ l) (htest : test a = true)
    (hleast : ∀ b ∈ l, test b = true → le a b) : l.find? test = some a := by
  induction l with
  | nil => contradiction
  | cons b l ih =>
    obtain ⟨hb, hl⟩ := List.pairwise_cons.mp hl
    by_cases htb : test b = true
    · rw [List.find?_cons_of_pos htb]
      rcases List.mem_cons.mp ha with rfl | ha
      · rfl
      · exact congrArg some (Std.Antisymm.antisymm _ _ (hb a ha) (hleast b List.mem_cons_self htb))
    · rw [List.find?_cons_of_neg htb]
      rcases List.mem_cons.mp ha with rfl | ha
      · contradiction
      · exact ih hl ha fun c hc => hleast c (List.mem_cons_of_mem _ hc)

theorem exists_least {holds : Nat → Prop} (h : ∃ n, holds n) :
    ∃ n, holds n ∧ ∀ m, holds m → n ≤ m := by
  classical
  exact ⟨Nat.find h, Nat.find_spec h, fun m hm => Nat.find_min' h hm⟩

/-! ### Vertices that repeat -/

theorem firstRepeat_of_nodup {l : List Nat} (h : l.Nodup) : Sorted.firstRepeat l = none := by
  fun_induction Sorted.firstRepeat l with
  | case1 a rest => simp at h
  | case2 a b rest hne ih => exact ih h.tail
  | case3 l => rfl

/-- In an ascending list equal values stand side by side, and the smallest of them come first. -/
theorem firstRepeat_eq_some_of_least {l : List Nat} {v : Nat} (hl : l.Pairwise (· ≤ ·))
    (hv : 1 < l.count v) (hleast : ∀ u, 1 < l.count u → v ≤ u) : Sorted.firstRepeat l = some v := by
  fun_induction Sorted.firstRepeat l with
  | case1 a rest =>
    have hle : v ≤ a := hleast a (by simp)
    have hmem : v ∈ a :: a :: rest := List.count_pos_iff.mp (by omega)
    have hge : a ≤ v := by
      rcases List.mem_cons.mp hmem with rfl | hmem
      · exact Nat.le_refl _
      · exact (List.pairwise_cons.mp hl).1 v hmem
    rw [Nat.le_antisymm hle hge]
  | case2 a b rest hne ih =>
    have hfront : a ∉ b :: rest := by
      intro hmem
      have hab := (List.pairwise_cons.mp hl).1 b List.mem_cons_self
      rcases List.mem_cons.mp hmem with rfl | hmem
      · exact hne rfl
      · have := (List.pairwise_cons.mp hl.tail).1 a hmem
        omega
    have hcount : ∀ u, 1 < (a :: b :: rest).count u ↔ 1 < (b :: rest).count u := by
      intro u
      by_cases hu : a = u
      · subst hu
        rw [List.count_cons_self, List.count_eq_zero_of_not_mem hfront]
        simp
      · rw [List.count_cons_of_ne hu]
    exact ih hl.tail ((hcount v).mp hv) fun u hu => hleast u ((hcount u).mpr hu)
  | case3 l hl' =>
    match l, hl' with
    | [], _ => simp at hv
    | [a], _ =>
      have := List.count_le_length (a := v) (l := [a])
      simp only [List.length_singleton] at this
      omega
    | a :: b :: rest, hl' => exact absurd rfl (hl' a b rest)

/-! ### Edges that are required -/

/-- The edges that positions require, by target and then by source. The first position is `target`. -/
def requiredEdges (target : Nat) : List (List Nat) → List (Nat × Nat)
  | [] => []
  | sources :: required => sources.map (·, target) ++ requiredEdges (target + 1) required

/-- The order in which required edges are looked up. -/
def NotAfter (e f : Nat × Nat) : Prop := e.2 < f.2 ∨ e.2 = f.2 ∧ e.1 ≤ f.1

instance : Std.Antisymm NotAfter where
  antisymm e f hef hfe := by
    simp only [NotAfter] at hef hfe
    exact Prod.ext (by omega) (by omega)

theorem mem_requiredEdges {source target start : Nat} {required : List (List Nat)} :
    (source, target) ∈ requiredEdges start required ↔
      ∃ i, target = start + i ∧ source ∈ required.getD i [] := by
  induction required generalizing start with
  | nil => simp [requiredEdges]
  | cons sources required ih =>
    rw [requiredEdges, List.mem_append, ih]
    constructor
    · rintro (h | ⟨i, rfl, hi⟩)
      · obtain ⟨s, hs, heq⟩ := List.mem_map.mp h
        cases heq
        exact ⟨0, rfl, hs⟩
      · exact ⟨i + 1, by omega, hi⟩
    · rintro ⟨i, rfl, hi⟩
      cases i with
      | zero => exact Or.inl (List.mem_map.mpr ⟨source, hi, rfl⟩)
      | succ i => exact Or.inr ⟨i, by omega, hi⟩

theorem requiredEdges_ordered {required : List (List Nat)}
    (h : ∀ l ∈ required, l.Pairwise (· < ·)) (target : Nat) :
    (requiredEdges target required).Pairwise NotAfter := by
  induction required generalizing target with
  | nil => exact List.Pairwise.nil
  | cons sources required ih =>
    rw [requiredEdges, List.pairwise_append]
    refine ⟨?_, ih (fun l hl => h l (List.mem_cons_of_mem _ hl)) _, ?_⟩
    · rw [List.pairwise_map]
      exact (h sources List.mem_cons_self).imp fun hlt => Or.inr ⟨rfl, Nat.le_of_lt hlt⟩
    · rintro e he ⟨source, later⟩ hf
      obtain ⟨s, _, rfl⟩ := List.mem_map.mp he
      obtain ⟨i, rfl, _⟩ := mem_requiredEdges.mp hf
      exact Or.inl (by dsimp only; omega)

theorem mem_requiredEdges_take {source target n : Nat} {required : List (List Nat)} :
    (source, target) ∈ requiredEdges 0 (required.take n) ↔
      target < n ∧ source ∈ required.getD target [] := by
  rw [mem_requiredEdges]
  constructor
  · rintro ⟨i, rfl, hmem⟩
    rw [Nat.zero_add]
    have hi : i < n := by
      by_contra hge
      rw [List.getD_eq_default _ _ (by rw [List.length_take]; omega)] at hmem
      contradiction
    exact ⟨hi, getD_take hi ▸ hmem⟩
  · rintro ⟨hlt, hmem⟩
    exact ⟨target, (Nat.zero_add _).symm, (getD_take hlt).symm ▸ hmem⟩

/-- The row has no edge between the entries at two positions. -/
def unlinked (g : Graph) (row : List Nat) (edge : Nat × Nat) : Bool :=
  !g.linked (row.getD edge.1 0) (row.getD edge.2 0)

variable {g : Graph} {p : Pattern} {reuse : Reuse} {row : List Nat}

theorem unlinked_eq_true_iff {source target : Nat} : unlinked g row (source, target) = true ↔
    g.hasEdge (row.getD source 0) (row.getD target 0) ≠ .ok true := by
  rw [Ne, Graph.hasEdge_eq_ok_true_iff, ← Graph.linked_eq_true_iff, unlinked, Bool.not_eq_true,
    Bool.not_eq_true']

theorem lacks_iff {source target : Nat} : Lacks g p row source target ↔
    (source, target) ∈ requiredEdges 0 (p.required.take row.length) ∧
      unlinked g row (source, target) = true := by
  rw [Lacks, mem_requiredEdges_take, unlinked_eq_true_iff, and_assoc]

theorem isMatch_iff_of_vertices (hvertices : ∀ v ∈ row, v < g.order) : IsMatch g p reuse row ↔
    (reuse = .forbidden → row.Nodup) ∧ ∀ source target, ¬ Lacks g p row source target := by
  constructor
  · intro h
    exact ⟨h.distinct, fun source target hlacks => hlacks.2.2 (h.edges target hlacks.1 source hlacks.2.1)⟩
  · rintro ⟨hdistinct, hedges⟩
    refine ⟨hvertices, fun i hi j hj => ?_, hdistinct⟩
    by_contra hedge
    exact hedges j i ⟨hi, hj, hedge⟩

/-- A row that is no match has a fault, which the row is then reported for. -/
theorem exists_rowFault (hvertices : ∀ v ∈ row, v < g.order) (h : ¬ IsMatch g p reuse row) (i : Nat) :
    ∃ cause, RowFault g p reuse i row cause := by
  by_cases hdistinct : reuse = .forbidden → row.Nodup
  · have hlacks : ∃ target source, Lacks g p row source target := by
      by_contra hnone
      push Not at hnone
      exact h ((isMatch_iff_of_vertices hvertices).mpr ⟨hdistinct, fun source target => hnone target source⟩)
    obtain ⟨target, htarget, hleastTarget⟩ := exists_least hlacks
    obtain ⟨source, hsource, hleastSource⟩ := exists_least htarget
    refine ⟨_, .seedEdge hdistinct hsource fun source' target' h' => ?_⟩
    rcases Nat.lt_or_eq_of_le (hleastTarget target' ⟨source', h'⟩) with hlt | rfl
    · exact Or.inl hlt
    · exact Or.inr ⟨rfl, hleastSource source' h'⟩
  · rw [Classical.not_imp, List.nodup_iff_count_le_one] at hdistinct
    obtain ⟨hreuse, hrepeat⟩ := hdistinct
    push Not at hrepeat
    obtain ⟨v, hv, hleast⟩ := exists_least hrepeat
    exact ⟨_, .seedRepeat hreuse hv hleast⟩

/-- Rows without a fault are matches of the positions they bind. -/
theorem admitted_of_not_seedFault {first : List Nat} {rows : List (List Nat)}
    (h : ∀ cause, ¬ SeedFault g p reuse first rows cause) :
    first ≠ [] ∧ (∀ r ∈ rows, r.length = first.length) ∧ first.length ≤ p.size ∧
      ∀ r ∈ rows, IsMatch g p reuse r := by
  have hfirst : first ≠ [] := fun hempty => h _ (.emptySeeds hempty)
  have hlength : ∀ r ∈ rows, r.length = first.length := by
    by_contra hother
    obtain ⟨before, row, after, hrows, hbefore, hrow⟩ := exists_first_of_not_forall hother
    exact h _ (.seedLength hfirst hrows hbefore hrow)
  have hsize : first.length ≤ p.size := by
    by_contra hlt
    exact h _ (.tooManyPositions hfirst hlength (Nat.not_le.mp hlt))
  have hvertices : ∀ r ∈ rows, ∀ u ∈ r, u < g.order := by
    by_contra hother
    obtain ⟨before, row, after, hrows, hbefore, hrow⟩ := exists_first_of_not_forall hother
    push Not at hrow
    obtain ⟨v, ⟨hv, hout⟩, hleast⟩ := exists_least hrow
    exact h _ (.vertexOutOfRange hfirst hlength hsize hrows hbefore hv hout
      fun u hu hle => hleast u ⟨hu, hle⟩)
  refine ⟨hfirst, hlength, hsize, ?_⟩
  by_contra hother
  obtain ⟨before, row, after, hrows, hbefore, hrow⟩ := exists_first_of_not_forall hother
  obtain ⟨cause, hcause⟩ := exists_rowFault (hvertices row (by simp [hrows])) hrow before.length
  exact h _ (.row hfirst hlength hsize hvertices hrows hbefore hcause)

end Motif
