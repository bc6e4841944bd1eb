import Motif.Sorted

/-!
# Patterns

A pattern says what to look for in a graph. It has positions `0`, `1`, …, `k - 1`, and each position
lists the earlier ones whose vertex must have an edge to its own. The first position requires none,
every later one at least one, so a match can be built one vertex at a time with each new vertex
reached by an edge from the part already built.

`Pattern.ofLists` checks lists for that shape and puts each of them in order. The four families of
`Shape` are the patterns that can be named instead of listed.
-/

namespace Motif

/-- What the required positions of position `i` have to be: earlier ones, strictly ascending, and at
least one unless `i` is the first position. -/
structure Admissible (i : Nat) (required : List Nat) : Prop where
  anchored : 0 < i → required ≠ []
  earlier : ∀ p ∈ required, p < i
  ascending : required.Pairwise (· < ·)

/-- A query pattern: for each position, the earlier positions it requires an edge from. -/
structure Pattern where
  required : List (List Nat)
  nonempty : required ≠ []
  admissible : ∀ i l, required[i]? = some l → Admissible i l

namespace Pattern

theorem ext_required {p q : Pattern} (h : p.required = q.required) : p = q := by
  cases p
  cases q
  cases h
  rfl

instance : DecidableEq Pattern := fun p q =>
  if h : p.required = q.required then isTrue (ext_required h)
  else isFalse fun heq => h (heq ▸ rfl)

def size (p : Pattern) : Nat := p.required.length

/-- The number of edges a match has to have. -/
def edgeCount (p : Pattern) : Nat := Word.total (p.required.map List.length)

/-- The positions that position `i`, which has to exist, requires an edge from. -/
def requiredAt (p : Pattern) (i : Nat) : Result (List Nat) :=
  match p.required[i]? with
  | some l => .ok l
  | none => breach .bounds

/-! ### Checking lists -/

/-- The required positions of position `i` in ascending order, if they are admissible. -/
def arrange (i : Nat) (required : List Nat) : Except Refusal (List Nat) :=
  if 0 < i ∧ required = [] then .error (.degenerate (.unanchored i))
  else match required.find? (fun p => decide (i ≤ p)) with
    | some p => .error (.pattern (.notEarlier i p))
    | none =>
      match Sorted.firstStall (Sorted.sort required) with
      | some (p, _) => .error (.pattern (.repeated i p))
      | none => .ok (Sorted.sort required)

/-- Arranges the required positions of position `i` and of those after it. -/
def arrangeAll (i : Nat) : List (List Nat) → Except Refusal (List (List Nat))
  | [] => .ok []
  | l :: lists => do
    let l ← arrange i l
    let lists ← arrangeAll (i + 1) lists
    return l :: lists

theorem admissible_of_arrange {i : Nat} {required arranged : List Nat}
    (h : arrange i required = .ok arranged) : Admissible i arranged := by
  rw [arrange] at h
  split at h
  · contradiction
  · rename_i hanchor
    split at h
    · contradiction
    · rename_i hearlier
      split at h
      · contradiction
      · rename_i hstall
        obtain rfl := Except.ok.inj h
        constructor
        · intro hi hnil
          refine hanchor ⟨hi, List.eq_nil_iff_forall_not_mem.mpr fun a ha => ?_⟩
          have := Sorted.mem_sort.mpr ha
          rw [hnil] at this
          contradiction
        · intro p hp
          simpa using List.find?_eq_none.mp hearlier p (Sorted.mem_sort.mp hp)
        · exact Sorted.firstStall_eq_none.mp hstall

theorem arrangeAll_cons {i : Nat} {l : List Nat} {lists arranged : List (List Nat)}
    (h : arrangeAll i (l :: lists) = .ok arranged) :
    ∃ first rest, arrange i l = .ok first ∧ arrangeAll (i + 1) lists = .ok rest ∧
      arranged = first :: rest := by
  obtain ⟨first, hfirst, h⟩ := bind_eq_ok.mp h
  obtain ⟨rest, hrest, h⟩ := bind_eq_ok.mp h
  exact ⟨first, rest, hfirst, hrest, (Except.ok.inj h).symm⟩

theorem admissible_of_arrangeAll {i : Nat} {lists arranged : List (List Nat)}
    (h : arrangeAll i lists = .ok arranged) :
    ∀ j l, arranged[j]? = some l → Admissible (i + j) l := by
  induction lists generalizing i arranged with
  | nil =>
    obtain rfl := Except.ok.inj h
    simp
  | cons l lists ih =>
    obtain ⟨first, rest, hfirst, hrest, rfl⟩ := arrangeAll_cons h
    intro j l' hl'
    cases j with
    | zero =>
      obtain rfl := Option.some.inj hl'
      exact admissible_of_arrange hfirst
    | succ j =>
      have := ih hrest j l' (by simpa using hl')
      rwa [Nat.add_assoc, Nat.add_comm 1] at this

/-- The pattern with the given required positions, in any order. -/
def ofLists : List (List Nat) → Except Refusal Pattern
  | [] => .error (.degenerate .noPositions)
  | l :: lists =>
    match h : arrangeAll 0 (l :: lists) with
    | .error cause => .error cause
    | .ok required =>
      .ok {
        required
        nonempty := by
          obtain ⟨first, rest, _, _, rfl⟩ := arrangeAll_cons h
          exact List.cons_ne_nil first rest
        admissible := by simpa using admissible_of_arrangeAll h }

end Pattern

/-! ### Named patterns -/

/-- The families of patterns that have a name. -/
inductive Shape where
  /-- Each position has an edge from the one before it. -/
  | path
  /-- Each position has an edge from every earlier one. -/
  | clique
  /-- A path whose last position also has an edge from the first. -/
  | cycle
  /-- Each later position has an edge from the first. -/
  | star
deriving DecidableEq, Repr

namespace Shape

/-- The positions that position `i` of the shape with `k` positions requires. -/
def requiredAt (shape : Shape) (k i : Nat) : List Nat :=
  if i = 0 then []
  else match shape with
    | path => [i - 1]
    | clique => List.range i
    | cycle => if i + 1 = k then [0, i - 1] else [i - 1]
    | star => [0]

/-- The bytes that the heading of one position takes up. -/
def headingBytes : Nat := 24

def pattern (shape : Shape) (k : Nat) : Result Pattern := do
  require (shape = .cycle → 3 ≤ k) (.pattern (.shortCycle k))
  Word.fits k headingBytes
  orRefuse (Pattern.ofLists ((List.range k).map (shape.requiredAt k)))

end Shape

end Motif
