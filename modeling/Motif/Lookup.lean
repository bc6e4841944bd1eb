/-!
# The order of look-ups

To put entries in order by a key, the keys have to be looked up, and a look-up may fail. Which entry is
then reported depends on the order in which a sort comes to its entries. `Lookup.order` states that
order for a sort that chooses its way by the number of entries.

Up to twenty entries are inserted one by one, each of them compared with the one before it; a comparison
looks at the later entry first. Of more entries, the run at the front is followed to its end. After that
up to 32 entries are sorted in two halves, the front of each by a fixed network of comparisons and the
rest by insertion. Yet more entries are parted around a median, which is taken from entries at fixed
places, and are then passed through from first to last.
-/

namespace Motif.Lookup

/-- The number of keys looked at to see where a run ends that has come to `last`. A run either falls with
every key or never does. -/
def followRun (falls : Bool) (last : Nat) : List Nat → Nat
  | [] => 0
  | key :: keys => if decide (key < last) = falls then followRun falls key keys + 1 else 1

/-- The number of keys looked at to find the run at the front. -/
def runReach : List Nat → Nat
  | first :: second :: keys => followRun (decide (second < first)) second keys + 2
  | keys => keys.length

/-- The places at which a network of comparisons first looks; it covers thirteen entries or nine. -/
def networkPlaces (count : Nat) : List Nat :=
  if 13 ≤ count then [12, 0, 10, 1, 9, 2, 7, 3, 11, 5, 8, 6, 4]
  else if 9 ≤ count then [3, 0, 7, 1, 5, 2, 8, 4, 6]
  else [1]

/-- The places of `count` entries, from place `start` on, that a network and then insertion look at. -/
def halfPlaces (start count : Nat) : List Nat :=
  (networkPlaces count ++ List.range count).map (start + ·)

/-- The places at which a median of three entries looks. Each of the entries stands for `share` of them,
and is the median of its own share where that is large enough. -/
def medianPlaces (a b c share : Nat) : List Nat :=
  if 8 ≤ share then
    let part := share / 8
    [a, b, c].flatMap fun place =>
      medianPlaces place (place + 4 * part) (place + 7 * part) part
  else [a, b, c]
termination_by share

/-- The places that are looked at out of turn, for entries with the given keys. -/
def earlyPlaces (keys : List Nat) : List Nat :=
  let count := keys.length
  if count ≤ 20 then [1]
  else 1 :: List.range (runReach keys) ++
    if count ≤ 32 then halfPlaces 0 (count / 2) ++ halfPlaces (count / 2) (count - count / 2)
    else medianPlaces 0 (4 * (count / 8)) (7 * (count / 8)) (count / 8)

/-- The entries in the order in which a sort by `key` comes to them. An entry it comes back to stands
here more than once. -/
def order {α : Type} (key : α → Nat) (entries : List α) : List α :=
  (earlyPlaces (entries.map key)).filterMap (entries[·]?) ++ entries

theorem mem_order {α : Type} {key : α → Nat} {entries : List α} {a : α} :
    a ∈ order key entries ↔ a ∈ entries := by
  rw [order, List.mem_append, List.mem_filterMap]
  constructor
  · rintro (⟨i, _, hi⟩ | ha)
    · exact List.mem_of_getElem? hi
    · exact ha
  · exact Or.inr

end Motif.Lookup
