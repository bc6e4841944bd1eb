import Motif.Word

/-!
# Ascending lists

The neighbours of a vertex, the required positions of a pattern and the candidates of a step are all
strictly ascending lists. This file brings a list into that form (`normalize`), looks a value up in
it by halving (`search`), and filters one such list by another in a single pass over both (`sift`).
-/

namespace Motif.Sorted

/-! ### Bringing a list into order -/

variable {α : Type}

/-- Merges two lists that are in order; of two equal values the one on the left comes first. -/
def merge (le : α → α → Bool) : List α → List α → List α
  | [], right => right
  | a :: left, [] => a :: left
  | a :: left, b :: right =>
    if le a b then a :: merge le left (b :: right) else b :: merge le (a :: left) right
termination_by left right => left.length + right.length

/-- Brings a list into order by merging its sorted halves; equal values keep their order. It is the
library's merge sort, written so that its values can be computed inside of a proof. -/
def sortBy (le : α → α → Bool) : List α → List α
  | [] => []
  | [a] => [a]
  | a :: b :: rest =>
    let half := (rest.length + 3) / 2
    merge le (sortBy le ((a :: b :: rest).take half)) (sortBy le ((a :: b :: rest).drop half))
termination_by l => l.length
decreasing_by
  · simp only [List.length_take, List.length_cons]
    omega
  · simp only [List.length_drop, List.length_cons]
    omega

theorem merge_eq (le : α → α → Bool) (left right : List α) :
    merge le left right = left.merge right le := by
  fun_induction merge le left right with
  | case1 right => simp
  | case2 a left => simp
  | case3 a left b right hle ih => simp [hle, ih]
  | case4 a left b right hle ih => simp [hle, ih]

theorem sortBy_eq (le : α → α → Bool) (l : List α) : sortBy le l = l.mergeSort le := by
  fun_induction sortBy le l with
  | case1 => simp
  | case2 a => simp
  | case3 a b rest half ih1 ih2 =>
    rw [List.mergeSort, merge_eq, ih1, ih2]
    simp only [List.MergeSort.Internal.splitInTwo_fst, List.MergeSort.Internal.splitInTwo_snd]
    rfl

/-- Drops every value that repeats the one before it. -/
def unique : List Nat → List Nat
  | a :: b :: rest => if a = b then unique (b :: rest) else a :: unique (b :: rest)
  | l => l

def sort (l : List Nat) : List Nat := sortBy (fun a b => decide (a ≤ b)) l

/-- The values of a list in ascending order, each of them once. -/
def normalize (l : List Nat) : List Nat := unique (sort l)

/-- The first two neighbouring entries that do not ascend strictly. -/
def firstStall : List Nat → Option (Nat × Nat)
  | a :: b :: rest => if b ≤ a then some (a, b) else firstStall (b :: rest)
  | _ => none

/-- The first value that is followed by itself. -/
def firstRepeat : List Nat → Option Nat
  | a :: b :: rest => if a = b then some a else firstRepeat (b :: rest)
  | _ => none

theorem mem_sort {a : Nat} {l : List Nat} : a ∈ sort l ↔ a ∈ l := by
  rw [sort, sortBy_eq, List.mem_mergeSort]

theorem sort_ascending (l : List Nat) : (sort l).Pairwise (· ≤ ·) := by
  have h : (l.mergeSort fun a b => decide (a ≤ b)).Pairwise (fun a b => decide (a ≤ b) = true) :=
    List.pairwise_mergeSort
      (by simp only [decide_eq_true_eq]; exact fun _ _ _ => Nat.le_trans)
      (by simp only [Bool.or_eq_true, decide_eq_true_eq]; exact Nat.le_total) l
  simpa [sort, sortBy_eq] using h

theorem mem_unique {a : Nat} {l : List Nat} : a ∈ unique l ↔ a ∈ l := by
  fun_induction unique l with
  | case1 a rest ih => simp [ih]
  | case2 a b rest hne ih => simp [ih]
  | case3 l => rfl

theorem unique_ascending {l : List Nat} (h : l.Pairwise (· ≤ ·)) :
    (unique l).Pairwise (· < ·) := by
  fun_induction unique l with
  | case1 a rest ih => exact ih h.tail
  | case2 a b rest hne ih =>
    refine List.pairwise_cons.mpr ⟨?_, ih h.tail⟩
    intro c hc
    have hab := (List.pairwise_cons.mp h).1 b List.mem_cons_self
    rcases List.mem_cons.mp (mem_unique.mp hc) with rfl | hc
    · omega
    · have := (List.pairwise_cons.mp h.tail).1 c hc
      omega
  | case3 l hl =>
    match l, hl with
    | [], _ => exact List.Pairwise.nil
    | [a], _ => exact List.pairwise_singleton _ _
    | a :: b :: rest, hl => exact absurd rfl (hl a b rest)

theorem mem_normalize {a : Nat} {l : List Nat} : a ∈ normalize l ↔ a ∈ l := by
  rw [normalize, mem_unique, mem_sort]

theorem normalize_ascending (l : List Nat) : (normalize l).Pairwise (· < ·) :=
  unique_ascending (sort_ascending l)

theorem firstStall_eq_none {l : List Nat} : firstStall l = none ↔ l.Pairwise (· < ·) := by
  induction l with
  | nil => simp [firstStall]
  | cons a l ih =>
    cases l with
    | nil => simp [firstStall]
    | cons b l =>
      rw [firstStall]
      constructor
      · intro h
        split at h
        · contradiction
        · rename_i hab
          have htail := ih.mp h
          refine List.pairwise_cons.mpr ⟨?_, htail⟩
          intro c hc
          rcases List.mem_cons.mp hc with rfl | hc
          · omega
          · have := (List.pairwise_cons.mp htail).1 c hc
            omega
      · intro h
        have hab := (List.pairwise_cons.mp h).1 b List.mem_cons_self
        rw [if_neg (by omega)]
        exact ih.mpr h.tail

/-- Whether one list comes before another in lexicographic order, or is the same. -/
def precedes : List Nat → List Nat → Bool
  | [], _ => true
  | _ :: _, [] => false
  | a :: left, b :: right => decide (a < b) || a == b && precedes left right

/-! ### Looking a value up -/

/-- Whether `x` is among the entries `lo` to `hi` of an array that ascends there. -/
def search (values : Array Nat) (x lo hi : Nat) : Bool :=
  if lo < hi then
    let middle := lo + (hi - lo) / 2
    let found := values.getD middle 0
    if found = x then true
    else if found < x then search values x (middle + 1) hi
    else search values x lo middle
  else false
termination_by hi - lo

/-! ### Filtering one list by another -/

/-- Which values of a list survive a pass over another one. -/
inductive Keep where
  /-- Those the other list holds too. -/
  | common
  /-- Those the other list does not hold. -/
  | missing
deriving DecidableEq, Repr

/-- Appends to `out` the values of the first list that `keep` selects, in one pass over both lists.
The second list only moves on when its head is the smaller one, so a value may repeat on either
side. -/
def sift (keep : Keep) : List Nat → List Nat → Array Nat → Array Nat
  | [], _, out => out
  | a :: left, [], out =>
    match keep with
    | .common => out
    | .missing => out ++ (a :: left)
  | a :: left, b :: right, out =>
    if a < b then
      sift keep left (b :: right) (match keep with | .common => out | .missing => out.push a)
    else if a = b then
      sift keep left (b :: right) (match keep with | .common => out.push a | .missing => out)
    else sift keep (a :: left) right out
termination_by left right => left.length + right.length

end Motif.Sorted
