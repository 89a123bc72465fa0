/-
What the slices of a list are.

The lengths of the slices add up to the length of the list, and each slice begins where the one
before it ends.  So the slices, one after the other, are the list.  A length is the share that all
slices have, and one more for the first slices, as many as the division leaves.

* `sum_sliceLengths`: the lengths add up;
* `flatten_slicesFrom`: stretches that follow each other make one stretch;
* `WorkerContext.flatten_slices`: the slices of the points are the points;
* `WorkerContext.slices_one`: for one worker there is but one slice;
* `pairwise_sliceLengths`, `mem_sliceLengths`: the longer slices come first,
  and no two lengths are far apart;
* `partition_splitsEvenly`: how a list is split, whatever its length and
  however many workers there are.
-/
import MutationAnalysis.Campaign.Schedule
import Mathlib.Algebra.BigOperators.Group.List.Basic
import Mathlib.Algebra.Order.Ring.Int
import Mathlib.Tactic.Common

namespace MutationAnalysis

/-- So many shares, the first of which are one larger than the rest. -/
theorem sum_shares (share extra n : Nat) :
    ((List.range n).map fun i => share + if i < extra then 1 else 0).sum
      = n * share + min n extra := by
  induction n with
  | zero => simp
  | succ n ih =>
    rw [List.range_succ, List.map_append, List.sum_append, ih, List.map_singleton,
      List.sum_singleton, Nat.succ_mul]
    split <;> omega

theorem sum_sliceLengths (length workers : Nat) : (sliceLengths length workers).sum = length := by
  rw [sliceLengths, sum_shares]
  generalize hcount : sliceCount length workers = count
  rw [sliceCount] at hcount
  by_cases hzero : count = 0
  · subst hzero
    omega
  · have hlt : length % count < count := Nat.mod_lt _ (Nat.pos_of_ne_zero hzero)
    rw [Nat.min_eq_right (Nat.le_of_lt hlt), Nat.div_add_mod]

/-- Slices that follow each other from a start make one stretch of the list. -/
theorem flatten_slicesFrom {α : Type} (items : List α) (start : Nat) (lengths : List Nat) :
    ((slicesFrom start lengths).map fun s => s.of items).flatten
      = (items.drop start).take lengths.sum := by
  induction lengths generalizing start with
  | nil => simp [slicesFrom]
  | cons n rest ih =>
    rw [slicesFrom, List.map_cons, List.flatten_cons, ih, List.sum_cons, List.take_add,
      List.drop_drop, Slice.of]

theorem WorkerContext.flatten_slices (workers : Nat) (points : List MutationPoint) :
    (slices workers points).flatten = points := by
  rw [slices, partition, flatten_slicesFrom, sum_sliceLengths, List.drop_zero, List.take_length]

theorem length_slicesFrom (start : Nat) (lengths : List Nat) :
    (slicesFrom start lengths).length = lengths.length := by
  induction lengths generalizing start with
  | nil => rfl
  | cons n rest ih => rw [slicesFrom, List.length_cons, List.length_cons, ih]

theorem length_sliceLengths (length workers : Nat) :
    (sliceLengths length workers).length = sliceCount length workers := by
  rw [sliceLengths, List.length_map, List.length_range]

/-- One worker takes all points, if there are any. -/
theorem WorkerContext.slices_one (points : List MutationPoint) :
    slices 1 points = [] ∧ points = [] ∨ slices 1 points = [points] := by
  have hflatten := flatten_slices 1 points
  have hlength : (slices 1 points).length = min 1 points.length := by
    rw [slices, List.length_map, partition, length_slicesFrom, length_sliceLengths]
    rfl
  match hslices : slices 1 points with
  | [] =>
    rw [hslices] at hflatten
    exact .inl ⟨rfl, hflatten.symm⟩
  | [slice] =>
    rw [hslices, List.flatten_singleton] at hflatten
    exact .inr (by rw [hflatten])
  | _ :: _ :: _ =>
    rw [hslices] at hlength
    simp only [List.length_cons] at hlength
    omega

/-! ### Even splits -/

/-- Slices split a list evenly among so many workers: one after the other they are the list, each
lies within it and holds something, there is one for each worker as far as the items last, and the
longer ones, which have one item more than the others, come first. -/
structure SplitsEvenly {α : Type} (items : List α) (workers : Nat) (slices : List Slice) :
    Prop where
  flatten_eq : (slices.map fun s => s.of items).flatten = items
  count_eq : slices.length = min (max workers 1) items.length
  within : ∀ s ∈ slices, s.start + s.length ≤ items.length
  nonempty : ∀ s ∈ slices, s.of items ≠ []
  descending : (slices.map fun s => (s.of items).length).Pairwise (· ≥ ·)
  even : ∀ s ∈ slices, ∀ t ∈ slices, (s.of items).length ≤ (t.of items).length + 1

/-- A slice has the share of all slices, or one more, and that is not nothing. -/
theorem mem_sliceLengths {length workers n : Nat} (h : n ∈ sliceLengths length workers) :
    0 < n ∧ length / sliceCount length workers ≤ n ∧
    n ≤ length / sliceCount length workers + 1 := by
  obtain ⟨i, hi, rfl⟩ := List.mem_map.mp h
  have hcount : i < sliceCount length workers := List.mem_range.mp hi
  have hle : sliceCount length workers ≤ length := Nat.min_le_right _ _
  have hshare : 0 < length / sliceCount length workers := Nat.div_pos hle (by omega)
  split <;> omega

/-- The slices that take what the division leaves are the first ones. -/
theorem pairwise_sliceLengths (length workers : Nat) :
    (sliceLengths length workers).Pairwise (· ≥ ·) := by
  rw [sliceLengths, List.pairwise_map]
  refine List.pairwise_lt_range.imp ?_
  intro i j hij
  split <;> split <;> omega

theorem map_length_slicesFrom (start : Nat) (lengths : List Nat) :
    (slicesFrom start lengths).map Slice.length = lengths := by
  induction lengths generalizing start with
  | nil => rfl
  | cons n rest ih => rw [slicesFrom, List.map_cons, ih]

/-- Slices that follow each other from a start lie in the stretch that they make. -/
theorem bounds_of_mem_slicesFrom {start : Nat} {lengths : List Nat} {s : Slice}
    (h : s ∈ slicesFrom start lengths) :
    start ≤ s.start ∧ s.start + s.length ≤ start + lengths.sum := by
  induction lengths generalizing start with
  | nil => cases h
  | cons n rest ih =>
    rw [List.sum_cons]
    rcases List.mem_cons.mp h with rfl | h
    · dsimp only
      omega
    · have := ih h
      omega

/-- A slice that lies within a list takes as many items as it is long. -/
theorem Slice.length_of {α : Type} {s : Slice} {items : List α}
    (h : s.start + s.length ≤ items.length) : (s.of items).length = s.length := by
  rw [Slice.of, List.length_take, List.length_drop]
  omega

/-- A list is split evenly, also among no workers and among more of them than it has items. -/
theorem partition_splitsEvenly {α : Type} (items : List α) (workers : Nat) :
    SplitsEvenly items workers (partition items.length workers) := by
  have hwithin : ∀ s ∈ partition items.length workers, s.start + s.length ≤ items.length := by
    intro s hs
    have hbounds := (bounds_of_mem_slicesFrom hs).2
    rwa [sum_sliceLengths, Nat.zero_add] at hbounds
  have hlength : ∀ s ∈ partition items.length workers, (s.of items).length = s.length :=
    fun s hs => Slice.length_of (hwithin s hs)
  have hlengths : (partition items.length workers).map Slice.length
      = sliceLengths items.length workers := map_length_slicesFrom _ _
  have hmem : ∀ s ∈ partition items.length workers,
      s.length ∈ sliceLengths items.length workers := by
    intro s hs
    rw [← hlengths]
    exact List.mem_map_of_mem hs
  refine ⟨?_, ?_, hwithin, ?_, ?_, ?_⟩
  · rw [partition, flatten_slicesFrom, sum_sliceLengths, List.drop_zero, List.take_length]
  · rw [partition, length_slicesFrom, length_sliceLengths, sliceCount]
  · intro s hs
    have hpos := (mem_sliceLengths (hmem s hs)).1
    rw [← List.length_pos_iff, hlength s hs]
    exact hpos
  · rw [List.map_congr_left hlength, hlengths]
    exact pairwise_sliceLengths _ _
  · intro s hs t ht
    have hs' := mem_sliceLengths (hmem s hs)
    have ht' := mem_sliceLengths (hmem t ht)
    rw [hlength s hs, hlength t ht]
    omega

end MutationAnalysis
