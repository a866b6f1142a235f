/-
Frankengit/Lib/SortedUnique.lean

Lists in the order of their elements.  `sortedUnique` sorts a list and drops
equal neighbours: what is left depends on the elements only, so it picks one
list for every finite set.  `sortBy` sorts by a key: where no two elements
share a key, what is left depends on the elements only.
-/
import Mathlib.Tactic
import Mathlib.Data.List.Destutter
import Mathlib.Data.List.Sort

namespace Sorted

open List

variable {α κ : Type*}

section Unique

variable [LinearOrder α] (values : List α)

/-- Sort, then drop equal neighbours. -/
def sortedUnique : List α :=
  (values.insertionSort (· ≤ ·)).destutter (· ≠ ·)

theorem sortedUnique_eq_dedup : sortedUnique values = (values.insertionSort (· ≤ ·)).dedup :=
  (pairwise_insertionSort (· ≤ ·) values).destutter_eq_dedup

@[simp] theorem mem_sortedUnique {values : List α} {a : α} :
    a ∈ sortedUnique values ↔ a ∈ values := by
  rw [sortedUnique_eq_dedup, mem_dedup, mem_insertionSort]

theorem pairwise_sortedUnique : (sortedUnique values).Pairwise (· < ·) := by
  have hle : (sortedUnique values).Pairwise (· ≤ ·) :=
    (pairwise_insertionSort (· ≤ ·) values).sublist (destutter_sublist _ _)
  have hne : (sortedUnique values).Pairwise (· ≠ ·) := by
    rw [sortedUnique_eq_dedup]
    exact nodup_dedup _
  exact (hle.and hne).imp fun h => lt_of_le_of_ne h.1 h.2

/-- **One list for every set.** -/
theorem sortedUnique_congr {l m : List α} (h : ∀ a, a ∈ l ↔ a ∈ m) :
    sortedUnique l = sortedUnique m := by
  refine (pairwise_sortedUnique l).eq_of_mem_iff (pairwise_sortedUnique m) fun a => ?_
  rw [mem_sortedUnique, mem_sortedUnique, h a]

theorem sortedUnique_of_pairwise {values : List α} (h : values.Pairwise (· < ·)) :
    sortedUnique values = values :=
  (pairwise_sortedUnique values).eq_of_mem_iff h fun _ => mem_sortedUnique

end Unique

section Keyed

variable [LinearOrder κ] (key : α → κ)

/-- Sort by a key; elements of one key keep their order. -/
def sortBy (values : List α) : List α := values.insertionSort fun a b => key a ≤ key b

theorem sortBy_perm (values : List α) : (sortBy key values).Perm values :=
  perm_insertionSort _ values

theorem pairwise_sortBy (values : List α) :
    (sortBy key values).Pairwise fun a b => key a ≤ key b := by
  exact pairwise_insertionSort _ values

/-- **One list for every set of elements that no key is shared by.** -/
theorem sortBy_congr {l m : List α} (hperm : l.Perm m) (hkeys : (l.map key).Nodup) :
    sortBy key l = sortBy key m := by
  have hsorted : (sortBy key l).Perm (sortBy key m) :=
    (sortBy_perm key l).trans (hperm.trans (sortBy_perm key m).symm)
  refine hsorted.eq_of_pairwise (fun a b ha hb hab hba => ?_) (pairwise_sortBy key l)
    (pairwise_sortBy key m)
  have ha' : a ∈ l := (sortBy_perm key l).subset ha
  have hb' : b ∈ l := hperm.symm.subset ((sortBy_perm key m).subset hb)
  exact inj_on_of_nodup_map hkeys ha' hb' (le_antisymm hab hba)

end Keyed

end Sorted
