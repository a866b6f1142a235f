/-
Frankengit/Lib/BTree.lean

Ordered maps and sets.  `BTreeMap` and `BTreeSet` are the extensional tree
maps and sets of the standard library at the order of the key type, so two
maps with the same bindings are equal and iteration is in key order.

Loops over them are in `Frankengit.Lib.Fallible`.
-/
import Mathlib.Tactic
import Mathlib.Data.List.Lex
import Mathlib.Data.Set.Card

/-- A map iterated in key order. -/
abbrev BTreeMap (K V : Type*) [Ord K] := Std.ExtTreeMap K V compare

/-- A set iterated in order. -/
abbrev BTreeSet (K : Type*) [Ord K] := Std.ExtTreeSet K compare

namespace BTree

open List Function

open Std (ExtTreeMap ExtTreeSet)

variable {K V : Type*} [LinearOrder K]

/-- The order of a map at the order of its keys, in one step. -/
instance (priority := high) transCmp_compare : Std.TransCmp (compare : K → K → Ordering) :=
  inferInstance

/-! ### Lookups, in terms of equality of keys -/

variable (m : BTreeMap K V)

theorem get_insert (k a : K) (v : V) : (m.insert k v)[a]? = if k = a then some v else m[a]? := by
  simp only [ExtTreeMap.getElem?_insert, compare_eq_iff_eq]

theorem get_erase (k a : K) : (m.erase k)[a]? = if k = a then none else m[a]? := by
  simp only [ExtTreeMap.getElem?_erase, compare_eq_iff_eq]

theorem get_insert_some {m : BTreeMap K V} {k a : K} {v w : V} (h : (m.insert k v)[a]? = some w) :
    k = a ∧ v = w ∨ k ≠ a ∧ m[a]? = some w := by
  rw [get_insert] at h
  split at h
  · next heq => exact .inl ⟨heq, Option.some.inj h⟩
  · next hne => exact .inr ⟨hne, h⟩

theorem get_erase_some {m : BTreeMap K V} {k a : K} {w : V} (h : (m.erase k)[a]? = some w) :
    k ≠ a ∧ m[a]? = some w := by
  rw [get_erase] at h
  split at h
  · cases h
  · next hne => exact ⟨hne, h⟩

theorem mem_insert (m : BTreeSet K) (k a : K) : a ∈ m.insert k ↔ k = a ∨ a ∈ m := by
  simp only [ExtTreeSet.mem_insert, compare_eq_iff_eq]

theorem mem_erase (m : BTreeSet K) (k a : K) : a ∈ m.erase k ↔ k ≠ a ∧ a ∈ m := by
  simp only [ExtTreeSet.mem_erase, ne_eq, compare_eq_iff_eq]

theorem get_filter (p : K → V → Bool) (a : K) : (m.filter p)[a]? = m[a]?.filter (p a) := by
  simp [ExtTreeMap.getElem?_filter]

theorem get_insert_fun (k : K) (v : V) :
    (fun a => (m.insert k v)[a]?) = update (fun a => m[a]?) k (some v) := by
  funext a
  rw [get_insert, update_apply]
  exact if_congr eq_comm rfl rfl

theorem mem_iff_get {m : BTreeMap K V} {k : K} : k ∈ m ↔ ∃ v, m[k]? = some v := by
  rw [ExtTreeMap.mem_iff_isSome_getElem?, Option.isSome_iff_exists]

/-! ### Tables -/

/-- The map with a value for each of the keys. -/
def tabulate (keys : List K) (value : K → V) : BTreeMap K V :=
  keys.foldl (fun m k => m.insert k (value k)) ∅

theorem get_tabulate (keys : List K) (value : K → V) (a : K) :
    (tabulate keys value)[a]? = if a ∈ keys then some (value a) else none := by
  suffices haux : ∀ m : BTreeMap K V, (keys.foldl (fun m k => m.insert k (value k)) m)[a]?
      = if a ∈ keys then some (value a) else m[a]? by
    exact (haux ∅).trans (by rw [ExtTreeMap.getElem?_empty])
  induction keys with
  | nil => exact fun m => rfl
  | cons k keys ih =>
    intro m
    rw [foldl_cons, ih, get_insert]
    by_cases heq : k = a
    · subst heq
      simp
    · simp [mem_cons, Ne.symm heq, heq]

/-! ### Sizes -/

/-- There are not more keys than elements of a set that has them all. -/
theorem size_le_ncard [Finite K] {m : BTreeMap K V} {s : Set K}
    (h : ∀ k v, m[k]? = some v → k ∈ s) : m.size ≤ s.ncard := by
  rw [← ExtTreeMap.length_keys, ← toFinset_card_of_nodup ExtTreeMap.nodup_keys,
    ← Set.ncard_coe_finset]
  refine Set.ncard_le_ncard fun k hk => ?_
  obtain ⟨v, hv⟩ := mem_iff_get.mp (ExtTreeMap.mem_keys.mp (mem_toFinset.mp hk))
  exact h k v hv

theorem toList_pairwise_ne (t : BTreeMap K V) : t.toList.Pairwise fun x y => x.1 ≠ y.1 := by
  simpa only [compare_eq_iff_eq] using t.distinct_keys_toList

end BTree
