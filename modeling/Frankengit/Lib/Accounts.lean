/-
Frankengit/Lib/Accounts.lean

Sums over the entries of a map and over the elements of a list, and how they
change when one entry does.
-/
import Frankengit.Lib.BTree

open List

namespace BTree

open Std (ExtTreeMap)

variable {K V : Type} [LinearOrder K]

/-- The sum of a number read off every value. -/
def total (f : V → ℕ) (m : BTreeMap K V) : ℕ := (m.toList.map fun entry => f entry.2).sum

variable {f : V → ℕ} {m : BTreeMap K V} {k : K} {v w : V}

theorem toList_nodup (m : BTreeMap K V) : m.toList.Nodup :=
  (toList_pairwise_ne m).imp fun hne heq => hne (congrArg Prod.fst heq)

@[simp] theorem total_empty : total f (∅ : BTreeMap K V) = 0 := by
  have hnil : (∅ : BTreeMap K V).toList = [] := by
    refine eq_nil_iff_forall_not_mem.mpr fun entry hentry => ?_
    cases hentry
  rfl

/-- An entry is taken out of the sum. -/
theorem total_erase (h : m[k]? = some v) : total f m = f v + total f (m.erase k) := by
  have hperm : m.toList.Perm ((k, v) :: (m.erase k).toList) := by
    have hnot : (k, v) ∉ (m.erase k).toList := by
      rw [ExtTreeMap.mem_toList_iff_getElem?_eq_some, get_erase, if_pos rfl]
      exact nofun
    rw [perm_ext_iff_of_nodup (toList_nodup m) (nodup_cons.mpr ⟨hnot, toList_nodup _⟩)]
    rintro ⟨k', v'⟩
    rw [mem_cons, ExtTreeMap.mem_toList_iff_getElem?_eq_some,
      ExtTreeMap.mem_toList_iff_getElem?_eq_some, get_erase]
    by_cases heq : k = k'
    · subst heq
      simp [h, eq_comm]
    · simp [heq, Ne.symm heq]
  rw [total, (hperm.map _).sum_eq, map_cons, sum_cons, total]

theorem erase_insert (m : BTreeMap K V) (k : K) (v : V) : (m.insert k v).erase k = m.erase k := by
  refine ExtTreeMap.ext_getElem? fun a => ?_
  rw [get_erase, get_erase, get_insert]
  split <;> rfl

/-- The sum with an entry set. -/
theorem total_insert (m : BTreeMap K V) (k : K) (v : V) :
    total f (m.insert k v) = f v + total f (m.erase k) := by
  have hget : (m.insert k v)[k]? = some v := by rw [get_insert, if_pos rfl]
  rw [total_erase hget, erase_insert]

theorem total_insert_new (h : m[k]? = none) : total f (m.insert k v) = f v + total f m := by
  have herase : m.erase k = m := by
    refine ExtTreeMap.ext_getElem? fun a => ?_
    rw [get_erase]
    split
    · next heq => rw [← heq, h]
    · rfl
  rw [total_insert, herase]

theorem le_total (h : m[k]? = some v) : f v ≤ total f m := by
  rw [total_erase h]
  exact Nat.le_add_right _ _

theorem mem_toList_of_get (h : m[k]? = some v) : (k, v) ∈ m.toList :=
  ExtTreeMap.mem_toList_iff_getElem?_eq_some.mpr h

theorem total_eq_zero (h : ∀ (k : K) (v : V), m[k]? = some v → f v = 0) : total f m = 0 := by
  refine sum_eq_zero (List.forall_mem_map.mpr fun e hmem => ?_)
  exact h _ _ (ExtTreeMap.mem_toList_iff_getElem?_eq_some.mp hmem)

end BTree

namespace Accounts

variable {α : Type} {l : List α} {i j : ℕ} {x y z : α}

theorem set_cases (h : (l.set i y)[j]? = some z) : j = i ∧ z = y ∨ j ≠ i ∧ l[j]? = some z := by
  rw [getElem?_set] at h
  split at h
  · next heq =>
    split at h
    · exact .inl ⟨heq.symm, (Option.some.inj h).symm⟩
    · cases h
  · next hne => exact .inr ⟨fun heq => hne heq.symm, h⟩

/-- One element of a list is replaced. -/
theorem sum_map_set (f : α → ℕ) (h : l[i]? = some x) :
    ((l.set i y).map f).sum + f x = (l.map f).sum + f y := by
  induction l generalizing i with
  | nil => cases h
  | cons a l ih =>
    cases i with
    | zero =>
      cases h
      simp
      omega
    | succ i =>
      have hrest := ih h
      simp only [set_cons_succ, map_cons, sum_cons]
      omega

end Accounts
