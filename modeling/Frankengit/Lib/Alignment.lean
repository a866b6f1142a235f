/-
Frankengit/Lib/Alignment.lean

Edit scripts between two sequences, and longest common subsequences.

A `Script same i j i' j' s` goes through positions `i` to `i'` of one sequence
and `j` to `j'` of the other without a gap; it may keep a pair of positions
only if they are the `same`.  `lcs` is the length of a longest common
subsequence (`exists_common`, `length_le_lcs`).  A script keeps at most that
many pairs and some script keeps as many (`Script.kept_le`, `exists_script`),
so a script is shortest exactly if it keeps `lcs` pairs.
-/
import Mathlib.Tactic
import Mathlib.Data.List.Infix

namespace Alignment

open List Nat

/-- One step of a script. -/
inductive Step where
  | equal (old new : ℕ)
  | delete (old : ℕ)
  | insert (new : ℕ)
deriving DecidableEq

/-- How many pairs a script keeps. -/
def kept : List Step → ℕ
  | [] => 0
  | .equal _ _ :: s => kept s + 1
  | .delete _ :: s => kept s
  | .insert _ :: s => kept s

/-- How many positions a script deletes or inserts. -/
def changed : List Step → ℕ
  | [] => 0
  | .equal _ _ :: s => changed s
  | .delete _ :: s => changed s + 1
  | .insert _ :: s => changed s + 1

@[simp] theorem kept_append (s t : List Step) : kept (s ++ t) = kept s + kept t := by
  induction s with
  | nil => simp [kept]
  | cons x s ih =>
    cases x with
    | equal i j => rw [cons_append, kept, ih, kept, add_right_comm]
    | delete i | insert j => exact ih

theorem changed_append (s t : List Step) : changed (s ++ t) = changed s + changed t := by
  induction s with
  | nil => simp [changed]
  | cons x s ih =>
    cases x with
    | equal i j => exact ih
    | delete i | insert j => rw [cons_append, changed, ih, changed, add_right_comm]

@[simp] theorem kept_inserts (l : List ℕ) : kept (l.map .insert) = 0 := by
  induction l with
  | nil => rfl
  | cons _ _ ih => exact ih

@[simp] theorem kept_deletes (l : List ℕ) : kept (l.map .delete) = 0 := by
  induction l with
  | nil => rfl
  | cons _ _ ih => exact ih

theorem kept_equals (f g : ℕ → ℕ) (l : List ℕ) :
    kept (l.map fun k => .equal (f k) (g k)) = l.length := by
  induction l with
  | nil => rfl
  | cons _ _ ih => rw [map_cons, kept, ih, length_cons]

/-- A gap-free script from `(i, j)` to `(i', j')`. -/
inductive Script (same : ℕ → ℕ → Prop) : ℕ → ℕ → ℕ → ℕ → List Step → Prop
  | nil (i j : ℕ) : Script same i j i j []
  | equal {i j i' j' : ℕ} {s : List Step} (hsame : same i j)
      (h : Script same (i + 1) (j + 1) i' j' s) : Script same i j i' j' (.equal i j :: s)
  | delete {i j i' j' : ℕ} {s : List Step} (h : Script same (i + 1) j i' j' s) :
      Script same i j i' j' (.delete i :: s)
  | insert {i j i' j' : ℕ} {s : List Step} (h : Script same i (j + 1) i' j' s) :
      Script same i j i' j' (.insert j :: s)

namespace Script

variable {same : ℕ → ℕ → Prop} {i j i' j' i'' j'' : ℕ} {s t : List Step}

section

variable (h : Script same i j i' j' s)
include h

theorem append (h' : Script same i' j' i'' j'' t) : Script same i j i'' j'' (s ++ t) := by
  induction h with
  | nil i j => exact h'
  | equal hsame _ ih => exact .equal hsame (ih h')
  | delete _ ih => exact .delete (ih h')
  | insert _ ih => exact .insert (ih h')

theorem old_le : i ≤ i' := by
  induction h with
  | nil i j => exact le_rfl
  | equal _ _ ih | delete _ ih => exact (le_succ _).trans ih
  | insert _ ih => exact ih

theorem new_le : j ≤ j' := by
  induction h with
  | nil i j => exact le_rfl
  | equal _ _ ih | insert _ ih => exact (le_succ _).trans ih
  | delete _ ih => exact ih

/-- Every position is kept, with its partner, or changed. -/
theorem positions : i' + j' = i + j + 2 * kept s + changed s := by
  induction h with
  | nil i j => rfl
  | equal _ _ ih | delete _ ih | insert _ ih =>
    simp only [kept, changed]
    omega

end

/-- Insert a range. -/
theorem inserts (i : ℕ) {j j' : ℕ} (h : j ≤ j') :
    Script same i j i j' ((range' j (j' - j)).map .insert) := by
  induction hn : j' - j generalizing j with
  | zero =>
    obtain rfl : j = j' := by omega
    exact .nil i j
  | succ n ih =>
    have hrest := ih (j := j + 1) (by omega) (by omega)
    exact .insert hrest

/-- Delete a range. -/
theorem deletes {i i' : ℕ} (j : ℕ) (h : i ≤ i') :
    Script same i j i' j ((range' i (i' - i)).map .delete) := by
  induction hn : i' - i generalizing i with
  | zero =>
    obtain rfl : i = i' := by omega
    exact .nil i j
  | succ n ih =>
    have hrest := ih (i := i + 1) (by omega) (by omega)
    exact .delete hrest

/-- Keep a run. -/
theorem equals {n : ℕ} (i j : ℕ) (h : ∀ k < n, same (i + k) (j + k)) :
    Script same i j (i + n) (j + n) ((range n).map fun k => .equal (i + k) (j + k)) := by
  induction n generalizing i j with
  | zero => exact .nil i j
  | succ n ih =>
    have hrest := ih (i + 1) (j + 1) fun k hk => by
      have := h (k + 1) (by omega)
      rwa [show i + (k + 1) = i + 1 + k by omega, show j + (k + 1) = j + 1 + k by omega] at this
    have hshift : (fun k => Step.equal (i + k) (j + k)) ∘ succ
        = fun k => Step.equal (i + 1 + k) (j + 1 + k) := by
      funext k
      simp only [Function.comp_apply, succ_eq_add_one, Step.equal.injEq]
      omega
    rw [range_succ_eq_map, map_cons, map_map, hshift]
    rw [show i + 1 + n = i + (n + 1) by omega, show j + 1 + n = j + (n + 1) by omega] at hrest
    exact .equal (h 0 (by omega)) hrest

end Script

/-! ### Longest common subsequences -/

variable {α : Type*} [DecidableEq α]

/-- The length of a longest common subsequence. -/
def lcs : List α → List α → ℕ
  | [], _ => 0
  | _ :: _, [] => 0
  | a :: u, b :: v => if a = b then lcs u v + 1 else max (lcs u (b :: v)) (lcs (a :: u) v)
termination_by u v => u.length + v.length

@[simp] theorem lcs_nil_left (v : List α) : lcs [] v = 0 := by rw [lcs]

@[simp] theorem lcs_nil_right (u : List α) : lcs u [] = 0 := by cases u <;> rw [lcs]

/-- There is a common subsequence of this length. -/
theorem exists_common (u v : List α) : ∃ w : List α, w.Sublist u ∧ w.Sublist v ∧
    w.length = lcs u v := by
  induction u, v using lcs.induct with
  | case1 v | case2 a u => exact ⟨[], nil_sublist _, nil_sublist _, by simp⟩
  | case3 u b v ih =>
    obtain ⟨w, hu, hv, hw⟩ := ih
    refine ⟨b :: w, hu.cons_cons b, hv.cons_cons b, ?_⟩
    rw [lcs, if_pos rfl, length_cons, hw]
  | case4 a u b v hne ihu ihv =>
    rw [lcs, if_neg hne]
    obtain ⟨w, hu, hv, hw⟩ := ihu
    obtain ⟨w', hu', hv', hw'⟩ := ihv
    rcases le_total (lcs u (b :: v)) (lcs (a :: u) v) with hle | hle
    · exact ⟨w', hu', hv'.cons b, by rw [hw', max_eq_right hle]⟩
    · exact ⟨w, hu.cons a, hv, by rw [hw, max_eq_left hle]⟩

variable {v : List α}

/-- And no longer one. -/
theorem length_le_lcs {u w : List α} (hu : w.Sublist u) (hv : w.Sublist v) :
    w.length ≤ lcs u v := by
  induction u, v using lcs.induct generalizing w with
  | case1 v =>
    rw [sublist_nil.mp hu]
    exact zero_le _
  | case2 a u =>
    rw [sublist_nil.mp hv]
    exact zero_le _
  | case3 u b v ih =>
    rw [lcs, if_pos rfl]
    have htail := ih hu.tail hv.tail
    rw [length_tail] at htail
    omega
  | case4 a u b v hne ihu ihv =>
    rw [lcs, if_neg hne]
    cases w with
    | nil => exact zero_le _
    | cons c w =>
      -- the first letter is not both heads, so one of them is not used
      rcases cons_sublist_cons'.mp hu with hskip | ⟨rfl, -⟩
      · exact (ihu hskip hv).trans (le_max_left _ _)
      · rcases cons_sublist_cons'.mp hv with hskip | ⟨heq, -⟩
        · exact (ihv hu hskip).trans (le_max_right _ _)
        · exact absurd heq hne

variable {k : ℕ}

/-- What is achieved and not exceeded is `lcs`. -/
theorem eq_lcs {u : List α} (hk : ∃ w : List α, w.Sublist u ∧ w.Sublist v ∧ w.length = k)
    (hmax : ∀ w : List α, w.Sublist u → w.Sublist v → w.length ≤ k) : k = lcs u v := by
  obtain ⟨w, hu, hv, rfl⟩ := hk
  obtain ⟨w', hu', hv', hw'⟩ := exists_common u v
  exact le_antisymm (length_le_lcs hu hv) (hw' ▸ hmax w' hu' hv')

theorem lcs_reverse (u v : List α) : lcs u.reverse v.reverse = lcs u v := by
  refine eq_lcs ?_ fun w hu hv => ?_
  · obtain ⟨w, hu, hv, hw⟩ := exists_common u.reverse v.reverse
    refine ⟨w.reverse, ?_, ?_, by rw [length_reverse, hw]⟩
    · simpa using hu.reverse
    · simpa using hv.reverse
  · simpa using length_le_lcs hu.reverse hv.reverse

/-- The recurrence at the other end. -/
theorem lcs_concat (u v : List α) (a b : α) : lcs (u ++ [a]) (v ++ [b])
    = if a = b then lcs u v + 1 else max (lcs u (v ++ [b])) (lcs (u ++ [a]) v) := by
  have h : ∀ (u : List α) (a : α), (u ++ [a]).reverse = a :: u.reverse := by simp
  rw [← lcs_reverse, h, h, lcs]
  split
  · rw [lcs_reverse]
  · rw [← h, ← h, lcs_reverse, lcs_reverse]

theorem lcs_append_le (u u' v v' : List α) : lcs u v + lcs u' v' ≤ lcs (u ++ u') (v ++ v') := by
  obtain ⟨w, hu, hv, hw⟩ := exists_common u v
  obtain ⟨w', hu', hv', hw'⟩ := exists_common u' v'
  rw [← hw, ← hw', ← length_append]
  exact length_le_lcs (hu.append hu') (hv.append hv')

/-- Splitting one sequence splits the other. -/
theorem lcs_append_left (u u' v : List α) :
    ∃ x y, v = x ++ y ∧ lcs (u ++ u') v = lcs u x + lcs u' y := by
  obtain ⟨w, hu, hv, hw⟩ := exists_common (u ++ u') v
  obtain ⟨p, q, rfl, hp, hq⟩ := sublist_append_iff.mp hu
  obtain ⟨x, y, rfl, hx, hy⟩ := append_sublist_iff.mp hv
  refine ⟨x, y, rfl, le_antisymm ?_ (lcs_append_le u u' x y)⟩
  rw [← hw, length_append]
  exact Nat.add_le_add (length_le_lcs hp hx) (length_le_lcs hq hy)

theorem lcs_singleton_of_mem {a : α} (h : a ∈ v) : lcs [a] v = 1 := by
  refine (eq_lcs ⟨[a], List.Sublist.refl _, singleton_sublist.mpr h, rfl⟩ ?_).symm
  intro w hw _
  exact hw.length_le

theorem lcs_singleton_of_not_mem {a : α} (h : a ∉ v) : lcs [a] v = 0 := by
  refine (eq_lcs ⟨[], nil_sublist _, nil_sublist _, rfl⟩ ?_).symm
  intro w hw hv
  cases w with
  | nil => exact le_rfl
  | cons c w =>
    have hc : c = a := mem_singleton.mp (hw.subset (by simp))
    exact absurd (hv.subset (by simp [hc])) h

/-! ### Scripts between two lists -/

/-- The part of a list between two positions. -/
def slice (l : List α) (i i' : ℕ) : List α := (l.drop i).take (i' - i)

/-- Positions with equal entries. -/
def Same (old new : List α) (i j : ℕ) : Prop := ∃ a, old[i]? = some a ∧ new[j]? = some a

variable {l : List α} {i i' : ℕ}

section

omit [DecidableEq α]

theorem slice_self (l : List α) (i : ℕ) : slice l i i = [] := by
  rw [slice, Nat.sub_self, take_zero]

theorem slice_whole (l : List α) : slice l 0 l.length = l := by
  rw [slice, drop_zero, Nat.sub_zero, take_length]

theorem slice_cons {a : α} (ha : l[i]? = some a) (h : i < i') :
    slice l i i' = a :: slice l (i + 1) i' := by
  obtain ⟨hi, rfl⟩ := List.getElem?_eq_some_iff.mp ha
  rw [slice, slice, drop_eq_getElem_cons hi, show i' - i = i' - (i + 1) + 1 by omega,
    take_succ_cons]

theorem slice_concat {a : α} (ha : l[i']? = some a) (h : i ≤ i') :
    slice l i (i' + 1) = slice l i i' ++ [a] := by
  obtain ⟨hi, rfl⟩ := List.getElem?_eq_some_iff.mp ha
  have hlen : i' - i < (l.drop i).length := by
    rw [length_drop]
    omega
  rw [slice, slice, show i' + 1 - i = i' - i + 1 by omega, take_succ_eq_append_getElem hlen,
    getElem_drop]
  congr 3
  omega

theorem slice_append (l : List α) {m : ℕ} (h : i ≤ m) (h' : m ≤ i') :
    slice l i m ++ slice l m i' = slice l i i' := by
  rw [slice, slice, slice, show i' - i = (m - i) + (i' - m) by omega, take_add,
    drop_drop, show i + (m - i) = m by omega]

theorem length_slice (h : i' ≤ l.length) : (slice l i i').length = i' - i := by
  rw [slice, length_take, length_drop]
  omega

theorem mem_slice {a : α} : a ∈ slice l i i' ↔ ∃ k, i ≤ k ∧ k < i' ∧ l[k]? = some a := by
  rw [slice, mem_iff_getElem?]
  constructor
  · rintro ⟨n, hn⟩
    rw [getElem?_take] at hn
    split at hn
    · rw [getElem?_drop] at hn
      exact ⟨i + n, by omega, by omega, hn⟩
    · cases hn
  · rintro ⟨k, hle, hlt, hk⟩
    refine ⟨k - i, ?_⟩
    rw [getElem?_take, if_pos (by omega), getElem?_drop, show i + (k - i) = k by omega]
    exact hk

end

variable {s : List Step}

/-- A script keeps a common subsequence. -/
theorem Script.kept_le {old new : List α} {j j' : ℕ} (h : Script (Same old new) i j i' j' s)
    (hold : i' ≤ old.length) (hnew : j' ≤ new.length) :
    kept s ≤ lcs (slice old i i') (slice new j j') := by
  induction h with
  | nil i j => exact zero_le _
  | equal hsame h ih =>
    obtain ⟨a, hi, hj⟩ := hsame
    rw [slice_cons hi h.old_le, slice_cons hj h.new_le, lcs, if_pos rfl]
    exact succ_le_succ (ih hold hnew)
  | @delete i j i' j' s h ih =>
    have hi : i < old.length := lt_of_lt_of_le (lt_of_succ_le h.old_le) hold
    refine (ih hold hnew).trans ?_
    rw [slice_cons (getElem?_eq_getElem hi) h.old_le]
    obtain ⟨w, hu, hv, hw⟩ := exists_common (slice old (i + 1) i') (slice new j j')
    rw [← hw]
    exact length_le_lcs (hu.cons _) hv
  | @insert i j i' j' s h ih =>
    have hj : j < new.length := lt_of_lt_of_le (lt_of_succ_le h.new_le) hnew
    refine (ih hold hnew).trans ?_
    rw [slice_cons (getElem?_eq_getElem hj) h.new_le]
    obtain ⟨w, hu, hv, hw⟩ := exists_common (slice old i i') (slice new (j + 1) j')
    rw [← hw]
    exact length_le_lcs hu (hv.cons _)

/-- Some script keeps a longest common subsequence. -/
theorem exists_script (old new : List α) {j j' : ℕ} (hi : i ≤ i') (hj : j ≤ j')
    (hold : i' ≤ old.length) (hnew : j' ≤ new.length) :
    ∃ s, Script (Same old new) i j i' j' s ∧ kept s = lcs (slice old i i') (slice new j j') := by
  induction hn : (i' - i) + (j' - j) using Nat.strongRecOn generalizing i j with
  | ind n ih =>
    rcases hi.eq_or_lt with rfl | hlt
    · refine ⟨_, .inserts i hj, ?_⟩
      rw [kept_inserts, slice_self, lcs_nil_left]
    rcases hj.eq_or_lt with rfl | hlt'
    · refine ⟨_, .deletes j hi, ?_⟩
      rw [kept_deletes, slice_self, lcs_nil_right]
    have hold' : i < old.length := by omega
    have hnew' : j < new.length := by omega
    have ha := getElem?_eq_getElem hold'
    have hb := getElem?_eq_getElem hnew'
    rw [slice_cons ha hlt, slice_cons hb hlt', lcs]
    by_cases heq : old[i] = new[j]
    · obtain ⟨s, hs, hkept⟩ := ih _ (by omega) (succ_le_of_lt hlt) (succ_le_of_lt hlt') rfl
      refine ⟨.equal i j :: s, .equal ⟨old[i], ha, by rw [hb, heq]⟩ hs, ?_⟩
      rw [if_pos heq, kept, hkept]
    · rw [if_neg heq]
      obtain ⟨s, hs, hkept⟩ := ih _ (by omega) (succ_le_of_lt hlt) hj rfl
      obtain ⟨s', hs', hkept'⟩ := ih _ (by omega) hi (succ_le_of_lt hlt') rfl
      rw [slice_cons hb hlt'] at hkept
      rw [slice_cons ha hlt] at hkept'
      rcases le_total (kept s) (kept s') with hle | hle
      · exact ⟨.insert j :: s', .insert hs', by rw [kept, ← hkept, ← hkept', max_eq_right hle]⟩
      · exact ⟨.delete i :: s, .delete hs, by rw [kept, ← hkept, ← hkept', max_eq_left hle]⟩

/-! ### Scripts that leave equal texts alone -/

section

omit [DecidableEq α]

variable {old new : List α} {i j i' j' : ℕ}

theorem Script.of_append {same : ℕ → ℕ → Prop} {t : List Step}
    (h : Script same i j i' j' (s ++ t)) :
    ∃ m n, Script same i j m n s ∧ Script same m n i' j' t := by
  induction s generalizing i j with
  | nil => exact ⟨i, j, .nil i j, h⟩
  | cons x s ih =>
    cases h with
    | equal hsame h =>
      obtain ⟨m, n, hs, ht⟩ := ih h
      exact ⟨m, n, .equal hsame hs, ht⟩
    | delete h =>
      obtain ⟨m, n, hs, ht⟩ := ih h
      exact ⟨m, n, .delete hs, ht⟩
    | insert h =>
      obtain ⟨m, n, hs, ht⟩ := ih h
      exact ⟨m, n, .insert hs, ht⟩

/-- A script ends at one place. -/
theorem Script.end_unique {same : ℕ → ℕ → Prop} {l : ℕ} (h : Script same i j i' j' s)
    (h' : Script same i j k l s) : k = i' ∧ l = j' := by
  induction h with
  | nil i j =>
    cases h'
    exact ⟨rfl, rfl⟩
  | equal _ _ ih =>
    cases h' with
    | equal _ h' => exact ih h'
  | delete _ ih =>
    cases h' with
    | delete h' => exact ih h'
  | insert _ ih =>
    cases h' with
    | insert h' => exact ih h'

/-- Equal texts stay equal where both lose as much at the front. -/
theorem slice_eq_drop {i₁ j₁ : ℕ} (h : slice old i i' = slice new j j') (hi : i₁ = i + k)
    (hj : j₁ = j + k) : slice old i₁ i' = slice new j₁ j' := by
  have hdrop := congrArg (drop k) h
  subst hi hj
  rw [slice, slice, drop_take, drop_take, drop_drop, drop_drop] at hdrop
  rw [slice, slice, ← Nat.sub_sub, ← Nat.sub_sub]
  exact hdrop

/-- Equal texts stay equal where both are cut at the same length. -/
theorem slice_eq_take {i₂ j₂ : ℕ} (h : slice old i i' = slice new j j') (hi : i₂ = i + k)
    (hj : j₂ = j + k) (hi' : i₂ ≤ i') (hj' : j₂ ≤ j') : slice old i i₂ = slice new j j₂ := by
  have htake := congrArg (take k) h
  subst hi hj
  rw [slice, slice, take_take, take_take, min_eq_left (by omega), min_eq_left (by omega)] at htake
  rw [slice, slice, Nat.add_sub_cancel_left, Nat.add_sub_cancel_left]
  exact htake

variable (old new) in
/-- Wherever the script runs between equal texts, it keeps all of them. -/
def Tight (i j : ℕ) (s : List Step) : Prop :=
  ∀ s₁ s₂ s₃ i₁ j₁ i₂ j₂, s = s₁ ++ (s₂ ++ s₃) → Script (Same old new) i j i₁ j₁ s₁ →
    Script (Same old new) i₁ j₁ i₂ j₂ s₂ → slice old i₁ i₂ = slice new j₁ j₂ → changed s₂ = 0

theorem getElem?_slice (hk : k < i' - i) : (slice l i i')[k]? = l[i + k]? := by
  rw [slice, getElem?_take, if_pos hk, getElem?_drop]

/-- Positions of equal texts. -/
theorem same_of_slice_eq (h : slice old i i' = slice new j j') (hk : k < i' - i) (hk' : k < j' - j)
    (hold : i' ≤ old.length) : Same old new (i + k) (j + k) := by
  have hi : i + k < old.length := by omega
  refine ⟨old[i + k], getElem?_eq_getElem hi, ?_⟩
  rw [← getElem?_slice hk', ← h, getElem?_slice hk, getElem?_eq_getElem hi]

/-- A kept pair that is on the diagonal of every pair of equal texts around it
joins two tight scripts. -/
theorem Tight.join {t : List Step} {a b : ℕ} (hs : Tight old new i j s)
    (ht : Tight old new (a + 1) (b + 1) t) (hscript : Script (Same old new) i j a b s)
    (hrest : Script (Same old new) (a + 1) (b + 1) i' j' t)
    (hdiagonal : ∀ i₁ j₁ i₂ j₂, i ≤ i₁ → i₁ ≤ a → a < i₂ → i₂ ≤ i' → j ≤ j₁ → j₁ ≤ b → b < j₂ →
      j₂ ≤ j' → slice old i₁ i₂ = slice new j₁ j₂ → a - i₁ = b - j₁) :
    Tight old new i j (s ++ .equal a b :: t) := by
  -- the part that runs through the pair
  have hthrough : ∀ s₁ x y s₃ i₁ j₁ i₂ j₂, s = s₁ ++ x → t = y ++ s₃ →
      Script (Same old new) i j i₁ j₁ s₁ →
      Script (Same old new) i₁ j₁ i₂ j₂ (x ++ .equal a b :: y) →
      slice old i₁ i₂ = slice new j₁ j₂ → changed (x ++ .equal a b :: y) = 0 := by
    intro s₁ x y s₃ i₁ j₁ i₂ j₂ hsx hty h₁ h₂ hslice
    obtain ⟨m, n, hx, hy⟩ := h₂.of_append
    rw [hsx] at hscript
    obtain ⟨rfl, rfl⟩ := hscript.end_unique (h₁.append hx)
    cases hy with
    | equal hsame hy =>
      rw [hty] at hrest
      obtain ⟨m', n', hy', h₃⟩ := hrest.of_append
      obtain ⟨rfl, rfl⟩ := hy.end_unique hy'
      have hdiag := hdiagonal i₁ j₁ _ _ h₁.old_le hx.old_le hy.old_le h₃.old_le h₁.new_le
        hx.new_le hy.new_le h₃.new_le hslice
      have hle := hx.old_le
      have hle' := hx.new_le
      have hy_le := hy.old_le
      have hy_le' := hy.new_le
      have hfront := hs s₁ x [] i₁ j₁ _ _ (by rw [append_nil, hsx]) h₁ hx
        (slice_eq_take (k := m - i₁) hslice (by omega) (by omega) (by omega) (by omega))
      have hback := ht [] y s₃ _ _ _ _ hty (.nil _ _) hy
        (slice_eq_drop (k := m - i₁ + 1) hslice (by omega) (by omega))
      rw [changed_append, hfront, zero_add]
      exact hback
  intro s₁ s₂ s₃ i₁ j₁ i₂ j₂ heq h₁ h₂ hslice
  rcases append_eq_append_iff.mp heq with ⟨x, hs₁, hx⟩ | ⟨x, hsx, hx⟩
  · -- the part comes after the first script
    cases x with
    | nil =>
      rw [append_nil] at hs₁
      cases s₂ with
      | nil => rfl
      | cons e y =>
        obtain ⟨rfl, hty⟩ := cons.inj hx
        exact hthrough s₁ [] y s₃ i₁ j₁ i₂ j₂ (by rw [hs₁, append_nil]) hty h₁ h₂ hslice
    | cons e x =>
      obtain ⟨rfl, hty⟩ := cons.inj hx
      rw [hs₁] at h₁
      obtain ⟨m, n, hsm, hx'⟩ := h₁.of_append
      cases hx' with
      | equal _ hx' => exact ht x s₂ s₃ i₁ j₁ i₂ j₂ hty hx' h₂ hslice
  · rcases append_eq_append_iff.mp hx with ⟨y, hxy, -⟩ | ⟨y, hxy, hy⟩
    · exact hs s₁ s₂ y i₁ j₁ i₂ j₂ (by rw [hsx, hxy]) h₁ h₂ hslice
    · cases y with
      | nil =>
        rw [append_nil] at hxy
        subst hxy
        exact hs s₁ s₂ [] i₁ j₁ i₂ j₂ (by rw [hsx, append_nil]) h₁ h₂ hslice
      | cons e y =>
        obtain ⟨rfl, hty⟩ := cons.inj hy
        subst hxy
        exact hthrough s₁ x y s₃ i₁ j₁ i₂ j₂ hsx hty h₁ h₂ hslice

end

/-- A script that keeps the most is tight: any part of it keeps the most. -/
theorem Script.tight {old new : List α} {j j' : ℕ} (h : Script (Same old new) i j i' j' s)
    (hold : i' ≤ old.length) (hnew : j' ≤ new.length)
    (hkept : kept s = lcs (slice old i i') (slice new j j')) : Tight old new i j s := by
  intro s₁ s₂ s₃ i₁ j₁ i₂ j₂ heq h₁ h₂ hslice
  subst heq
  obtain ⟨m, n, h₁', hrest⟩ := h.of_append
  obtain ⟨rfl, rfl⟩ := h₁.end_unique h₁'
  obtain ⟨m', n', h₂', h₃⟩ := hrest.of_append
  obtain ⟨rfl, rfl⟩ := h₂.end_unique h₂'
  have hlength := congrArg length hslice
  rw [length_slice (h₃.old_le.trans hold), length_slice (h₃.new_le.trans hnew)] at hlength
  have hle := h₂.old_le
  have hle' := h₂.new_le
  -- keeping the whole text instead cannot keep more than the most
  have hequals : Script (Same old new) m n (m + (m' - m)) (n + (m' - m)) _ :=
    .equals m n fun k hk => same_of_slice_eq hslice hk (hlength ▸ hk) (h₃.old_le.trans hold)
  rw [show m + (m' - m) = m' by omega, show n + (m' - m) = n' by omega] at hequals
  have hmost := (h₁.append (hequals.append h₃)).kept_le hold hnew
  rw [← hkept, kept_append, kept_append, kept_append, kept_append, kept_equals,
    length_range] at hmost
  have hposs := h₂.positions
  omega

end Alignment
