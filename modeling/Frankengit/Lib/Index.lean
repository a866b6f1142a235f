/-
Frankengit/Lib/Index.lean

Lists sorted by a key and searched by it.  A binary search for the first
entry not below a key, on a list sorted by that key, is `dropWhile`; the
entries found from there on are exactly those that carry the key.

Where the keys increase strictly, a key between those of two neighbours, or
beyond an end, is the key of no entry.
-/
import Frankengit.Lib.SortedUnique

namespace Index

open List

variable {α κ : Type*} [LinearOrder κ] (key : α → κ)

/-- Stable sort by a key. -/
def sortByKey (l : List α) : List α := l.insertionSort fun a b => key a ≤ key b

/-- The entries at a key, from the first entry that is not below it. -/
def probe (index : List α) (k : κ) : List α :=
  (index.dropWhile fun a => decide (key a < k)).takeWhile fun a => decide (key a = k)

variable {key} {l : List α}

theorem mem_sortByKey {a : α} : a ∈ sortByKey key l ↔ a ∈ l :=
  mem_insertionSort _

theorem sorted_sortByKey (l : List α) : (sortByKey key l).Pairwise fun a b => key a ≤ key b :=
  Sorted.pairwise_sortBy key l

/-- A search of a sorted index finds what a scan finds. -/
theorem probe_eq_filter {index : List α} (h : index.Pairwise fun a b => key a ≤ key b) (k : κ) :
    probe key index k = index.filter fun a => decide (key a = k) := by
  induction index with
  | nil => rfl
  | cons a rest ih =>
    obtain ⟨hhead, hrest⟩ := pairwise_cons.mp h
    rcases lt_trichotomy (key a) k with hlt | heq | hgt
    · have hskip : probe key (a :: rest) k = probe key rest k := by
        simp only [probe, dropWhile_cons, hlt, decide_true, if_true]
      rw [hskip, ih hrest, filter_cons_of_neg (by simpa using hlt.ne)]
    · -- from the first match on, nothing is below the key
      have hrest' : rest.dropWhile (fun b => decide (key b < k)) = rest := by
        cases rest with
        | nil => rfl
        | cons b tail =>
          exact dropWhile_cons_of_neg (by simpa [← heq] using hhead b (by simp))
      have htake : probe key (a :: rest) k = a :: probe key rest k := by
        simp only [probe, hrest']
        rw [dropWhile_cons_of_neg (by simp [heq]), takeWhile_cons_of_pos (by simp [heq])]
      rw [htake, ih hrest, filter_cons_of_pos (by simp [heq])]
    · have hnone : probe key (a :: rest) k = [] := by
        rw [probe, dropWhile_cons_of_neg (by simpa using hgt.le),
          takeWhile_cons_of_neg (by simpa using hgt.ne')]
      rw [hnone]
      symm
      rw [filter_eq_nil_iff]
      intro b hb
      have hge : key a ≤ key b := by
        rcases mem_cons.mp hb with rfl | hb
        · exact le_rfl
        · exact hhead b hb
      simpa using (hgt.trans_le hge).ne'

/-! ### Strictly increasing keys -/

variable (key) in
/-- Two neighbours with one key. -/
def hasRepeat : List α → Bool
  | a :: b :: rest => key a = key b || hasRepeat (b :: rest)
  | _ => false

/-- Keys that increase strictly are not repeated. -/
theorem hasRepeat_eq_false (h : l.Pairwise fun a b => key a < key b) : hasRepeat key l = false := by
  induction l using twoStepInduction with
  | nil | singleton => rfl
  | cons_cons a b rest _ ih =>
    obtain ⟨hhead, hrest⟩ := pairwise_cons.mp h
    rw [hasRepeat, ih b hrest, Bool.or_false]
    exact decide_eq_false (hhead b mem_cons_self).ne

/-- Sorting entries with distinct keys makes the keys increase strictly. -/
theorem strict_sortByKey (h : (l.map key).Nodup) :
    (sortByKey key l).Pairwise fun a b => key a < key b := by
  have hperm : (sortByKey key l).Perm l := perm_insertionSort _ l
  have hnodup : (sortByKey key l).Pairwise fun a b => key a ≠ key b :=
    pairwise_map.mp ((hperm.map key).nodup_iff.mpr h)
  exact (sorted_sortByKey l).imp₂ (fun _ _ => lt_of_le_of_ne) hnodup

section Strict

variable {l : List α} (h : l.Pairwise fun a b => key a < key b) {k : κ}
include h

/-- Nothing comes before the first. -/
theorem absent_of_lt_first {a : α} {after : List α} (hl : l = a :: after) (hk : k < key a) :
    k ∉ l.map key := by
  subst hl
  intro hmem
  obtain ⟨b, hb, rfl⟩ := mem_map.mp hmem
  rcases mem_cons.mp hb with rfl | hb
  · exact lt_irrefl _ hk
  · exact lt_asymm hk ((pairwise_cons.mp h).1 b hb)

/-- Nothing comes after the last. -/
theorem absent_of_last_lt {a : α} {before : List α} (hl : l = before ++ [a]) (hk : key a < k) :
    k ∉ l.map key := by
  subst hl
  intro hmem
  obtain ⟨b, hb, rfl⟩ := mem_map.mp hmem
  rcases mem_append.mp hb with hb | hb
  · exact lt_asymm hk ((pairwise_append.mp h).2.2 b hb a (by simp))
  · obtain rfl := mem_singleton.mp hb
    exact lt_irrefl _ hk

/-- Nothing comes between neighbours. -/
theorem absent_of_between {a b : α} {before after : List α} (hl : l = before ++ a :: b :: after)
    (ha : key a < k) (hb : k < key b) : k ∉ l.map key := by
  subst hl
  have hsplit : before ++ a :: b :: after = (before ++ [a]) ++ b :: after := by simp
  rw [hsplit] at h ⊢
  obtain ⟨hbefore, hafter, -⟩ := pairwise_append.mp h
  rw [map_append, mem_append, not_or]
  exact ⟨absent_of_last_lt hbefore rfl ha, absent_of_lt_first hafter rfl hb⟩

end Strict

/-! ### The place of a key -/

variable (key) in
/-- How many entries of a sorted list are below a key. -/
def insertionPoint (l : List α) (k : κ) : ℕ := l.findIdx fun a => !decide (key a < k)

theorem insertionPoint_le (l : List α) (k : κ) : insertionPoint key l k ≤ l.length :=
  findIdx_le_length

theorem lt_of_lt_insertionPoint {k : κ} {i : ℕ} (hi : i < l.length)
    (h : i < insertionPoint key l k) :
    key (l.get ⟨i, hi⟩) < k := by
  simpa using not_of_lt_findIdx h

theorem le_insertionPoint {k : κ} (h : insertionPoint key l k < l.length) :
    k ≤ key (l.get ⟨insertionPoint key l k, h⟩) := by
  have hfound := findIdx_getElem (w := h)
  simp only [Bool.not_eq_true', decide_eq_false_iff_not, not_lt] at hfound
  exact hfound

/-- A key of a sorted list stands at its insertion point. -/
theorem eq_insertionPoint (hsorted : l.Pairwise fun a b => key a ≤ key b) {k : κ}
    (hk : k ∈ l.map key) :
    ∃ h : insertionPoint key l k < l.length, key (l.get ⟨insertionPoint key l k, h⟩) = k := by
  obtain ⟨a, ha, rfl⟩ := mem_map.mp hk
  have hlt : insertionPoint key l (key a) < l.length :=
    findIdx_lt_length_of_exists ⟨a, ha, by simp⟩
  refine ⟨hlt, le_antisymm ?_ (le_insertionPoint hlt)⟩
  obtain ⟨j, hj, rfl⟩ := mem_iff_getElem.mp ha
  have hle : insertionPoint key l (key l[j]) ≤ j := by
    by_contra hlater
    exact lt_irrefl _ (lt_of_lt_insertionPoint hj (not_le.mp hlater))
  rcases hle.eq_or_lt with heq | hbefore
  · simp [heq]
  · exact pairwise_iff_getElem.mp hsorted _ _ hlt hj hbefore

end Index
