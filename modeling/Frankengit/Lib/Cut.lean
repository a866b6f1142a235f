/-
Frankengit/Lib/Cut.lean

Cutting byte strings at delimiters: at the first occurrence of one element
(`cut`), at the first pair of equal neighbours (`cutPair`), and into lines
(`List.splitOn`).  Each cut is undone by writing the delimiter back.
-/
import Mathlib.Tactic

namespace Cutting

open List Option Prod

variable {α : Type} [DecidableEq α]

/-- Cut at the first `d`, which is dropped. -/
def cut (d : α) : List α → Option (List α × List α)
  | [] => none
  | a :: rest => if a = d then some ([], rest) else (cut d rest).map fun p => (a :: p.1, p.2)

variable {l before after : List α}

theorem cut_eq_some {d : α} :
    cut d l = some (before, after) ↔ l = before ++ d :: after ∧ d ∉ before := by
  induction l generalizing before with
  | nil => simp [cut]
  | cons a rest ih =>
    rw [cut]
    by_cases ha : a = d
    · subst ha
      rw [if_pos rfl]
      constructor
      · intro h
        obtain ⟨rfl, rfl⟩ := mk.inj (some.inj h)
        simp
      · rintro ⟨h, hbefore⟩
        cases before with
        | nil =>
          obtain rfl := (cons.inj h).2
          rfl
        | cons b before =>
          exact absurd (mem_cons.mpr (.inl (cons.inj h).1)) hbefore
    · rw [if_neg ha, map_eq_some_iff]
      constructor
      · rintro ⟨⟨before', after'⟩, hcut, heq⟩
        obtain ⟨rfl, rfl⟩ := mk.inj heq
        obtain ⟨rfl, hbefore⟩ := ih.mp hcut
        refine ⟨rfl, ?_⟩
        rw [mem_cons, not_or]
        exact ⟨Ne.symm ha, hbefore⟩
      · rintro ⟨h, hbefore⟩
        cases before with
        | nil => exact absurd (cons.inj h).1 ha
        | cons b before =>
          obtain ⟨rfl, hrest⟩ := cons.inj h
          rw [mem_cons, not_or] at hbefore
          exact ⟨(before, after), ih.mpr ⟨hrest, hbefore.2⟩, rfl⟩

theorem cut_eq_none {d : α} : cut d l = none ↔ d ∉ l := by
  induction l with
  | nil => simp [cut]
  | cons a rest ih =>
    rw [cut, mem_cons, not_or]
    by_cases ha : a = d
    · rw [if_pos ha]
      simp [ha]
    · rw [if_neg ha, map_eq_none_iff, ih]
      exact ⟨fun h => ⟨Ne.symm ha, h⟩, And.right⟩

/-- There is one way to cut at an element that occurs once. -/
theorem cut_of_count_eq_one {d : α} (h : l = before ++ d :: after) (hcount : l.count d = 1) :
    cut d l = some (before, after) := by
  refine cut_eq_some.mpr ⟨h, fun hmem => ?_⟩
  have hbefore := count_pos_iff.mpr hmem
  rw [h, count_append, count_cons_self] at hcount
  omega

/-- Cut at the first two neighbours `d`, which are dropped. -/
def cutPair (d : α) : List α → Option (List α × List α)
  | a :: b :: rest =>
    if a = d ∧ b = d then some ([], rest)
    else (cutPair d (b :: rest)).map fun p => (a :: p.1, p.2)
  | _ => none

theorem eq_of_cutPair {d : α} (h : cutPair d l = some (before, after)) :
    l = before ++ d :: d :: after := by
  fun_induction cutPair d l generalizing before with
  | case1 a b rest hpair =>
    obtain ⟨rfl, rfl⟩ := mk.inj (some.inj h)
    rw [hpair.1, hpair.2]
    rfl
  | case2 a b rest hpair ih =>
    obtain ⟨⟨before', after'⟩, hcut, heq⟩ := map_eq_some_iff.mp h
    obtain ⟨rfl, rfl⟩ := mk.inj heq
    rw [ih hcut]
    rfl
  | case3 l hshort => cases h

theorem cutPair_eq_none {d : α} : cutPair d l = none ↔ ¬ [d, d] <:+: l := by
  fun_induction cutPair d l with
  | case1 a b rest hpair =>
    have hinfix : [d, d] <:+: a :: b :: rest := ⟨[], rest, by rw [hpair.1, hpair.2]; rfl⟩
    exact iff_of_false (by simp) (not_not.mpr hinfix)
  | case2 a b rest hpair ih =>
    have hhead : ¬ [d, d] <+: a :: b :: rest := by
      rintro ⟨after, h⟩
      simp only [cons_append, nil_append, cons.injEq] at h
      exact hpair ⟨h.1.symm, h.2.1.symm⟩
    have hinfix : [d, d] <:+: a :: b :: rest ↔ [d, d] <:+: b :: rest := by
      rw [infix_cons_iff]
      exact or_iff_right hhead
    rw [map_eq_none_iff, ih, hinfix]
  | case3 l hshort =>
    have hshort : l.length < 2 := by
      match l, hshort with
      | [], _ => simp
      | [_], _ => simp
      | a :: b :: rest, hshort => exact absurd rfl (hshort a b rest)
    refine iff_of_true rfl fun hinfix => ?_
    have hlen := hinfix.length_le
    simp only [length_cons, length_nil] at hlen
    omega

/-! ### Lines -/

section Lines

omit [DecidableEq α]

/-- Join one more word. -/
theorem intercalate_concat (sep : List α) {words : List (List α)} (h : words ≠ []) (word : List α) :
    sep.intercalate (words ++ [word]) = sep.intercalate words ++ sep ++ word := by
  induction words with
  | nil => exact absurd rfl h
  | cons first rest ih =>
    cases rest with
    | nil => simp [intercalate_cons_cons]
    | cons next rest =>
      have hrest := ih (cons_ne_nil _ _)
      rw [cons_append] at hrest
      rw [cons_append, cons_append, intercalate_cons_cons, hrest, intercalate_cons_cons]
      simp only [append_assoc]

/-- Lengthen the last word. -/
theorem intercalate_concat_append (sep : List α) (words : List (List α)) (word more : List α) :
    sep.intercalate (words ++ [word ++ more]) = sep.intercalate (words ++ [word]) ++ more := by
  by_cases h : words = []
  · subst h
    simp
  · rw [intercalate_concat sep h, intercalate_concat sep h, append_assoc _ word]

theorem mem_intercalate {sep : List α} {words : List (List α)} {a : α}
    (h : a ∈ sep.intercalate words) : a ∈ sep ∨ ∃ word ∈ words, a ∈ word := by
  induction words using reverseRecOn with
  | nil => simp at h
  | append_singleton words word ih =>
    by_cases hnil : words = []
    · subst hnil
      exact .inr ⟨word, by simp, by simpa using h⟩
    · rw [intercalate_concat sep hnil, mem_append, mem_append] at h
      rcases h with (h | h) | h
      · rcases ih h with h | ⟨word', hword, h⟩
        · exact .inl h
        · exact .inr ⟨word', mem_append_left _ hword, h⟩
      · exact .inl h
      · exact .inr ⟨word, by simp, h⟩

theorem length_intercalate (d : α) (words : List (List α)) :
    ([d].intercalate words).length = (words.map length).sum + (words.length - 1) := by
  induction words using reverseRecOn with
  | nil => simp
  | append_singleton words word ih =>
    by_cases h : words = []
    · subst h
      simp
    · have hpos := length_pos_of_ne_nil h
      rw [intercalate_concat _ h]
      simp only [length_append, ih, map_append, sum_append, map_cons,
        map_nil, sum_cons, sum_nil, length_cons, length_nil]
      omega

end Lines

end Cutting
