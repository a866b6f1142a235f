/-
Frankengit/Lib/Patch.lean

Replacing ranges of a sequence, and dividing three versions of it.

A side of a merge is a base with some ranges replaced (`patched`).  Windows of
the base divide a side (`patched_append`), and whether replacements change the
text of a window does not depend on the window (`patched_eq_slice_iff`).

A three-way merge works on `Segment`s: corresponding parts of the base and the
two sides.  `Segment.merged` is the rule for one of them, and `conflictsAt` lists
those that the rule cannot decide, with their places in the base.
-/
import Frankengit.Lib.Alignment

namespace Patch

open Alignment List

variable {α : Type}

/-- Another text for a range. -/
structure Replacement (α : Type) where
  start : ℕ
  stop : ℕ
  text : List α

/-- Ranges in order, from a position on, that do not touch. -/
def Sorted : ℕ → List (Replacement α) → Prop
  | _, [] => True
  | least, c :: cs => least ≤ c.start ∧ c.start ≤ c.stop ∧ Sorted (c.stop + 1) cs

/-- A window of the base with its ranges replaced. -/
def patched (base : List α) : ℕ → ℕ → List (Replacement α) → List α
  | start, stop, [] => slice base start stop
  | start, stop, c :: cs => slice base start c.start ++ (c.text ++ patched base c.stop stop cs)

namespace Sorted

variable {a b : ℕ} {cs ds : List (Replacement α)}

theorem mono (h : Sorted b cs) (hab : a ≤ b) : Sorted a cs := by
  cases cs with
  | nil => trivial
  | cons c cs => exact ⟨hab.trans h.1, h.2⟩

theorem start_ge (h : Sorted a cs) : ∀ c ∈ cs, a ≤ c.start ∧ c.start ≤ c.stop := by
  induction cs generalizing a with
  | nil => simp
  | cons c cs ih =>
    obtain ⟨hstart, hstop, hrest⟩ := h
    refine forall_mem_cons.mpr ⟨⟨hstart, hstop⟩, fun d hd => ?_⟩
    obtain ⟨hge, hle⟩ := ih hrest d hd
    exact ⟨by omega, hle⟩

theorem raise (h : Sorted a cs) (hb : ∀ c ∈ cs, b ≤ c.start) : Sorted b cs := by
  cases cs with
  | nil => trivial
  | cons c cs => exact ⟨hb c mem_cons_self, h.2⟩

theorem of_append (h : Sorted a (cs ++ ds)) :
    Sorted a cs ∧ Sorted a ds ∧ ∀ c ∈ cs, Sorted (c.stop + 1) ds := by
  induction cs generalizing a with
  | nil => exact ⟨trivial, h, by simp⟩
  | cons c cs ih =>
    obtain ⟨hstart, hstop, hrest⟩ := h
    obtain ⟨hcs, hds, hbefore⟩ := ih hrest
    exact ⟨⟨hstart, hstop, hcs⟩, hds.mono (by omega), forall_mem_cons.mpr ⟨hds, hbefore⟩⟩

end Sorted

section Patched

variable (base : List α) {a b m : ℕ} {cs ds : List (Replacement α)}

/-- A window is divided where no range is cut. -/
theorem patched_append (ham : a ≤ m) (hmb : m ≤ b) (hcs : ∀ c ∈ cs, c.stop ≤ m)
    (hds : ∀ c ∈ ds, m ≤ c.start) :
    patched base a b (cs ++ ds) = patched base a m cs ++ patched base m b ds := by
  induction cs generalizing a with
  | nil =>
    cases ds with
    | nil => exact (slice_append base ham hmb).symm
    | cons d ds =>
      have hd := hds d mem_cons_self
      rw [nil_append, patched, patched, patched, ← append_assoc (slice base a m),
        slice_append base ham hd]
  | cons c cs ih =>
    have hc := hcs c mem_cons_self
    rw [cons_append, patched, patched, ih hc fun d hd => hcs d (mem_cons_of_mem _ hd)]
    simp only [append_assoc]

/-- Whether the text of a window is changed does not depend on the window. -/
theorem patched_eq_slice_iff {a' b' : ℕ} (hcs : Sorted a cs) (hab : a ≤ b) (haa : a' ≤ a)
    (hbb : b ≤ b') (hin : ∀ c ∈ cs, c.stop ≤ b) :
    patched base a' b' cs = slice base a' b' ↔ patched base a b cs = slice base a b := by
  have hwiden : patched base a' b' cs
      = slice base a' a ++ (patched base a b cs ++ slice base b b') := by
    have hfront : patched base a' b' ([] ++ cs) = _ :=
      patched_append base haa (hab.trans hbb) (by simp) fun c hc => (hcs.start_ge c hc).1
    have hback : patched base a b' (cs ++ []) = _ :=
      patched_append base hab hbb hin (by simp)
    rw [nil_append] at hfront
    rw [append_nil] at hback
    rw [hfront, hback]
    rfl
  rw [hwiden, ← slice_append base haa (hab.trans hbb), ← slice_append base hab hbb,
    append_cancel_left_eq, append_cancel_right_eq]

end Patched

/-! ### Three versions -/

/-- Corresponding parts of three versions. -/
structure Segment (α : Type) where
  base : List α
  ours : List α
  theirs : List α

variable [DecidableEq α]

namespace Segment

/-- Both sides changed the base, and not in the same way. -/
def Conflicts (s : Segment α) : Prop := s.ours ≠ s.base ∧ s.theirs ≠ s.base ∧ s.ours ≠ s.theirs

instance (s : Segment α) : Decidable s.Conflicts := inferInstanceAs (Decidable (_ ∧ _))

/-- The merged text: what one side changed, what both changed alike, or a
rendered conflict. -/
def merged (render : Segment α → List α) (s : Segment α) : List α :=
  if s.ours = s.base then s.theirs
  else if s.theirs = s.base then s.ours
  else if s.ours = s.theirs then s.ours
  else render s

variable (render : Segment α → List α) {s : Segment α}

theorem merged_of_theirs (h : s.theirs = s.base) : s.merged render = s.ours := by
  rw [merged]
  split
  · next hours => rw [h, hours]
  · rfl

theorem merged_of_ours (h : s.ours = s.base) : s.merged render = s.theirs := if_pos h

theorem merged_of_same (h : s.ours = s.theirs) : s.merged render = s.ours := by
  rw [merged]
  split
  · exact h.symm
  · split
    · rfl
    · rfl

theorem merged_of_conflicts (h : s.Conflicts) : s.merged render = render s := by
  rw [merged, if_neg h.1, if_neg h.2.1, if_neg h.2.2]

end Segment

/-- The conflicts of a division, each with its place in the base. -/
def conflictsAt : ℕ → List (Segment α) → List (ℕ × Segment α)
  | _, [] => []
  | place, s :: segments =>
    (if s.Conflicts then [(place, s)] else []) ++ conflictsAt (place + s.base.length) segments

theorem conflictsAt_append (place : ℕ) (ss ts : List (Segment α)) :
    conflictsAt place (ss ++ ts) = conflictsAt place ss
      ++ conflictsAt (place + (ss.flatMap Segment.base).length) ts := by
  induction ss generalizing place with
  | nil => rfl
  | cons s ss ih =>
    rw [cons_append, conflictsAt, conflictsAt, ih, append_assoc, flatMap_cons,
      length_append, Nat.add_assoc]

theorem conflictsAt_eq_nil_iff (place : ℕ) (segments : List (Segment α)) :
    conflictsAt place segments = [] ↔ ∀ s ∈ segments, ¬ s.Conflicts := by
  induction segments generalizing place with
  | nil => simp [conflictsAt]
  | cons s segments ih =>
    rw [conflictsAt, append_eq_nil_iff, ih, forall_mem_cons, ite_eq_right_iff]
    simp

end Patch
