/-
Frankengit/Merge/TreeInputs.lean

What the tree merge makes of its inputs: the listings that it accepts, and the
renames that it finds.
-/
import Frankengit.Merge.Tree

namespace Frankengit.Merge

open Fallible WorkBudget List TreeEntry

variable {ObjectId : Type} {entries : List (TreeEntry ObjectId)}

/-! ### Listings -/

/-- Entries in strict tree order. -/
def Listing (entries : List (TreeEntry ObjectId)) : Prop :=
  entries.IsChain fun e f => compareTreeEntries e f = .lt

theorem Listing.concat {done : List (TreeEntry ObjectId)} {entry : TreeEntry ObjectId} :
    Listing (done ++ [entry]) ↔
      Listing done ∧ ∀ previous ∈ done.getLast?, compareTreeEntries previous entry = .lt := by
  rw [Listing, isChain_append]
  simp [Listing]

theorem collectTree_eq_ok {collected : List (TreeEntry ObjectId)} {limit maxPathBytes : ℕ}
    (h : collectTree entries limit maxPathBytes = .ok collected) :
    collected = entries ∧ Listing entries := by
  refine foldlM_induction (P := fun done out => out = done ∧ Listing done) h ⟨rfl, .nil⟩ ?_
  rintro done entry _ next - ⟨rfl, hdone⟩ hnext
  simp only [collectEntry, bind_eq_ok, refuseIf_eq_ok, pure_eq_ok] at hnext
  obtain ⟨-, -, -, -, -, hsorted, rfl⟩ := hnext
  push Not at hsorted
  exact ⟨rfl, Listing.concat.mpr ⟨hdone, hsorted⟩⟩

theorem collectTree_of_room {limit maxPathBytes : ℕ} (h : Listing entries)
    (hlimit : entries.length ≤ limit) (hpaths : ∀ e ∈ entries, e.path.length ≤ maxPathBytes) :
    collectTree entries limit maxPathBytes = .ok entries := by
  suffices aux : ∀ (rest done : List (TreeEntry ObjectId)), done ++ rest = entries →
      rest.foldlM (collectEntry limit maxPathBytes) done = .ok entries by
    exact aux entries [] rfl
  intro rest
  induction rest with
  | nil =>
    intro done hdone
    rw [append_nil] at hdone
    exact congrArg Except.ok hdone
  | cons entry rest ih =>
    intro done hdone
    have hsplit : (done ++ [entry]) ++ rest = entries := by rw [append_assoc, ← hdone]; rfl
    have hmem : entry ∈ entries := hdone ▸ mem_append_right _ mem_cons_self
    have hlen : done.length < entries.length := by
      rw [← hdone, length_append, length_cons]
      omega
    have hchain : Listing (done ++ [entry]) := by
      rw [← hsplit] at h
      exact (isChain_append.mp h).1
    have hentry : collectEntry limit maxPathBytes done entry = .ok (done ++ [entry]) := by
      simp only [collectEntry, bind_eq_ok, refuseIf_eq_ok, pure_eq_ok]
      refine ⟨(), (hlen.trans_le hlimit).ne, (), not_lt.mpr (hpaths entry hmem), (), ?_, trivial⟩
      rintro ⟨previous, hprev, hnot⟩
      exact hnot ((Listing.concat.mp hchain).2 previous hprev)
    rw [foldlM_cons, hentry]
    exact ih (done ++ [entry]) hsplit

/-! ### Renames -/

section Renames

variable [DecidableEq ObjectId]

/-- The path has an entry. -/
def hasPath (entries : List (TreeEntry ObjectId)) (path : Bytes) : Prop :=
  ∃ e ∈ entries, e.path = path

instance (entries : List (TreeEntry ObjectId)) (path : Bytes) : Decidable (hasPath entries path) :=
  inferInstanceAs (Decidable (∃ e ∈ entries, _))

/-- The first unused addition with the object of a removed entry. -/
def addition (base : List (TreeEntry ObjectId)) (before : TreeEntry ObjectId) (used : List ℕ)
    (side : List (TreeEntry ObjectId × ℕ)) : Option (TreeEntry ObjectId × ℕ) :=
  side.find? fun p => ¬ hasPath base p.1.path ∧ p.2 ∉ used ∧ before.object = p.1.object

variable (base side : List (TreeEntry ObjectId))

/-- The rename of a base entry, with the renames and additions found so far. -/
def addRename (found : RenamePairs × List ℕ) (before : TreeEntry ObjectId) : RenamePairs × List ℕ :=
  if hasPath side before.path then found
  else
    match addition base before found.2 side.zipIdx with
    | none => found
    | some (after, index) => (found.1.record before after, index :: found.2)

/-- The renames of a side, whatever they cost. -/
def renamesOf : RenamePairs :=
  (base.foldl (addRename base side) (.empty, [])).1

omit [DecidableEq ObjectId] in
theorem hasPath_cons {entry : TreeEntry ObjectId} {path : Bytes} :
    hasPath (entry :: entries) path ↔ entry.path = path ∨ hasPath entries path :=
  exists_mem_cons_iff ..

omit [DecidableEq ObjectId] in
theorem pathExists_gives (path : Bytes) (entries : List (TreeEntry ObjectId)) :
    Gives .workLimitExceeded (pathExists path entries) (· = decide (hasPath entries path)) := by
  induction entries with
  | nil => exact .pure (by simp [hasPath])
  | cons entry entries ih =>
    refine .pay ?_
    split
    · next hpath => exact .pure (decide_eq_true (hasPath_cons.mpr (.inl hpath))).symm
    · next hpath =>
      refine ih.mono fun found hfound => hfound.trans (decide_eq_decide.mpr ?_)
      rw [hasPath_cons]
      exact (or_iff_right hpath).symm

theorem findAddition_gives (base : List (TreeEntry ObjectId)) (before : TreeEntry ObjectId)
    (used : List ℕ) (index : ℕ) (side : List (TreeEntry ObjectId)) :
    Gives .workLimitExceeded (findAddition base before used index side)
      (· = (addition base before used (side.zipIdx index)).map Prod.swap) := by
  induction side generalizing index with
  | nil => exact .pure rfl
  | cons after side ih =>
    rw [findAddition, zipIdx_cons, addition]
    refine (pathExists_gives after.path base).bind fun existed hexisted => ?_
    subst hexisted
    split
    · next hskip =>
      rw [decide_eq_true_eq] at hskip
      rw [find?_cons_of_neg (by simpa using fun hbase hused => by tauto)]
      exact ih (index + 1)
    · next hskip =>
      rw [decide_eq_true_eq, not_or] at hskip
      refine .pay ?_
      split
      · next hobj =>
        rw [find?_cons_of_pos (by simpa using ⟨hskip.1, hskip.2, hobj⟩)]
        exact .pure rfl
      · next hobj =>
        rw [find?_cons_of_neg (by simpa using fun _ _ => hobj)]
        exact ih (index + 1)

theorem renameEntry_gives (found : RenamePairs × List ℕ) (before : TreeEntry ObjectId) :
    Gives .workLimitExceeded (renameEntry base side found before)
      (· = addRename base side found before) := by
  rw [renameEntry, addRename]
  refine (pathExists_gives before.path side).bind fun exists? hexists => ?_
  subst hexists
  by_cases hside : hasPath side before.path
  · rw [if_pos (decide_eq_true hside), if_pos hside]
    exact .pure rfl
  · rw [if_neg (by simpa using hside), if_neg hside]
    refine (findAddition_gives base before found.2 0 side).bind fun added hadded => ?_
    subst hadded
    cases addition base before found.2 side.zipIdx with
    | none | some p => exact .pure rfl

theorem exactObjectRenames_gives :
    Gives .workLimitExceeded (exactObjectRenames base side) (· = renamesOf base side) := by
  have hfold : Gives .workLimitExceeded (base.foldlM (renameEntry base side) (.empty, []))
      (· = base.foldl (addRename base side) (.empty, [])) := by
    refine .foldlM (I := fun done found =>
      found = done.foldl (addRename base side) (.empty, [])) rfl ?_
    rintro done before rest found - rfl
    rw [foldl_append]
    exact renameEntry_gives base side _ before
  exact hfold.bind fun found hfound => .pure (congrArg Prod.fst hfound)

/-- A path that a side has is not renamed there. -/
theorem renameDestination_eq_none {path : Bytes} (h : hasPath side path) :
    renameDestination (renamesOf base side) path = none := by
  have hempty : renameDestination .empty path = none := Std.ExtTreeMap.getElem?_empty
  refine foldlRecOn (b := (RenamePairs.empty, [])) base (addRename base side)
    (motive := fun found => renameDestination found.1 path = none) hempty
      fun found hfound before _ => ?_
  rw [addRename]
  split
  · exact hfound
  · next hside =>
    have hne : before.path ≠ path := fun heq => hside (heq ▸ h)
    split
    · exact hfound
    · rw [renameDestination, RenamePairs.record, Std.ExtTreeMap.getElem?_insert, if_neg ?_]
      · exact hfound
      · simpa using hne

end Renames

end Frankengit.Merge
