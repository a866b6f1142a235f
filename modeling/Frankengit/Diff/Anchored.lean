/-
Frankengit/Diff/Anchored.lean

The anchored profiles (crate `fgit-diff`).  Patience fixes the longest run of
units that occur once on each side; histogram strips what the two ends share
and fixes one rare unit at a time.  Both solve what lies between the anchors on
their own and fall back to a minimal script where there is no anchor.

A recursion takes a depth, which is one more than the length of the old side.
Anchors are old units, so every part is shorter and the depth is never
exhausted; the proofs here would fail if it were.

The scripts are not minimal, but they are `Tight`: where they run between equal
texts they keep them.  That holds because an anchor is `Aligned`: between equal
texts around it, it has the same place in both.  A unit that occurs once has no
other place, and a unit's first occurrences come at the same place in both.
-/
import Frankengit.Diff.Linear

namespace Frankengit.Diff

open Alignment WorkBudget List Option Function TokenStream Region Nat Gives

/-- A pair of positions that a script keeps. -/
abbrev Anchor := ℕ × ℕ

section Patience

variable (old new : TokenStream)

/-! ### Patience -/

/-- How often a unit occurs among its own side's positions. -/
def countOccurrences (oldIndex : ℕ) (candidates : List ℕ) : Budgeted ℕ :=
  candidates.foldlM (fun count candidate => do
    consume 1
    return if old.equal oldIndex old candidate then count + 1 else count) 0

/-- How often a unit occurs among the other side's positions, and where last. -/
def countMatching (oldIndex : ℕ) (candidates : List ℕ) : Budgeted (ℕ × Option ℕ) :=
  candidates.foldlM (fun found newIndex => do
    consume 1
    return if old.equal oldIndex new newIndex then (found.1 + 1, some newIndex)
      else found) (0, none)

def uniqueAnchors (r : Region) : Budgeted (List Anchor) :=
  (range' r.oldStart r.oldLen).foldlM (fun anchors oldIndex => do
    let oldCount ← countOccurrences old oldIndex (range' r.oldStart r.oldLen)
    if oldCount ≠ 1 then return anchors
    else
      match ← countMatching old new oldIndex (range' r.newStart r.newLen) with
      | (1, some matchingNew) => return anchors ++ [(oldIndex, matchingNew)]
      | _ => return anchors) []

/-- The longest increasing runs that end at each anchor. -/
structure Chains where
  lengths : ℕ → ℕ
  previous : ℕ → Option ℕ

/-- The anchor at an index. -/
abbrev anchorAt (anchors : List Anchor) (index : ℕ) : Anchor := anchors.getD index (0, 0)

variable (anchors : List Anchor)

/-- Let the run of `current` go on from `candidate`, where that is longer. -/
def Chains.extend (current candidate : ℕ) (c : Chains) : Chains :=
  if (anchorAt anchors candidate).2 < (anchorAt anchors current).2 ∧
      c.lengths current < c.lengths candidate + 1 then
    ⟨update c.lengths current (c.lengths candidate + 1), update c.previous current (some candidate)⟩
  else c

def growChains : Budgeted Chains :=
  (range anchors.length).foldlM (fun c current =>
    (range current).foldlM (fun c candidate => do
      consume 1
      return c.extend anchors current candidate) c) ⟨fun _ => 1, fun _ => none⟩

/-- The first anchor with the longest run. -/
def longestEnd (lengths : ℕ → ℕ) (count : ℕ) : Option ℕ :=
  ((range count).foldl (fun (bestLength, current) index =>
    if bestLength < lengths index then (lengths index, some index) else (bestLength, current))
    (0, none)).2

/-- Collect a run from its end.  A run goes back to earlier anchors. -/
def collectRun (anchors : List Anchor) (previous : ℕ → Option ℕ) (current : ℕ)
    (run : List Anchor) : Except DiffError (List Anchor) :=
  match previous current with
  | none => .ok (anchorAt anchors current :: run)
  | some next =>
    if next < current then collectRun anchors previous next (anchorAt anchors current :: run)
    else .error .arithmeticOverflow
termination_by current

def longestIncreasingAnchors : Budgeted (List Anchor) := do
  let chains ← growChains anchors
  match longestEnd chains.lengths anchors.length with
  | none => return []
  | some current => collectRun anchors chains.previous current []

/-- Keep the anchors, and solve what lies between them. -/
def between (solve : Region → Budgeted (List AtomicEdit)) :
    List Anchor → Region → Budgeted (List AtomicEdit)
  | [], r => solve r
  | (oldAnchor, newAnchor) :: anchors, r => do
    let part ← solve { r with oldEnd := oldAnchor, newEnd := newAnchor }
    let rest ← between solve anchors
      { r with oldStart := oldAnchor + 1, newStart := newAnchor + 1 }
    return part ++ .equal oldAnchor newAnchor :: rest

def patienceAtoms (maxTraceCells : ℕ) : ℕ → Region → Budgeted (List AtomicEdit)
  | 0, _ => throw .arithmeticOverflow
  | depth + 1, r => do
    let anchors ← uniqueAnchors old new r
    let anchors ← longestIncreasingAnchors anchors
    if anchors = [] then Prod.fst <$> minimalAtoms old new r maxTraceCells
    else between (patienceAtoms maxTraceCells depth) anchors r

/-! ### Histogram -/

/-- How many units the region's starts share. -/
def sharedStart (r : Region) (shared : ℕ) : Budgeted ℕ :=
  if r.oldStart + shared < r.oldEnd ∧ r.newStart + shared < r.newEnd ∧
      old.equal (r.oldStart + shared) new (r.newStart + shared) then do
    consume 1
    sharedStart r (shared + 1)
  else
    return shared
termination_by r.oldEnd - (r.oldStart + shared)

/-- Where the units that the region's ends share begin. -/
def sharedEnd (r : Region) (shared oldCenterEnd newCenterEnd : ℕ) : Budgeted (ℕ × ℕ) :=
  if r.oldStart + shared < oldCenterEnd ∧ r.newStart + shared < newCenterEnd ∧
      old.equal (oldCenterEnd - 1) new (newCenterEnd - 1) then do
    consume 1
    sharedEnd r shared (oldCenterEnd - 1) (newCenterEnd - 1)
  else
    return (oldCenterEnd, newCenterEnd)
termination_by oldCenterEnd

structure HistogramRecord where
  oldCount : ℕ := 0
  newCount : ℕ := 0
  firstOld : Option ℕ := none
  firstNew : Option ℕ := none

def HistogramRecord.seeOld (record : HistogramRecord) (oldIndex : ℕ) : HistogramRecord :=
  { record with
    oldCount := record.oldCount + 1
    firstOld := if record.firstOld.isNone then some oldIndex else record.firstOld }

def HistogramRecord.seeNew (record : HistogramRecord) (newIndex : ℕ) : HistogramRecord :=
  { record with
    newCount := record.newCount + 1
    firstNew := if record.firstNew.isNone then some newIndex else record.firstNew }

/-- The lexicographic order of candidates. -/
def Precedes (a b : ℕ × ℕ × ℕ) : Prop :=
  a.1 < b.1 ∨ a.1 = b.1 ∧ (a.2.1 < b.2.1 ∨ a.2.1 = b.2.1 ∧ a.2.2 < b.2.2)

instance (a b : ℕ × ℕ × ℕ) : Decidable (Precedes a b) := inferInstanceAs (Decidable (_ ∨ _))

/-- The rarest unit so far that both sides have. -/
def selectRarest (selected : Option (ℕ × ℕ × ℕ)) (record : HistogramRecord) : Option (ℕ × ℕ × ℕ) :=
  match record.firstOld, record.firstNew with
  | some oldIndex, some newIndex =>
    let candidate := (max record.oldCount record.newCount, oldIndex, newIndex)
    match selected with
    | none => some candidate
    | some current => if Precedes candidate current then some candidate else some current
  | _, _ => selected

def histogramAnchor (r : Region) : Budgeted (Option Anchor) := do
  let frequencies : BTreeMap Bytes HistogramRecord ←
    (range' r.oldStart r.oldLen).foldlM (fun frequencies oldIndex => do
      consume 1
      let key := old.bytesFor oldIndex (oldIndex + 1)
      return frequencies.insert key ((frequencies[key]?.getD {}).seeOld oldIndex)) ∅
  let frequencies ← (range' r.newStart r.newLen).foldlM (fun frequencies newIndex => do
      consume 1
      let key := new.bytesFor newIndex (newIndex + 1)
      return frequencies.insert key ((frequencies[key]?.getD {}).seeNew newIndex)) frequencies
  let selected := frequencies.toList.foldl (fun selected e => selectRarest selected e.2) none
  return selected.map Prod.snd

def histogramAtoms (maxTraceCells : ℕ) : ℕ → Region → Budgeted (List AtomicEdit)
  | 0, _ => throw .arithmeticOverflow
  | depth + 1, r => do
    let shared ← sharedStart old new r 0
    let (oldCenterEnd, newCenterEnd) ← sharedEnd old new r shared r.oldEnd r.newEnd
    if shared ≠ 0 ∨ oldCenterEnd ≠ r.oldEnd then
      let center ← histogramAtoms maxTraceCells depth
        ⟨r.oldStart + shared, oldCenterEnd, r.newStart + shared, newCenterEnd⟩
      return (range shared).map (fun offset =>
          .equal (r.oldStart + offset) (r.newStart + offset))
        ++ center
        ++ (range (r.oldEnd - oldCenterEnd)).map fun offset =>
          .equal (oldCenterEnd + offset) (newCenterEnd + offset)
    else
      match ← histogramAnchor old new r with
      | none => Prod.fst <$> minimalAtoms old new r maxTraceCells
      | some anchor => between (histogramAtoms maxTraceCells depth) [anchor] r

end Patience

section Correct

variable {old new : TokenStream} {r : Region}

/-! ### Scripts and anchors of a region -/

/-- A script of the region that keeps equal texts. -/
structure Solves (old new : TokenStream) (r : Region) (s : List AtomicEdit) : Prop where
  script : Script (Same old.units new.units) r.oldStart r.newStart r.oldEnd r.newEnd s
  tight : Tight old.units new.units r.oldStart r.newStart s

variable {s : List AtomicEdit}

section

variable (hr : r.Within old new)
include hr

theorem Optimal.solves (h : Optimal old new r s) : Solves old new r s := by
  exact ⟨h.script, h.script.tight hr.old_units hr.new_units h.kept_eq⟩

/-- Between equal texts of the region the anchor has the same place in both. -/
def Aligned (old new : TokenStream) (r : Region) (p : Anchor) : Prop :=
  ∀ i₁ j₁ i₂ j₂, r.oldStart ≤ i₁ → i₁ ≤ p.1 → p.1 < i₂ → i₂ ≤ r.oldEnd →
    r.newStart ≤ j₁ → j₁ ≤ p.2 → p.2 < j₂ → j₂ ≤ r.newEnd →
    slice old.units i₁ i₂ = slice new.units j₁ j₂ → p.1 - i₁ = p.2 - j₁

/-- A match within the region that is aligned. -/
structure Anchored (old new : TokenStream) (r : Region) (p : Anchor) : Prop where
  old_ge : r.oldStart ≤ p.1
  old_lt : p.1 < r.oldEnd
  new_ge : r.newStart ≤ p.2
  new_lt : p.2 < r.newEnd
  equal : old.equal p.1 new p.2 = true
  aligned : Aligned old new r p

variable {p : Anchor}

theorem Anchored.same (h : Anchored old new r p) : Same old.units new.units p.1 p.2 :=
  (equal_iff (h.old_lt.trans_le hr.old_end) (h.new_lt.trans_le hr.new_end)).mp h.equal

variable {i j : ℕ}

omit hr in
/-- What comes after an earlier anchor. -/
theorem Anchored.after (h : Anchored old new r p) (hi : r.oldStart ≤ i) (hi' : i ≤ p.1)
    (hj : r.newStart ≤ j) (hj' : j ≤ p.2) :
    Anchored old new { r with oldStart := i, newStart := j } p where
  old_ge := hi'
  old_lt := h.old_lt
  new_ge := hj'
  new_lt := h.new_lt
  equal := h.equal
  aligned i₁ j₁ i₂ j₂ h₁ h₂ h₃ h₄ h₅ h₆ h₇ h₈ :=
    h.aligned i₁ j₁ i₂ j₂ (hi.trans h₁) h₂ h₃ h₄ (hj.trans h₅) h₆ h₇ h₈

/-- Scripts on both sides of an anchor. -/
theorem Solves.join {t : List AtomicEdit}
    (hanchor : Anchored old new r (i, j))
    (hs : Solves old new { r with oldEnd := i, newEnd := j } s)
    (ht : Solves old new { r with oldStart := i + 1, newStart := j + 1 } t) :
    Solves old new r (s ++ .equal i j :: t) where
  script := hs.script.append (.equal (hanchor.same hr) ht.script)
  tight := hs.tight.join ht.tight hs.script ht.script hanchor.aligned

/-! ### Why anchors are aligned -/

omit hr in
theorem unit_eq_of_same (hi : i < old.tokens.length) (hj : j < new.tokens.length)
    (h : Same old.units new.units i j) : old.unit i = new.unit j :=
  of_decide_eq_true ((equal_iff hi hj).mpr h)

/-- Equal texts have equal units at equal places. -/
theorem unit_eq_of_slice_eq {i₁ j₁ i₂ j₂ k : ℕ}
    (h : slice old.units i₁ i₂ = slice new.units j₁ j₂) (hi : i₂ ≤ r.oldEnd) (hj : j₂ ≤ r.newEnd)
    (hk : k < i₂ - i₁ ∨ k < j₂ - j₁) :
    i₁ + k < i₂ ∧ j₁ + k < j₂ ∧ old.unit (i₁ + k) = new.unit (j₁ + k) := by
  have hold := hi.trans hr.old_units
  have hnew := hj.trans hr.new_units
  have hlength := congrArg length h
  rw [length_slice hold, length_slice hnew] at hlength
  rw [length_units] at hold hnew
  have hki : k < i₂ - i₁ := by omega
  have hkj : k < j₂ - j₁ := by omega
  refine ⟨by omega, by omega, unit_eq_of_same (by omega) (by omega) ?_⟩
  exact same_of_slice_eq h hki hkj (by rwa [length_units])

theorem aligned_of_unique (hequal : old.unit p.1 = new.unit p.2)
    (hunique : ∀ i, r.oldStart ≤ i → i < r.oldEnd → old.unit i = old.unit p.1 → i = p.1) :
    Aligned old new r p := by
  intro i₁ j₁ i₂ j₂ h₁ h₂ h₃ h₄ h₅ h₆ h₇ h₈ hslice
  obtain ⟨hlt, -, hunit⟩ := unit_eq_of_slice_eq hr hslice h₄ h₈ (k := p.2 - j₁) (.inr (by omega))
  rw [Nat.add_sub_cancel' h₆, ← hequal] at hunit
  have hplace := hunique (i₁ + (p.2 - j₁)) (by omega) (by omega) hunit
  omega

theorem aligned_of_first (hequal : old.unit p.1 = new.unit p.2)
    (hold : ∀ i, r.oldStart ≤ i → i < p.1 → old.unit i ≠ old.unit p.1)
    (hnew : ∀ j, r.newStart ≤ j → j < p.2 → new.unit j ≠ new.unit p.2) : Aligned old new r p := by
  intro i₁ j₁ i₂ j₂ h₁ h₂ h₃ h₄ h₅ h₆ h₇ h₈ hslice
  -- an earlier place in one text would be an earlier occurrence in the other
  obtain ⟨-, -, hunit⟩ := unit_eq_of_slice_eq hr hslice h₄ h₈ (k := p.2 - j₁) (.inr (by omega))
  obtain ⟨-, -, hunit'⟩ := unit_eq_of_slice_eq hr hslice h₄ h₈ (k := p.1 - i₁) (.inl (by omega))
  rw [Nat.add_sub_cancel' h₆, ← hequal] at hunit
  rw [Nat.add_sub_cancel' h₂, hequal] at hunit'
  have hle : p.1 ≤ i₁ + (p.2 - j₁) := by
    by_contra hlt
    exact hold _ (by omega) (by omega) hunit
  have hle' : p.2 ≤ j₁ + (p.1 - i₁) := by
    by_contra hlt
    exact hnew _ (by omega) (by omega) hunit'.symm
  omega

end

/-! ### Unique units -/

theorem countOccurrences_gives (i : ℕ) (l : List ℕ) : Gives (countOccurrences old i l) fun count =>
      count = (l.filter fun candidate => old.equal i old candidate).length := by
  refine .foldlM (I := fun done (count : ℕ) =>
    count = (done.filter fun candidate => old.equal i old candidate).length) rfl ?_
  intro done x rest count _ hI
  refine .pay (.pure ?_)
  rw [filter_append, length_append, ← hI]
  by_cases heq : old.equal i old x = true
  · simp [heq]
  · simp [heq]

theorem countMatching_gives (i : ℕ) (l : List ℕ) : Gives (countMatching old new i l) fun found =>
      ∀ j, found.2 = some j → j ∈ l ∧ old.equal i new j = true := by
  refine .foldlM (I := fun done (found : ℕ × Option ℕ) =>
    ∀ j, found.2 = some j → j ∈ done ∧ old.equal i new j = true) ?_ ?_
  · intro j hj
    cases hj
  · intro done x rest found _ hI
    refine .pay (.pure fun j hj => ?_)
    by_cases heq : old.equal i new x = true
    · rw [if_pos heq] at hj
      cases hj
      exact ⟨by simp, heq⟩
    · rw [if_neg heq] at hj
      obtain ⟨hmem, hequal⟩ := hI j hj
      exact ⟨mem_append_left _ hmem, hequal⟩

theorem uniqueAnchors_gives (hr : r.Within old new) : Gives (uniqueAnchors old new r) fun anchors =>
      (∀ p ∈ anchors, Anchored old new r p) ∧ anchors.Pairwise (·.1 < ·.1) := by
  refine (foldlM (I := fun done (anchors : List Anchor) =>
    (∀ p ∈ anchors, Anchored old new r p ∧ p.1 < r.oldStart + done.length) ∧
      anchors.Pairwise (·.1 < ·.1)) ?_ ?_).mono fun anchors h => ⟨fun p hp => (h.1 p hp).1, h.2⟩
  · exact ⟨by simp, .nil⟩
  · intro done x rest anchors hl hI
    obtain ⟨rfl, hlen⟩ := range'_split hl
    rw [oldLen] at hlen
    have hkeep : (∀ p ∈ anchors, Anchored old new r p ∧
        p.1 < r.oldStart + (done ++ [r.oldStart + done.length]).length) ∧
        anchors.Pairwise (·.1 < ·.1) := by
      refine ⟨fun p hp => ⟨(hI.1 p hp).1, ?_⟩, hI.2⟩
      rw [length_append]
      exact (hI.1 p hp).2.trans_le (by omega)
    refine (countOccurrences_gives _ _).bind fun oldCount hcount => ?_
    split
    · exact pure hkeep
    next hone =>
    refine (countMatching_gives _ _).bind ?_
    rintro ⟨newCount, matching⟩ hmatching
    split
    · next j heq =>
      cases heq
      obtain ⟨hmem, hequal⟩ := hmatching j rfl
      obtain ⟨hj, hj'⟩ := mem_range'_1.mp hmem
      rw [newLen] at hj'
      have haligned : Aligned old new r (r.oldStart + done.length, j) := by
        refine aligned_of_unique hr (of_decide_eq_true hequal) fun i hi hi' hunit => ?_
        -- both are the one occurrence that was counted
        rw [not_not.mp hone] at hcount
        obtain ⟨x, hx⟩ := length_eq_one_iff.mp hcount.symm
        have hfound : ∀ i, r.oldStart ≤ i → i < r.oldEnd →
            old.unit i = old.unit (r.oldStart + done.length) → i = x := by
          intro i hi hi' hunit
          refine mem_singleton.mp (hx ▸ mem_filter.mpr ⟨?_, decide_eq_true hunit.symm⟩)
          rw [mem_range'_1, oldLen]
          omega
        exact (hfound i hi hi' hunit).trans (hfound _ (by omega) (by omega) rfl).symm
      refine pure ⟨forall_mem_append.mpr ⟨hkeep.1, forall_mem_singleton.mpr ?_⟩, ?_⟩
      · exact ⟨⟨by omega, by omega, hj, by omega, hequal, haligned⟩, by simp⟩
      · refine pairwise_append.mpr ⟨hI.2, pairwise_singleton _ _, fun p hp q hq => ?_⟩
        obtain rfl := mem_singleton.mp hq
        exact (hI.1 p hp).2
    · exact pure hkeep

/-! ### Runs increase -/

/-- One anchor comes before another on both sides. -/
def Before (p q : Anchor) : Prop := p.1 < q.1 ∧ p.2 < q.2

/-- Runs go back to earlier anchors with smaller new positions. -/
structure Chains.Linked (anchors : List Anchor) (c : Chains) : Prop where
  pos : ∀ i, 0 < c.lengths i
  back : ∀ i j, c.previous i = some j → j < i ∧ (anchorAt anchors j).2 < (anchorAt anchors i).2

variable {anchors : List Anchor}

theorem Chains.Linked.extend {c : Chains} (h : c.Linked anchors) {current candidate : ℕ}
    (hlt : candidate < current) : (c.extend anchors current candidate).Linked anchors := by
  rw [Chains.extend]
  split
  · next hbetter =>
    refine ⟨(forall_update_iff _ fun _ n => 0 < n).mpr ⟨succ_pos _, fun i _ => h.pos i⟩,
      (forall_update_iff c.previous fun i prev => ∀ j, prev = some j →
        j < i ∧ (anchorAt anchors j).2 < (anchorAt anchors i).2).mpr
          ⟨fun j hj => ?_, fun i _ => h.back i⟩⟩
    cases hj
    exact ⟨hlt, hbetter.1⟩
  · exact h

theorem growChains_gives (anchors : List Anchor) :
    Gives (growChains anchors) (Chains.Linked anchors) := by
  refine foldlM (I := fun _ c => Chains.Linked anchors c) ?_ ?_
  · exact ⟨fun _ => one_pos, fun i j hij => by cases hij⟩
  · intro done current rest c _ hc
    refine foldlM (I := fun _ c => Chains.Linked anchors c) hc ?_
    intro done candidate rest c hl hc
    have hmem : candidate ∈ range current := by
      rw [hl]
      simp
    exact .pay (.pure (hc.extend (mem_range.mp hmem)))

theorem longestEnd_lt {lengths : ℕ → ℕ} {count : ℕ} (h : longestEnd lengths count = some i) :
    i < count := by
  induction count with
  | zero => cases h
  | succ n ih =>
    simp only [longestEnd] at ih h
    rw [range_succ, foldl_append, foldl_cons, foldl_nil] at h
    split at h
    · cases h
      exact lt_succ_self _
    · exact (ih h).trans (lt_succ_self n)

theorem anchorAt_mem (h : i < anchors.length) : anchorAt anchors i ∈ anchors := by
  rw [anchorAt, getD_eq_getElem _ _ h]
  exact getElem_mem h

theorem anchorAt_lt (hanchors : anchors.Pairwise (·.1 < ·.1)) (hij : i < j)
    (hj : j < anchors.length) : (anchorAt anchors i).1 < (anchorAt anchors j).1 := by
  rw [anchorAt, anchorAt, getD_eq_getElem _ _ hj, getD_eq_getElem _ _ (hij.trans hj)]
  exact pairwise_iff_getElem.mp hanchors i j (hij.trans hj) hj hij

theorem collectRun_eq {c : Chains} (hlinked : c.Linked anchors)
    (hanchors : anchors.Pairwise (·.1 < ·.1)) {current : ℕ} {run : List Anchor}
    (hcur : current < anchors.length) (hrun : (anchorAt anchors current :: run).Pairwise Before)
    (hmem : ∀ p ∈ run, p ∈ anchors) :
    ∃ l, collectRun anchors c.previous current run = .ok l ∧ l.Pairwise Before ∧
      ∀ p ∈ l, p ∈ anchors := by
  induction current using Nat.strongRecOn generalizing run with
  | ind current ih =>
    have hmem' : ∀ p ∈ anchorAt anchors current :: run, p ∈ anchors :=
      forall_mem_cons.mpr ⟨anchorAt_mem hcur, hmem⟩
    rw [collectRun]
    cases hprev : c.previous current with
    | none => exact ⟨_, rfl, hrun, hmem'⟩
    | some next =>
      obtain ⟨hlt, hnew⟩ := hlinked.back current next hprev
      have hbefore : Before (anchorAt anchors next) (anchorAt anchors current) :=
        ⟨anchorAt_lt hanchors hlt hcur, hnew⟩
      dsimp only
      rw [if_pos hlt]
      refine ih next hlt (hlt.trans hcur) ?_ hmem'
      refine pairwise_cons.mpr ⟨forall_mem_cons.mpr ⟨hbefore, fun p hp => ?_⟩, hrun⟩
      obtain ⟨h₁, h₂⟩ := (pairwise_cons.mp hrun).1 p hp
      exact ⟨hbefore.1.trans h₁, hbefore.2.trans h₂⟩

theorem longestIncreasingAnchors_gives (hanchors : anchors.Pairwise (·.1 < ·.1)) :
    Gives (longestIncreasingAnchors anchors) fun l =>
      l.Pairwise Before ∧ ∀ p ∈ l, p ∈ anchors := by
  refine (growChains_gives anchors).bind fun c hc => ?_
  split
  · exact .pure ⟨.nil, by simp⟩
  · next current hcur =>
    obtain ⟨l, heq, hl, hmem⟩ := collectRun_eq hc hanchors (longestEnd_lt hcur)
      (pairwise_singleton Before _) (by simp)
    rw [heq]
    exact .pure ⟨hl, hmem⟩

/-! ### Scripts around anchors -/

theorem between_gives {solve : Region → Budgeted (List AtomicEdit)} {n : ℕ}
    (hsolve : ∀ r : Region, r.Within old new → r.oldLen < n → Gives (solve r) (Solves old new r))
    (hanchored : ∀ p ∈ anchors, Anchored old new r p) (hbefore : anchors.Pairwise Before)
    (hr : r.Within old new) (hlen : r.oldLen ≤ n) (hne : anchors = [] → r.oldLen < n) :
    Gives (between solve anchors r) (Solves old new r) := by
  induction anchors generalizing r with
  | nil => exact hsolve r hr (hne rfl)
  | cons p anchors ih =>
    obtain ⟨i, j⟩ := p
    obtain ⟨hfirst, hrest⟩ := pairwise_cons.mp hbefore
    have hanchor := hanchored (i, j) mem_cons_self
    have hi := hanchor.old_ge
    have hi' := hanchor.old_lt
    have hj := hanchor.new_ge
    have hj' := hanchor.new_lt
    have hold := hr.old_end
    have hnew := hr.new_end
    rw [oldLen] at hlen
    refine (hsolve { r with oldEnd := i, newEnd := j }
      ⟨hi, hi'.le.trans hold, hj, hj'.le.trans hnew⟩ ?_).bind fun part hpart => ?_
    · show i - r.oldStart < n
      omega
    refine (ih (r := { r with oldStart := i + 1, newStart := j + 1 }) ?_ hrest
      ⟨hi', hold, hj', hnew⟩ ?_ ?_).bind fun rest hrest => ?_
    · intro p hp
      obtain ⟨h₁, h₂⟩ := hfirst p hp
      exact (hanchored p (mem_cons_of_mem _ hp)).after (by omega) h₁ (by omega) h₂
    · show r.oldEnd - (i + 1) ≤ n
      omega
    · intro _
      show r.oldEnd - (i + 1) < n
      omega
    · exact .pure (hpart.join hr hanchor hrest)

theorem patienceAtoms_gives (maxTraceCells : ℕ) {depth : ℕ} (hr : r.Within old new)
    (hdepth : r.oldLen < depth) :
    Gives (patienceAtoms old new maxTraceCells depth r) (Solves old new r) := by
  induction depth generalizing r with
  | zero => exact absurd hdepth (not_lt_zero _)
  | succ depth ih =>
    refine (uniqueAnchors_gives hr).bind fun anchors hanchors => ?_
    refine (longestIncreasingAnchors_gives hanchors.2).bind fun l hl => ?_
    split
    · exact .map ((minimalAtoms_gives hr maxTraceCells).mono fun p hp => hp.solves hr)
    · next hne =>
      refine between_gives (n := r.oldLen) (fun r' hr' hlt => ih hr' (by omega))
        (fun p hp => hanchors.1 p (hl.2 p hp)) hl.1 hr le_rfl fun h => absurd h hne

/-! ### Histogram -/

theorem sharedStart_gives {shared : ℕ}
    (hshared : ∀ k < shared, old.equal (r.oldStart + k) new (r.newStart + k) = true)
    (hold : r.oldStart + shared ≤ r.oldEnd) (hnew : r.newStart + shared ≤ r.newEnd) :
    Gives (sharedStart old new r shared) fun shared =>
      r.oldStart + shared ≤ r.oldEnd ∧ r.newStart + shared ≤ r.newEnd ∧
        ∀ k < shared, old.equal (r.oldStart + k) new (r.newStart + k) = true := by
  induction hn : r.oldEnd - (r.oldStart + shared) generalizing shared with
  | zero =>
    rw [sharedStart, if_neg (by omega)]
    exact .pure ⟨hold, hnew, hshared⟩
  | succ n ih =>
    rw [sharedStart]
    split
    · next h =>
      refine .pay (ih (fun k hk => ?_) h.1 h.2.1 (by omega))
      rcases Nat.lt_succ_iff_lt_or_eq.mp hk with hk | rfl
      · exact hshared k hk
      · exact h.2.2
    · exact .pure ⟨hold, hnew, hshared⟩

/-- A shared end that begins at two positions. -/
structure SharedEnd (old new : TokenStream) (r : Region) (shared oldCenterEnd newCenterEnd : ℕ) :
    Prop where
  old_ge : r.oldStart + shared ≤ oldCenterEnd
  new_ge : r.newStart + shared ≤ newCenterEnd
  old_le : oldCenterEnd ≤ r.oldEnd
  length : r.oldEnd - oldCenterEnd = r.newEnd - newCenterEnd
  new_le : newCenterEnd ≤ r.newEnd
  equal : ∀ k < r.oldEnd - oldCenterEnd, old.equal (oldCenterEnd + k) new (newCenterEnd + k) = true

theorem sharedEnd_gives {shared oldCenterEnd newCenterEnd : ℕ}
    (h : SharedEnd old new r shared oldCenterEnd newCenterEnd) :
    Gives (sharedEnd old new r shared oldCenterEnd newCenterEnd) fun p =>
      SharedEnd old new r shared p.1 p.2 := by
  induction oldCenterEnd generalizing newCenterEnd with
  | zero =>
    rw [sharedEnd, if_neg (by omega)]
    exact .pure h
  | succ i ih =>
    rw [sharedEnd]
    split
    · next hmore =>
      obtain ⟨hi, hj, heq⟩ := hmore
      have hlength := h.length
      have hold := h.old_le
      have hnew := h.new_le
      refine .pay (ih ⟨by omega, by omega, by omega, by omega, by omega, fun k hk => ?_⟩)
      cases k with
      | zero => exact heq
      | succ k =>
        have hnext := h.equal k (by omega)
        rwa [show i + 1 + k = i + (k + 1) by omega,
          show newCenterEnd + k = newCenterEnd - 1 + (k + 1) by omega] at hnext
    · exact .pure h

/-- What is known of a unit: its first positions among those that were read. -/
def Tallied (old new : TokenStream) (frequencies : BTreeMap Bytes HistogramRecord)
    (oldDone newDone : List ℕ) : Prop :=
  ∀ key : Bytes, (frequencies[key]?.getD {}).firstOld
      = oldDone.find? (fun i => old.bytesFor i (i + 1) = key) ∧
    (frequencies[key]?.getD {}).firstNew = newDone.find? fun j => new.bytesFor j (j + 1) = key

variable {frequencies : BTreeMap Bytes HistogramRecord} {oldDone newDone : List ℕ}

theorem getD_insert_record (key key' : Bytes) (record : HistogramRecord) :
    (frequencies.insert key record)[key']?.getD {}
      = if key = key' then record else frequencies[key']?.getD {} := by
  rw [Std.ExtTreeMap.getElem?_insert]
  simp only [Std.LawfulEqCmp.compare_eq_iff_eq]
  split <;> rfl

/-- A position that is read last is the first one only if there was none. -/
theorem find?_concat (l : List ℕ) (i : ℕ) (p : ℕ → Bool) :
    (l ++ [i]).find? p = if p i ∧ (l.find? p).isNone then some i else l.find? p := by
  rw [find?_append, find?_singleton]
  cases l.find? p with
  | none => simp
  | some first => simp

theorem Tallied.seeOld (h : Tallied old new frequencies oldDone newDone) (i : ℕ) :
    Tallied old new (frequencies.insert (old.bytesFor i (i + 1))
      ((frequencies[old.bytesFor i (i + 1)]?.getD {}).seeOld i)) (oldDone ++ [i]) newDone := by
  intro key
  obtain ⟨hold, hnew⟩ := h key
  rw [getD_insert_record, find?_concat, ← hold, ← hnew]
  by_cases hkey : old.bytesFor i (i + 1) = key
  · subst hkey
    simp [HistogramRecord.seeOld]
  · simp [hkey]

theorem Tallied.seeNew (h : Tallied old new frequencies oldDone newDone) (j : ℕ) :
    Tallied old new (frequencies.insert (new.bytesFor j (j + 1))
      ((frequencies[new.bytesFor j (j + 1)]?.getD {}).seeNew j)) oldDone (newDone ++ [j]) := by
  intro key
  obtain ⟨hold, hnew⟩ := h key
  rw [getD_insert_record, find?_concat, ← hold, ← hnew]
  by_cases hkey : new.bytesFor j (j + 1) = key
  · subst hkey
    simp [HistogramRecord.seeNew]
  · simp [hkey]

/-- The first positions of a unit that both sides have are an anchor. -/
theorem Tallied.anchored (hr : r.Within old new)
    (h : Tallied old new frequencies (range' r.oldStart r.oldLen)
      (range' r.newStart r.newLen)) {key : Bytes} {record : HistogramRecord}
    (hrec : frequencies[key]? = some record) (hi : record.firstOld = some i)
    (hj : record.firstNew = some j) : Anchored old new r (i, j) := by
  have hold := hr.old_end
  have hnew := hr.new_end
  obtain ⟨hfirst, hfirst'⟩ := h key
  rw [hrec, getD_some, hi, eq_comm, find?_range'_eq_some] at hfirst
  rw [hrec, getD_some, hj, eq_comm, find?_range'_eq_some] at hfirst'
  obtain ⟨hikey, himem, hibefore⟩ := hfirst
  obtain ⟨hjkey, hjmem, hjbefore⟩ := hfirst'
  rw [mem_range'_1, oldLen] at himem
  rw [mem_range'_1, newLen] at hjmem
  have hiunit : old.unit i = key := by
    rw [← old.bytesFor_unit (by omega)]
    exact of_decide_eq_true hikey
  have hjunit : new.unit j = key := by
    rw [← new.bytesFor_unit (by omega)]
    exact of_decide_eq_true hjkey
  refine ⟨himem.1, by omega, hjmem.1, by omega, decide_eq_true (hiunit.trans hjunit.symm), ?_⟩
  refine aligned_of_first hr (hiunit.trans hjunit.symm) (fun i' h₁ h₂ heq => ?_)
    fun j' h₁ h₂ heq => ?_
  · have hbefore := hibefore i' h₁ h₂
    rw [old.bytesFor_unit (by dsimp only at h₂; omega), heq, hiunit] at hbefore
    simp at hbefore
  · have hbefore := hjbefore j' h₁ h₂
    rw [new.bytesFor_unit (by dsimp only at h₂; omega), heq, hjunit] at hbefore
    simp at hbefore

theorem selectRarest_anchored {record : HistogramRecord}
    (hrec : ∀ i j, record.firstOld = some i → record.firstNew = some j →
      Anchored old new r (i, j)) {selected : Option (ℕ × ℕ × ℕ)}
    (h : ∀ c, selected = some c → Anchored old new r c.2) :
    ∀ c, selectRarest selected record = some c → Anchored old new r c.2 := by
  intro c hc
  rw [selectRarest] at hc
  split at hc
  · next i j hi hj =>
    have hcand := hrec i j hi hj
    split at hc
    · cases hc
      exact hcand
    · next current =>
      dsimp only at hc
      split at hc
      · cases hc
        exact hcand
      · exact h c hc
  · exact h c hc

theorem histogramAnchor_gives (hr : r.Within old new) :
    Gives (histogramAnchor old new r) fun anchor =>
      ∀ p, anchor = some p → Anchored old new r p := by
  refine WorkBudget.Gives.bind
    (.foldlM (I := fun done frequencies => Tallied old new frequencies done []) ?_ ?_)
    fun frequencies hfreq => ?_
  · intro key
    simp
  · intro done i rest frequencies _ hI
    exact .pay (.pure (hI.seeOld i))
  refine WorkBudget.Gives.bind (.foldlM (I := fun done frequencies => Tallied old new frequencies
      (range' r.oldStart r.oldLen) done) hfreq ?_)
    fun frequencies hfreq => ?_
  · intro done j rest frequencies _ hI
    exact .pay (.pure (hI.seeNew j))
  refine .pure fun p hp => ?_
  obtain ⟨c, hc, rfl⟩ := map_eq_some_iff.mp hp
  refine foldlRecOn frequencies.toList _
    (motive := fun selected => ∀ c, selected = some c → Anchored old new r c.2)
    (fun c hc => by cases hc) (fun selected h e he => ?_) c hc
  exact selectRarest_anchored (fun i j hi hj => hfreq.anchored hr
    (Std.ExtTreeMap.mem_toList_iff_getElem?_eq_some.mp he) hi hj) h

/-! ### Shared ends -/

/-- A run of kept pairs. -/
abbrev equalRun (i j n : ℕ) : List AtomicEdit :=
  (range n).map fun offset => .equal (i + offset) (j + offset)

theorem tight_nil (i j : ℕ) : Tight old.units new.units i j [] := by
  intro s₁ s₂ s₃ i₁ j₁ i₂ j₂ heq _ _ _
  obtain ⟨-, hrest⟩ := append_eq_nil_iff.mp heq.symm
  rw [(append_eq_nil_iff.mp hrest).1]
  rfl

/-- One more pair at the front. -/
theorem Solves.cons (hr : Within ⟨i, r.oldEnd, j, r.newEnd⟩ old new) (hi : i < r.oldEnd)
    (hj : j < r.newEnd) (hequal : old.equal i new j = true)
    (hs : Solves old new ⟨i + 1, r.oldEnd, j + 1, r.newEnd⟩ s) :
    Solves old new ⟨i, r.oldEnd, j, r.newEnd⟩ (.equal i j :: s) := by
  have hanchor : Anchored old new ⟨i, r.oldEnd, j, r.newEnd⟩ (i, j) := by
    refine ⟨le_rfl, hi, le_rfl, hj, hequal, ?_⟩
    intro i₁ j₁ i₂ j₂ h₁ h₂ _ _ h₅ h₆ _ _ _
    dsimp only at h₁ h₂ h₅ h₆ ⊢
    omega
  exact .join (s := []) hr hanchor ⟨.nil i j, tight_nil i j⟩ hs

/-- One more pair at the back. -/
theorem Solves.concat (hr : Within ⟨r.oldStart, i + 1, r.newStart, j + 1⟩ old new)
    (hi : r.oldStart ≤ i) (hj : r.newStart ≤ j) (hequal : old.equal i new j = true)
    (hs : Solves old new ⟨r.oldStart, i, r.newStart, j⟩ s) :
    Solves old new ⟨r.oldStart, i + 1, r.newStart, j + 1⟩ (s ++ [.equal i j]) := by
  have hanchor : Anchored old new ⟨r.oldStart, i + 1, r.newStart, j + 1⟩ (i, j) := by
    refine ⟨hi, lt_succ_self i, hj, lt_succ_self j, hequal, ?_⟩
    intro i₁ j₁ i₂ j₂ _ h₂ h₃ h₄ _ h₆ h₇ h₈ hslice
    dsimp only at h₂ h₃ h₄ h₆ h₇ h₈ ⊢
    obtain rfl : i₂ = i + 1 := by omega
    obtain rfl : j₂ = j + 1 := by omega
    -- the texts are equally long, and the pair is at the end of both
    have hlength := congrArg length hslice
    rw [length_slice hr.old_units, length_slice hr.new_units] at hlength
    dsimp only at hlength
    omega
  exact .join hr hanchor hs ⟨.nil _ _, tight_nil _ _⟩

theorem Solves.sharedStart (hr : r.Within old new) {n : ℕ} (hold : r.oldStart + n ≤ r.oldEnd)
    (hnew : r.newStart + n ≤ r.newEnd)
    (hequal : ∀ k < n, old.equal (r.oldStart + k) new (r.newStart + k) = true)
    (hs : Solves old new ⟨r.oldStart + n, r.oldEnd, r.newStart + n, r.newEnd⟩ s) :
    Solves old new r (equalRun r.oldStart r.newStart n ++ s) := by
  induction n generalizing s with
  | zero => exact hs
  | succ n ih =>
    rw [equalRun, range_succ, map_append, append_assoc]
    refine ih (by omega) (by omega) (fun k hk => hequal k (by omega)) ?_
    exact .cons (r := r) (i := r.oldStart + n) (j := r.newStart + n)
      ⟨by dsimp only; omega, hr.old_end, by dsimp only; omega, hr.new_end⟩
      (by omega) (by omega) (hequal n (lt_succ_self n)) hs

theorem Solves.sharedEnd {n : ℕ} (hr : Within ⟨r.oldStart, i + n, r.newStart, j + n⟩ old new)
    (hi : r.oldStart ≤ i) (hj : r.newStart ≤ j)
    (hequal : ∀ k < n, old.equal (i + k) new (j + k) = true)
    (hs : Solves old new ⟨r.oldStart, i, r.newStart, j⟩ s) :
    Solves old new ⟨r.oldStart, i + n, r.newStart, j + n⟩ (s ++ equalRun i j n) := by
  induction n with
  | zero =>
    rw [equalRun, range_zero, map_nil, append_nil]
    exact hs
  | succ n ih =>
    have hold := hr.old_end
    have hnew := hr.new_end
    dsimp only at hold hnew
    rw [equalRun, range_succ, map_append, ← append_assoc]
    refine .concat (r := r) (i := i + n) (j := j + n) hr (by omega) (by omega)
      (hequal n (lt_succ_self n)) ?_
    exact ih ⟨by dsimp only; omega, by dsimp only; omega, by dsimp only; omega,
      by dsimp only; omega⟩ fun k hk => hequal k (by omega)

theorem histogramAtoms_gives (maxTraceCells : ℕ) {depth : ℕ} (hr : r.Within old new)
    (hdepth : r.oldLen < depth) :
    Gives (histogramAtoms old new maxTraceCells depth r) (Solves old new r) := by
  induction depth generalizing r with
  | zero => exact absurd hdepth (not_lt_zero _)
  | succ depth ih =>
    have hold := hr.old_end
    have hnew := hr.new_end
    refine (sharedStart_gives (by simp) hr.old_le hr.new_le).bind fun shared hshared => ?_
    obtain ⟨hs₁, hs₂, hstart⟩ := hshared
    refine (sharedEnd_gives ⟨hs₁, hs₂, le_rfl, by simp, le_rfl, by simp⟩).bind ?_
    rintro ⟨oldCenterEnd, newCenterEnd⟩ hend
    have hlength := hend.length
    have hend₁ := hend.old_le
    have hend₂ := hend.new_le
    have hold_ge := hend.old_ge
    have hnew_ge := hend.new_ge
    dsimp only at hlength hend₁ hend₂ hold_ge hnew_ge ⊢
    split
    · next hshrinks =>
      refine (ih (r := ⟨r.oldStart + shared, oldCenterEnd, r.newStart + shared, newCenterEnd⟩)
        ⟨hold_ge, hend₁.trans hold, hnew_ge, hend₂.trans hnew⟩ ?_).bind fun center hcenter => ?_
      · rw [oldLen] at hdepth ⊢
        dsimp only
        omega
      have hinner : oldCenterEnd + (r.oldEnd - oldCenterEnd) = r.oldEnd := by omega
      have hinner' : newCenterEnd + (r.oldEnd - oldCenterEnd) = r.newEnd := by omega
      have hcenter' := Solves.sharedEnd
        (r := ⟨r.oldStart + shared, oldCenterEnd, r.newStart + shared, newCenterEnd⟩)
        (n := r.oldEnd - oldCenterEnd)
        ⟨by dsimp only; omega, by dsimp only; omega, by dsimp only; omega, by dsimp only; omega⟩
        hold_ge hnew_ge hend.equal hcenter
      rw [hinner, hinner'] at hcenter'
      refine .pure ?_
      rw [append_assoc]
      exact .sharedStart hr hs₁ hs₂ hstart hcenter'
    · refine (histogramAnchor_gives hr).bind ?_
      intro found hanchor
      cases found with
      | none => exact .map ((minimalAtoms_gives hr maxTraceCells).mono fun p hp => hp.solves hr)
      | some anchor =>
        refine between_gives (n := r.oldLen) (fun r' hr' hlt => ih hr' (by omega)) ?_
          (pairwise_singleton Before _) hr le_rfl fun h => absurd h (cons_ne_nil _ _)
        exact forall_mem_singleton.mpr (hanchor anchor rfl)

end Correct

end Frankengit.Diff
