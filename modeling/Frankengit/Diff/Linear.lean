/-
Frankengit/Diff/Linear.lean

Linear-space refinement (crate `fgit-diff`): the old side is halved, two rows of
longest-common-subsequence lengths say where the new side is to be cut, and the
two parts are solved on their own.  `minimalAtoms` uses it when the trace would
exceed its limit.

A row is a function of the offset on the new side.  Both ways of computing a
minimal script keep as many units as any script does (`Optimal`).
-/
import Frankengit.Diff.Trace

namespace Frankengit.Diff

open Alignment WorkBudget List Function Region TokenStream Nat Gives

/-- The lengths for every offset of the new side. -/
abbrev Row := ℕ → ℕ

section Refinement

variable (old new : TokenStream)

/-! ### Rows -/

/-- The next row from the front, with one more old unit. -/
def prefixRow (oldIndex newStart width : ℕ) (previous : Row) : Budgeted Row :=
  (range width).foldlM (fun current newOffset => do
    consume 1
    return Function.update current (newOffset + 1)
      (if old.equal oldIndex new (newStart + newOffset) then previous newOffset + 1
      else max (previous (newOffset + 1)) (current newOffset))) fun _ => 0

variable (r : Region)

def lcsPrefix : Budgeted Row :=
  (range' r.oldStart r.oldLen).foldlM
    (fun previous oldIndex => prefixRow old new oldIndex r.newStart r.newLen previous) fun _ => 0

/-- The next row from the back, with one more old unit. -/
def suffixRow (oldIndex newStart width : ℕ) (previous : Row) : Budgeted Row :=
  (range width).reverse.foldlM (fun current newOffset => do
    consume 1
    return Function.update current newOffset
      (if old.equal oldIndex new (newStart + newOffset) then previous (newOffset + 1) + 1
      else max (previous newOffset) (current (newOffset + 1)))) fun _ => 0

def lcsSuffix : Budgeted Row :=
  (range' r.oldStart r.oldLen).reverse.foldlM
    (fun previous oldIndex => suffixRow old new oldIndex r.newStart r.newLen previous) fun _ => 0

/-- The first offset with the best total. -/
def bestSplit (score : ℕ → ℕ) (width : ℕ) : ℕ :=
  ((range (width + 1)).foldl (fun (best, newMiddle) split =>
    if best < score split then (score split, split) else (best, newMiddle)) (0, 0)).2

/-! ### Refinement -/

/-- The first of the positions that equals the old unit. -/
def findMatching (oldIndex : ℕ) : List ℕ → Budgeted (Option ℕ)
  | [] => return none
  | newIndex :: rest => do
    consume 1
    if old.equal oldIndex new newIndex then return some newIndex
    else findMatching oldIndex rest

/-- One old unit. -/
def hirschbergSingle : Budgeted (List AtomicEdit) := do
  match ← findMatching old new r.oldStart (range' r.newStart r.newLen) with
  | some matching =>
    consume r.newLen
    return (range' r.newStart (matching - r.newStart)).map .insert ++ .equal r.oldStart matching
        :: (range' (matching + 1) (r.newEnd - (matching + 1))).map .insert
  | none =>
    consume (r.newLen + 1)
    return .delete r.oldStart :: (range' r.newStart r.newLen).map .insert

def hirschbergAtoms (r : Region) : Budgeted (List AtomicEdit) :=
  if r.oldLen = 0 then do
    consume r.newLen
    return (range' r.newStart r.newLen).map .insert
  else if r.newLen = 0 then do
    consume r.oldLen
    return (range' r.oldStart r.oldLen).map .delete
  else if r.oldLen = 1 then
    hirschbergSingle old new r
  else do
    let oldMiddle := r.oldStart + r.oldLen / 2
    let front ← lcsPrefix old new { r with oldEnd := oldMiddle }
    let back ← lcsSuffix old new { r with oldStart := oldMiddle }
    let newMiddle := r.newStart + bestSplit (fun split => front split + back split) r.newLen
    let output ← hirschbergAtoms { r with oldEnd := oldMiddle, newEnd := newMiddle }
    let rest ← hirschbergAtoms { r with oldStart := oldMiddle, newStart := newMiddle }
    return output ++ rest
termination_by r.oldLen
decreasing_by
  all_goals
    simp only [oldLen] at *
    omega

def minimalAtoms (maxTraceCells : ℕ) : Budgeted (List AtomicEdit × DiffAlgorithm) := do
  match ← myersTraceAtoms old new r maxTraceCells with
  | some atoms => return (atoms, .myersTrace)
  | none => return (← hirschbergAtoms old new r, .myersLinearRefinement)

end Refinement

/-! ### What the rows say -/

section Rows

variable {old new : TokenStream} {r : Region}

/-- The position of an element of a range that is being consumed. -/
theorem range'_split {start n x : ℕ} {done rest : List ℕ} (h : range' start n = done ++ x :: rest) :
    x = start + done.length ∧ n = done.length + 1 + rest.length := by
  obtain ⟨k, hk, rfl, hrest⟩ := range'_eq_append_iff.mp h
  obtain ⟨rfl, hpos, rfl⟩ := range'_eq_cons_iff.mp hrest.symm
  simp only [length_range']
  omega

/-- The same, consumed from the back. -/
theorem range'_reverse_split {start n x : ℕ} {done rest : List ℕ}
    (h : (range' start n).reverse = done ++ x :: rest) :
    x = start + rest.length ∧ n = done.length + 1 + rest.length := by
  have hreverse := congrArg reverse h
  rw [reverse_reverse, reverse_append, reverse_cons, append_assoc, singleton_append] at hreverse
  obtain ⟨hx, hn⟩ := range'_split hreverse
  rw [length_reverse] at hx
  rw [length_reverse, length_reverse] at hn
  exact ⟨hx, by omega⟩

/-- The unit at a position. -/
theorem TokenStream.exists_unit (self : TokenStream) {index : ℕ} (h : index < self.tokens.length) :
    ∃ a, self.units[index]? = some a := ⟨_, getElem?_units_of_lt h⟩

/-- Whether two units are equal, by their entries. -/
theorem equal_eq_decide {i j : ℕ} {a b : Bytes} (ha : old.units[i]? = some a)
    (hb : new.units[j]? = some b) : old.equal i new j = decide (a = b) := by
  rw [equal, unit_eq, unit_eq, ha, hb]
  rfl

theorem prefixRow_gives {i₀ i j₀ width : ℕ} {previous : Row} (hi : i₀ ≤ i)
    (hold : i < old.tokens.length) (hnew : j₀ + width ≤ new.tokens.length)
    (hprev : ∀ w ≤ width, previous w = lcs (slice old.units i₀ i) (slice new.units j₀ (j₀ + w))) :
    Gives (prefixRow old new i j₀ width previous) fun row =>
      ∀ w ≤ width, row w = lcs (slice old.units i₀ (i + 1)) (slice new.units j₀ (j₀ + w)) := by
  obtain ⟨a, ha⟩ := old.exists_unit hold
  refine (foldlM (I := fun done (row : Row) => ∀ w ≤ done.length,
    row w = lcs (slice old.units i₀ (i + 1)) (slice new.units j₀ (j₀ + w))) ?_ ?_).mono ?_
  · intro w hw
    obtain rfl : w = 0 := by simpa using hw
    show 0 = lcs _ (slice new.units j₀ j₀)
    rw [slice_self, lcs_nil_right]
  · intro done x rest row hl hI
    rw [range_eq_range'] at hl
    obtain ⟨hx, hwidth⟩ := range'_split hl
    obtain rfl : x = done.length := by omega
    obtain ⟨b, hb⟩ := new.exists_unit (by omega : j₀ + done.length < new.tokens.length)
    refine .pay (.pure fun w hw => ?_)
    rw [length_append, length_singleton] at hw
    rcases Nat.lt_succ_iff_lt_or_eq.mp (Nat.lt_succ_of_le hw) with hlt | rfl
    · rw [update_of_ne hlt.ne]
      exact hI w (by omega)
    · rw [update_self, equal_eq_decide ha hb, ← add_assoc, slice_concat ha hi,
        slice_concat hb (by omega), lcs_concat, hprev _ (by omega), hprev _ (by omega),
        hI _ le_rfl, ← add_assoc, slice_concat hb (by omega), slice_concat ha hi]
      simp only [decide_eq_true_eq]
  · intro row hI w hw
    exact hI w (by rwa [length_range])

variable (hr : r.Within old new)
include hr

theorem lcsPrefix_gives : Gives (lcsPrefix old new r) fun row => ∀ w ≤ r.newLen, row w
      = lcs (slice old.units r.oldStart r.oldEnd)
        (slice new.units r.newStart (r.newStart + w)) := by
  have hold := hr.old_end
  have hold' := hr.old_le
  have hnew := hr.new_end
  have hnew' := hr.new_le
  refine (foldlM (I := fun done (row : Row) => ∀ w ≤ r.newEnd - r.newStart, row w
    = lcs (slice old.units r.oldStart (r.oldStart + done.length))
      (slice new.units r.newStart (r.newStart + w))) ?_ ?_).mono ?_
  · intro w _
    show 0 = lcs (slice old.units r.oldStart r.oldStart) _
    rw [slice_self, lcs_nil_left]
  · intro done x rest row hl hI
    obtain ⟨rfl, hlen⟩ := range'_split hl
    rw [oldLen] at hlen
    rw [length_append, length_singleton, ← add_assoc]
    exact prefixRow_gives (by omega) (by omega) (by rw [newLen]; omega) hI
  · intro row hI w hw
    rw [hI w hw, length_range', oldLen, Nat.add_sub_cancel' hold']

omit hr in
theorem suffixRow_gives {i i₁ j₀ width : ℕ} {previous : Row} (hi : i < i₁)
    (hold : i < old.tokens.length) (hnew : j₀ + width ≤ new.tokens.length)
    (hprev : ∀ w ≤ width, previous w
      = lcs (slice old.units (i + 1) i₁) (slice new.units (j₀ + w) (j₀ + width))) :
    Gives (suffixRow old new i j₀ width previous) fun row =>
      ∀ w ≤ width, row w = lcs (slice old.units i i₁) (slice new.units (j₀ + w) (j₀ + width)) := by
  obtain ⟨a, ha⟩ := old.exists_unit hold
  refine (foldlM (I := fun done (row : Row) => ∀ w ≤ width, width ≤ w + done.length →
    row w = lcs (slice old.units i i₁) (slice new.units (j₀ + w) (j₀ + width))) ?_ ?_).mono ?_
  · intro w hw hle
    obtain rfl : w = width := by simp at hle; omega
    rw [slice_self, lcs_nil_right]
  · intro done x rest row hl hI
    rw [range_eq_range'] at hl
    obtain ⟨hx, hwidth⟩ := range'_reverse_split hl
    obtain ⟨b, hb⟩ := new.exists_unit (by omega : j₀ + x < new.tokens.length)
    refine .pay (.pure fun w hw hle => ?_)
    rw [length_append, length_singleton] at hle
    rcases (by omega : w = x ∨ x < w) with rfl | hlt
    · rw [update_self, equal_eq_decide ha hb, slice_cons ha hi,
        slice_cons hb (by omega), lcs, hprev _ (by omega), hprev _ (by omega),
        hI _ (by omega) (by omega), ← slice_cons ha hi, ← add_assoc,
        ← slice_cons hb (by omega)]
      simp only [decide_eq_true_eq]
    · rw [update_of_ne hlt.ne']
      exact hI w hw (by omega)
  · intro row hI w hw
    exact hI w hw (by rw [length_reverse, length_range]; omega)

theorem lcsSuffix_gives : Gives (lcsSuffix old new r) fun row => ∀ w ≤ r.newLen, row w
      = lcs (slice old.units r.oldStart r.oldEnd) (slice new.units (r.newStart + w) r.newEnd) := by
  have hold := hr.old_end
  have hold' := hr.old_le
  have hnew := hr.new_end
  have hnew' : r.newStart + r.newLen = r.newEnd := by
    rw [newLen, Nat.add_sub_cancel' hr.new_le]
  refine (foldlM (I := fun done (row : Row) => ∀ w ≤ r.newLen, row w
    = lcs (slice old.units (r.oldEnd - done.length) r.oldEnd)
      (slice new.units (r.newStart + w) (r.newStart + r.newLen))) ?_ ?_).mono ?_
  · intro w _
    show 0 = lcs (slice old.units r.oldEnd r.oldEnd) _
    rw [slice_self, lcs_nil_left]
  · intro done x rest row hl hI
    obtain ⟨hx, hlen⟩ := range'_reverse_split hl
    rw [oldLen] at hlen
    rw [length_append, length_singleton,
      show r.oldEnd - (done.length + 1) = x by omega]
    refine suffixRow_gives (by omega) (by omega) (by omega) ?_
    rwa [show r.oldEnd - done.length = x + 1 by omega] at hI
  · intro row hI w hw
    rw [hI w hw, length_reverse, length_range', oldLen, hnew', Nat.sub_sub_self hold']

omit hr in
/-- The chosen offset has the best total. -/
theorem bestSplit_max (score : ℕ → ℕ) (width : ℕ) : bestSplit score width ≤ width ∧
      ∀ w ≤ width, score w ≤ score (bestSplit score width) := by
  suffices h : ∀ n, let p := (range n).foldl (fun (best, newMiddle) split =>
      if best < score split then (score split, split) else (best, newMiddle)) (0, 0)
      (p.2 ≤ n - 1) ∧ (p.1 = score p.2 ∨ p.1 = 0 ∧ p.2 = 0) ∧ ∀ w < n, score w ≤ p.1 by
    obtain ⟨hle, hbest, hmax⟩ := h (width + 1)
    refine ⟨hle, fun w hw => ?_⟩
    have hw' := hmax w (lt_succ_of_le hw)
    rcases hbest with hbest | ⟨hbest, -⟩
    · exact hbest ▸ hw'
    · rw [hbest] at hw'
      exact hw'.trans (zero_le _)
  intro n
  induction n with
  | zero => exact ⟨le_rfl, .inr ⟨rfl, rfl⟩, fun w hw => absurd hw (not_lt_zero w)⟩
  | succ n ih =>
    obtain ⟨hle, hbest, hmax⟩ := ih
    rw [range_succ, foldl_append, foldl_cons, foldl_nil]
    dsimp only
    split
    · next hlt =>
      refine ⟨by simp, .inl rfl, fun w hw => ?_⟩
      rcases Nat.lt_succ_iff_lt_or_eq.mp hw with hw | rfl
      · exact (hmax w hw).trans hlt.le
      · exact le_rfl
    · next hge =>
      refine ⟨hle.trans (by omega), hbest, fun w hw => ?_⟩
      rcases Nat.lt_succ_iff_lt_or_eq.mp hw with hw | rfl
      · exact hmax w hw
      · exact not_lt.mp hge

/-! ### Refinement keeps the most -/

omit hr in
theorem findMatching_gives {i : ℕ} (l : List ℕ) : Gives (findMatching old new i l) fun
      | some j => j ∈ l ∧ old.equal i new j = true
      | none => ∀ j ∈ l, ¬ old.equal i new j = true := by
  induction l with
  | nil => exact .pure fun j hj => absurd hj not_mem_nil
  | cons j l ih =>
    refine .pay ?_
    split
    · next heq => exact .pure ⟨mem_cons_self, heq⟩
    · next hne =>
      refine ih.mono ?_
      rintro (_ | j') h
      · exact forall_mem_cons.mpr ⟨hne, h⟩
      · exact ⟨mem_cons_of_mem _ h.1, h.2⟩

theorem hirschbergSingle_gives (hsingle : r.oldLen = 1) :
    Gives (hirschbergSingle old new r) (Optimal old new r) := by
  have hold := hr.old_end
  have hnew := hr.new_end
  have hnew' := hr.new_le
  have hend : r.oldEnd = r.oldStart + 1 := by
    rw [oldLen] at hsingle
    omega
  have hlt : r.oldStart < old.tokens.length := by omega
  obtain ⟨a, ha⟩ := old.exists_unit hlt
  have hslice : slice old.units r.oldStart r.oldEnd = [a] := by
    rw [hend, slice_cons ha (lt_succ_self _), slice_self]
  refine (findMatching_gives _).bind ?_
  rintro (_ | j) h
  · refine .pay (.pure ⟨?_, ?_⟩)
    · refine .delete ?_
      rw [← hend]
      exact .inserts _ hnew'
    · rw [kept, kept_inserts, hslice, lcs_singleton_of_not_mem]
      intro hmem
      obtain ⟨k, hk, hk', hak⟩ := mem_slice.mp hmem
      refine h k (mem_range'_1.mpr ⟨hk, ?_⟩) ?_
      · rw [newLen]
        omega
      · rw [equal_iff hlt (by omega)]
        exact ⟨a, ha, hak⟩
  · obtain ⟨hmem, heq⟩ := h
    obtain ⟨hj, hj'⟩ := mem_range'_1.mp hmem
    rw [newLen] at hj'
    have hsame := (equal_iff hlt (by omega)).mp heq
    refine pay (pure ⟨?_, ?_⟩)
    · refine (Script.inserts r.oldStart hj).append (.equal hsame ?_)
      rw [← hend]
      exact .inserts _ (by omega)
    · obtain ⟨b, hb, hbj⟩ := hsame
      obtain rfl : a = b := by rwa [ha, Option.some.injEq] at hb
      rw [kept_append, kept_inserts, kept, kept_inserts, hslice, lcs_singleton_of_mem]
      exact mem_slice.mpr ⟨j, hj, by omega, hbj⟩

/-- Two parts that keep the most, cut where no other cut keeps more. -/
theorem Optimal.append {im jm : ℕ} {s t : List AtomicEdit}
    (him : r.oldStart ≤ im) (him' : im ≤ r.oldEnd)
    (hs : Optimal old new { r with oldEnd := im, newEnd := jm } s)
    (ht : Optimal old new { r with oldStart := im, newStart := jm } t)
    (hbest : ∀ j, r.newStart ≤ j → j ≤ r.newEnd →
      lcs (slice old.units r.oldStart im) (slice new.units r.newStart j)
        + lcs (slice old.units im r.oldEnd) (slice new.units j r.newEnd) ≤ kept s + kept t) :
    Optimal old new r (s ++ t) := by
  have hscript := hs.script.append ht.script
  refine ⟨hscript, le_antisymm (hscript.kept_le hr.old_units hr.new_units) ?_⟩
  obtain ⟨x, y, hxy, hlcs⟩ := lcs_append_left (slice old.units r.oldStart im)
    (slice old.units im r.oldEnd) (slice new.units r.newStart r.newEnd)
  rw [slice_append _ him him'] at hlcs
  have hlength := congrArg length hxy
  rw [length_slice hr.new_units, length_append] at hlength
  have hnew := hr.new_le
  have hin : r.newStart + x.length ≤ r.newEnd := by omega
  -- the two parts of the new side are slices
  have hsplit := slice_append new.units (le_add_right r.newStart x.length) hin
  rw [hxy] at hsplit
  have hfront : (slice new.units r.newStart (r.newStart + x.length)).length = x.length := by
    rw [length_slice (hin.trans hr.new_units), Nat.add_sub_cancel_left]
  obtain ⟨hx, hy⟩ := append_inj hsplit hfront
  rw [hlcs, kept_append, ← hx, ← hy]
  exact hbest _ (le_add_right _ _) hin

theorem hirschbergAtoms_gives : Gives (hirschbergAtoms old new r) (Optimal old new r) := by
  induction hn : r.oldLen using Nat.strongRecOn generalizing r with
  | ind n ih =>
  subst hn
  have hold := hr.old_end
  have hold' := hr.old_le
  have hnew := hr.new_end
  have hnew' := hr.new_le
  rw [hirschbergAtoms]
  split
  · next hempty =>
    have hend : r.oldEnd = r.oldStart := by
      rw [oldLen] at hempty
      omega
    refine .pay (.pure ⟨?_, ?_⟩)
    · rw [hend]
      exact .inserts _ hnew'
    · rw [hend, kept_inserts, slice_self, lcs_nil_left]
  split
  · next hempty =>
    have hend : r.newEnd = r.newStart := by
      rw [newLen] at hempty
      omega
    refine .pay (.pure ⟨?_, ?_⟩)
    · rw [hend]
      exact .deletes _ hold'
    · rw [hend, kept_deletes, slice_self, lcs_nil_right]
  split
  · next hsingle => exact hirschbergSingle_gives hr hsingle
  next hne _ hne' =>
  have hmiddle : r.oldStart < r.oldStart + r.oldLen / 2 ∧ r.oldStart + r.oldLen / 2 < r.oldEnd := by
    simp only [oldLen] at hne hne' ⊢
    omega
  generalize r.oldStart + r.oldLen / 2 = m at hmiddle ⊢
  obtain ⟨hm, hm'⟩ := hmiddle
  refine (lcsPrefix_gives (r := { r with oldEnd := m })
    ⟨hm.le, hm'.le.trans hold, hnew', hnew⟩).bind fun front hfront => ?_
  refine (lcsSuffix_gives (r := { r with oldStart := m })
    ⟨hm'.le, hold, hnew', hnew⟩).bind fun back hback => ?_
  obtain ⟨hsplit, hmax⟩ := bestSplit_max (fun split => front split + back split) r.newLen
  simp only [newLen] at hfront hback hsplit hmax ⊢
  generalize bestSplit (fun split => front split + back split) (r.newEnd - r.newStart) = split
    at hsplit hmax
  have hin : r.newStart + split ≤ r.newEnd := by omega
  refine (ih _ ?_ (r := { r with oldEnd := m, newEnd := r.newStart + split })
    ⟨hm.le, hm'.le.trans hold, le_add_right _ _, hin.trans hnew⟩ rfl).bind fun s hs => ?_
  · simp only [oldLen]
    omega
  refine (ih _ ?_ (r := { r with oldStart := m, newStart := r.newStart + split })
    ⟨hm'.le, hold, hin, hnew⟩ rfl).bind fun t ht => ?_
  · simp only [oldLen]
    omega
  refine .pure (hs.append hr hm.le hm'.le ht fun j hj hj' => ?_)
  have hbest := hmax (j - r.newStart) (by omega)
  rw [hfront _ (by omega), hback _ (by omega), hfront _ hsplit, hback _ hsplit,
    Nat.add_sub_cancel' hj] at hbest
  rwa [hs.kept_eq, ht.kept_eq]

theorem minimalAtoms_gives (maxTraceCells : ℕ) :
    Gives (minimalAtoms old new r maxTraceCells) fun p => Optimal old new r p.1 := by
  refine (myersTraceAtoms_gives hr maxTraceCells).bind ?_
  rintro (_ | s) hs
  · exact (hirschbergAtoms_gives hr).bind fun s hs => .pure hs
  · exact .pure (hs s rfl)

end Rows

end Frankengit.Diff
