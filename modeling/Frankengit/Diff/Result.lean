/-
Frankengit/Diff/Result.lean

Edit scripts with their spans (crate `fgit-diff`): `materializeEdits` gives
every step of a script its spans, `applyTo` replays a script on the old bytes,
and `hunks` groups neighbouring changes.

A script that has been given its spans is described by `Edits`, from any pair of
positions to the two ends.  Its spans `Abut`, which is how everything about
bytes follows from what a single edit says (`Edit.Relates`).
-/
import Frankengit.Diff.Anchored

namespace Frankengit.Diff

open Alignment WorkBudget Fallible List Nat

/-! ### Edits -/

inductive Edit where
  | equal (old new : Span)
  | delete (old new : Span)
  | insert (old new : Span) (bytes : Bytes)
deriving DecidableEq

namespace Edit

def oldSpan : Edit → Span
  | equal old _ => old
  | delete old _ => old
  | insert old _ _ => old

def newSpan : Edit → Span
  | equal _ new => new
  | delete _ new => new
  | insert _ new _ => new

def isEqual : Edit → Bool
  | equal _ _ => true
  | delete _ _ => false
  | insert _ _ _ => false

/-- The step that was given these spans. -/
def step : Edit → AtomicEdit
  | equal old new => .equal old.unitStart new.unitStart
  | delete old _ => .delete old.unitStart
  | insert _ new _ => .insert new.unitStart

end Edit

structure DiffHunk where
  old : Span
  new : Span
  edits : List Edit
deriving DecidableEq

structure DiffResult where
  profile : DiffProfile
  granularity : SequenceGranularity
  algorithm : DiffAlgorithm
  edits : List Edit
deriving DecidableEq

/-- Give the steps that are left their spans, from two cursors. -/
def materializeFrom (old new : TokenStream) : ℕ → ℕ → List AtomicEdit → Except DiffError (List Edit)
  | oldCursor, newCursor, [] =>
    if oldCursor ≠ old.tokens.length ∨ newCursor ≠ new.tokens.length then .error .malformedScript
    else .ok []
  | oldCursor, newCursor, .equal oldIndex newIndex :: atoms =>
    if oldIndex ≠ oldCursor ∨ newIndex ≠ newCursor then .error .malformedScript
    else do
      let edits ← materializeFrom old new (oldCursor + 1) (newCursor + 1) atoms
      return .equal (old.span oldIndex (oldIndex + 1)) (new.span newIndex (newIndex + 1)) :: edits
  | oldCursor, newCursor, .delete oldIndex :: atoms =>
    if oldIndex ≠ oldCursor then .error .malformedScript
    else do
      let edits ← materializeFrom old new (oldCursor + 1) newCursor atoms
      return .delete (old.span oldIndex (oldIndex + 1)) (new.span newCursor newCursor) :: edits
  | oldCursor, newCursor, .insert newIndex :: atoms =>
    if newIndex ≠ newCursor then .error .malformedScript
    else do
      let edits ← materializeFrom old new oldCursor (newCursor + 1) atoms
      return .insert (old.span oldCursor oldCursor) (new.span newIndex (newIndex + 1))
        (new.bytesFor newIndex (newIndex + 1)) :: edits

def materializeEdits (old new : TokenStream) (atoms : List AtomicEdit) :
    Except DiffError (List Edit) :=
  materializeFrom old new 0 0 atoms

/-- Replay the edits that are left, from a byte cursor. -/
def applyFrom (old : Bytes) : ℕ → List Edit → Except DiffError Bytes
  | cursor, [] => if cursor ≠ old.length then .error .malformedScript else .ok []
  | cursor, edit :: edits =>
    let oldSpan := edit.oldSpan
    if oldSpan.byteStart ≠ cursor ∨ old.length < oldSpan.byteEnd then .error .malformedScript
    else
      match edit with
      | .equal span _ => do
        let output ← applyFrom old span.byteEnd edits
        return slice old span.byteStart span.byteEnd ++ output
      | .delete span _ => applyFrom old span.byteEnd edits
      | .insert _ _ bytes => do
        let output ← applyFrom old cursor edits
        return bytes ++ output

/-- A hunk of one edit. -/
def DiffHunk.start (edit : Edit) : DiffHunk := ⟨edit.oldSpan, edit.newSpan, [edit]⟩

/-- The next edit of a hunk. -/
def DiffHunk.push (hunk : DiffHunk) (edit : Edit) : DiffHunk where
  old := { hunk.old with
    byteEnd := edit.oldSpan.byteEnd
    unitEnd := edit.oldSpan.unitEnd }
  new := { hunk.new with
    byteEnd := edit.newSpan.byteEnd
    unitEnd := edit.newSpan.unitEnd }
  edits := hunk.edits ++ [edit]

/-- Group the edits that are left.  The active hunk ends at an equal edit. -/
def hunksFrom : Option DiffHunk → List Edit → List DiffHunk
  | active, [] => active.toList
  | active, edit :: edits =>
    if edit.isEqual then active.toList ++ hunksFrom none edits
    else
      match active with
      | some hunk => hunksFrom (some (hunk.push edit)) edits
      | none => hunksFrom (some (.start edit)) edits

namespace DiffResult

/-- Reconstruct the new bytes from the old ones. -/
def applyTo (r : DiffResult) (old : Bytes) : Except DiffError Bytes := applyFrom old 0 r.edits

/-- The runs of changes. -/
def hunks (r : DiffResult) : List DiffHunk := hunksFrom none r.edits

end DiffResult

/-! ### Spans that abut -/

/-- The spans follow each other from one pair of byte and unit positions to
another. -/
def Abut : ℕ → ℕ → List Span → ℕ → ℕ → Prop
  | byteStart, unitStart, [], byteEnd, unitEnd => byteStart = byteEnd ∧ unitStart = unitEnd
  | byteStart, unitStart, span :: spans, byteEnd, unitEnd =>
    span.byteStart = byteStart ∧ span.unitStart = unitStart ∧
      span.byteStart ≤ span.byteEnd ∧ span.unitStart ≤ span.unitEnd ∧
      Abut span.byteEnd span.unitEnd spans byteEnd unitEnd

namespace Abut

variable {b u b' u' : ℕ} {spans : List Span}

theorem le (h : Abut b u spans b' u') : b ≤ b' ∧ u ≤ u' := by
  induction spans generalizing b u with
  | nil => exact ⟨h.1.le, h.2.le⟩
  | cons span spans ih =>
    obtain ⟨rfl, rfl, hb, hu, hrest⟩ := h
    exact ⟨hb.trans (ih hrest).1, hu.trans (ih hrest).2⟩

theorem append_iff {spans' : List Span} :
    Abut b u (spans ++ spans') b' u' ↔ ∃ m n, Abut b u spans m n ∧ Abut m n spans' b' u' := by
  induction spans generalizing b u with
  | nil =>
    constructor
    · exact fun h => ⟨b, u, ⟨rfl, rfl⟩, h⟩
    · rintro ⟨m, n, ⟨rfl, rfl⟩, h⟩
      exact h
  | cons span spans ih =>
    rw [cons_append, Abut, ih]
    constructor
    · rintro ⟨h₁, h₂, h₃, h₄, m, n, hfront, hback⟩
      exact ⟨m, n, ⟨h₁, h₂, h₃, h₄, hfront⟩, hback⟩
    · rintro ⟨m, n, ⟨h₁, h₂, h₃, h₄, hfront⟩, hback⟩
      exact ⟨h₁, h₂, h₃, h₄, m, n, hfront, hback⟩

/-- Spans say where they begin and end. -/
theorem unique {c v c' v' : ℕ} (h : Abut b u spans b' u') (h' : Abut c v spans c' v')
    (hne : spans ≠ []) : b = c ∧ u = v ∧ b' = c' ∧ u' = v' := by
  induction spans generalizing b u c v with
  | nil => exact absurd rfl hne
  | cons span spans ih =>
    obtain ⟨rfl, rfl, -, -, hrest⟩ := h
    obtain ⟨rfl, rfl, -, -, hrest'⟩ := h'
    refine ⟨rfl, rfl, ?_⟩
    cases spans with
    | nil =>
      obtain ⟨rfl, rfl⟩ := hrest
      exact hrest'
    | cons span' spans => exact (ih hrest hrest' (cons_ne_nil _ _)).2.2

/-- The text of spans that abut. -/
theorem flatten (bytes : Bytes) (h : Abut b u spans b' u') :
    (spans.map fun span => slice bytes span.byteStart span.byteEnd).flatten = slice bytes b b' := by
  induction spans generalizing b u with
  | nil =>
    obtain ⟨rfl, -⟩ := h
    rw [slice_self]
    rfl
  | cons span spans ih =>
    obtain ⟨rfl, rfl, hb, -, hrest⟩ := h
    rw [map_cons, flatten_cons, ih hrest, slice_append _ hb hrest.le.1]

end Abut

/-! ### Edits between two sequences -/

section Edits

variable (old new : TokenStream)

/-- The edits from a pair of unit positions to the two ends. -/
inductive Edits : ℕ → ℕ → List Edit → Prop
  | nil : Edits old.tokens.length new.tokens.length []
  | equal {i j : ℕ} {edits : List Edit} (hi : i < old.tokens.length) (hj : j < new.tokens.length)
      (hsame : old.unit i = new.unit j) (h : Edits (i + 1) (j + 1) edits) :
      Edits i j (.equal (old.span i (i + 1)) (new.span j (j + 1)) :: edits)
  | delete {i j : ℕ} {edits : List Edit} (hi : i < old.tokens.length) (h : Edits (i + 1) j edits) :
      Edits i j (.delete (old.span i (i + 1)) (new.span j j) :: edits)
  | insert {i j : ℕ} {edits : List Edit} (hj : j < new.tokens.length) (h : Edits i (j + 1) edits) :
      Edits i j (.insert (old.span i i) (new.span j (j + 1)) (new.bytesFor j (j + 1)) :: edits)

/-- What an edit says about the units of the two sequences. -/
def Edit.Relates : Edit → Prop
  | .equal s t => s.unitEnd = s.unitStart + 1 ∧ t.unitEnd = t.unitStart + 1 ∧
      s.byteStart < s.byteEnd ∧ t.byteStart < t.byteEnd ∧
      ∃ unit, old.units[s.unitStart]? = some unit ∧ new.units[t.unitStart]? = some unit ∧
        slice old.bytes s.byteStart s.byteEnd = unit ∧ slice new.bytes t.byteStart t.byteEnd = unit
  | .delete s t => s.unitEnd = s.unitStart + 1 ∧ t.byteStart = t.byteEnd ∧ t.unitStart = t.unitEnd
  | .insert s t bytes => t.unitEnd = t.unitStart + 1 ∧ s.byteStart = s.byteEnd ∧
      s.unitStart = s.unitEnd ∧ slice new.bytes t.byteStart t.byteEnd = bytes

end Edits

namespace TokenStream

/-- A unit has bytes. -/
theorem byteOffsetAt_lt (self : TokenStream) {i : ℕ} (h : i < self.tokens.length) :
    self.byteOffsetAt i < self.byteOffsetAt (i + 1) := by
  obtain ⟨-, hcuts⟩ := self.cuts_at h.le
  obtain ⟨-, hnext⟩ := self.cuts_at (succ_le_of_lt h)
  rw [drop_eq_getElem_cons h] at hcuts
  obtain ⟨hstart, hlt, hrest⟩ := hcuts
  have hend : self.byteOffsetAt (i + 1) = self.tokens[i].byteEnd := by
    cases hdrop : self.tokens.drop (i + 1) with
    | nil =>
      rw [hdrop] at hnext hrest
      exact hnext.trans hrest.symm
    | cons token tokens =>
      rw [hdrop] at hnext hrest
      exact hnext.1.symm.trans hrest.1
  rw [hend]
  exact hlt

/-- The bytes of a unit. -/
theorem slice_unit (self : TokenStream) {i : ℕ} (h : i < self.tokens.length) :
    Alignment.slice self.bytes (self.byteOffsetAt i) (self.byteOffsetAt (i + 1)) = self.unit i :=
  self.bytesFor_unit h

end TokenStream

namespace Edits

variable {old new : TokenStream} {i j : ℕ} {edits : List Edit}

variable (h : Edits old new i j edits)
include h

theorem le : i ≤ old.tokens.length ∧ j ≤ new.tokens.length := by
  induction h with
  | nil => exact ⟨le_rfl, le_rfl⟩
  | equal hi hj _ _ _ => exact ⟨hi.le, hj.le⟩
  | delete hi _ ih => exact ⟨hi.le, ih.2⟩
  | insert hj _ ih => exact ⟨ih.1, hj.le⟩

theorem old_abut :
    Abut (old.byteOffsetAt i) i (edits.map Edit.oldSpan) old.bytes.length old.tokens.length := by
  induction h with
  | nil => exact ⟨old.byteOffsetAt_length, rfl⟩
  | equal hi _ _ _ ih | delete hi _ ih =>
    exact ⟨rfl, rfl, (old.byteOffsetAt_lt hi).le, le_succ _, ih⟩
  | insert _ _ ih => exact ⟨rfl, rfl, le_rfl, le_rfl, ih⟩

theorem new_abut :
    Abut (new.byteOffsetAt j) j (edits.map Edit.newSpan) new.bytes.length new.tokens.length := by
  induction h with
  | nil => exact ⟨new.byteOffsetAt_length, rfl⟩
  | equal _ hj _ _ ih | insert hj _ ih =>
    exact ⟨rfl, rfl, (new.byteOffsetAt_lt hj).le, le_succ _, ih⟩
  | delete _ _ ih => exact ⟨rfl, rfl, le_rfl, le_rfl, ih⟩

theorem relates : ∀ e ∈ edits, e.Relates old new := by
  induction h with
  | nil => simp
  | @equal i j edits hi hj hsame _ ih =>
    refine forall_mem_cons.mpr ⟨⟨rfl, rfl, old.byteOffsetAt_lt hi, new.byteOffsetAt_lt hj,
      old.unit i, ?_, ?_, ?_, ?_⟩, ih⟩
    · exact TokenStream.getElem?_units_of_lt hi
    · rw [hsame]
      exact TokenStream.getElem?_units_of_lt hj
    · exact old.slice_unit hi
    · rw [hsame]
      exact new.slice_unit hj
  | delete _ _ ih => exact forall_mem_cons.mpr ⟨⟨rfl, rfl, rfl⟩, ih⟩
  | insert _ _ ih => exact forall_mem_cons.mpr ⟨⟨rfl, rfl, rfl, rfl⟩, ih⟩

end Edits

variable {old new : TokenStream}

/-- A script of the whole sequences is given its spans. -/
theorem materializeFrom_eq {i j : ℕ} {atoms : List AtomicEdit}
    (h : Script (Same old.units new.units) i j old.tokens.length new.tokens.length atoms) :
    ∃ edits, materializeFrom old new i j atoms = .ok edits ∧ Edits old new i j edits ∧
      edits.map Edit.step = atoms := by
  generalize hn : old.tokens.length = n at h
  generalize hm : new.tokens.length = m at h
  induction h with
  | nil i j =>
    subst hn hm
    refine ⟨[], ?_, .nil, rfl⟩
    rw [materializeFrom, if_neg (by simp)]
  | @equal i j n m s hsame h ih =>
    obtain ⟨edits, heq, hedits, hsteps⟩ := ih hn hm
    have hi : i < old.tokens.length := hn ▸ h.old_le
    have hj : j < new.tokens.length := hm ▸ h.new_le
    have hunit : old.unit i = new.unit j :=
      of_decide_eq_true ((TokenStream.equal_iff hi hj).mpr hsame)
    refine ⟨_, ?_, .equal hi hj hunit hedits, by rw [map_cons, hsteps]; rfl⟩
    rw [materializeFrom, if_neg (by simp), heq]
    rfl
  | @delete i j n m s h ih =>
    obtain ⟨edits, heq, hedits, hsteps⟩ := ih hn hm
    refine ⟨_, ?_, .delete (hn ▸ h.old_le) hedits, by rw [map_cons, hsteps]; rfl⟩
    rw [materializeFrom, if_neg (by simp), heq]
    rfl
  | @insert i j n m s h ih =>
    obtain ⟨edits, heq, hedits, hsteps⟩ := ih hn hm
    refine ⟨_, ?_, .insert (hm ▸ h.new_le) hedits, by rw [map_cons, hsteps]; rfl⟩
    rw [materializeFrom, if_neg (by simp), heq]
    rfl

theorem kept_steps (edits : List Edit) :
    kept (edits.map Edit.step) = (edits.filter Edit.isEqual).length := by
  induction edits with
  | nil => rfl
  | cons e edits ih =>
    cases e with
    | equal s t =>
      rw [map_cons, Edit.step, kept, ih, filter_cons_of_pos (by rfl), length_cons]
    | delete s t | insert s t bytes =>
      rw [map_cons, Edit.step, kept, ih, filter_cons_of_neg (by simp [Edit.isEqual])]

theorem changed_steps (edits : List Edit) :
    changed (edits.map Edit.step) = (edits.filter fun e => !e.isEqual).length := by
  induction edits with
  | nil => rfl
  | cons e edits ih =>
    cases e with
    | equal s t =>
      rw [map_cons, Edit.step, changed, ih, filter_cons_of_neg (by simp [Edit.isEqual])]
    | delete s t | insert s t bytes =>
      rw [map_cons, Edit.step, changed, ih, filter_cons_of_pos (by rfl), length_cons]

/-- An edit at the cursor is replayed. -/
theorem applyFrom_cons {old : Bytes} {cursor : ℕ} (edit : Edit) (edits : List Edit)
    (hstart : edit.oldSpan.byteStart = cursor) (hend : edit.oldSpan.byteEnd ≤ old.length) :
    applyFrom old cursor (edit :: edits) =
      match edit with
      | .equal span _ => do
        let output ← applyFrom old span.byteEnd edits
        return slice old span.byteStart span.byteEnd ++ output
      | .delete span _ => applyFrom old span.byteEnd edits
      | .insert _ _ bytes => do
        let output ← applyFrom old cursor edits
        return bytes ++ output := by
  have hguard : ¬ (edit.oldSpan.byteStart ≠ cursor ∨ old.length < edit.oldSpan.byteEnd) :=
    fun h => h.elim (fun h => h hstart) (not_lt.mpr hend)
  cases edit <;> exact if_neg hguard

variable {edits : List Edit}

/-- Replaying edits gives what is left of the new bytes. -/
theorem applyFrom_eq {i j : ℕ} (h : Edits old new i j edits) :
    applyFrom old.bytes (old.byteOffsetAt i) edits
      = .ok (slice new.bytes (new.byteOffsetAt j) new.bytes.length) := by
  induction h with
  | nil =>
    rw [applyFrom, old.byteOffsetAt_length, if_neg (by simp), new.byteOffsetAt_length, slice_self]
  | @equal i j edits hi hj hsame h ih =>
    refine (applyFrom_cons (.equal (old.span i (i + 1)) (new.span j (j + 1))) edits rfl
      (old.byteOffsetAt_le (succ_le_of_lt hi))).trans ?_
    show (do let output ← applyFrom old.bytes (old.byteOffsetAt (i + 1)) edits; _) = _
    rw [ih]
    show Except.ok (slice old.bytes (old.byteOffsetAt i) (old.byteOffsetAt (i + 1)) ++ _) = _
    rw [old.slice_unit hi, hsame, ← new.slice_unit hj,
      slice_append _ (new.byteOffsetAt_lt hj).le (new.byteOffsetAt_le (succ_le_of_lt hj))]
  | @delete i j edits hi h ih =>
    exact (applyFrom_cons (.delete (old.span i (i + 1)) (new.span j j)) edits rfl
      (old.byteOffsetAt_le (succ_le_of_lt hi))).trans ih
  | @insert i j edits hj h ih =>
    refine (applyFrom_cons (.insert (old.span i i) (new.span j (j + 1)) (new.bytesFor j (j + 1)))
      edits rfl (old.byteOffsetAt_le h.le.1)).trans ?_
    show (do let output ← applyFrom old.bytes (old.byteOffsetAt i) edits; _) = _
    rw [ih]
    show Except.ok (new.bytesFor j (j + 1) ++ _) = _
    rw [new.bytesFor_unit hj, ← new.slice_unit hj,
      slice_append _ (new.byteOffsetAt_lt hj).le (new.byteOffsetAt_le (succ_le_of_lt hj))]

/-! ### Hunks -/

/-- The hunk's spans are those of its edits, one after the other. -/
structure DiffHunk.Covers (hunk : DiffHunk) : Prop where
  nonempty : hunk.edits ≠ []
  changes : ∀ e ∈ hunk.edits, e.isEqual = false
  old : Abut hunk.old.byteStart hunk.old.unitStart (hunk.edits.map Edit.oldSpan)
    hunk.old.byteEnd hunk.old.unitEnd
  new : Abut hunk.new.byteStart hunk.new.unitStart (hunk.edits.map Edit.newSpan)
    hunk.new.byteEnd hunk.new.unitEnd

/-- Edits as hunks between runs of equal edits.  What comes right after a hunk
is equal. -/
inductive Grouped : List Edit → List DiffHunk → Prop
  | last {gap : List Edit} (hgap : ∀ e ∈ gap, e.isEqual = true) : Grouped gap []
  | hunk {gap edits : List Edit} {hunk : DiffHunk} {hunks : List DiffHunk}
      (hgap : ∀ e ∈ gap, e.isEqual = true) (hcovers : hunk.Covers)
      (hstop : ∀ e, edits.head? = some e → e.isEqual = true) (h : Grouped edits hunks) :
      Grouped (gap ++ (hunk.edits ++ edits)) (hunk :: hunks)

variable {hunks : List DiffHunk}

theorem Grouped.cons {e : Edit} (he : e.isEqual = true) (h : Grouped edits hunks) :
    Grouped (e :: edits) hunks := by
  cases h with
  | last hgap => exact .last (forall_mem_cons.mpr ⟨he, hgap⟩)
  | hunk hgap hcovers hstop h =>
    exact .hunk (forall_mem_cons.mpr ⟨he, hgap⟩) hcovers hstop h

variable {hunk : DiffHunk}

/-- A hunk at the very start. -/
theorem Grouped.first (hcovers : hunk.Covers) (hstop : ∀ e, edits.head? = some e → e.isEqual = true)
    (h : Grouped edits hunks) : Grouped (hunk.edits ++ edits) (hunk :: hunks) :=
  @Grouped.hunk [] edits hunk hunks (by simp) hcovers hstop h

theorem DiffHunk.covers_start {e : Edit} (he : e.isEqual = false)
    (hold : e.oldSpan.byteStart ≤ e.oldSpan.byteEnd ∧ e.oldSpan.unitStart ≤ e.oldSpan.unitEnd)
    (hnew : e.newSpan.byteStart ≤ e.newSpan.byteEnd ∧ e.newSpan.unitStart ≤ e.newSpan.unitEnd) :
    (DiffHunk.start e).Covers where
  nonempty := cons_ne_nil _ _
  changes := forall_mem_singleton.mpr he
  old := ⟨rfl, rfl, hold.1, hold.2, rfl, rfl⟩
  new := ⟨rfl, rfl, hnew.1, hnew.2, rfl, rfl⟩

theorem DiffHunk.Covers.push (h : hunk.Covers) {e : Edit} (he : e.isEqual = false)
    (hold : Abut hunk.old.byteEnd hunk.old.unitEnd [e.oldSpan] e.oldSpan.byteEnd e.oldSpan.unitEnd)
    (hnew : Abut hunk.new.byteEnd hunk.new.unitEnd [e.newSpan]
      e.newSpan.byteEnd e.newSpan.unitEnd) : (hunk.push e).Covers where
  nonempty := append_ne_nil_of_right_ne_nil _ (cons_ne_nil _ _)
  changes := forall_mem_append.mpr ⟨h.changes, forall_mem_singleton.mpr he⟩
  old := by
    show Abut _ _ ((hunk.edits ++ [e]).map Edit.oldSpan) _ _
    rw [map_append, Abut.append_iff]
    exact ⟨_, _, h.old, hold⟩
  new := by
    show Abut _ _ ((hunk.edits ++ [e]).map Edit.newSpan) _ _
    rw [map_append, Abut.append_iff]
    exact ⟨_, _, h.new, hnew⟩

/-- The spans of the edits that are left begin where the active hunk ends. -/
theorem grouped_hunksFrom {b u c v b' u' c' v' : ℕ} (hold : Abut b u (edits.map Edit.oldSpan) b' u')
    (hnew : Abut c v (edits.map Edit.newSpan) c' v') : Grouped edits (hunksFrom none edits) ∧
      ∀ hunk : DiffHunk, hunk.Covers → hunk.old.byteEnd = b → hunk.old.unitEnd = u →
        hunk.new.byteEnd = c → hunk.new.unitEnd = v →
        Grouped (hunk.edits ++ edits) (hunksFrom (some hunk) edits) := by
  induction edits generalizing b u c v with
  | nil =>
    refine ⟨.last (by simp), fun hunk hcovers _ _ _ _ => ?_⟩
    exact .first hcovers (by simp) (.last (by simp))
  | cons e edits ih =>
    obtain ⟨rfl, rfl, hb, hu, hold⟩ := hold
    obtain ⟨rfl, rfl, hc, hv, hnew⟩ := hnew
    obtain ⟨hfresh, hactive⟩ := ih hold hnew
    by_cases he : e.isEqual = true
    · refine ⟨?_, fun hunk hcovers _ _ _ _ => ?_⟩
      · rw [hunksFrom, if_pos he]
        exact hfresh.cons he
      · rw [hunksFrom, if_pos he]
        refine .first hcovers (fun e' he' => ?_) (hfresh.cons he)
        cases he'
        exact he
    · have he' : e.isEqual = false := Bool.eq_false_iff.mpr he
      refine ⟨?_, fun hunk hcovers h₁ h₂ h₃ h₄ => ?_⟩
      · rw [hunksFrom, if_neg he]
        exact hactive _ (DiffHunk.covers_start he' ⟨hb, hu⟩ ⟨hc, hv⟩) rfl rfl rfl rfl
      · rw [hunksFrom, if_neg he]
        have hpushed := hactive _ (hcovers.push he' ⟨h₁.symm, h₂.symm, hb, hu, rfl, rfl⟩
          ⟨h₃.symm, h₄.symm, hc, hv, rfl, rfl⟩) rfl rfl rfl rfl
        rw [DiffHunk.push, append_assoc, singleton_append] at hpushed
        exact hpushed

/-- The hunks hold exactly the changes. -/
theorem Grouped.flatMap_edits (h : Grouped edits hunks) :
    hunks.flatMap DiffHunk.edits = edits.filter fun e => !e.isEqual := by
  have hequal : ∀ {gap : List Edit}, (∀ e ∈ gap, e.isEqual = true) →
      gap.filter (fun e => !e.isEqual) = [] := by
    intro gap hgap
    refine filter_eq_nil_iff.mpr fun e he => ?_
    rw [hgap e he]
    simp
  induction h with
  | last hgap => rw [hequal hgap, flatMap_nil]
  | @hunk gap edits hunk hunks hgap hcovers _ _ ih =>
    have hall : hunk.edits.filter (fun e => !e.isEqual) = hunk.edits := by
      refine filter_eq_self.mpr fun e he => ?_
      rw [hcovers.changes e he]
      rfl
    rw [flatMap_cons, ih, filter_append, hequal hgap, nil_append, filter_append, hall]

theorem Grouped.covers (h : Grouped edits hunks) : ∀ hunk ∈ hunks, hunk.Covers := by
  induction h with
  | last => simp
  | hunk _ hcovers _ _ ih => exact forall_mem_cons.mpr ⟨hcovers, ih⟩

/-- Two hunks with an equal unit between them. -/
def Apart (edits : List Edit) (h h' : DiffHunk) : Prop :=
  ∃ s t, .equal s t ∈ edits ∧
    h.old.byteEnd ≤ s.byteStart ∧ s.byteStart < s.byteEnd ∧ s.byteEnd ≤ h'.old.byteStart ∧
    h.old.unitEnd ≤ s.unitStart ∧ s.unitStart < s.unitEnd ∧ s.unitEnd ≤ h'.old.unitStart ∧
    h.new.byteEnd ≤ t.byteStart ∧ t.byteStart < t.byteEnd ∧ t.byteEnd ≤ h'.new.byteStart ∧
    h.new.unitEnd ≤ t.unitStart ∧ t.unitStart < t.unitEnd ∧ t.unitEnd ≤ h'.new.unitStart

theorem Apart.mono {edits' : List Edit} {h h' : DiffHunk} (hapart : Apart edits h h')
    (hsub : ∀ e ∈ edits, e ∈ edits') : Apart edits' h h' := by
  obtain ⟨s, t, hmem, hrest⟩ := hapart
  exact ⟨s, t, hsub _ hmem, hrest⟩

/-- The spans that begin and end a covered run. -/
theorem DiffHunk.Covers.abut (h : hunk.Covers) {b u c v b' u' c' v' : ℕ}
    (hold : Abut b u ((hunk.edits ++ edits).map Edit.oldSpan) b' u')
    (hnew : Abut c v ((hunk.edits ++ edits).map Edit.newSpan) c' v') :
    (b = hunk.old.byteStart ∧ u = hunk.old.unitStart ∧
        Abut hunk.old.byteEnd hunk.old.unitEnd (edits.map Edit.oldSpan) b' u') ∧
      (c = hunk.new.byteStart ∧ v = hunk.new.unitStart ∧
        Abut hunk.new.byteEnd hunk.new.unitEnd (edits.map Edit.newSpan) c' v') := by
  rw [map_append] at hold hnew
  obtain ⟨m, n, hcov, hold⟩ := Abut.append_iff.mp hold
  obtain ⟨m', n', hcov', hnew⟩ := Abut.append_iff.mp hnew
  obtain ⟨rfl, rfl, rfl, rfl⟩ := hcov.unique h.old (by simpa using h.nonempty)
  obtain ⟨rfl, rfl, rfl, rfl⟩ := hcov'.unique h.new (by simpa using h.nonempty)
  exact ⟨⟨rfl, rfl, hold⟩, rfl, rfl, hnew⟩

/-- Between two hunks there is an equal unit. -/
theorem Grouped.apart {b u c v b' u' c' v' : ℕ} (h : Grouped edits hunks)
    (hrelates : ∀ e ∈ edits, e.Relates old new) (hold : Abut b u (edits.map Edit.oldSpan) b' u')
    (hnew : Abut c v (edits.map Edit.newSpan) c' v') : hunks.IsChain (Apart edits) := by
  induction h generalizing b u c v with
  | last => exact .nil
  | @hunk gap edits hunk hunks hgap hcovers hstop h ih =>
    rw [map_append] at hold hnew
    obtain ⟨b₁, u₁, -, hold⟩ := Abut.append_iff.mp hold
    obtain ⟨c₁, v₁, -, hnew⟩ := Abut.append_iff.mp hnew
    obtain ⟨⟨-, -, hold⟩, -, -, hnew⟩ := hcovers.abut hold hnew
    have hsub : ∀ e ∈ edits, e ∈ gap ++ (hunk.edits ++ edits) := by
      intro e he
      simp [he]
    have hchain := (ih (fun e he => hrelates e (hsub e he)) hold hnew).imp
      fun _ _ hapart => hapart.mono hsub
    cases h with
    | last => exact .singleton _
    | @hunk gap' edits' hunk' hunks' hgap' hcovers' hstop' h =>
      refine .cons_cons ?_ hchain
      cases gap' with
      | nil =>
        -- what comes after a hunk is equal, so it does not begin another
        obtain ⟨e, es, hes⟩ := exists_cons_of_ne_nil hcovers'.nonempty
        have hequal := hstop e (by rw [hes]; rfl)
        rw [hcovers'.changes e (by rw [hes]; simp)] at hequal
        cases hequal
      | cons e gap' =>
        have he := hgap' e mem_cons_self
        have hmem : e ∈ gap ++ (hunk.edits ++ (e :: gap' ++ (hunk'.edits ++ edits'))) := by
          simp
        obtain ⟨h₁, h₂, -, -, hold⟩ := hold
        obtain ⟨h₃, h₄, -, -, hnew⟩ := hnew
        change Abut _ _ ((gap' ++ (hunk'.edits ++ edits')).map Edit.oldSpan) _ _ at hold
        change Abut _ _ ((gap' ++ (hunk'.edits ++ edits')).map Edit.newSpan) _ _ at hnew
        rw [map_append] at hold hnew
        obtain ⟨b₂, u₂, hgapOld, hold⟩ := Abut.append_iff.mp hold
        obtain ⟨c₂, v₂, hgapNew, hnew⟩ := Abut.append_iff.mp hnew
        obtain ⟨⟨rfl, rfl, -⟩, rfl, rfl, -⟩ := hcovers'.abut hold hnew
        cases e with
        | equal s t =>
          obtain ⟨hs, ht, hbs, hbt, -⟩ := hrelates _ hmem
          exact ⟨s, t, hmem, h₁.ge, hbs, hgapOld.le.1, h₂.ge, by omega, hgapOld.le.2,
            h₃.ge, hbt, hgapNew.le.1, h₄.ge, by omega, hgapNew.le.2⟩
        | delete | insert => cases he

end Frankengit.Diff
