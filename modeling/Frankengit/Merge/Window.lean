/-
Frankengit/Merge/Window.lean

Where the content merge stands, and how its cursor moves.

`Merging s segments` says where the loop stands: the segments so far spell the
base up to the cursor and the fronts of the two sides, and the output and the
conflicts are theirs.  Every turn moves the cursor over a window that cuts no
change of either side (`Window`), which adds two segments: what lies before the
window, where nothing changes, and the window itself (`Merging.advance`).

A cluster is a window because it absorbs whatever touches it
(`closeCluster_closed`).
-/
import Frankengit.Merge.Content

namespace Frankengit.Merge

open Diff Fallible Alignment Patch List Change Nat DiffHunk

/-! ### Changes as replacements -/

/-- The replacement that a change makes. -/
def Change.patch (c : Change) : Replacement UInt8 := ⟨c.old.byteStart, c.old.byteEnd, c.replacement⟩

theorem changesFrom_eq {hunks : List DiffHunk} {least : ℕ}
    (h : Sorted least (hunks.map replacement)) : ∃ changes, changesFrom least hunks = .ok changes ∧
      changes.map patch = hunks.map DiffHunk.replacement := by
  induction hunks generalizing least with
  | nil => exact ⟨[], rfl, rfl⟩
  | cons hunk hunks ih =>
    obtain ⟨hstart, hstop, hrest⟩ := h
    obtain ⟨changes, heq, hpatch⟩ := ih (hrest.mono (le_succ _))
    have hguard : ¬ (hunk.old.byteStart < least ∨ hunk.old.byteEnd < hunk.old.byteStart) := by
      rintro (hlt | hlt)
      · exact absurd hstart (not_le.mpr hlt)
      · exact absurd hstop (not_le.mpr hlt)
    change changesFrom hunk.old.byteEnd hunks = .ok changes at heq
    refine ⟨⟨hunk.old, hunk.new, hunk.edits.flatMap Edit.inserted, hunk.edits⟩ :: changes, ?_,
      congrArg (hunk.replacement :: ·) hpatch⟩
    rw [changesFrom, if_neg hguard, heq]
    rfl

theorem changesFromHunks_fits {old new : Bytes} {hunks : List DiffHunk} {limit : ℕ}
    (h : Patches old new (hunks.map replacement)) {room : Prop}
    (hroom : room → hunks.length ≤ limit) :
    Fits room .malformedDiffHunk (changesFromHunks hunks limit) fun changes =>
      changes.map patch = hunks.map DiffHunk.replacement := by
  obtain ⟨changes, heq, hpatch⟩ := changesFrom_eq h.sorted
  refine .refuseIf_bind (by simp) (fun h => not_lt.mpr (hroom h)) ?_
  rw [heq]
  exact hpatch

/-! ### Clusters -/

/-- A range lies in another. -/
def ByteRange.Within (a b : ByteRange) : Prop := b.start ≤ a.start ∧ a.stop ≤ b.stop

/-- A change lies in a range. -/
def ByteRange.Holds (range : ByteRange) (c : Change) : Prop :=
  range.start ≤ c.old.byteStart ∧ c.old.byteEnd ≤ range.stop

theorem ByteRange.Within.trans {a b c : ByteRange} (h : a.Within b) (h' : b.Within c) :
    a.Within c := ⟨h'.1.trans h.1, h.2.trans h'.2⟩

theorem ByteRange.Holds.mono {a b : ByteRange} {c : Change} (h : a.Holds c) (hab : a.Within b) :
    b.Holds c := ⟨hab.1.trans h.1, h.2.trans hab.2⟩

theorem ByteRange.Holds.touches {range : ByteRange} {c : Change} (h : range.Holds c)
    (hc : c.old.byteStart ≤ c.old.byteEnd) : c.Touches range := by
  obtain ⟨hstart, hstop⟩ := h
  rw [Touches]
  split <;> omega

/-- What absorbing leaves. -/
structure Absorbed (range : ByteRange) (changes : List Change)
    (p : List Change × List Change × ByteRange) : Prop where
  append : p.1 ++ p.2.1 = changes
  grows : range.Within p.2.2
  inside : ∀ outer : ByteRange, range.Within outer → (∀ c ∈ changes, outer.Holds c) →
    p.2.2.Within outer
  holds : ∀ c ∈ p.1, p.2.2.Holds c
  stops : ∀ c, p.2.1.head? = some c → ¬ c.Touches p.2.2
  unchanged : p.1 = [] → p.2.2 = range

theorem absorb_absorbed (range : ByteRange) (changes : List Change) :
    Absorbed range changes (absorb range changes) := by
  induction changes generalizing range with
  | nil => exact ⟨rfl, ⟨le_rfl, le_rfl⟩, fun _ h _ => h, by simp [absorb], by simp [absorb],
    fun _ => rfl⟩
  | cons change changes ih =>
    rw [absorb]
    split
    · obtain ⟨happ, hgrows, hinside, hholds, hstops, -⟩ := ih (range.hull change)
      have hhull : range.Within (range.hull change) := ⟨min_le_left _ _, le_max_left _ _⟩
      have hchange : (range.hull change).Holds change := ⟨min_le_right _ _, le_max_right _ _⟩
      refine ⟨congrArg (change :: ·) happ, hhull.trans hgrows, fun outer houter hall => ?_,
        forall_mem_cons.mpr ⟨hchange.mono hgrows, hholds⟩, hstops,
          fun h => absurd h (cons_ne_nil _ _)⟩
      obtain ⟨hfirst, hall⟩ := forall_mem_cons.mp hall
      exact hinside outer ⟨le_min houter.1 hfirst.1, max_le houter.2 hfirst.2⟩ hall
    · next hnot =>
      refine ⟨rfl, ⟨le_rfl, le_rfl⟩, fun _ h _ => h, by simp, fun c hc => ?_, fun _ => rfl⟩
      cases hc
      exact hnot

/-- If nothing was absorbed, nothing touches the range. -/
theorem Absorbed.idle {range : ByteRange} {changes : List Change}
    {p : List Change × List Change × ByteRange} (h : Absorbed range changes p) (hnone : p.1 = []) :
    ∀ c, changes.head? = some c → ¬ c.Touches range := by
  have happ := h.append
  rw [hnone, nil_append] at happ
  rw [← happ, ← h.unchanged hnone]
  exact h.stops

/-- What closing a cluster leaves: it holds its changes, and no change that is
left touches it. -/
structure Closed (range : ByteRange) (ours theirs : List Change) (cluster : Cluster) : Prop where
  ours_eq : cluster.ours ++ cluster.oursRest = ours
  theirs_eq : cluster.theirs ++ cluster.theirsRest = theirs
  grows : range.Within cluster.range
  inside : ∀ outer : ByteRange, range.Within outer → (∀ c ∈ ours, outer.Holds c) →
    (∀ c ∈ theirs, outer.Holds c) → cluster.range.Within outer
  ours_holds : ∀ c ∈ cluster.ours, cluster.range.Holds c
  theirs_holds : ∀ c ∈ cluster.theirs, cluster.range.Holds c
  ours_stops : ∀ c, cluster.oursRest.head? = some c → ¬ c.Touches cluster.range
  theirs_stops : ∀ c, cluster.theirsRest.head? = some c → ¬ c.Touches cluster.range

theorem closeCluster_closed (range : ByteRange) (oursTaken theirsTaken ours theirs : List Change)
    (hours : ∀ c ∈ oursTaken, range.Holds c) (htheirs : ∀ c ∈ theirsTaken, range.Holds c) :
    Closed range (oursTaken ++ ours) (theirsTaken ++ theirs)
      (closeCluster range oursTaken theirsTaken ours theirs) := by
  induction range, oursTaken, theirsTaken, ours, theirs using closeCluster.induct with
  | case1 range oursTaken theirsTaken ours theirs o t hnone =>
    have ho := absorb_absorbed range ours
    have ht := absorb_absorbed o.2.2 theirs
    obtain ⟨honone, htnone⟩ := hnone
    have hrange : t.2.2 = range := (ht.unchanged htnone).trans (ho.unchanged honone)
    have hidle := ht.idle htnone
    rw [show o.2.2 = range from ho.unchanged honone] at hidle
    rw [closeCluster, if_pos ⟨honone, htnone⟩, hrange]
    exact ⟨rfl, rfl, ⟨le_rfl, le_rfl⟩, fun _ h _ _ => h, hours, htheirs, ho.idle honone, hidle⟩
  | case2 range oursTaken theirsTaken ours theirs o t hsome ih =>
    have ho := absorb_absorbed range ours
    have ht := absorb_absorbed o.2.2 theirs
    have hgrows : range.Within t.2.2 := ho.grows.trans ht.grows
    have hclosed := ih
      (forall_mem_append.mpr ⟨fun c hc => (hours c hc).mono hgrows,
        fun c hc => (ho.holds c hc).mono ht.grows⟩)
      (forall_mem_append.mpr ⟨fun c hc => (htheirs c hc).mono hgrows, ht.holds⟩)
    rw [append_assoc, append_assoc, ho.append, ht.append] at hclosed
    rw [closeCluster, if_neg hsome]
    refine ⟨hclosed.ours_eq, hclosed.theirs_eq, hgrows.trans hclosed.grows, ?_, hclosed.ours_holds,
      hclosed.theirs_holds, hclosed.ours_stops, hclosed.theirs_stops⟩
    intro outer houter hallOurs hallTheirs
    have hinside := ho.inside outer houter fun c hc => hallOurs c (mem_append_right _ hc)
    have hinside' := ht.inside outer hinside fun c hc => hallTheirs c (mem_append_right _ hc)
    exact hclosed.inside outer hinside' hallOurs hallTheirs

/-! ### Windows -/

/-- A window after the cursor that cuts no change. -/
structure Window (base : Bytes) (s : MergeState) (range : ByteRange)
    (oursIn oursRest theirsIn theirsRest : List Change) : Prop where
  ours : s.ours = oursIn ++ oursRest
  theirs : s.theirs = theirsIn ++ theirsRest
  start_ge : s.cursor ≤ range.start
  le : range.start ≤ range.stop
  stop_le : range.stop ≤ base.length
  ours_holds : ∀ c ∈ oursIn, range.Holds c
  theirs_holds : ∀ c ∈ theirsIn, range.Holds c
  ours_rest : Sorted (range.stop + 1) (oursRest.map patch)
  theirs_rest : Sorted (range.stop + 1) (theirsRest.map patch)

/-- How a conflict is rendered. -/
def render (style : ConflictStyle) (s : Segment UInt8) : Bytes :=
  (markerParts style s.ours s.base s.theirs).flatten

/-- The place and the texts that a conflict records. -/
def ContentConflict.recorded (c : ContentConflict) : ByteRange × Bytes × Bytes × Bytes :=
  (c.base.byteRange, c.base.bytes, c.ours.bytes, c.theirs.bytes)

/-- The place and the texts of a segment. -/
def recordAt (p : ℕ × Segment UInt8) : ByteRange × Bytes × Bytes × Bytes :=
  (⟨p.1, p.1 + p.2.base.length⟩, p.2.base, p.2.ours, p.2.theirs)

/-- A stretch that nobody changed. -/
def untouched (base : Bytes) (start stop : ℕ) : Segment UInt8 :=
  ⟨slice base start stop, slice base start stop, slice base start stop⟩

/-- A window with the changes of both sides. -/
def changedIn (base : Bytes) (range : ByteRange) (ours theirs : List Change) : Segment UInt8 :=
  ⟨slice base range.start range.stop, patched base range.start range.stop (ours.map patch),
    patched base range.start range.stop (theirs.map patch)⟩

/-- Where the loop stands. -/
structure Merging (base ours theirs : Bytes) (style : ConflictStyle) (s : MergeState)
    (segments : List (Segment UInt8)) : Prop where
  ours_sorted : Sorted s.cursor (s.ours.map patch)
  theirs_sorted : Sorted s.cursor (s.theirs.map patch)
  ours_stop : ∀ c ∈ s.ours, c.old.byteEnd ≤ base.length
  theirs_stop : ∀ c ∈ s.theirs, c.old.byteEnd ≤ base.length
  ours_effective : Effective base (s.ours.map patch)
  theirs_effective : Effective base (s.theirs.map patch)
  cursor_le : s.cursor ≤ base.length
  base_eq : segments.flatMap Segment.base = slice base 0 s.cursor
  ours_eq : segments.flatMap Segment.ours
    ++ patched base s.cursor base.length (s.ours.map patch) = ours
  theirs_eq : segments.flatMap Segment.theirs
    ++ patched base s.cursor base.length (s.theirs.map patch) = theirs
  output_eq : s.output = segments.flatMap (Segment.merged (render style))
  conflicts_eq : s.conflicts.map ContentConflict.recorded = (conflictsAt 0 segments).map recordAt
  apart : s.conflicts.IsChain fun c c' => c.base.byteRange.stop < c'.base.byteRange.start
  before : ∀ c ∈ s.conflicts, c.base.byteRange.stop ≤ s.cursor
  -- once the cursor has moved, it is not at a change
  fresh : s.conflicts ≠ [] → Sorted (s.cursor + 1) (s.ours.map patch) ∧
    Sorted (s.cursor + 1) (s.theirs.map patch)

section Advance

variable {base ours theirs : Bytes} {style : ConflictStyle} {s : MergeState}
  {segments : List (Segment UInt8)} {range : ByteRange}
  {oursIn oursRest theirsIn theirsRest : List Change}

theorem patched_window (changesIn changesRest : List Change) {cursor : ℕ}
    (hstart : cursor ≤ range.start) (hle : range.start ≤ range.stop)
    (hstop : range.stop ≤ base.length) (hin : ∀ c ∈ changesIn, range.Holds c)
    (hrest : Sorted (range.stop + 1) (changesRest.map patch)) :
    patched base cursor base.length ((changesIn ++ changesRest).map patch)
      = slice base cursor range.start ++ (patched base range.start range.stop (changesIn.map patch)
          ++ patched base range.stop base.length (changesRest.map patch)) := by
  have hin' : ∀ c ∈ changesIn.map patch, range.start ≤ c.start ∧ c.stop ≤ range.stop :=
    forall_mem_map.mpr hin
  have hrest' : ∀ c ∈ changesRest.map patch, range.stop ≤ c.start := fun c hc =>
    (le_succ _).trans (hrest.start_ge c hc).1
  have hall : ∀ c ∈ (changesIn ++ changesRest).map patch, range.start ≤ c.start := by
    rw [map_append, forall_mem_append]
    exact ⟨fun c hc => (hin' c hc).1, fun c hc => hle.trans (hrest' c hc)⟩
  have hfront : patched base cursor base.length ([] ++ (changesIn ++ changesRest).map patch) = _ :=
    patched_append base hstart (hle.trans hstop) (by simp) hall
  rw [nil_append] at hfront
  rw [hfront, map_append, patched_append base hle hstop (fun c hc => (hin' c hc).2) hrest']
  rfl

theorem Window.of_mem (w : Window base s range oursIn oursRest theirsIn theirsRest) :
    (∀ c ∈ oursRest, c ∈ s.ours) ∧ ∀ c ∈ theirsRest, c ∈ s.theirs := by
  rw [w.ours, w.theirs]
  exact ⟨fun c hc => mem_append_right _ hc, fun c hc => mem_append_right _ hc⟩

/-- The cursor moves over a window. -/
theorem Merging.advance (h : Merging base ours theirs style s segments)
    (w : Window base s range oursIn oursRest theirsIn theirsRest)
    (conflicts : List ContentConflict) (hconfl : conflicts = s.conflicts ∧
        ¬ (changedIn base range oursIn theirsIn).Conflicts ∨
      ∃ c, conflicts = s.conflicts ++ [c] ∧ (changedIn base range oursIn theirsIn).Conflicts ∧
        c.recorded = recordAt (range.start, changedIn base range oursIn theirsIn) ∧
        (s.conflicts ≠ [] → s.cursor < range.start)) : Merging base ours theirs style
      ⟨oursRest, theirsRest, range.stop, s.output ++ (slice base s.cursor range.start
        ++ (changedIn base range oursIn theirsIn).merged (render style)), conflicts⟩
      (segments
        ++ [untouched base s.cursor range.start, changedIn base range oursIn theirsIn]) := by
  have hours := patched_window oursIn oursRest w.start_ge w.le w.stop_le w.ours_holds w.ours_rest
  have htheirs :=
    patched_window theirsIn theirsRest w.start_ge w.le w.stop_le w.theirs_holds w.theirs_rest
  rw [← w.ours] at hours
  rw [← w.theirs] at htheirs
  have hlen : (changedIn base range oursIn theirsIn).base.length = range.stop - range.start :=
    length_slice w.stop_le
  have hplace : (segments.flatMap Segment.base).length = s.cursor := by
    rw [h.base_eq, length_slice h.cursor_le, Nat.sub_zero]
  have huntouched : ¬ (untouched base s.cursor range.start).Conflicts := fun hc => hc.1 rfl
  have hblocks : conflictsAt 0 (segments ++ [untouched base s.cursor range.start,
      changedIn base range oursIn theirsIn]) = conflictsAt 0 segments
        ++ if (changedIn base range oursIn theirsIn).Conflicts then
          [(range.start, changedIn base range oursIn theirsIn)] else [] := by
    have hgap : s.cursor + (untouched base s.cursor range.start).base.length = range.start := by
      show s.cursor + (slice base s.cursor range.start).length = _
      rw [length_slice (w.le.trans w.stop_le), Nat.add_sub_cancel' w.start_ge]
    rw [conflictsAt_append, hplace, zero_add, conflictsAt, if_neg huntouched, nil_append,
      conflictsAt, conflictsAt, append_nil, hgap]
  refine
    { ours_sorted := w.ours_rest.mono (le_succ _)
      theirs_sorted := w.theirs_rest.mono (le_succ _)
      ours_stop := fun c hc => h.ours_stop c (w.of_mem.1 c hc)
      theirs_stop := fun c hc => h.theirs_stop c (w.of_mem.2 c hc)
      ours_effective := ?_
      theirs_effective := ?_
      cursor_le := w.stop_le
      base_eq := ?_
      ours_eq := ?_
      theirs_eq := ?_
      output_eq := ?_
      conflicts_eq := ?_
      apart := ?_
      before := ?_
      fresh := fun _ => ⟨w.ours_rest, w.theirs_rest⟩ }
  · have heff := h.ours_effective
    rw [w.ours, map_append] at heff
    exact heff.of_append
  · have heff := h.theirs_effective
    rw [w.theirs, map_append] at heff
    exact heff.of_append
  · rw [flatMap_append, h.base_eq]
    show slice base 0 s.cursor ++ (slice base s.cursor range.start
      ++ (slice base range.start range.stop ++ [])) = _
    rw [append_nil, slice_append base w.start_ge w.le,
      slice_append base (zero_le _) (w.start_ge.trans w.le)]
  · rw [← h.ours_eq, hours, flatMap_append, append_assoc]
    congr 1
    show slice base s.cursor range.start ++ (patched _ _ _ _ ++ []) ++ _ = _
    rw [append_nil, append_assoc]
  · rw [← h.theirs_eq, htheirs, flatMap_append, append_assoc]
    congr 1
    show slice base s.cursor range.start ++ (patched _ _ _ _ ++ []) ++ _ = _
    rw [append_nil, append_assoc]
  · show s.output ++ _ = _
    rw [flatMap_append, ← h.output_eq]
    congr 1
    have hgap : (untouched base s.cursor range.start).merged (render style)
        = slice base s.cursor range.start := Segment.merged_of_ours _ rfl
    rw [flatMap_cons, flatMap_cons, flatMap_nil, append_nil, hgap]
  · rw [hblocks]
    rcases hconfl with ⟨rfl, hnot⟩ | ⟨c, rfl, hconf, hrecorded, -⟩
    · rw [if_neg hnot, append_nil]
      exact h.conflicts_eq
    · rw [if_pos hconf, map_append, map_append, h.conflicts_eq, map_singleton,
        map_singleton, hrecorded]
  · rcases hconfl with ⟨rfl, -⟩ | ⟨c, rfl, -, hrecorded, hfresh⟩
    · exact h.apart
    · have hrange : c.base.byteRange.start = range.start :=
        congrArg (fun p => p.1.start) hrecorded
      refine isChain_append.mpr ⟨h.apart, .singleton c, fun x hx y hy => ?_⟩
      obtain rfl : c = y := by simpa using hy
      have hmem : x ∈ s.conflicts := mem_of_getLast? hx
      rw [hrange]
      exact (h.before x hmem).trans_lt (hfresh (ne_nil_of_mem hmem))
  · have hbefore : ∀ c ∈ s.conflicts, c.base.byteRange.stop ≤ range.stop := fun c hc =>
      (h.before c hc).trans (w.start_ge.trans w.le)
    rcases hconfl with ⟨rfl, -⟩ | ⟨c, rfl, -, hrecorded, -⟩
    · exact hbefore
    · refine forall_mem_append.mpr ⟨hbefore, forall_mem_singleton.mpr ?_⟩
      have hrange : c.base.byteRange.stop
          = range.start + (changedIn base range oursIn theirsIn).base.length :=
        congrArg (fun p => p.1.stop) hrecorded
      rw [hrange, hlen]
      exact (Nat.add_sub_cancel' w.le).le

end Advance

end Frankengit.Merge
