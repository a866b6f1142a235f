/-
Frankengit/Merge/Content.lean

Three-way content merge (crate `fgit-diff`, module `merge`), for one base.

The two sides are diffed against the base.  Their changes are then zipped: a
change that touches none of the other side is taken, and changes that touch are
gathered in a cluster, which is common or a conflict.

The loop of `merge_change_lists` pays one step of work in every turn, so the
work that is left is what `mergeLoop` recurs on.  Cancellation, depth and the
virtual base of several ancestors belong to other entry points and are left
out; the receipt keeps its fields.
-/
import Frankengit.Diff.Patch

namespace Frankengit.Merge

open Diff Fallible Alignment

/-! ### Options, evidence and results -/

/-- How a conflict is rendered. -/
inductive ConflictStyle where
  | markerV1
deriving DecidableEq

inductive VirtualBaseProfile where
  | requireSingle | recursiveConflictPreservingV1
deriving DecidableEq

structure MergeProfile where
  version : ℕ
  diffOptions : DiffOptions
  conflictStyle : ConflictStyle
  virtualBase : VirtualBaseProfile
deriving DecidableEq

structure ContentMergeLimits where
  maxInputBytes : ℕ
  maxOutputBytes : ℕ
  maxHunks : ℕ
  maxConflicts : ℕ
  maxWorkSteps : ℕ
deriving DecidableEq

structure ContentMergeOptions where
  profile : MergeProfile
  limits : ContentMergeLimits
deriving DecidableEq

structure ByteRange where
  start : ℕ
  stop : ℕ
deriving DecidableEq

/-- What one side has at a conflict. -/
structure ConflictSideEvidence where
  byteRange : ByteRange
  sourceSpan : Option Span
  bytes : Bytes
  edits : List Edit
deriving DecidableEq

structure ContentConflict where
  base : ConflictSideEvidence
  ours : ConflictSideEvidence
  theirs : ConflictSideEvidence
deriving DecidableEq

inductive ContentMergeOutcome where
  | clean (bytes : Bytes)
  | conflicted (markerBytes : Bytes) (conflicts : List ContentConflict)
deriving DecidableEq

structure ContentMergeReceipt where
  profileVersion : ℕ
  diffProfile : DiffProfile
  conflictStyle : ConflictStyle
  virtualBase : VirtualBaseProfile
  baseCount : ℕ
deriving DecidableEq

structure ContentMergeResult where
  outcome : ContentMergeOutcome
  receipt : ContentMergeReceipt
deriving DecidableEq

inductive ContentMergeError where
  | diff (error : DiffError)
  | inputBytesExceeded (limit actual : ℕ)
  | outputBytesExceeded (limit : ℕ)
  | hunkLimitExceeded (limit : ℕ)
  | conflictLimitExceeded (limit : ℕ)
  | workLimitExceeded (limit : ℕ)
  | malformedDiffHunk
deriving DecidableEq

/-- The bytes that are proposed, clean or with markers. -/
def ContentMergeOutcome.proposedBytes : ContentMergeOutcome → Bytes
  | clean bytes => bytes
  | conflicted markerBytes _ => markerBytes

/-! ### Output -/

def appendBytes (output bytes : Bytes) (limit : ℕ) : Except ContentMergeError Bytes :=
  if limit < output.length + bytes.length then .error (.outputBytesExceeded limit)
  else .ok (output ++ bytes)

def appendBase (output base : Bytes) (start stop limit : ℕ) : Except ContentMergeError Bytes :=
  if stop < start ∨ base.length < stop then .error .malformedDiffHunk
  else appendBytes output (slice base start stop) limit

/-- The parts of a rendered conflict. -/
def markerParts (style : ConflictStyle) (ours base theirs : Bytes) : List Bytes :=
  match style with
  | .markerV1 => [ascii "<<<<<<< ours\n", ours, ascii "||||||| base\n", base,
      ascii "=======\n", theirs, ascii ">>>>>>> theirs\n"]

def renderMarker (conflict : ContentConflict) (style : ConflictStyle) (maxOutputBytes : ℕ) :
    Except ContentMergeError Bytes :=
  (markerParts style conflict.ours.bytes conflict.base.bytes conflict.theirs.bytes).foldlM
    (fun marker bytes => appendBytes marker bytes maxOutputBytes) []

/-! ### Changes -/

/-- A hunk, with the text that it puts in place of its range. -/
structure Change where
  old : Span
  new : Span
  replacement : Bytes
  edits : List Edit
deriving DecidableEq

/-- The changes of the hunks that are left, after a position. -/
def changesFrom : ℕ → List DiffHunk → Except ContentMergeError (List Change)
  | _, [] => .ok []
  | previousEnd, hunk :: hunks =>
    if hunk.old.byteStart < previousEnd ∨ hunk.old.byteEnd < hunk.old.byteStart then
      .error .malformedDiffHunk
    else do
      let changes ← changesFrom hunk.old.byteEnd hunks
      return ⟨hunk.old, hunk.new, hunk.edits.flatMap Edit.inserted, hunk.edits⟩ :: changes

def changesFromHunks (hunks : List DiffHunk) (limit : ℕ) :
    Except ContentMergeError (List Change) := do
  refuseIf (limit < hunks.length) (.hunkLimitExceeded limit)
  changesFrom 0 hunks

/-- The change touches a range. -/
def Change.Touches (change : Change) (range : ByteRange) : Prop :=
  if change.old.byteStart = change.old.byteEnd then
    range.start ≤ change.old.byteStart ∧ change.old.byteStart ≤ range.stop
  else
    change.old.byteStart ≤ range.stop ∧ range.start ≤ change.old.byteEnd

instance (change : Change) (range : ByteRange) : Decidable (change.Touches range) :=
  inferInstanceAs (Decidable (if change.old.byteStart = change.old.byteEnd then
    range.start ≤ change.old.byteStart ∧ change.old.byteStart ≤ range.stop
  else change.old.byteStart ≤ range.stop ∧ range.start ≤ change.old.byteEnd))

/-- The range of a change. -/
def Change.range (change : Change) : ByteRange := ⟨change.old.byteStart, change.old.byteEnd⟩

/-- Two changes touch. -/
abbrev Change.Overlaps (left right : Change) : Prop := left.Touches right.range

/-- One change comes before another. -/
def Change.Precedes (left right : Change) : Prop :=
  left.old.byteStart < right.old.byteStart ∨
    left.old.byteStart = right.old.byteStart ∧ left.old.byteEnd < right.old.byteEnd

instance (left right : Change) : Decidable (left.Precedes right) :=
  inferInstanceAs (Decidable (_ ∨ _))

def mergeSpans : List Span → Option Span
  | [] => none
  | first :: spans => some (spans.foldl (fun merged span =>
    ⟨min merged.byteStart span.byteStart, max merged.byteEnd span.byteEnd,
      min merged.unitStart span.unitStart, max merged.unitEnd span.unitEnd⟩) first)

/-! ### Clusters -/

/-- The range with a change. -/
def ByteRange.hull (range : ByteRange) (change : Change) : ByteRange :=
  ⟨min range.start change.old.byteStart, max range.stop change.old.byteEnd⟩

/-- Take changes while they touch the range, which grows with them. -/
def absorb (range : ByteRange) : List Change → List Change × List Change × ByteRange
  | [] => ([], [], range)
  | change :: changes =>
    if change.Touches range then
      let (taken, rest, grown) := absorb (range.hull change) changes
      (change :: taken, rest, grown)
    else ([], change :: changes, range)

theorem absorb_append (range : ByteRange) (changes : List Change) :
    (absorb range changes).1 ++ (absorb range changes).2.1 = changes := by
  induction changes generalizing range with
  | nil => rfl
  | cons change changes ih =>
    rw [absorb]
    split
    · exact congrArg (change :: ·) (ih _)
    · rfl

structure Cluster where
  range : ByteRange
  ours : List Change
  theirs : List Change
  /-- What comes after the cluster. -/
  oursRest : List Change
  theirsRest : List Change

/-- Absorb from both sides until neither has a change that touches. -/
def closeCluster (range : ByteRange) (oursTaken theirsTaken ours theirs : List Change) : Cluster :=
  let o := absorb range ours
  let t := absorb o.2.2 theirs
  if o.1 = [] ∧ t.1 = [] then ⟨t.2.2, oursTaken, theirsTaken, ours, theirs⟩
  else closeCluster t.2.2 (oursTaken ++ o.1) (theirsTaken ++ t.1) o.2.1 t.2.1
termination_by ours.length + theirs.length
decreasing_by
  have ho := congrArg List.length (absorb_append range ours)
  have ht := congrArg List.length (absorb_append (absorb range ours).2.2 theirs)
  rw [List.length_append] at ho ht
  have hsome : 0 < (absorb range ours).1.length ∨
      0 < (absorb (absorb range ours).2.2 theirs).1.length := by
    rw [List.length_pos_iff, List.length_pos_iff]
    tauto
  omega

def collectCluster (oursFirst theirsFirst : Change) (ours theirs : List Change) : Cluster :=
  closeCluster (oursFirst.range.hull theirsFirst) [] [] ours theirs

/-- Replay the changes that are left on a range of the base. -/
def renderFrom (base : Bytes) (stop : ℕ) : ℕ → List Change → Except ContentMergeError Bytes
  | cursor, [] => .ok (slice base cursor stop)
  | cursor, change :: changes =>
    if change.old.byteStart < cursor ∨ stop < change.old.byteEnd then .error .malformedDiffHunk
    else do
      let bytes ← renderFrom base stop change.old.byteEnd changes
      return slice base cursor change.old.byteStart ++ (change.replacement ++ bytes)

def renderSide (base : Bytes) (range : ByteRange) (changes : List Change) :
    Except ContentMergeError ConflictSideEvidence := do
  let bytes ← renderFrom base range.stop range.start changes
  return ⟨range, mergeSpans (changes.map Change.new), bytes, changes.flatMap Change.edits⟩

/-! ### The merge -/

/-- The changes that are left, and what has been put out. -/
structure MergeState where
  ours : List Change
  theirs : List Change
  cursor : ℕ
  output : Bytes
  conflicts : List ContentConflict

section Steps

variable (base : Bytes) (options : ContentMergeOptions)

/-- Put out a change that the other side does not touch. -/
def takeChange (s : MergeState) (change : Change) (ours theirs : List Change) :
    Except ContentMergeError MergeState := do
  let output ← appendBase s.output base s.cursor change.old.byteStart options.limits.maxOutputBytes
  let output ← appendBytes output change.replacement options.limits.maxOutputBytes
  return { s with ours := ours, theirs := theirs, cursor := change.old.byteEnd, output := output }

/-- The evidence of a cluster. -/
def Cluster.conflict (cluster : Cluster) (ours theirs : ConflictSideEvidence) : ContentConflict :=
  ⟨⟨cluster.range, mergeSpans ((cluster.ours ++ cluster.theirs).map Change.old),
    slice base cluster.range.start cluster.range.stop, []⟩, ours, theirs⟩

/-- Put out a cluster. -/
def takeCluster (s : MergeState) (cluster : Cluster) : Except ContentMergeError MergeState := do
  let limit := options.limits.maxOutputBytes
  let output ← appendBase s.output base s.cursor cluster.range.start limit
  let ours ← renderSide base cluster.range cluster.ours
  let theirs ← renderSide base cluster.range cluster.theirs
  if ours.bytes = theirs.bytes then
    let output ← appendBytes output ours.bytes limit
    return ⟨cluster.oursRest, cluster.theirsRest, cluster.range.stop, output, s.conflicts⟩
  else
    refuseIf (s.conflicts.length = options.limits.maxConflicts)
      (.conflictLimitExceeded options.limits.maxConflicts)
    let conflict := cluster.conflict base ours theirs
    let marker ← renderMarker conflict options.profile.conflictStyle limit
    let output ← appendBytes output marker limit
    return ⟨cluster.oursRest, cluster.theirsRest, cluster.range.stop, output,
      s.conflicts ++ [conflict]⟩

/-- One turn of the loop. -/
def mergeStep (s : MergeState) : Except ContentMergeError MergeState :=
  match s.ours, s.theirs with
  | oursChange :: ours, theirsChange :: theirs =>
    if oursChange.Overlaps theirsChange then
      takeCluster base options s (collectCluster oursChange theirsChange s.ours s.theirs)
    else if oursChange.Precedes theirsChange then
      takeChange base options s oursChange ours s.theirs
    else
      takeChange base options s theirsChange s.ours theirs
  | change :: ours, [] => takeChange base options s change ours []
  | [], change :: theirs => takeChange base options s change [] theirs
  | [], [] => .ok s

/-- Turns while there are changes, each for a step of work. -/
def mergeLoop : ℕ → MergeState → Except ContentMergeError MergeState
  | work, s =>
    if s.ours = [] ∧ s.theirs = [] then .ok s
    else
      match work with
      | 0 => .error (.workLimitExceeded options.limits.maxWorkSteps)
      | work + 1 => do mergeLoop work (← mergeStep base options s)

def mergeChangeLists (ours theirs : List Change) :
    Except ContentMergeError ContentMergeOutcome := do
  let s ← mergeLoop base options options.limits.maxWorkSteps ⟨ours, theirs, 0, [], []⟩
  let output ← appendBase s.output base s.cursor base.length options.limits.maxOutputBytes
  return if s.conflicts = [] then .clean output else .conflicted output s.conflicts

end Steps

def cleanResult (bytes : Bytes) (maxOutputBytes : ℕ) :
    Except ContentMergeError ContentMergeOutcome := do
  refuseIf (maxOutputBytes < bytes.length) (.outputBytesExceeded maxOutputBytes)
  return .clean bytes

def wholeEvidence (bytes : Bytes) : ConflictSideEvidence := ⟨⟨0, bytes.length⟩, none, bytes, []⟩

def binaryConflict (base ours theirs : Bytes) (options : ContentMergeOptions) :
    Except ContentMergeError ContentMergeOutcome := do
  refuseIf (options.limits.maxConflicts = 0) (.conflictLimitExceeded options.limits.maxConflicts)
  let conflict : ContentConflict := ⟨wholeEvidence base, wholeEvidence ours, wholeEvidence theirs⟩
  let markerBytes ← renderMarker conflict options.profile.conflictStyle
    options.limits.maxOutputBytes
  return .conflicted markerBytes [conflict]

def isBinary (bytes : Bytes) : Prop := 0 ∈ bytes

instance (bytes : Bytes) : Decidable (isBinary bytes) := inferInstanceAs (Decidable (_ ∈ _))

def checkInputBytes (base ours theirs : Bytes) (limit : ℕ) : Except ContentMergeError Unit :=
  let actual := base.length + ours.length + theirs.length
  refuseIf (limit < actual) (.inputBytesExceeded limit actual)

/-- The outcome of a merge of one base. -/
def mergeOutcome (base ours theirs : Bytes) (options : ContentMergeOptions) :
    Except ContentMergeError ContentMergeOutcome := do
  checkInputBytes base ours theirs options.limits.maxInputBytes
  if ours = theirs then cleanResult ours options.limits.maxOutputBytes
  else if base = ours then cleanResult theirs options.limits.maxOutputBytes
  else if base = theirs then cleanResult ours options.limits.maxOutputBytes
  else if isBinary base ∨ isBinary ours ∨ isBinary theirs then
    binaryConflict base ours theirs options
  else
    let oursDiff ← (diff base ours options.profile.diffOptions).mapError .diff
    let theirsDiff ← (diff base theirs options.profile.diffOptions).mapError .diff
    let oursChanges ← changesFromHunks oursDiff.hunks options.limits.maxHunks
    let theirsChanges ← changesFromHunks theirsDiff.hunks options.limits.maxHunks
    mergeChangeLists base options oursChanges theirsChanges

def mergeContentWithBaseCount (base ours theirs : Bytes) (options : ContentMergeOptions)
    (baseCount : ℕ) : Except ContentMergeError ContentMergeResult := do
  let outcome ← mergeOutcome base ours theirs options
  return ⟨outcome, ⟨options.profile.version, options.profile.diffOptions.profile,
    options.profile.conflictStyle, options.profile.virtualBase, baseCount⟩⟩

/-- Merge one known base. -/
def mergeContent (base ours theirs : Bytes) (options : ContentMergeOptions) :
    Except ContentMergeError ContentMergeResult :=
  mergeContentWithBaseCount base ours theirs options 1

end Frankengit.Merge
