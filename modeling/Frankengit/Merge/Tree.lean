/-
Frankengit/Merge/Tree.lean

Three-way tree merge (crate `fgit-diff`, module `merge`).

Three listings in Git tree order are walked together.  A turn takes the least of
the three next entries, then the entries of that path, and decides the path from
them.  Entries of one path compare equal, but with other entries a directory
compares as if its name ended with a slash, so where a path stands depends on
the mode of its entry.

A cursor is what is left of its listing.  The loop pays one step of work in
every turn, so the work that is left is what `treeLoop` recurs on.  Cancellation
is left out.
-/
import Frankengit.Lib.Budget
import Frankengit.Lib.Fallible
import Frankengit.Types.Basic

namespace Frankengit.Merge

open Fallible WorkBudget

/-- A Git tree mode. -/
structure TreeMode where
  bits : UInt32
deriving DecidableEq

structure TreeEntry (ObjectId : Type) where
  path : Bytes
  mode : TreeMode
  object : ObjectId
deriving DecidableEq

inductive TreeConflictKind where
  | addAdd | modifyDelete | renameInteraction | modeChange | typeChange | symlink
  | submodulePointer | content
deriving DecidableEq

/-- A path that is not decided, with its three entries. -/
structure TreeConflict (ObjectId : Type) where
  path : Bytes
  kind : TreeConflictKind
  base : Option (TreeEntry ObjectId)
  ours : Option (TreeEntry ObjectId)
  theirs : Option (TreeEntry ObjectId)
deriving DecidableEq

inductive TreeMergeEntry (ObjectId : Type) where
  | clean (entry : TreeEntry ObjectId)
  | conflict (conflict : TreeConflict ObjectId)
deriving DecidableEq

/-- What a tree merge proposes to record. -/
inductive ProposedTreeIntent (ObjectId : Type) where
  | recordTreeConflict (path : Bytes) (kind : TreeConflictKind)
      (base ours theirs : Option (TreeEntry ObjectId))
deriving DecidableEq

structure TreeMergeLimits where
  maxEntriesPerTree : ℕ
  maxPaths : ℕ
  maxPathBytes : ℕ
  maxConflicts : ℕ
  maxWorkSteps : ℕ
deriving DecidableEq

structure TreeMergeResult (ObjectId : Type) where
  entries : List (TreeMergeEntry ObjectId)
  proposedIntents : List (ProposedTreeIntent ObjectId)
deriving DecidableEq

inductive TreeMergeError where
  | unsortedOrDuplicatePath
  | entryLimitExceeded (limit : ℕ)
  | pathLimitExceeded (limit : ℕ)
  | pathBytesExceeded (limit actual : ℕ)
  | conflictLimitExceeded (limit : ℕ)
  | workLimitExceeded (limit : ℕ)
deriving DecidableEq

variable {ObjectId : Type}

/-! ### Tree order -/

/-- The byte that ends a name: a directory's is a slash. -/
def treeNameTerminator (mode : TreeMode) : UInt8 :=
  if mode.bits &&& 0o170000 = 0o040000 then 0x2f else 0

def compareTreeEntries (left right : TreeEntry ObjectId) : Ordering :=
  let shared := ((left.path.zip right.path).takeWhile fun p => p.1 = p.2).length
  match left.path[shared]?, right.path[shared]? with
  | some left, some right => compare left right
  | none, none => .eq
  | none, some byte => compare (treeNameTerminator left.mode) byte
  | some byte, none => compare byte (treeNameTerminator right.mode)

/-- Add an entry to a listing, if the limits and the tree order allow it. -/
def collectEntry (limit maxPathBytes : ℕ) (collected : List (TreeEntry ObjectId))
    (entry : TreeEntry ObjectId) : Except TreeMergeError (List (TreeEntry ObjectId)) := do
  refuseIf (collected.length = limit) (.entryLimitExceeded limit)
  refuseIf (maxPathBytes < entry.path.length) (.pathBytesExceeded maxPathBytes entry.path.length)
  refuseIf (∃ previous ∈ collected.getLast?, compareTreeEntries previous entry ≠ .lt)
    .unsortedOrDuplicatePath
  return collected ++ [entry]

def collectTree (entries : List (TreeEntry ObjectId)) (limit maxPathBytes : ℕ) :
    Except TreeMergeError (List (TreeEntry ObjectId)) :=
  entries.foldlM (collectEntry limit maxPathBytes) []

/-- The first of the least elements. -/
def minBy {α : Type} (cmp : α → α → Ordering) : List α → Option α
  | [] => none
  | x :: xs => some (xs.foldl (fun least y => if cmp least y = .gt then y else least) x)

def nextPath (base ours theirs : Option (TreeEntry ObjectId)) : Option Bytes :=
  (minBy compareTreeEntries ([base, ours, theirs].filterMap id)).map TreeEntry.path

/-- The next entry, when it has the path, and what is left. -/
def takeMatching (entries : List (TreeEntry ObjectId)) (path : Bytes) :
    Option (TreeEntry ObjectId) × List (TreeEntry ObjectId) :=
  match entries with
  | [] => (none, [])
  | entry :: rest => if entry.path = path then (some entry, rest) else (none, entry :: rest)

/-! ### Renames -/

/-- Paths that were removed and paths that were added with the same object. -/
structure RenamePairs where
  sources : BTreeMap Bytes Bytes
  destinations : BTreeSet Bytes

def RenamePairs.empty : RenamePairs := ⟨∅, ∅⟩

def consumeTreeWork : Budgeted TreeMergeError Unit := consume .workLimitExceeded 1

/-- Look for a path, one step of work for every entry. -/
def pathExists (path : Bytes) : List (TreeEntry ObjectId) → Budgeted TreeMergeError Bool
  | [] => pure false
  | entry :: entries => do
    consumeTreeWork
    if entry.path = path then pure true else pathExists path entries

variable [DecidableEq ObjectId]

/-- Look for an addition with the object of a removed entry, from an index on. -/
def findAddition (base : List (TreeEntry ObjectId)) (before : TreeEntry ObjectId)
    (used : List ℕ) : ℕ → List (TreeEntry ObjectId) →
      Budgeted TreeMergeError (Option (ℕ × TreeEntry ObjectId))
  | _, [] => pure none
  | index, after :: side => do
    let existedInBase ← pathExists after.path base
    if existedInBase ∨ index ∈ used then findAddition base before used (index + 1) side
    else
      consumeTreeWork
      if before.object = after.object then pure (some (index, after))
      else findAddition base before used (index + 1) side

variable (renames : RenamePairs)

/-- Record the rename of an entry. -/
def RenamePairs.record (before after : TreeEntry ObjectId) : RenamePairs :=
  ⟨renames.sources.insert before.path after.path, renames.destinations.insert after.path⟩

/-- Look for the rename of a base entry, with the renames and additions found so
far. -/
def renameEntry (base side : List (TreeEntry ObjectId)) (found : RenamePairs × List ℕ)
    (before : TreeEntry ObjectId) : Budgeted TreeMergeError (RenamePairs × List ℕ) := do
  let existsInSide ← pathExists before.path side
  if existsInSide then pure found
  else
    match ← findAddition base before found.2 0 side with
    | none => pure found
    | some (index, after) => pure (found.1.record before after, index :: found.2)

def exactObjectRenames (base side : List (TreeEntry ObjectId)) :
    Budgeted TreeMergeError RenamePairs := do
  let found ← base.foldlM (renameEntry base side) (.empty, [])
  return found.1

def renamedPath (path : Bytes) : Bool :=
  renames.sources.contains path || renames.destinations.contains path

def renameDestination (path : Bytes) : Option Bytes := renames.sources[path]?

def conflictingRenameSource (oursRenames theirsRenames : RenamePairs) (path : Bytes)
    (ours theirs : Option (TreeEntry ObjectId)) : Bool :=
  match renameDestination oursRenames path, renameDestination theirsRenames path with
  | some ours, some theirs => ours ≠ theirs
  | some _, none => theirs.isNone
  | none, some _ => ours.isNone
  | none, none => false

/-! ### One path -/

inductive EntryKind where
  | tree | regular | symlink | submodule | other
deriving DecidableEq

def entryKind (mode : TreeMode) : EntryKind :=
  let kind := mode.bits &&& 0o170000
  if kind = 0o040000 then .tree
  else if kind = 0o100000 then .regular
  else if kind = 0o120000 then .symlink
  else if kind = 0o160000 then .submodule
  else .other

def classifyTreeConflict (base ours theirs : Option (TreeEntry ObjectId)) : TreeConflictKind :=
  match base, ours, theirs with
  | none, some _, some _ => .addAdd
  | some _, none, some _ => .modifyDelete
  | some _, some _, none => .modifyDelete
  | some base, some ours, some theirs =>
    let kinds := [entryKind base.mode, entryKind ours.mode, entryKind theirs.mode]
    if .submodule ∈ kinds then .submodulePointer
    else if .symlink ∈ kinds then .symlink
    else if entryKind ours.mode ≠ entryKind theirs.mode ∨
        entryKind base.mode ≠ entryKind ours.mode ∨ entryKind base.mode ≠ entryKind theirs.mode then
      .typeChange
    else if ours.mode ≠ theirs.mode then .modeChange
    else .content
  | _, _, _ => .content

/-- Decide a path from its three entries. -/
def mergeTreeEntry (path : Bytes) (base ours theirs : Option (TreeEntry ObjectId))
    (renameInteraction forceRenameConflict : Bool) :
    Except (TreeConflict ObjectId) (Option (TreeEntry ObjectId)) :=
  if forceRenameConflict then .error ⟨path, .renameInteraction, base, ours, theirs⟩
  else if ours = theirs then .ok ours
  else if base = ours then .ok theirs
  else if base = theirs then .ok ours
  else
    let kind := if renameInteraction then .renameInteraction
      else classifyTreeConflict base ours theirs
    .error ⟨path, kind, base, ours, theirs⟩

/-! ### The walk -/

/-- What is left of the listings, and what has been put out. -/
structure TreeMergeState (ObjectId : Type) where
  base : List (TreeEntry ObjectId)
  ours : List (TreeEntry ObjectId)
  theirs : List (TreeEntry ObjectId)
  entries : List (TreeMergeEntry ObjectId)
  proposedIntents : List (ProposedTreeIntent ObjectId)

def TreeConflict.intent (conflict : TreeConflict ObjectId) : ProposedTreeIntent ObjectId :=
  .recordTreeConflict conflict.path conflict.kind conflict.base conflict.ours conflict.theirs

section Walk

variable (limits : TreeMergeLimits) (oursRenames theirsRenames : RenamePairs)

/-- Take the entries of a path and decide it. -/
def decidePath (s : TreeMergeState ObjectId) (path : Bytes) :
    Except TreeMergeError (TreeMergeState ObjectId) :=
  let (baseEntry, base) := takeMatching s.base path
  let (oursEntry, ours) := takeMatching s.ours path
  let (theirsEntry, theirs) := takeMatching s.theirs path
  let renameInteraction := renamedPath oursRenames path || renamedPath theirsRenames path
  let forceRenameConflict :=
    conflictingRenameSource oursRenames theirsRenames path oursEntry theirsEntry
  match mergeTreeEntry path baseEntry oursEntry theirsEntry renameInteraction
    forceRenameConflict with
  | .ok (some clean) => .ok ⟨base, ours, theirs, s.entries ++ [.clean clean], s.proposedIntents⟩
  | .ok none => .ok ⟨base, ours, theirs, s.entries, s.proposedIntents⟩
  | .error conflict => do
    refuseIf (s.proposedIntents.length = limits.maxConflicts)
      (.conflictLimitExceeded limits.maxConflicts)
    return ⟨base, ours, theirs, s.entries ++ [.conflict conflict],
      s.proposedIntents ++ [conflict.intent]⟩

/-- One turn of the loop. -/
def treeStep (s : TreeMergeState ObjectId) : Except TreeMergeError (TreeMergeState ObjectId) := do
  refuseIf (s.entries.length = limits.maxPaths) (.pathLimitExceeded limits.maxPaths)
  match nextPath s.base.head? s.ours.head? s.theirs.head? with
  | none => throw .unsortedOrDuplicatePath
  | some path =>
    refuseIf (limits.maxPathBytes < path.length)
      (.pathBytesExceeded limits.maxPathBytes path.length)
    decidePath limits oursRenames theirsRenames s path

/-- Turns while a listing has entries, each for a step of work. -/
def treeLoop : ℕ → TreeMergeState ObjectId → Except TreeMergeError (TreeMergeState ObjectId)
  | work, s =>
    if s.base = [] ∧ s.ours = [] ∧ s.theirs = [] then .ok s
    else
      match work with
      | 0 => .error (.workLimitExceeded limits.maxWorkSteps)
      | work + 1 => do treeLoop work (← treeStep limits oursRenames theirsRenames s)

end Walk

/-- Merge three listings in Git tree order. -/
def mergeTrees (baseEntries oursEntries theirsEntries : List (TreeEntry ObjectId))
    (limits : TreeMergeLimits) : Except TreeMergeError (TreeMergeResult ObjectId) := do
  let base ← collectTree baseEntries limits.maxEntriesPerTree limits.maxPathBytes
  let ours ← collectTree oursEntries limits.maxEntriesPerTree limits.maxPathBytes
  let theirs ← collectTree theirsEntries limits.maxEntriesPerTree limits.maxPathBytes
  let (oursRenames, budget) ← exactObjectRenames base ours (.new limits.maxWorkSteps)
  let (theirsRenames, budget) ← exactObjectRenames base theirs budget
  let s ← treeLoop limits oursRenames theirsRenames budget.remaining ⟨base, ours, theirs, [], []⟩
  return ⟨s.entries, s.proposedIntents⟩

end Frankengit.Merge
