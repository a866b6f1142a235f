/-
Frankengit/TreeFs/Intent.lean

The log of edit intents (`fgit-treefs`, `intent.rs` and `overlay.rs`).  A log is
evaluated in order.  Each intent puts an entry into the overlay, takes one away
or does nothing, and has an outcome; a later intent may take the place of an
earlier one, which the owner of a path is kept for.
-/
import Frankengit.Lib.Fallible
import Frankengit.TreeFs.Path

namespace Frankengit.TreeFs

/-! ### The overlay -/

abbrev ContentId := Digest

inductive FileMode where
  | regular | executable
deriving DecidableEq

inductive EntryClass where
  | content
  | generated (producer : Bytes)
deriving DecidableEq

/-- A body kept by the overlay, or the body of a base object. -/
inductive ContentRef where
  | overlay (id : ContentId)
  | base (oid : Bytes) (origin : TreePath)
deriving DecidableEq

inductive OverlayEntry where
  | file (content : ContentRef) (mode : FileMode) (entryClass : EntryClass)
  | symlink (target : ContentRef)
  | directory
  | whiteout
  | submodule (commit : Bytes)
  | conflict (marker : ContentId) (inputs : List Bytes)
deriving DecidableEq

inductive OverlayLookup where
  | present (entry : OverlayEntry)
  | deleted
  | deletedByAncestor (ancestor : TreePath)
  | absent
deriving DecidableEq

def OverlayLookup.isPresent : OverlayLookup → Bool
  | .present _ => true
  | _ => false

abbrev Overlay := BTreeMap TreePath OverlayEntry

/-- What the overlay says of a path.  A deleted ancestor hides all below it. -/
def Overlay.lookup (overlay : Overlay) (path : TreePath) : OverlayLookup :=
  match path.ancestors.find? fun ancestor => overlay[ancestor]? = some .whiteout with
  | some ancestor => .deletedByAncestor ancestor
  | none =>
    match overlay[path]? with
    | some .whiteout => .deleted
    | some entry => .present entry
    | none => .absent

/-! ### Intents and outcomes -/

structure BasisEntry where
  oid : Bytes
  mode : FileMode
deriving DecidableEq

inductive TreeEditIntent where
  | write (path : TreePath) (content : Bytes) (mode : FileMode) (entryClass : EntryClass)
  | createSymlink (path : TreePath) (linkTarget : Bytes)
  | createDirectory (path : TreePath)
  | removeDirectory (path : TreePath)
  | delete (path : TreePath)
  | rename (origin target : TreePath) (basisEntry : Option BasisEntry)
  | chmod (path : TreePath) (basisEntry : Option BasisEntry) (after : FileMode)
  | updateSubmodule (path : TreePath) (afterOid : Bytes)
  | recordConflictMarkers (path : TreePath) (marker : Bytes) (mergeInputs : List Bytes)
deriving DecidableEq

inductive NoOpReason where
  | supersededByLaterIntent (byIndex : ℕ)
  | inverseCancellation (byIndex : ℕ)
  | alreadyIdentical
deriving DecidableEq

inductive IntentError where
  | renameSourceMissing (origin : TreePath)
  | notAFile (path : TreePath)
  | underDeletedAncestor (path ancestor : TreePath)
  | pathTypeConflict (path : TreePath)
  | missingBasisEntry (path : TreePath)
  | basisEntryMismatch (path : TreePath)
deriving DecidableEq

inductive NetEffect where
  | survives (path : TreePath)
  | noOp (reason : NoOpReason)
  | error (error : IntentError)
deriving DecidableEq

/-- What the base holds at a path, as far as a rename or a mode change can use it. -/
inductive BaseSource where
  | file (basis : BasisEntry)
  | symlink (oid : Bytes)
  | unsupported
deriving DecidableEq

namespace TreeEditIntent

def primaryPath : TreeEditIntent → TreePath
  | write path .. | createSymlink path _ | createDirectory path | removeDirectory path | delete path
  | chmod path .. | updateSubmodule path _ | recordConflictMarkers path .. => path
  | rename _ target _ => target

/-- Where the intent puts a whiteout, if it takes effect. -/
def hides : TreeEditIntent → Option TreePath
  | removeDirectory path | delete path => some path
  | rename origin .. => some origin
  | _ => none

/-- Where a rename moves its entry from. -/
def origin? : TreeEditIntent → Option TreePath
  | rename origin .. => some origin
  | _ => none

end TreeEditIntent

/-! ### Evaluation -/

/-- The overlay, the index of the intent that owns each path, and the outcomes. -/
structure Evaluation where
  overlay : Overlay
  owner : BTreeMap TreePath ℕ
  outcomes : List NetEffect

variable (s : Evaluation) (path : TreePath) (index : ℕ)

namespace Evaluation

def empty : Evaluation := ⟨∅, ∅, []⟩

def put (entry : OverlayEntry) : Evaluation :=
  { s with overlay := s.overlay.insert path entry }

/-- Clear a path and forget its owner. -/
def clear : Evaluation :=
  { s with overlay := s.overlay.erase path, owner := s.owner.erase path }

/-- What the owner of a path becomes when another takes it. -/
def noOpBy (inverse : Bool) : NetEffect :=
  .noOp (if inverse then .inverseCancellation index else .supersededByLaterIntent index)

/-- Take a path over; its owner so far no longer survives. -/
def supersede (inverse : Bool) : Evaluation where
  overlay := s.overlay
  owner := s.owner.insert path index
  outcomes :=
    match s.owner[path]? with
    | none => s.outcomes
    | some previous =>
      match s.outcomes[previous]? with
      | some (.survives _) => s.outcomes.set previous (noOpBy index inverse)
      | _ => s.outcomes

def place (path : TreePath) (entry : OverlayEntry) : NetEffect × Evaluation :=
  (.survives path, (s.supersede path index false).put path entry)

/-- The staged paths below a path. -/
def staged : List TreePath := s.overlay.keys.filter (·.below path)

/-- Take away what was made here, and all staged below it. -/
def cancel (path : TreePath) : Evaluation :=
  let s := (s.supersede path index true).clear path
  (s.staged path).foldl clear s

end Evaluation

/-- The basis of a base file, if it is the right one. -/
def fileBasis (source : Option BaseSource) (basis : Option BasisEntry) (path : TreePath) :
    Except IntentError BasisEntry :=
  match source, basis with
  | some (.symlink _), _ | some .unsupported, _ => .error (.notAFile path)
  | _, none => .error (.missingBasisEntry path)
  | some (.file actual), some basis =>
    if actual ≠ basis then .error (.basisEntryMismatch path) else .ok basis
  | none, some basis => .ok basis

/-- How the bodies are addressed and what the base holds. -/
structure Basis where
  contentId : Bytes → ContentId
  baseExists : TreePath → Bool
  baseSource : TreePath → Option BaseSource

namespace Basis

variable (base : Basis)

/-- The entry that a rename moves. -/
def moved (s : Evaluation) (origin : TreePath) (basisEntry : Option BasisEntry) :
    Except IntentError OverlayEntry :=
  match s.overlay.lookup origin with
  | .present entry => .ok entry
  | .absent =>
    if base.baseExists origin then
      match base.baseSource origin with
      | some (.symlink oid) =>
        if basisEntry.isSome then .error (.basisEntryMismatch origin)
        else .ok (.symlink (.base oid origin))
      | source => (fileBasis source basisEntry origin).map fun basis =>
        .file (.base basis.oid origin) basis.mode .content
    else .error (.renameSourceMissing origin)
  | _ => .error (.renameSourceMissing origin)

/-- The entry with another mode, or the outcome of an intent that changes none. -/
def remoded (s : Evaluation) (path : TreePath) (basisEntry : Option BasisEntry) (after : FileMode) :
    Except NetEffect OverlayEntry :=
  match s.overlay.lookup path with
  | .present (.file content mode entryClass) =>
    if mode = after then .error (.noOp .alreadyIdentical) else .ok (.file content after entryClass)
  | .absent =>
    if base.baseExists path then
      match fileBasis (base.baseSource path) basisEntry path with
      | .error error => .error (.error error)
      | .ok basis =>
        if basis.mode = after then .error (.noOp .alreadyIdentical)
        else .ok (.file (.base basis.oid path) after .content)
    else .error (.error (.notAFile path))
  | _ => .error (.error (.notAFile path))

/-- Delete what is at a path.  What was made by the log and is not in the base
goes without a trace. -/
def remove (s : Evaluation) (index : ℕ) (path : TreePath) : NetEffect × Evaluation :=
  if (s.overlay.lookup path).isPresent && !base.baseExists path then
    (.noOp (.inverseCancellation index), s.cancel index path)
  else s.place index path .whiteout

def applyOne (s : Evaluation) (index : ℕ) (intent : TreeEditIntent) : NetEffect × Evaluation :=
  match s.overlay.lookup intent.primaryPath with
  | .deletedByAncestor ancestor =>
    (.error (.underDeletedAncestor intent.primaryPath ancestor), s)
  | found =>
    match intent with
    | .write path content mode entryClass =>
      let candidate := .file (.overlay (base.contentId content)) mode entryClass
      if found = .present candidate then (.noOp .alreadyIdentical, s)
      else s.place index path candidate
    | .createSymlink path linkTarget =>
      s.place index path (.symlink (.overlay (base.contentId linkTarget)))
    | .createDirectory path =>
      match found with
      | .present entry =>
        if entry = .directory then s.place index path .directory
        else (.error (.pathTypeConflict path), s)
      | _ => s.place index path .directory
    | .removeDirectory path | .delete path => base.remove s index path
    | .rename origin target basisEntry =>
      match base.moved s origin basisEntry with
      | .error error => (.error error, s)
      | .ok entry =>
        (.survives target, ((s.put target entry).supersede target index false).put origin .whiteout)
    | .chmod path basisEntry after =>
      match base.remoded s path basisEntry after with
      | .error outcome => (outcome, s)
      | .ok entry => s.place index path entry
    | .updateSubmodule path afterOid => s.place index path (.submodule afterOid)
    | .recordConflictMarkers path marker mergeInputs =>
      s.place index path (.conflict (base.contentId marker) mergeInputs)

/-- One turn of the loop.  The index of an intent is the number of outcomes
before it. -/
def step (s : Evaluation) (intent : TreeEditIntent) : Evaluation :=
  let (outcome, s') := base.applyOne s s.outcomes.length intent
  { s' with outcomes := s'.outcomes ++ [outcome] }

def evaluateSources (log : List TreeEditIntent) : Evaluation := log.foldl base.step .empty

end Basis

end Frankengit.TreeFs
