/-
Frankengit/Wire/Request.lean

What upload-pack asks of a repository, and the request it hands on to the
writer of packs.
-/
import Frankengit.Wire.Basic

namespace Frankengit.Wire

inductive UploadPackVersion where
  | v0 | v1 | v2
deriving DecidableEq

/-- A partial-clone filter. -/
inductive ObjectFilter where
  | blobNone
  | blobLimit (bytes : ℕ)
  | treeDepth (depth : ℕ)
  | sparsePath (path : Bytes)
  | sparseObject (oid : AnyGitOid)
  | sparseObjectName (name : Bytes)
  | combine (parts : List ObjectFilter)

/-- Optional behaviours of the pack. -/
structure PackOptions where
  sideband64k : Bool := false
  thinPack : Bool := false
  includeTag : Bool := false
  ofsDelta : Bool := false
  noProgress : Bool := false
  sidebandAll : Bool := false
  deepenRelative : Bool := false
deriving DecidableEq

structure PackRequest where
  version : UploadPackVersion
  wants : List AnyGitOid
  haves : List AnyGitOid
  shallows : List AnyGitOid
  deepen : Option UInt32
  deepenSince : Option ℤ
  deepenNot : List AnyGitOid
  filter : Option ObjectFilter
  options : PackOptions

/-- New boundaries of a shallow history, and old ones that were crossed. -/
structure ShallowUpdate where
  shallow : List AnyGitOid
  unshallow : List AnyGitOid
deriving DecidableEq

/-- The queries of a repository view. -/
@[ext] structure UploadPackRepository where
  objectFormat : GitObjectFormat
  advertisedRefs : List AdvertisedRef
  containsWant : AnyGitOid → Bool
  isCommon : AnyGitOid → Bool
  supportsShallow : Bool := false
  shallowUpdate : PackRequest → Except WireError ShallowUpdate := fun _ => .error .packSourceRefused
  resolveRef : Bytes → Option AnyGitOid := fun name =>
    (advertisedRefs.find? fun reference => reference.name = name).map AdvertisedRef.oid
  symrefTarget : Bytes → Option Bytes := fun _ => none
  unbornSymrefTarget : Option Bytes := none
  peeled : AnyGitOid → Option AnyGitOid := fun _ => none

end Frankengit.Wire
