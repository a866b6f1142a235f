/-
Frankengit/Pack/Resolver.lean

The scalar resolver (crate `fgit-pack`, module `delta`): it follows a delta
chain to its base, in the pack or outside it, and applies the deltas on the
way back.

Byte-only and typed resolution differ in four places: what a base of the
pack and an external base say about the object's type, which cached entries
answer and what a cached entry records.  `Provenance` collects them.
`expandWith` is then one object's expansion for both, in the scalar and in
the cached resolver: it asks for the object a delta is built on through its
argument `resolve`.

The deadline, which can end any step, is left out.
-/
import Frankengit.Lib.Index
import Frankengit.Pack.Delta
import Mathlib.Data.Prod.Lex
import Mathlib.Data.Nat.Size

namespace Frankengit.Pack

open Fallible Index

/-! ### Objects -/

inductive ObjectType where
  | commit | tree | blob | tag
deriving DecidableEq

/-- The type of the object a base entry stores. -/
def objectTypeFromBaseEntry : EntryKind → Except PackError ObjectType
  | .commit => .ok .commit
  | .tree => .ok .tree
  | .blob => .ok .blob
  | .tag => .ok .tag
  | .ofsDelta | .refDelta => .error .deltaObjectTypeUnavailable

/-- What a delta is built on. -/
inductive DeltaBase where
  | ofs (offset : ℕ)
  | ref (id : GitOid)
deriving DecidableEq

structure DeltaObject where
  offset : ℕ
  id : Option GitOid
  base : DeltaBase
  program : Bytes
deriving DecidableEq

/-- An input of the resolver.  A legacy base has bytes and no type. -/
inductive PackObject where
  | base (offset : ℕ) (id : Option GitOid) (data : Bytes)
  | typedBase (offset : ℕ) (id : Option GitOid) (kind : EntryKind) (data : Bytes)
  | delta (delta : DeltaObject)
deriving DecidableEq

namespace PackObject

def offset : PackObject → ℕ
  | base offset _ _ | typedBase offset _ _ _ => offset
  | delta d => d.offset

def id : PackObject → Option GitOid
  | base _ id _ | typedBase _ id _ _ => id
  | delta d => d.id

/-- An identity as a key: no identity is below every identity. -/
def idKey (object : PackObject) : WithBot GitOid := object.id

/-- The base of a delta. -/
def deltaBase? : PackObject → Option DeltaBase
  | base _ _ _ | typedBase _ _ _ _ => none
  | delta d => some d.base

end PackObject

/-- The caller's source of bases outside the pack. -/
structure ExternalBaseLookup where
  lookup : GitOid → Option Bytes
  lookupTyped : GitOid → Option (ObjectType × Bytes)

/-- Offset bases come before identity bases. -/
def baseKey : DeltaBase → Bool ×ₗ ℕ ×ₗ WithBot GitOid
  | .ofs offset => toLex (false, toLex (offset, ⊥))
  | .ref id => toLex (true, toLex (0, (id : WithBot GitOid)))

/-! ### The resolver and its lookups -/

structure ScalarResolver where
  externalBases : ExternalBaseLookup
  limits : PackLimits
  /-- Every object, by offset. -/
  byOffset : List PackObject
  /-- Every object that carries an identity, by identity. -/
  byId : List PackObject
  /-- Every delta's base. -/
  byBase : List DeltaBase
  /-- Work charged per search. -/
  probeCost : ℕ

/-- The only entry, if there is one; more than one is refused. -/
def single {α : Type} (error : PackError) : List α → Except PackError (Option α)
  | [] => .ok none
  | [a] => .ok (some a)
  | _ :: _ :: _ => .error error

namespace ScalarResolver

/-- The resolver over sorted indexes of the objects. -/
def index (objects : List PackObject) (externalBases : ExternalBaseLookup) (limits : PackLimits) :
    ScalarResolver where
  externalBases := externalBases
  limits := limits
  byOffset := sortByKey PackObject.offset objects
  byId := sortByKey PackObject.idKey (objects.filter fun object => object.id.isSome)
  byBase := sortByKey baseKey (objects.filterMap PackObject.deltaBase?)
  probeCost := max 1 objects.length.size

/-- The bounds on one input. -/
def checkObject (limits : PackLimits) : PackObject → Except PackError Unit
  | .base _ _ data | .typedBase _ _ _ data => limits.objectSize data.length
  | .delta d => limits.input d.program.length

def new (objects : List PackObject) (externalBases : ExternalBaseLookup) (limits : PackLimits) :
    Except PackError ScalarResolver := do
  refuseIf (u32Max < objects.length) (.entryCountLimit u32Max limits.maxEntries)
  refuseIf (limits.maxEntries < objects.length) (.entryCountLimit objects.length limits.maxEntries)
  objects.forM (checkObject limits)
  return index objects externalBases limits

variable (r : ScalarResolver)

/-- The object at an offset. -/
def atOffset (offset : ℕ) : Except PackError (Option PackObject) :=
  single (.duplicateObjectOffset offset) (probe PackObject.offset r.byOffset offset)

/-- The object with an identity. -/
def atId (id : GitOid) : Except PackError (Option PackObject) :=
  single .duplicateObjectId (probe PackObject.idKey r.byId (id : WithBot GitOid))

def findByOffset (offset : ℕ) (acc : Accounting) :
    Except PackError (Option PackObject × Accounting) := do
  let acc ← acc.addWork r.limits r.probeCost
  let found ← r.atOffset offset
  return (found, acc)

def findById (id : GitOid) (acc : Accounting) :
    Except PackError (Option PackObject × Accounting) := do
  let acc ← acc.addWork r.limits r.probeCost
  let found ← r.atId id
  return (found, acc)

/-- How many deltas are built on a base. -/
def fanout (base : DeltaBase) : ℕ := (probe baseKey r.byBase (baseKey base)).length

def validateFanout (base : DeltaBase) (acc : Accounting) : Except PackError Accounting := do
  let acc ← acc.addWork r.limits r.probeCost
  if r.limits.maxDeltaFanout < r.fanout base then
    let fanout ← checkedAdd "delta fanout" r.limits.maxDeltaFanout 1
    throw (.deltaFanoutLimit fanout r.limits.maxDeltaFanout)
  return acc

end ScalarResolver

/-! ### Resolution -/

/-- What a resolution knows about the type of what it resolves. -/
structure Provenance (τ : Type) where
  /-- What a base of the pack says, by its entry kind if it has one. -/
  root : Option EntryKind → Except PackError τ
  external : ExternalBaseLookup → GitOid → Except PackError (τ × Bytes)
  /-- Whether a cached entry of this type answers. -/
  hit : Option ObjectType → Option τ
  /-- The type a cached entry records. -/
  stored : τ → Option ObjectType

namespace Provenance

def bytesOnly : Provenance Unit where
  root _ := .ok ()
  external bases id :=
    match bases.lookup id with
    | some bytes => .ok ((), bytes)
    | none => .error .missingDeltaBase
  hit _ := some ()
  stored _ := none

def typed : Provenance ObjectType where
  root
    | none => .error .untypedInPackBase
    | some kind => objectTypeFromBaseEntry kind
  external bases id :=
    match bases.lookupTyped id with
    | some base => .ok base
    | none =>
      if (bases.lookup id).isSome then .error .untypedExternalDeltaBase
      else .error .missingDeltaBase
  hit objectType := objectType
  stored objectType := some objectType

end Provenance

/-- A resolution's answer and what has been used so far. -/
abbrev Resolved (τ : Type) := (τ × Bytes) × Accounting

/-- Where a delta finds its base. -/
inductive BaseSite where
  | inPack (object : PackObject)
  | external (id : GitOid)
deriving DecidableEq

namespace ScalarResolver

variable (r : ScalarResolver) {τ : Type} (P : Provenance τ)

/-- Take bytes that are stored whole. -/
def admitBytes (found : Except PackError (τ × Bytes)) (acc : Accounting) :
    Except PackError (Resolved τ) := do
  let (t, bytes) ← found
  r.limits.objectSize bytes.length
  let acc ← acc.addExpanded r.limits bytes.length
  return ((t, bytes), acc)

/-- Look the base of a delta up. -/
def locateBase (base : DeltaBase) (acc : Accounting) : Except PackError (BaseSite × Accounting) :=
  match base with
  | .ofs offset => do
    match ← r.findByOffset offset acc with
    | (some object, acc) => return (.inPack object, acc)
    | (none, _) => throw .missingDeltaBase
  | .ref id => do
    match ← r.findById id acc with
    | (some object, acc) => return (.inPack object, acc)
    | (none, acc) => return (.external id, acc)

section Steps

variable {m : Type → Type} [Monad m] [MonadLiftT (Except PackError) m]

def resolveBaseWith (resolve : PackObject → Accounting → m (Resolved τ)) (base : DeltaBase)
    (acc : Accounting) : m (Resolved τ) := do
  match ← liftM (r.locateBase base acc) with
  | (.inPack object, acc) => resolve object acc
  | (.external id, acc) => liftM (r.admitBytes (P.external r.externalBases id) acc)

/-- Apply a delta to its resolved base. -/
def applyTo (program : Bytes) (base : Resolved τ) : Except PackError (Resolved τ) := do
  let (result, acc) ← applyDeltaWithAccounting r.limits base.1.2 program base.2
  let acc ← acc.addExpanded r.limits result.length
  return ((base.1.1, result), acc)

/-- Expand one object.  The base of a delta is resolved one level deeper,
which happens only while the depth limit allows it. -/
def expandWith (depth : ℕ)
    (resolve : depth < r.limits.maxDeltaDepth → PackObject → Accounting → m (Resolved τ))
    (object : PackObject) (acc : Accounting) : m (Resolved τ) :=
  match object with
  | .base _ _ data => liftM (r.admitBytes ((·, data) <$> P.root none) acc)
  | .typedBase _ _ kind data => liftM (r.admitBytes ((·, data) <$> P.root (some kind)) acc)
  | .delta d => do
    let acc ← liftM (r.validateFanout d.base acc)
    let nextDepth ← liftM (checkedAdd "delta depth" depth 1)
    if h : depth < r.limits.maxDeltaDepth then
      let base ← r.resolveBaseWith P (resolve h) d.base acc
      liftM (r.applyTo d.program base)
    else
      liftM (throw (.deltaDepthLimit nextDepth r.limits.maxDeltaDepth) :
        Except PackError (Resolved τ))

/-- Resolve the object a lookup gave. -/
def resolveFound (resolve : PackObject → ℕ → List ℕ → Accounting → m (Resolved τ))
    (found : Except PackError (Option PackObject × Accounting)) : m (Resolved τ) := do
  match ← liftM found with
  | (none, _) => liftM (throw .missingDeltaBase : Except PackError (Resolved τ))
  | (some object, acc) => resolve object 0 [] acc

end Steps

def resolveObjectWith (object : PackObject) (depth : ℕ) (stack : List ℕ) (acc : Accounting) :
    Except PackError (Resolved τ) :=
  if object.offset ∈ stack then .error .deltaCycle
  else
    r.expandWith P depth
      (fun _ base acc => resolveObjectWith base (depth + 1) (object.offset :: stack) acc) object acc
termination_by r.limits.maxDeltaDepth - depth

def resolveObject : PackObject → ℕ → List ℕ → Accounting → Except PackError (Resolved Unit) :=
  r.resolveObjectWith .bytesOnly

def resolveObjectTyped :
    PackObject → ℕ → List ℕ → Accounting → Except PackError (Resolved ObjectType) :=
  r.resolveObjectWith .typed

def resolveOffset (offset : ℕ) : Except PackError Bytes :=
  (fun resolved => resolved.1.2) <$> resolveFound r.resolveObject (r.findByOffset offset .fresh)

def resolveOffsetTyped (offset : ℕ) : Except PackError (ObjectType × Bytes) :=
  Prod.fst <$> resolveFound r.resolveObjectTyped (r.findByOffset offset .fresh)

def resolveIdTyped (id : GitOid) : Except PackError (ObjectType × Bytes) :=
  Prod.fst <$> resolveFound r.resolveObjectTyped (r.findById id .fresh)

end ScalarResolver

end Frankengit.Pack
