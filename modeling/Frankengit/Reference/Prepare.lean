/-
Frankengit/Reference/Prepare.lean

The transitions that lead up to a decision (`fgit-reference`,
`transition.rs`): sealing a request, staging objects into a transaction's
quarantine, and preparing a sealed transaction against the current head.

Preparation checks admission in a fixed order, folds the request, judges
the *net* effects against the pinned policy and records everything it read
as a conflict witness.  The capsule it produces is what staging later
reuses, possibly several heads on.
-/
import Frankengit.Reference.State

namespace Frankengit.Reference

/-! ### Sealing -/

/-- What sealing one request produced. -/
inductive SealOutcome where
  | created (id : TransactionSealId)
  | existingRetry (id : TransactionSealId)
  | rejected (code : RequestRejectionCode)

structure SealRequest where
  sealId : TransactionSealId
  request : TransactionRequest

variable (request : TransactionRequest)

def TransactionRequest.idempotencyScope : IdempotencyScope :=
  ⟨request.tenant, request.repository, request.principal, request.idempotencyKey⟩

variable (state : RepositoryState)

/-- Seal one request, or reject it before any seal exists. -/
def «seal» (input : SealRequest) : ModelResult (RepositoryState × SealOutcome) := do
  let request := input.request
  if request.repository ≠ state.repository then
    throw (.repositoryMismatch state.repository request.repository)
  let fields := request.sealFields
  let scope := request.idempotencyScope
  -- a key bound to a different canonical request must not alias the first
  if state.idempotencyIndex[scope]?.any (· ≠ request.canonicalRequestDigest) then
    return (state, .rejected .idempotencyKeyReuse)
  if request.schema ∉ state.head.body.configuration.supportedSchemas then
    return (state, .rejected .schemaUnsupported)
  match state.seals[request.txId]? with
  | some existing =>
    if existing.fields = fields then return (state, .existingRetry existing.sealId)
    else return (state, .rejected .idempotencyKeyReuse)
  | none =>
    let identities ← state.identities.bindTransaction request.txId fields.derivationInputs
    let identities ← identities.introduceSeal input.sealId
    return ({ state with
        identities := identities
        seals := state.seals.insert request.txId ⟨input.sealId, fields, 0⟩
        idempotencyIndex :=
          state.idempotencyIndex.insert scope request.canonicalRequestDigest },
      .created input.sealId)

/-! ### Quarantine -/

structure QuarantineRequest where
  txId : TxId
  objects : List QuarantinedObject

/-- A quarantine slot after staging more objects: the last object declared
under an identity wins. -/
def stageInto (slot : BTreeMap GitOid QuarantinedObject) (objects : List QuarantinedObject) :
    BTreeMap GitOid QuarantinedObject :=
  objects.foldl (fun slot object => slot.insert object.declared object) slot

/-- Stage objects into one sealed transaction's quarantine. -/
def stageObjects (input : QuarantineRequest) : ModelResult RepositoryState :=
  if input.txId ∉ state.seals then .error (.unknownSeal input.txId)
  else .ok { state with
    quarantine := state.quarantine.insert input.txId
      (stageInto (state.quarantine[input.txId]?.getD ∅) input.objects) }

/-! ### What a request names -/

/-- The ref an intent names, when it names one. -/
def namedRef : Intent → Option RefName
  | .ref intent => some intent.target
  | .forge intent =>
    match intent.event with
    | .pullRequestOpened _ target | .pullRequestMerged _ target
    | .pullRequestUpdated _ target | .pullRequestReviewed _ target
    | .mergeQueueChanged _ target => some target
    | .workflowCheckObserved _ source => some source
    | .pullRequestClosed _ | .issueChanged _ | .discussionChanged _ | .milestoneChanged _
    | .notificationPreferenceChanged _ | .agentCredentialChanged _
    | .pullRequestCommented _ | .reviewProtectionChanged _ => none
  | .retention _ | .outbox _ => none

/-- The object an intent would protect. -/
def intentObject : Intent → Option GitOid
  | .ref (.update _ _ new _) => some new
  | .retention (.addRoot root) => some root.object
  | .ref (.delete _ _) | .retention (.removeRoot _) | .forge _ | .outbox _ => none

/-- Every native object identity an intent names. -/
def intentObjects : List GitOid :=
  request.addressedIntents.filterMap fun entry => intentObject entry.2

/-- Everything the request promised and every object its intents name. -/
def closureOf : List GitOid :=
  request.promisedClosure.toList ++ intentObjects request

/-- The refs for which some intent requested a forced update. -/
def forcedRefs : List RefName :=
  request.addressedIntents.filterMap fun entry =>
    match entry.2 with
    | .ref (.update name _ _ true) => some name
    | _ => none

/-- Everything admitted plus everything verified in the transaction's own
quarantine. -/
def availableObjects (txId : TxId) : BTreeMap GitOid (List GitOid) :=
  (state.quarantine[txId]?.getD ∅).foldl (fun view _ object =>
      if object.isIdentityVerified then view.insert object.declared object.parents else view)
    state.admittedView

/-- Ancestry over a parent view. -/
def reachableIn (view : BTreeMap GitOid (List GitOid)) (tip candidate : GitOid) : Bool :=
  Search.reaches view tip candidate

/-! ### Policy -/

/-- The verdict of policy on one surviving ref effect. -/
def refEffectRefusal (request : TransactionRequest) (available : BTreeMap GitOid (List GitOid))
    (name : RefName) (effect : RefEffect) : Option RefusalCode :=
  let policy := state.head.body.configuration
  let capabilities := policy.capabilitiesOf request.principal
  match name.scopeOf with
  | none => some .refNameInvalid
  | some scope =>
    if capabilities.mayWriteScope scope = false then some .capabilityScopeViolation
    else
      let denied :=
        if policy.isProtected scope then some .protectedRefTransitionDenied else none
      match effect with
      | .delete => denied
      | .set new =>
        match state.head.body.roots.refs[name]? with
        -- creating a ref, and a fast-forward, never reach the protection check
        | none => none
        | some old =>
          if reachableIn available new old then none
          else if name ∉ forcedRefs request then some .nonFastForwardRefused
          else if capabilities.mayForce = false then some .forceNotPermitted
          else denied

/-- The verdict of policy on one appended forge event: a merge event needs
the ref effect it claims. -/
def forgeEventRefusal (effects : NetEffects) (event : ForgeEventKind) : Option RefusalCode :=
  match event.requiredRefEffect with
  | none => none
  | some required =>
    match effects.refs[required]? with
    | some (.set _) => none
    | some .delete => some .conflictingSemanticEffects
    | none => some .forgeTransitionInvalid

/-- The verdict of policy on one surviving retention effect. -/
def retentionEffectRefusal (capabilities : PrincipalCapabilities) (root : RetentionRoot) :
    RetentionEffect → Option RefusalCode
  | .add =>
    if root.class = .legalHold ∧ capabilities.mayAddLegalHold = false then
      some .capabilityScopeViolation
    else none
  | .remove =>
    if root.class.isOrdinarilyRemovable then none else some .retentionHoldViolation

/-- Deterministic policy over the net effects, not over the raw intents. -/
def evaluatePolicy (request : TransactionRequest) (effects : NetEffects)
    (available : BTreeMap GitOid (List GitOid)) : Option RefusalCode :=
  let capabilities := state.head.body.configuration.capabilitiesOf request.principal
  (effects.refs.toList.findSome? fun e => refEffectRefusal state request available e.1 e.2) <|>
  (if effects.forge.isEmpty = false ∧ capabilities.mayPublishForge = false then
    some .capabilityScopeViolation else none) <|>
  (effects.forge.toList.findSome? fun e => e.2.findSome? (forgeEventRefusal effects)) <|>
  (effects.retention.toList.findSome? fun e => retentionEffectRefusal capabilities e.1 e.2)

/-! ### Preparation -/

/-- What one preparation concluded, before the capsule wraps it. -/
structure Evaluation where
  verdict : PreparedVerdict
  intentMap : List IntentMapping
  objectClosure : BTreeSet GitOid

/-- A refusal reached before the fold ran. -/
def Evaluation.refusedBeforeFold (code : RefusalCode) : Evaluation := ⟨.refuse code, [], ∅⟩

/-- The admission check a request fails first, if any. -/
def admissionRefusal (request : TransactionRequest) : Option RefusalCode :=
  let policy := state.head.body.configuration
  if request.schema ∉ policy.supportedSchemas then some .schemaUnsupported
  else if policy.maxIntentsPerTransaction < request.intentCount then some .resourceBudgetExceeded
  else if policy.offersDurability request.durability = false then
    some .durabilityProfileUnavailable
  else if request.addressedIntents.any fun entry =>
      (namedRef entry.2).any fun name => !name.isCanonical then some .refNameInvalid
  else if (closureOf request).any fun oid => oid.algorithm ≠ state.objectFormat then
    some .hashAlgorithmDomainMismatch
  else if (state.quarantine[request.txId]?.getD ∅).values.any fun object =>
      !object.isIdentityVerified then some .nativeObjectIdMismatch
  else if (closureOf request).any fun oid =>
      oid ∉ availableObjects state request.txId then some .objectClosureIncomplete
  else none

/-- Evaluate a request against the current head. -/
def evaluate (request : TransactionRequest) : Evaluation :=
  match admissionRefusal state request with
  | some code => .refusedBeforeFold code
  | none =>
    let report := fold state.head.body.roots.basis request
    match report.outcome with
    | .aborted code _ => ⟨.refuse code, report.mappings, ∅⟩
    | .folded effects =>
      match evaluatePolicy state request effects (availableObjects state request.txId) with
      | some code => ⟨.refuse code, report.mappings, ∅⟩
      | none =>
        ⟨.commit effects, report.mappings,
          (intentObjects request).foldl (·.insert ·) request.promisedClosure⟩

/-- The ref a forge event reads without asking for an effect on it. -/
def forgeSubject : ForgeEventKind → Option RefName
  | .workflowCheckObserved _ source => some source
  | .mergeQueueChanged _ target => some target
  | event => event.requiredRefEffect

/-- Record what one intent reads. -/
def witnessIntent (roots : RepositoryRoots) (witness : ConflictWitness) : Intent → ConflictWitness
  | .ref intent =>
    { witness with refs := witness.refs.insert intent.target roots.refs[intent.target]? }
  | .forge intent =>
    let witness := { witness with
      forgePositions := witness.forgePositions.insert intent.stream
        (positionOf roots.forgePositions intent.stream) }
    match forgeSubject intent.event with
    | some target =>
      { witness with refs := witness.refs.insert target roots.refs[target]? }
    | none => witness
  | .retention (.addRoot root) | .retention (.removeRoot root) =>
    if root ∈ roots.retention then
      { witness with retentionPresent := witness.retentionPresent.insert root }
    else { witness with retentionAbsent := witness.retentionAbsent.insert root }
  | .outbox intent =>
    { witness with
      outbox := witness.outbox.insert intent.deliveryKey roots.outbox[intent.deliveryKey]? }

/-- Record every value the preparation read. -/
def buildWitness (request : TransactionRequest) (granularity : WitnessGranularity) :
    ConflictWitness :=
  request.addressedIntents.foldl
    (fun witness entry => witnessIntent state.head.body.roots witness entry.2)
    { granularity := granularity
      basisGeneration := state.head.body.generation
      refs := ∅
      forgePositions := ∅
      retentionPresent := ∅
      retentionAbsent := ∅
      outbox := ∅
      policyEpoch := state.head.body.configuration.epoch }

structure PrepareRequest where
  capsuleId : PreparedTxnCapsuleId
  request : TransactionRequest
  principalSnapshot : PrincipalSnapshotId
  profile : PreparationProfileId
  granularity : WitnessGranularity

/-- The capsule a preparation at `state` produces. -/
def preparedCapsule (sealId : TransactionSealId) (input : PrepareRequest) : PreparedTxnCapsule where
  id := input.capsuleId
  txId := input.request.txId
  sealId := sealId
  basisHead := state.head.id
  basisGeneration := state.head.body.generation
  basisRcr := state.head.body.latestCommittedRcr
  principalSnapshot := input.principalSnapshot
  canonicalRequestDigest := input.request.canonicalRequestDigest
  intentMap := (evaluate state input.request).intentMap
  objectClosure := (evaluate state input.request).objectClosure
  witness := buildWitness state input.request input.granularity
  verdict := (evaluate state input.request).verdict
  durability := input.request.durability
  profile := input.profile

/-- Validate one sealed transaction against the current head. -/
def prepare (input : PrepareRequest) : ModelResult (RepositoryState × PreparedTxnCapsuleId) := do
  let request := input.request
  match state.seals[request.txId]? with
  | none => throw (.unknownSeal request.txId)
  | some record =>
    if record.fields ≠ request.sealFields then throw (.txIdInputsInconsistent request.txId)
    let identities ← state.identities.introduceCapsule input.capsuleId
    return ({ state with
        identities := identities
        capsules := state.capsules.insert input.capsuleId
          (preparedCapsule state record.sealId input)
        seals := state.seals.insert request.txId
          { record with preparations := min (record.preparations + 1) u32Max } },
      input.capsuleId)

end Frankengit.Reference
