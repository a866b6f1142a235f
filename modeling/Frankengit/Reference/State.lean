/-
Frankengit/Reference/State.lean

The state of the reference model (`fgit-reference`: `state.rs`,
`capsule.rs` and `decision.rs`): pinned policy, canonical roots, the
authority head and its chain, prepared capsules with their conflict
witnesses, decision batches, the identity ledger and the repository state
that holds them all.

A transition that meets a broken invariant returns an `InvariantBreach`
and no state; everything else, losing a race included, is an ordinary
outcome.
-/
import Frankengit.Lib.Search
import Frankengit.Reference.Effect

namespace Frankengit.Reference

/-! ### Breaches -/

/-- A violated model invariant. -/
inductive InvariantBreach where
  | secondDecisionInBatch (txId : TxId)
  | secondTerminalDecision (txId : TxId) (existing : DecisionOutcome)
  | refusalOutcomeExpected (txId : TxId)
  | sequenceExhausted (kind : String)
  | emptyDecisionBatch (batch : RepositoryDecisionBatchId)
  | headPredecessorMismatch (current : RepositoryAuthorityHeadId)
      (declared : Option RepositoryAuthorityHeadId)
  | policyEpochNotSuccessor (current candidate : PolicyEpoch)
  | headGenerationNotSuccessor (current candidate : HeadGeneration)
  | decisionSequenceDiscontinuity (expected observed : DecisionSequence)
  | repositorySequenceDiscontinuity (expected observed : RepositorySequence)
  | identityReused (kind : String)
  | txIdDerivationInconsistent (bound observed : TxId)
  | txIdInputsInconsistent (txId : TxId)
  | unknownSeal (txId : TxId)
  | unknownCapsule (capsule : PreparedTxnCapsuleId)
  | unstagedBatch (batch : RepositoryDecisionBatchId)
  | repositoryMismatch (expected observed : RepositoryId)
  | quarantineEscape (object : GitOid)
deriving DecidableEq

abbrev ModelResult := Except InvariantBreach

/-- A counter step that reports exhaustion under the source's label. -/
def nextOr {kind : CounterKind} (label : String) (c : Counter kind) : ModelResult (Counter kind) :=
  match c.next with
  | some d => .ok d
  | none => .error (.sequenceExhausted label)

/-! ### Policy and roots -/

/-- What one principal may do. -/
structure PrincipalCapabilities where
  writableScopes : BTreeSet Scope := ∅
  mayForce : Bool := false
  mayPublishForge : Bool := false
  mayAddLegalHold : Bool := false

def PrincipalCapabilities.mayWriteScope (capabilities : PrincipalCapabilities) (scope : Scope) :
    Bool :=
  capabilities.writableScopes.contains scope

/-- One pinned policy and configuration snapshot. -/
structure PolicySnapshot where
  epoch : PolicyEpoch
  protectedScopes : BTreeSet Scope
  principals : BTreeMap PrincipalId PrincipalCapabilities
  maxIntentsPerTransaction : ℕ
  supportedSchemas : BTreeSet SchemaId
  supportedDurability : BTreeSet DurabilityProfile

variable (policy : PolicySnapshot)

namespace PolicySnapshot

def capabilitiesOf (principal : PrincipalId) : PrincipalCapabilities :=
  policy.principals[principal]?.getD {}

def isProtected (scope : Scope) : Bool :=
  policy.protectedScopes.contains scope

def offersDurability (profile : DurabilityProfile) : Bool :=
  policy.supportedDurability.contains profile

end PolicySnapshot

/-- The canonical roots one head pins. -/
@[ext] structure RepositoryRoots where
  refs : BTreeMap RefName GitOid := ∅
  forgePositions : BTreeMap ForgeStreamId ForgeStreamPosition := ∅
  outcomeIndex : BTreeMap TxId DecisionOutcome := ∅
  retention : BTreeSet RetentionRoot := ∅
  outbox : BTreeMap OutboxDeliveryKey Digest := ∅

namespace RepositoryRoots

/-- Every object a canonical root names. -/
def protectedObjects (roots : RepositoryRoots) : List GitOid :=
  (roots.refs.toList.map fun entry => entry.2) ++ roots.retention.toList.map fun root => root.object

/-- The part of the roots a fold reads. -/
def basis (roots : RepositoryRoots) : FoldBasis :=
  ⟨roots.refs, roots.forgePositions, roots.retention, roots.outbox⟩

end RepositoryRoots

/-! ### Authority heads -/

structure AuthorityHeadBody where
  repository : RepositoryId
  generation : HeadGeneration
  predecessor : Option RepositoryAuthorityHeadId
  decisionTail : Option RepositoryDecisionBatchId
  latestDecisionSequence : Option DecisionSequence
  latestCommittedRcr : Option RepositoryCommitId
  latestRepositorySequence : Option RepositorySequence
  roots : RepositoryRoots
  configuration : PolicySnapshot
  formatRegistryEpoch : RegistryEpoch

variable (body : AuthorityHeadBody)

namespace AuthorityHeadBody

def nextDecisionSequence : ModelResult DecisionSequence :=
  match body.latestDecisionSequence with
  | none => .ok .first
  | some latest => nextOr "decision" latest

def nextRepositorySequence : ModelResult RepositorySequence :=
  match body.latestRepositorySequence with
  | none => .ok .first
  | some latest => nextOr "repository" latest

def nextGeneration : ModelResult HeadGeneration :=
  nextOr "generation" body.generation

end AuthorityHeadBody

@[ext] structure AuthorityHead where
  id : RepositoryAuthorityHeadId
  body : AuthorityHeadBody

/-! ### Capsules -/

/-- How precisely a witness records what was read. -/
inductive WitnessGranularity where
  | coarse | refined
deriving DecidableEq

/-- Every value one preparation read. -/
structure ConflictWitness where
  granularity : WitnessGranularity
  basisGeneration : HeadGeneration
  refs : BTreeMap RefName (Option GitOid)
  forgePositions : BTreeMap ForgeStreamId ForgeStreamPosition
  retentionPresent : BTreeSet RetentionRoot
  retentionAbsent : BTreeSet RetentionRoot
  outbox : BTreeMap OutboxDeliveryKey (Option Digest)
  policyEpoch : PolicyEpoch

namespace ConflictWitness

/-- Whether every recorded read still gives the recorded value. -/
def refinedReadsHold (witness : ConflictWitness) (roots : RepositoryRoots) : Bool :=
  (witness.refs.toList.all fun e => roots.refs[e.1]? = e.2) &&
  (witness.forgePositions.toList.all fun e => positionOf roots.forgePositions e.1 = e.2) &&
  (witness.retentionPresent.toList.all fun root => roots.retention.contains root) &&
  (witness.retentionAbsent.toList.all fun root => !roots.retention.contains root) &&
  (witness.outbox.toList.all fun e => roots.outbox[e.1]? = e.2)

/-- Whether a capsule with this witness survives against the given roots. -/
def isReusableAgainst (witness : ConflictWitness) (roots : RepositoryRoots)
    (generation : HeadGeneration) (policyEpoch : PolicyEpoch) : Bool :=
  if witness.policyEpoch ≠ policyEpoch then false
  else
    match witness.granularity with
    | .coarse => witness.basisGeneration = generation && witness.refinedReadsHold roots
    | .refined => witness.refinedReadsHold roots

end ConflictWitness

/-- What preparation concluded. -/
inductive PreparedVerdict where
  | commit (effects : NetEffects)
  | refuse (code : RefusalCode)

structure PreparedTxnCapsule where
  id : PreparedTxnCapsuleId
  txId : TxId
  sealId : TransactionSealId
  basisHead : RepositoryAuthorityHeadId
  basisGeneration : HeadGeneration
  basisRcr : Option RepositoryCommitId
  principalSnapshot : PrincipalSnapshotId
  canonicalRequestDigest : Digest
  intentMap : List IntentMapping
  objectClosure : BTreeSet GitOid
  witness : ConflictWitness
  verdict : PreparedVerdict
  durability : DurabilityProfile
  profile : PreparationProfileId

/-! ### Decisions -/

structure PublishedDecision where
  txId : TxId
  decisionSequence : DecisionSequence
  outcome : DecisionOutcome

structure RepositoryCommitRecord where
  id : RepositoryCommitId
  repository : RepositoryId
  repositorySequence : RepositorySequence
  parent : Option RepositoryCommitId
  txId : TxId
  principalSnapshot : PrincipalSnapshotId
  canonicalRequestDigest : Digest
  effects : NetEffects
  resultingRefs : BTreeMap RefName GitOid
  resultingForgePositions : BTreeMap ForgeStreamId ForgeStreamPosition
  objectClosure : BTreeSet GitOid
  policyEpoch : PolicyEpoch
  retentionDelta : BTreeMap RetentionRoot RetentionEffect
  outboxDelta : BTreeMap OutboxDeliveryKey Digest

structure DecisionBatch where
  id : RepositoryDecisionBatchId
  repository : RepositoryId
  predecessorHead : RepositoryAuthorityHeadId
  predecessorGeneration : HeadGeneration
  firstDecisionSequence : DecisionSequence
  decisions : List PublishedDecision
  committed : List RepositoryCommitRecord
  resulting : RepositoryRoots
  resultingPolicyEpoch : PolicyEpoch
  durability : DurabilityProfile

variable (batch : DecisionBatch)

namespace DecisionBatch

def lastDecisionSequence : Option DecisionSequence :=
  batch.decisions.getLast?.map fun decision => decision.decisionSequence

def lastCommit : Option (RepositoryCommitId × RepositorySequence) :=
  batch.committed.getLast?.map fun record => (record.id, record.repositorySequence)

def terminatedTransactions : List TxId :=
  batch.decisions.map fun decision => decision.txId

end DecisionBatch

/-- A batch under construction: the next sequences to assign, the commit
the next record descends from and the transactions already decided. -/
structure DecisionBatchDraft where
  id : RepositoryDecisionBatchId
  repository : RepositoryId
  predecessorHead : RepositoryAuthorityHeadId
  predecessorGeneration : HeadGeneration
  firstDecisionSequence : DecisionSequence
  nextDecisionSequence : DecisionSequence
  nextRepositorySequence : RepositorySequence
  parentCommit : Option RepositoryCommitId
  seen : BTreeSet TxId
  decisions : List PublishedDecision
  committed : List RepositoryCommitRecord
  durability : DurabilityProfile

/-- A commit before its sequence and parent are assigned. -/
structure CommitCandidate where
  id : RepositoryCommitId
  repository : RepositoryId
  txId : TxId
  principalSnapshot : PrincipalSnapshotId
  canonicalRequestDigest : Digest
  effects : NetEffects
  resultingRefs : BTreeMap RefName GitOid
  resultingForgePositions : BTreeMap ForgeStreamId ForgeStreamPosition
  objectClosure : BTreeSet GitOid
  policyEpoch : PolicyEpoch
  retentionDelta : BTreeMap RetentionRoot RetentionEffect
  outboxDelta : BTreeMap OutboxDeliveryKey Digest

/-- The committed record of a candidate at its place in the batch. -/
def CommitCandidate.record (candidate : CommitCandidate) (repositorySequence : RepositorySequence)
    (parent : Option RepositoryCommitId) : RepositoryCommitRecord where
  id := candidate.id
  repository := candidate.repository
  repositorySequence := repositorySequence
  parent := parent
  txId := candidate.txId
  principalSnapshot := candidate.principalSnapshot
  canonicalRequestDigest := candidate.canonicalRequestDigest
  effects := candidate.effects
  resultingRefs := candidate.resultingRefs
  resultingForgePositions := candidate.resultingForgePositions
  objectClosure := candidate.objectClosure
  policyEpoch := candidate.policyEpoch
  retentionDelta := candidate.retentionDelta
  outboxDelta := candidate.outboxDelta

variable (draft : DecisionBatchDraft)

namespace DecisionBatchDraft

/-- Assign the next decision sequence to a transaction not yet decided here. -/
def reserveDecisionSequence (txId : TxId) :
    ModelResult (DecisionBatchDraft × DecisionSequence) := do
  if txId ∈ draft.seen then throw (.secondDecisionInBatch txId)
  let next ← nextOr "decision" draft.nextDecisionSequence
  return ({ draft with seen := draft.seen.insert txId, nextDecisionSequence := next },
    draft.nextDecisionSequence)

def pushRefusal (txId : TxId) (outcome : DecisionOutcome) : ModelResult DecisionBatchDraft := do
  if outcome.advancesRepositorySequence then throw (.refusalOutcomeExpected txId)
  let (draft, decisionSequence) ← draft.reserveDecisionSequence txId
  return { draft with decisions := draft.decisions ++ [⟨txId, decisionSequence, outcome⟩] }

def pushCommit (candidate : CommitCandidate) : ModelResult DecisionBatchDraft := do
  let (draft, decisionSequence) ← draft.reserveDecisionSequence candidate.txId
  let next ← nextOr "repository" draft.nextRepositorySequence
  return { draft with
    nextRepositorySequence := next
    parentCommit := some candidate.id
    decisions := draft.decisions ++ [⟨candidate.txId, decisionSequence, .committed candidate.id⟩]
    committed := draft.committed ++
      [candidate.record draft.nextRepositorySequence draft.parentCommit] }

def finish (resulting : RepositoryRoots) (resultingPolicyEpoch : PolicyEpoch) :
    ModelResult DecisionBatch :=
  if draft.decisions = [] then .error (.emptyDecisionBatch draft.id)
  else .ok
    { id := draft.id
      repository := draft.repository
      predecessorHead := draft.predecessorHead
      predecessorGeneration := draft.predecessorGeneration
      firstDecisionSequence := draft.firstDecisionSequence
      decisions := draft.decisions
      committed := draft.committed
      resulting := resulting
      resultingPolicyEpoch := resultingPolicyEpoch
      durability := draft.durability }

end DecisionBatchDraft

/-! ### Held bodies -/

/-- A sealed transaction and how often it was prepared. -/
structure SealRecord where
  sealId : TransactionSealId
  fields : SealFields
  preparations : ℕ

/-- An admitted object. -/
structure ObjectRecord where
  parents : List GitOid

/-- An object staged by one transaction, with the identity it was declared
under and the identity its bytes hash to. -/
structure QuarantinedObject where
  declared : GitOid
  recomputed : GitOid
  parents : List GitOid

def QuarantinedObject.isIdentityVerified (object : QuarantinedObject) : Bool :=
  object.declared = object.recomputed

structure StagedBatch where
  batch : DecisionBatch
  candidateHead : AuthorityHead
  durabilitySatisfied : Bool

def StagedBatch.mayBecomeVisible (staged : StagedBatch) : Bool :=
  !staged.batch.durability.requiresDurabilityBeforeVisibility || staged.durabilitySatisfied

/-- The scope an idempotency key is unique within. -/
@[ext] structure IdempotencyScope where
  tenant : TenantId
  repository : RepositoryId
  principal : PrincipalId
  key : IdempotencyKey

instance : LinearOrder IdempotencyScope :=
  LinearOrder.lift'
    (fun s => [s.tenant.spelled, s.repository.spelled, s.principal.spelled, s.key.spelled])
    (by
      rintro ⟨⟨a⟩, ⟨b⟩, ⟨c⟩, ⟨d⟩⟩ ⟨⟨a'⟩, ⟨b'⟩, ⟨c'⟩, ⟨d'⟩⟩ h
      simpa using h)

/-! ### The identity ledger -/

/-- Every identity the model has spent. -/
structure IdentityLedger where
  txByInputs : BTreeMap TxIdDerivationInputs TxId := ∅
  inputsByTx : BTreeMap TxId TxIdDerivationInputs := ∅
  heads : BTreeSet RepositoryAuthorityHeadId := ∅
  batches : BTreeSet RepositoryDecisionBatchId := ∅
  commits : BTreeSet RepositoryCommitId := ∅
  capsules : BTreeSet PreparedTxnCapsuleId := ∅
  seals : BTreeSet TransactionSealId := ∅

/-- Spend an identity once. -/
def introduce {role : Role} (set : BTreeSet (Tagged role)) (id : Tagged role) (kind : String) :
    ModelResult (BTreeSet (Tagged role)) :=
  if id ∈ set then .error (.identityReused kind) else .ok (set.insert id)

variable (ledger : IdentityLedger)

namespace IdentityLedger

/-- Bind a transaction identity to its derivation inputs, one to one. -/
def bindTransaction (txId : TxId) (inputs : TxIdDerivationInputs) : ModelResult IdentityLedger := do
  if let some bound := ledger.txByInputs[inputs]? then
    if bound ≠ txId then throw (.txIdDerivationInconsistent bound txId)
  if let some boundInputs := ledger.inputsByTx[txId]? then
    if boundInputs ≠ inputs then throw (.txIdInputsInconsistent txId)
  return { ledger with
    txByInputs := ledger.txByInputs.insert inputs txId
    inputsByTx := ledger.inputsByTx.insert txId inputs }

def introduceHead (id : RepositoryAuthorityHeadId) : ModelResult IdentityLedger := do
  return { ledger with heads := ← introduce ledger.heads id "head" }

def introduceBatch (id : RepositoryDecisionBatchId) : ModelResult IdentityLedger := do
  return { ledger with batches := ← introduce ledger.batches id "batch" }

def introduceCommit (id : RepositoryCommitId) : ModelResult IdentityLedger := do
  return { ledger with commits := ← introduce ledger.commits id "commit" }

def introduceCapsule (id : PreparedTxnCapsuleId) : ModelResult IdentityLedger := do
  return { ledger with capsules := ← introduce ledger.capsules id "capsule" }

def introduceSeal (id : TransactionSealId) : ModelResult IdentityLedger := do
  return { ledger with seals := ← introduce ledger.seals id "seal" }

end IdentityLedger

/-! ### The repository state -/

structure GenesisConfiguration where
  tenant : TenantId
  repository : RepositoryId
  objectFormat : GitHashAlgorithm
  genesisHeadId : RepositoryAuthorityHeadId
  policy : PolicySnapshot
  formatRegistryEpoch : RegistryEpoch

structure RepositoryState where
  tenant : TenantId
  repository : RepositoryId
  objectFormat : GitHashAlgorithm
  head : AuthorityHead
  headChain : BTreeMap RepositoryAuthorityHeadId AuthorityHeadBody
  batches : BTreeMap RepositoryDecisionBatchId DecisionBatch
  staged : BTreeMap RepositoryDecisionBatchId StagedBatch
  decisions : List PublishedDecision
  commits : List RepositoryCommitRecord
  seals : BTreeMap TxId SealRecord
  idempotencyIndex : BTreeMap IdempotencyScope Digest
  capsules : BTreeMap PreparedTxnCapsuleId PreparedTxnCapsule
  quarantine : BTreeMap TxId (BTreeMap GitOid QuarantinedObject)
  objects : BTreeMap GitOid ObjectRecord
  identities : IdentityLedger

variable (state : RepositoryState)

namespace RepositoryState

/-- The body of the genesis head. -/
def genesisBody (configuration : GenesisConfiguration) : AuthorityHeadBody where
  repository := configuration.repository
  generation := .first
  predecessor := none
  decisionTail := none
  latestDecisionSequence := none
  latestCommittedRcr := none
  latestRepositorySequence := none
  roots := {}
  configuration := configuration.policy
  formatRegistryEpoch := configuration.formatRegistryEpoch

/-- The state before any input. -/
def genesis (configuration : GenesisConfiguration) : RepositoryState where
  tenant := configuration.tenant
  repository := configuration.repository
  objectFormat := configuration.objectFormat
  head := ⟨configuration.genesisHeadId, genesisBody configuration⟩
  headChain := (∅ : BTreeMap RepositoryAuthorityHeadId AuthorityHeadBody).insert
    configuration.genesisHeadId (genesisBody configuration)
  batches := ∅
  staged := ∅
  decisions := []
  commits := []
  seals := ∅
  idempotencyIndex := ∅
  capsules := ∅
  quarantine := ∅
  objects := ∅
  identities := { heads := (∅ : BTreeSet _).insert configuration.genesisHeadId }

def outcomeOf (txId : TxId) : Option DecisionOutcome :=
  state.head.body.roots.outcomeIndex[txId]?

def preparationsOf (txId : TxId) : ℕ :=
  state.seals[txId]?.elim 0 fun record => record.preparations

/-- The parent lists of the admitted objects. -/
def admittedView : BTreeMap GitOid (List GitOid) :=
  state.objects.map fun _ record => record.parents

/-- The fast-forward predicate over the admitted objects. -/
def isReachable (tip candidate : GitOid) : Bool :=
  Search.reaches state.admittedView tip candidate

/-- Every object a canonical root names is admitted. -/
def assertNoQuarantineEscape : ModelResult Unit :=
  state.head.body.roots.protectedObjects.forM fun object =>
    if object ∈ state.objects then .ok () else .error (.quarantineEscape object)

/-- The predecessor walk of `assertHeadChainContinuous`: the last body and
the number of links.  Each link lowers the generation by one, so the
generation of the first body bounds the walk. -/
def walkHeadChain (chain : BTreeMap RepositoryAuthorityHeadId AuthorityHeadBody) :
    ℕ → AuthorityHeadBody → ℕ → ModelResult (AuthorityHeadBody × ℕ)
  | 0, cursor, steps => .ok (cursor, steps)
  | fuel + 1, cursor, steps =>
    match cursor.predecessor with
    | none => .ok (cursor, steps)
    | some predecessor =>
      match chain[predecessor]? with
      | none => .error (.headPredecessorMismatch predecessor (some predecessor))
      | some body => do
        let expected ← nextOr "generation" body.generation
        if expected ≠ cursor.generation then
          throw (.headGenerationNotSuccessor body.generation cursor.generation)
        walkHeadChain chain fuel body (steps + 1)

/-- Following predecessor links from the head reaches a first-generation
head in as many steps as the generations say. -/
def assertHeadChainContinuous : ModelResult Unit := do
  let (cursor, steps) ←
    walkHeadChain state.headChain state.head.body.generation.val state.head.body 0
  if cursor.generation.val ≠ (Counter.first : HeadGeneration).val then
    throw (.headGenerationNotSuccessor cursor.generation .first)
  if steps + 1 ≠ state.head.body.generation.val then
    throw (.headGenerationNotSuccessor cursor.generation state.head.body.generation)

end RepositoryState

end Frankengit.Reference
