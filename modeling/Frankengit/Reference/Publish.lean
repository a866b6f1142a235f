/-
Frankengit/Reference/Publish.lean

The transitions that make decisions canonical (`fgit-reference`,
`transition.rs` and `machine.rs`): deciding a capsule, staging a batch with
its candidate head, the head compare-and-swap, the configuration
transition, cancellation, and the machine that dispatches inputs to them.

Staging builds a batch against the current head and keeps it aside; any
number of batches may be staged against one head.  The compare-and-swap
later installs one of them if the head has not moved.
-/
import Frankengit.Lib.Run
import Frankengit.Reference.Prepare
import Mathlib.Data.List.Sort

namespace Frankengit.Reference

/-! ### Deciding -/

/-- How many capsules one sealed request may have prepared for it. -/
def repreparationBudget : ℕ := 4

/-- Why a capsule must be prepared again instead of being decided. -/
inductive RepreparationReason where
  | basisSuperseded | policyEpochSuperseded
deriving DecidableEq

/-- What deciding one prepared capsule concluded. -/
inductive DecisionVerdict where
  | alreadyTerminal (existing : DecisionOutcome)
  | commit (effects : NetEffects)
  | refuse (code : RefusalCode)
  | requiresRepreparation (reason : RepreparationReason)

variable (state : RepositoryState) (capsule : PreparedTxnCapsule) (roots : RepositoryRoots)

/-- Revalidate a capsule against a set of roots and conclude. -/
def decideAgainst (generation : HeadGeneration) : DecisionVerdict :=
  match state.outcomeOf capsule.txId with
  | some existing => .alreadyTerminal existing
  | none =>
    match capsule.verdict with
    | .refuse code => .refuse code
    | .commit effects =>
      let policyEpoch := state.head.body.configuration.epoch
      let exhausted := repreparationBudget ≤ state.preparationsOf capsule.txId
      if capsule.witness.policyEpoch ≠ policyEpoch then
        if exhausted then .refuse .policyEpochSuperseded
        else .requiresRepreparation .policyEpochSuperseded
      else if capsule.witness.isReusableAgainst roots generation policyEpoch then
        .commit effects
      else if exhausted then .refuse .basisCapsuleNotReusable
      else .requiresRepreparation .basisSuperseded

/-- Decide one capsule against the current head. -/
protected def decide : DecisionVerdict :=
  decideAgainst state capsule state.head.body.roots state.head.body.generation

/-! ### Applying effects -/

/-- Advance a stream by a number of events; an exhausted stream refuses. -/
def advance : ℕ → ForgeStreamPosition → ModelResult ForgeStreamPosition
  | 0, position => .ok position
  | n + 1, position =>
    if position.isExhausted then .error (.sequenceExhausted "forge stream")
    else advance n position.successor

/-- Apply one ref effect. -/
def applyRefEffect (refs : BTreeMap RefName GitOid) (name : RefName) :
    RefEffect → BTreeMap RefName GitOid
  | .set oid => refs.insert name oid
  | .delete => refs.erase name

/-- Apply one retention effect. -/
def applyRetentionEffect (retention : BTreeSet RetentionRoot) (root : RetentionRoot) :
    RetentionEffect → BTreeSet RetentionRoot
  | .add => retention.insert root
  | .remove => retention.erase root

/-- Advance every stream by the events appended to it. -/
def applyForgeEffects (positions : BTreeMap ForgeStreamId ForgeStreamPosition)
    (forge : BTreeMap ForgeStreamId (List ForgeEventKind)) :
    ModelResult (BTreeMap ForgeStreamId ForgeStreamPosition) :=
  forge.toList.foldlM (fun positions e => do
    return positions.insert e.1 (← advance e.2.length (positionOf positions e.1))) positions

/-- Apply target-disjoint effects to scratch roots. -/
def applyEffects (effects : NetEffects) : ModelResult RepositoryRoots := do
  let forgePositions ← applyForgeEffects roots.forgePositions effects.forge
  return { roots with
    refs := effects.refs.foldl applyRefEffect roots.refs
    forgePositions := forgePositions
    retention := effects.retention.foldl applyRetentionEffect roots.retention
    outbox := effects.outbox.foldl (·.insert · ·) roots.outbox }

/-! ### Staging -/

/-- Identities assigned to the bodies one decision may create. -/
structure DecisionBodyIdentity where
  commit : RepositoryCommitId
  refusalRecord : RefusalRecordId

structure StageRequest where
  batchId : RepositoryDecisionBatchId
  candidateHeadId : RepositoryAuthorityHeadId
  capsules : List PreparedTxnCapsuleId
  bodies : BTreeMap TxId DecisionBodyIdentity
  durabilitySatisfied : Bool

structure StageOutcome where
  batch : Option RepositoryDecisionBatchId
  deferred : List (TxId × RepreparationReason)

/-- The strictest durability profile among the capsules sharing a batch. -/
def strictestDurability (capsules : List PreparedTxnCapsule) : DurabilityProfile :=
  if capsules.any fun capsule => capsule.durability.requiresDurabilityBeforeVisibility then
    .canonicalSource
  else .derivedGeneration

/-- What the staging loop carries from capsule to capsule. -/
structure StageProgress where
  draft : DecisionBatchDraft
  scratch : RepositoryRoots
  committedTransactions : List TxId
  deferred : List (TxId × RepreparationReason)

/-- The commit candidate of an accepted capsule. -/
def commitCandidate (id : RepositoryCommitId) (effects : NetEffects) (scratch : RepositoryRoots) :
    CommitCandidate where
  id := id
  repository := state.repository
  txId := capsule.txId
  principalSnapshot := capsule.principalSnapshot
  canonicalRequestDigest := capsule.canonicalRequestDigest
  effects := effects
  resultingRefs := scratch.refs
  resultingForgePositions := scratch.forgePositions
  objectClosure := capsule.objectClosure
  policyEpoch := capsule.witness.policyEpoch
  retentionDelta := effects.retention
  outboxDelta := effects.outbox

/-- Record a decided transaction in scratch roots. -/
def RepositoryRoots.withOutcome (txId : TxId) (outcome : DecisionOutcome) : RepositoryRoots :=
  { roots with outcomeIndex := roots.outcomeIndex.insert txId outcome }

variable (input : StageRequest)

/-- One turn of the staging loop: decide a capsule against the roots left by
the earlier members of the batch. -/
def stageCapsule (progress : StageProgress) (capsule : PreparedTxnCapsule) :
    ModelResult StageProgress := do
  if let some existing := state.outcomeOf capsule.txId then
    throw (.secondTerminalDecision capsule.txId existing)
  match input.bodies[capsule.txId]? with
  | none => throw (.unknownSeal capsule.txId)
  | some bodies =>
    match decideAgainst state capsule progress.scratch state.head.body.generation with
    | .alreadyTerminal existing => throw (.secondTerminalDecision capsule.txId existing)
    | .requiresRepreparation reason =>
      return { progress with deferred := progress.deferred ++ [(capsule.txId, reason)] }
    | .refuse code =>
      let outcome := .refused code bodies.refusalRecord
      let draft ← progress.draft.pushRefusal capsule.txId outcome
      return { progress with
        draft := draft
        scratch := progress.scratch.withOutcome capsule.txId outcome }
    | .commit effects =>
      let scratch ← applyEffects progress.scratch effects
      let draft ← progress.draft.pushCommit
        (commitCandidate state capsule bodies.commit effects scratch)
      return { progress with
        draft := draft
        scratch := scratch.withOutcome capsule.txId (.committed bodies.commit)
        committedTransactions := progress.committedTransactions ++ [capsule.txId] }

/-- The selected capsules, in ascending transaction order. -/
def selectCapsules : ModelResult (List PreparedTxnCapsule) := do
  let selected ← input.capsules.mapM fun id =>
    match state.capsules[id]? with
    | some capsule => .ok capsule
    | none => .error (.unknownCapsule id)
  return selected.insertionSort fun a b => a.txId ≤ b.txId

/-- The draft a batch starts from. -/
def openDraft (selected : List PreparedTxnCapsule) : ModelResult DecisionBatchDraft := do
  let decisionSequence ← state.head.body.nextDecisionSequence
  let repositorySequence ← state.head.body.nextRepositorySequence
  return {
    id := input.batchId
    repository := state.repository
    predecessorHead := state.head.id
    predecessorGeneration := state.head.body.generation
    firstDecisionSequence := decisionSequence
    nextDecisionSequence := decisionSequence
    nextRepositorySequence := repositorySequence
    parentCommit := state.head.body.latestCommittedRcr
    seen := ∅
    decisions := []
    committed := []
    durability := strictestDurability selected }

/-- The head a batch would install. -/
def buildCandidateHead (head : AuthorityHead) (batch : DecisionBatch)
    (id : RepositoryAuthorityHeadId) : ModelResult AuthorityHead := do
  let generation ← head.body.nextGeneration
  return {
    id := id
    body := {
      repository := head.body.repository
      generation := generation
      predecessor := some head.id
      decisionTail := some batch.id
      latestDecisionSequence := batch.lastDecisionSequence.or head.body.latestDecisionSequence
      latestCommittedRcr :=
        (batch.lastCommit.map Prod.fst).or head.body.latestCommittedRcr
      latestRepositorySequence :=
        (batch.lastCommit.map Prod.snd).or head.body.latestRepositorySequence
      roots := batch.resulting
      configuration := head.body.configuration
      formatRegistryEpoch := head.body.formatRegistryEpoch } }

/-- Spend the identities a staged batch creates. -/
def spendStaged (ledger : IdentityLedger) (input : StageRequest) (committed : List TxId) :
    ModelResult IdentityLedger := do
  let ledger ← ledger.introduceBatch input.batchId
  let ledger ← ledger.introduceHead input.candidateHeadId
  committed.foldlM (fun ledger txId =>
    match input.bodies[txId]? with
    | some bodies => ledger.introduceCommit bodies.commit
    | none => .ok ledger) ledger

/-- Stage one decision batch and its candidate head. -/
def stage (state : RepositoryState) (input : StageRequest) :
    ModelResult (RepositoryState × StageOutcome) := do
  let selected ← selectCapsules state input
  let draft ← openDraft state input selected
  let progress ← selected.foldlM (stageCapsule state input) ⟨draft, state.head.body.roots, [], []⟩
  -- nothing decidable: stage no batch at all rather than an empty one
  if progress.draft.decisions.isEmpty then return (state, ⟨none, progress.deferred⟩)
  let batch ← progress.draft.finish progress.scratch state.head.body.configuration.epoch
  let candidateHead ← buildCandidateHead state.head batch input.candidateHeadId
  let identities ← spendStaged state.identities input progress.committedTransactions
  return ({ state with
      identities := identities
      staged := state.staged.insert input.batchId
        ⟨batch, candidateHead, input.durabilitySatisfied⟩ },
    ⟨some input.batchId, progress.deferred⟩)

/-! ### The configuration transition -/

structure ConfigurationRequest where
  candidateHeadId : RepositoryAuthorityHeadId
  expectedHead : RepositoryAuthorityHeadId
  expectedGeneration : HeadGeneration
  policy : PolicySnapshot

inductive ConfigurationOutcome where
  | won (head : RepositoryAuthorityHeadId) (epoch : PolicyEpoch)
  | lost (currentHead : RepositoryAuthorityHeadId) (currentGeneration : HeadGeneration)

/-- The head a configuration transition installs: it publishes no decision,
so sequences, tail and roots carry forward. -/
def configuredHead (head : AuthorityHead) (generation : HeadGeneration)
    (input : ConfigurationRequest) : AuthorityHead where
  id := input.candidateHeadId
  body := { head.body with
    generation := generation
    predecessor := some head.id
    configuration := input.policy }

/-- Publish a new pinned policy snapshot through the head authority. -/
def publishConfiguration (input : ConfigurationRequest) :
    ModelResult (RepositoryState × ConfigurationOutcome) := do
  if input.expectedHead ≠ state.head.id ∨ input.expectedGeneration ≠ state.head.body.generation then
    return (state, .lost state.head.id state.head.body.generation)
  let required ← nextOr "policy" state.head.body.configuration.epoch
  if input.policy.epoch ≠ required then
    throw (.policyEpochNotSuccessor state.head.body.configuration.epoch input.policy.epoch)
  let generation ← state.head.body.nextGeneration
  let candidate := configuredHead state.head generation input
  let identities ← state.identities.introduceHead input.candidateHeadId
  return ({ state with
      identities := identities
      headChain := state.headChain.insert input.candidateHeadId candidate.body
      head := candidate },
    .won input.candidateHeadId input.policy.epoch)

/-! ### The head compare-and-swap -/

structure CasRequest where
  expectedHead : RepositoryAuthorityHeadId
  expectedGeneration : HeadGeneration
  batch : RepositoryDecisionBatchId

inductive CasOutcome where
  | won (head : RepositoryAuthorityHeadId) (batch : RepositoryDecisionBatchId)
  | lost (currentHead : RepositoryAuthorityHeadId) (currentGeneration : HeadGeneration)
  | durabilityUnsatisfied (batch : RepositoryDecisionBatchId)
deriving DecidableEq

/-- The objects after promoting the verified part of a closure out of one
quarantine slot. -/
def promoteFrom (staged : BTreeMap GitOid QuarantinedObject) (closure : BTreeSet GitOid)
    (objects : BTreeMap GitOid ObjectRecord) : BTreeMap GitOid ObjectRecord :=
  closure.foldl (fun objects oid =>
    match staged[oid]? with
    | some object =>
      if object.isIdentityVerified then objects.insert oid ⟨object.parents⟩ else objects
    | none => objects) objects

/-- Promote the verified quarantined objects of one committed closure. -/
def promoteClosure (txId : TxId) (closure : BTreeSet GitOid) : RepositoryState :=
  match state.quarantine[txId]? with
  | none => state
  | some staged => { state with objects := promoteFrom staged closure state.objects }

/-- Drop what a terminated transaction still held. -/
def retireTransaction (txId : TxId) : RepositoryState :=
  { state with
    quarantine := state.quarantine.erase txId
    capsules := state.capsules.filter fun _ capsule => capsule.txId ≠ txId }

/-- The state after installing a staged batch. -/
def installBatch (batchId : RepositoryDecisionBatchId) (staged : StagedBatch) : RepositoryState :=
  let installed := { state with
    staged := state.staged.erase batchId
    headChain := state.headChain.insert staged.candidateHead.id staged.candidateHead.body
    head := staged.candidateHead
    decisions := state.decisions ++ staged.batch.decisions
    commits := state.commits ++ staged.batch.committed }
  let promoted := staged.batch.committed.foldl
    (fun state record => promoteClosure state record.txId record.objectClosure) installed
  let retired := staged.batch.terminatedTransactions.foldl retireTransaction promoted
  { retired with batches := retired.batches.insert staged.batch.id staged.batch }

/-- Attempt the one linearizable conditional replacement of the head. -/
def compareAndSwap (input : CasRequest) : ModelResult (RepositoryState × CasOutcome) := do
  match state.staged[input.batch]? with
  | none => throw (.unstagedBatch input.batch)
  | some staged =>
    -- a lost race is ordinary, not a breach
    if input.expectedHead ≠ state.head.id ∨
        input.expectedGeneration ≠ state.head.body.generation then
      return (state, .lost state.head.id state.head.body.generation)
    if staged.candidateHead.body.predecessor ≠ some state.head.id then
      throw (.headPredecessorMismatch state.head.id staged.candidateHead.body.predecessor)
    let expectedGeneration ← state.head.body.nextGeneration
    if staged.candidateHead.body.generation ≠ expectedGeneration then
      throw (.headGenerationNotSuccessor state.head.body.generation
        staged.candidateHead.body.generation)
    let expectedDecision ← state.head.body.nextDecisionSequence
    if staged.batch.firstDecisionSequence ≠ expectedDecision then
      throw (.decisionSequenceDiscontinuity expectedDecision staged.batch.firstDecisionSequence)
    if let some first := staged.batch.committed.head? then
      let expectedRepository ← state.head.body.nextRepositorySequence
      if first.repositorySequence ≠ expectedRepository then
        throw (.repositorySequenceDiscontinuity expectedRepository first.repositorySequence)
    if staged.mayBecomeVisible = false then
      return (state, .durabilityUnsatisfied input.batch)
    return (installBatch state input.batch staged, .won staged.candidateHead.id staged.batch.id)

/-! ### The machine -/

inductive CancellationPhase where
  | beforeSeal | afterSealBeforeCas | afterCas
deriving DecidableEq

structure CancellationReport where
  phase : CancellationPhase
  sealSurvives : Bool
  outcome : Option DecisionOutcome

structure CancellationRequest where
  txId : TxId
  phase : CancellationPhase

inductive ModelInput where
  | «seal» (request : SealRequest)
  | stageObjects (request : QuarantineRequest)
  | prepare (request : PrepareRequest)
  | decide (capsule : PreparedTxnCapsuleId)
  | stage (request : StageRequest)
  | compareAndSwap (request : CasRequest)
  | publishConfiguration (request : ConfigurationRequest)
  | cancel (request : CancellationRequest)

inductive ModelOutput where
  | sealed (outcome : SealOutcome)
  | objectsQuarantined (held : ℕ)
  | prepared (capsule : PreparedTxnCapsuleId)
  | decided (verdict : DecisionVerdict)
  | staged (outcome : StageOutcome)
  | headTransition (outcome : CasOutcome)
  | configurationTransition (outcome : ConfigurationOutcome)
  | cancelled (report : CancellationReport)

structure ModelStep where
  next : RepositoryState
  output : ModelOutput

/-- Cancel a transaction at a phase.  A sealed request keeps its seal; only
its capsules are dropped, and only before the compare-and-swap. -/
def cancel (request : CancellationRequest) : ModelStep :=
  let report : CancellationReport :=
    ⟨request.phase, state.seals.contains request.txId, state.outcomeOf request.txId⟩
  match request.phase with
  | .beforeSeal | .afterCas => ⟨state, .cancelled report⟩
  | .afterSealBeforeCas =>
    ⟨{ state with
        capsules := state.capsules.filter fun _ capsule => capsule.txId ≠ request.txId },
      .cancelled report⟩

/-- One step of the model. -/
def step (input : ModelInput) : ModelResult ModelStep := do
  match input with
  | .seal request =>
    let (next, outcome) ← «seal» state request
    return ⟨next, .sealed outcome⟩
  | .stageObjects request =>
    let next ← stageObjects state request
    return ⟨next, .objectsQuarantined (next.quarantine[request.txId]?.elim 0 (·.size))⟩
  | .prepare request =>
    let (next, capsule) ← prepare state request
    return ⟨next, .prepared capsule⟩
  | .decide capsule =>
    match state.capsules[capsule]? with
    | none => throw (.unknownCapsule capsule)
    | some prepared => return ⟨state, .decided (Reference.decide state prepared)⟩
  | .stage request =>
    let (next, outcome) ← stage state request
    return ⟨next, .staged outcome⟩
  | .compareAndSwap request =>
    let (next, outcome) ← compareAndSwap state request
    return ⟨next, .headTransition outcome⟩
  | .publishConfiguration request =>
    let (next, outcome) ← publishConfiguration state request
    return ⟨next, .configurationTransition outcome⟩
  | .cancel request => return cancel state request

/-- The state after one input; a breach leaves the state as it was. -/
def next (input : ModelInput) : RepositoryState :=
  match step state input with
  | .ok result => result.next
  | .error _ => state

/-- The state a list of inputs leads to from genesis. -/
def run (configuration : GenesisConfiguration) (inputs : List ModelInput) : RepositoryState :=
  Run.exec next (.genesis configuration) inputs

end Frankengit.Reference
