/-
Frankengit/Reference/Intent.lean

What a client asks for (`fgit-reference`, `intent.rs` and `refs.rs`):
intents on refs, forge streams, retention roots and outbox deliveries,
grouped into statements that share a mismatch policy, and the transaction
request that carries them.
-/
import Frankengit.Types.RefName

namespace Frankengit.Reference

/-! ### Targets -/

/-- The ref value an intent expects to find. -/
inductive ExpectedRefState where
  | absent
  | exact (oid : GitOid)
  | any
deriving DecidableEq

/-- Whether the observed value meets the expectation. -/
def ExpectedRefState.isSatisfiedBy : ExpectedRefState → Option GitOid → Bool
  | any, _ | absent, none => true
  | absent, some _ | exact _, none => false
  | exact expected, some found => expected == found

/-- The position of a forge stream: the number of events it holds. -/
@[ext] structure ForgeStreamPosition where
  val : ℕ
  fits : val ≤ u64Max

namespace ForgeStreamPosition

instance : DecidableEq ForgeStreamPosition :=
  fun p q => decidable_of_iff (p.val = q.val) ForgeStreamPosition.ext_iff.symm

def genesis : ForgeStreamPosition := ⟨0, Nat.zero_le _⟩

/-- The next position; saturates at the end of the range. -/
def successor (p : ForgeStreamPosition) : ForgeStreamPosition :=
  ⟨min (p.val + 1) u64Max, min_le_right _ _⟩

def isExhausted (p : ForgeStreamPosition) : Bool := p.val == u64Max

theorem successor_val {p : ForgeStreamPosition} (h : p.isExhausted = false) :
    p.successor.val = p.val + 1 := by
  have hne : p.val ≠ u64Max := by simpa [isExhausted] using h
  have hle := p.fits
  exact min_eq_left (by omega)

end ForgeStreamPosition

/-- One forge event. -/
inductive ForgeEventKind where
  | pullRequestOpened (pullRequest : ForgeEntityId) (target : RefName)
  | pullRequestMerged (pullRequest : ForgeEntityId) (target : RefName)
  | pullRequestClosed (pullRequest : ForgeEntityId)
  | pullRequestUpdated (pullRequest : ForgeEntityId) (target : RefName)
  | pullRequestReviewed (review : ForgeEntityId) (target : RefName)
  | issueChanged (issue : ForgeEntityId)
  | reviewProtectionChanged (policy : ForgeEntityId)
  | workflowCheckObserved (check : ForgeEntityId) (source : RefName)
  | pullRequestCommented (conversation : ForgeEntityId)
  | mergeQueueChanged (queue : ForgeEntityId) (target : RefName)
  | discussionChanged (discussion : ForgeEntityId)
  | milestoneChanged (milestone : ForgeEntityId)
  | notificationPreferenceChanged (preference : ForgeEntityId)
  | agentCredentialChanged (credential : ForgeEntityId)

/-- The ref an event says the transaction moved: a merge names its target. -/
def ForgeEventKind.requiredRefEffect : ForgeEventKind → Option RefName
  | pullRequestMerged _ target => some target
  | _ => none

/-- Why an object is retained. -/
inductive RetentionClass where
  | referencedByRef | legalHold | graceTombstone
deriving DecidableEq

/-- Whether an ordinary transaction may drop a root of this class. -/
def RetentionClass.isOrdinarilyRemovable : RetentionClass → Bool
  | referencedByRef | graceTombstone => true
  | legalHold => false

/-- One protected object and the reason it is protected. -/
@[ext] structure RetentionRoot where
  object : GitOid
  «class» : RetentionClass

namespace RetentionRoot

/-- The order of the source: by object, then by class. -/
def key (root : RetentionRoot) : List ℕ :=
  root.object.key ++
    [match root.class with | .referencedByRef => 0 | .legalHold => 1 | .graceTombstone => 2]

theorem key_injective : Function.Injective key := by
  rintro ⟨a, x⟩ ⟨b, y⟩ h
  obtain ⟨hobj, hclass⟩ := List.append_inj' h rfl
  have hab := GitOid.key_injective hobj
  cases x <;> cases y <;> simp_all

instance : LinearOrder RetentionRoot := LinearOrder.lift' key key_injective

end RetentionRoot

/-! ### Intents -/

inductive RefIntent where
  | update (name : RefName) (expected : ExpectedRefState) (new : GitOid) (force : Bool)
  | delete (name : RefName) (expected : ExpectedRefState)

/-- The ref an intent acts on. -/
def RefIntent.target : RefIntent → RefName
  | update name _ _ _ | delete name _ => name

structure ForgeIntent where
  stream : ForgeStreamId
  expectedPosition : ForgeStreamPosition
  event : ForgeEventKind

inductive RetentionIntent where
  | addRoot (root : RetentionRoot)
  | removeRoot (root : RetentionRoot)

structure OutboxIntent where
  deliveryKey : OutboxDeliveryKey
  parameters : Digest

/-- One source intent. -/
inductive Intent where
  | ref (intent : RefIntent)
  | forge (intent : ForgeIntent)
  | retention (intent : RetentionIntent)
  | outbox (intent : OutboxIntent)

/-- Where an intent sits in its request. -/
@[ext] structure IntentAddress where
  statement : ℕ
  intent : ℕ
deriving DecidableEq

/-- Intents that share one mismatch policy. -/
structure Statement where
  intents : List Intent
  mismatchPolicy : MismatchPolicy

/-! ### Requests -/

/-- When a batch may become visible. -/
inductive DurabilityProfile where
  | canonicalSource | derivedGeneration
deriving DecidableEq

namespace DurabilityProfile

def requiresDurabilityBeforeVisibility : DurabilityProfile → Bool
  | canonicalSource => true
  | derivedGeneration => false

instance : LinearOrder DurabilityProfile :=
  LinearOrder.lift' (fun p => if p.requiresDurabilityBeforeVisibility then 0 else 1)
    (by rintro (_ | _) (_ | _) h <;> simp_all [requiresDurabilityBeforeVisibility])

end DurabilityProfile

/-- The inputs a transaction identity is derived from. -/
@[ext] structure TxIdDerivationInputs where
  tenant : TenantId
  repository : RepositoryId
  principal : PrincipalId
  idempotencyKey : IdempotencyKey
  canonicalRequestDigest : Digest

namespace TxIdDerivationInputs

/-- The order of the source: field by field. -/
def key (inputs : TxIdDerivationInputs) : List ℕ :=
  [inputs.tenant.spelled, inputs.repository.spelled, inputs.principal.spelled,
    inputs.idempotencyKey.spelled, inputs.canonicalRequestDigest.algorithm,
    inputs.canonicalRequestDigest.bytes]

theorem key_injective : Function.Injective key := by
  rintro ⟨⟨a⟩, ⟨b⟩, ⟨c⟩, ⟨d⟩, ⟨e, f⟩⟩ ⟨⟨a'⟩, ⟨b'⟩, ⟨c'⟩, ⟨d'⟩, ⟨e', f'⟩⟩ h
  simpa [key] using h

instance : LinearOrder TxIdDerivationInputs := LinearOrder.lift' key key_injective

end TxIdDerivationInputs

/-- The stable fields a seal binds. -/
structure SealFields where
  txId : TxId
  tenant : TenantId
  repository : RepositoryId
  principal : PrincipalId
  idempotencyKey : IdempotencyKey
  canonicalRequestDigest : Digest
  schema : SchemaId
deriving DecidableEq

def SealFields.derivationInputs (fields : SealFields) : TxIdDerivationInputs :=
  ⟨fields.tenant, fields.repository, fields.principal, fields.idempotencyKey,
    fields.canonicalRequestDigest⟩

/-- The canonicalized semantic request. -/
structure TransactionRequest where
  txId : TxId
  tenant : TenantId
  repository : RepositoryId
  principal : PrincipalId
  schema : SchemaId
  idempotencyKey : IdempotencyKey
  canonicalRequestDigest : Digest
  statements : List Statement
  promisedClosure : BTreeSet GitOid
  atomic : Bool
  durability : DurabilityProfile

variable (request : TransactionRequest)

namespace TransactionRequest

def intentCount : ℕ :=
  (request.statements.map fun statement => statement.intents.length).sum

/-- The intents in source order, each with its address. -/
def addressedIntents : List (IntentAddress × Intent) :=
  request.statements.zipIdx.flatMap fun statement =>
    statement.1.intents.zipIdx.map fun intent => (⟨statement.2, intent.2⟩, intent.1)

/-- The stable fields of the request. -/
def sealFields : SealFields :=
  ⟨request.txId, request.tenant, request.repository, request.principal,
    request.idempotencyKey, request.canonicalRequestDigest, request.schema⟩

end TransactionRequest

end Frankengit.Reference
