/-
Frankengit/Types/Basic.lean

The shared vocabulary of the workspace (crate `fgit-types`): identities,
monotone counters, native object identities, digests and the outcome of a
decision.

The source gives every identity and label its own newtype over bytes.  The
modelled programs only compare them and use them as ordered keys, so an
identity here is the number its bytes spell, tagged with its role
(`Tagged`): a `TxId` and a `RepositoryAuthorityHeadId` cannot be confused.
A counter carries the proof that it lies in the range of its machine
integer, so the reserved zero and a value past `u64::MAX` do not exist.
-/
import Frankengit.Lib.BTree

namespace Frankengit

/-! ### Identities and labels -/

/-- What an identity or label names. -/
inductive Role where
  | tenant | repository | principal
  | tx | transactionSeal | preparedTxnCapsule | repositoryCommit
  | repositoryDecisionBatch | repositoryAuthorityHead | refusalRecord
  | principalSnapshot | preparationProfile
  | schema | idempotencyKey | forgeStream | forgeEntity | outboxDeliveryKey

/-- An identity or label of one role. -/
@[ext] structure Tagged (role : Role) where
  /-- The number the identity's bytes spell. -/
  spelled : ℕ

instance (role : Role) : LinearOrder (Tagged role) :=
  LinearOrder.lift' Tagged.spelled fun _ _ => Tagged.ext

instance (priority := high) (role : Role) :
    Std.TransCmp (compare : Tagged role → Tagged role → Ordering) :=
  BTree.transCmp_compare

abbrev TenantId := Tagged .tenant
abbrev RepositoryId := Tagged .repository
abbrev PrincipalId := Tagged .principal
abbrev TxId := Tagged .tx
abbrev TransactionSealId := Tagged .transactionSeal
abbrev PreparedTxnCapsuleId := Tagged .preparedTxnCapsule
abbrev RepositoryCommitId := Tagged .repositoryCommit
abbrev RepositoryDecisionBatchId := Tagged .repositoryDecisionBatch
abbrev RepositoryAuthorityHeadId := Tagged .repositoryAuthorityHead
abbrev RefusalRecordId := Tagged .refusalRecord
abbrev PrincipalSnapshotId := Tagged .principalSnapshot
abbrev PreparationProfileId := Tagged .preparationProfile
abbrev SchemaId := Tagged .schema
abbrev IdempotencyKey := Tagged .idempotencyKey
abbrev ForgeStreamId := Tagged .forgeStream
abbrev ForgeEntityId := Tagged .forgeEntity
abbrev OutboxDeliveryKey := Tagged .outboxDeliveryKey

/-! ### Digests and native object identities -/

/-- An algorithm-tagged digest. -/
@[ext] structure Digest where
  algorithm : ℕ
  bytes : ℕ
deriving DecidableEq

/-- A byte string. -/
abbrev Bytes := List UInt8

/-- Named, so that every test of membership in a list of byte strings uses one constant. -/
instance lawfulBEqBytes : LawfulBEq Bytes := inferInstance

/-- The bytes of a text in ASCII. -/
def ascii (text : String) : Bytes := text.toList.map fun c => UInt8.ofNat c.toNat

def newline : UInt8 := 0x0a
def space : UInt8 := 0x20

def isAsciiDigit (byte : UInt8) : Bool := 0x30 ≤ byte && byte ≤ 0x39
def isAsciiLowercase (byte : UInt8) : Bool := 0x61 ≤ byte && byte ≤ 0x7a

/-- A repository's declared object format. -/
inductive GitHashAlgorithm where
  | sha1 | sha256
deriving DecidableEq

/-- A native object identity.  Equal bytes under different algorithms are
different identities. -/
@[ext] structure GitOid where
  algorithm : GitHashAlgorithm
  bytes : ℕ

namespace GitOid

/-- The order of the source: by algorithm, then by bytes. -/
def key (oid : GitOid) : List ℕ :=
  [match oid.algorithm with | .sha1 => 0 | .sha256 => 1, oid.bytes]

theorem key_injective : Function.Injective key := by
  rintro ⟨a, x⟩ ⟨b, y⟩ h
  cases a <;> cases b <;> simp_all [key]

instance : LinearOrder GitOid := LinearOrder.lift' key key_injective

end GitOid

/-! ### Monotone counters -/

/-- The largest value of a 64-bit counter. -/
def u64Max : ℕ := 18446744073709551615

/-- The largest 32-bit number. -/
def u32Max : ℕ := 4294967295

theorem one_le_u64Max : 1 ≤ u64Max := by decide

theorem toNat_le_u64Max (n : UInt8) : n.toNat ≤ u64Max := n.toNat_lt.le.trans (by decide)

/-- What a counter counts. -/
inductive CounterKind where
  | decisionSequence | repositorySequence | headGeneration | policyEpoch | registryEpoch

/-- A monotone counter: a positive 64-bit value. -/
@[ext] structure Counter (kind : CounterKind) where
  val : ℕ
  pos : 1 ≤ val
  fits : val ≤ u64Max
deriving DecidableEq

abbrev DecisionSequence := Counter .decisionSequence
abbrev RepositorySequence := Counter .repositorySequence
abbrev HeadGeneration := Counter .headGeneration
abbrev PolicyEpoch := Counter .policyEpoch
abbrev RegistryEpoch := Counter .registryEpoch

namespace Counter

variable {kind : CounterKind}

/-- The first value. -/
def first : Counter kind := ⟨1, le_rfl, by decide⟩

/-- The immediate successor, where it is representable. -/
def next (c : Counter kind) : Option (Counter kind) :=
  if h : c.val < u64Max then some ⟨c.val + 1, by omega, h⟩ else none

theorem next_eq_some {c d : Counter kind} : c.next = some d ↔ d.val = c.val + 1 := by
  unfold next
  split
  · rw [Option.some.injEq, Counter.ext_iff]
    exact eq_comm
  · next h =>
    have := d.fits
    simp only [reduceCtorEq, false_iff]
    omega

end Counter

/-! ### Decisions -/

/-- Why a sealed transaction was refused. -/
inductive RefusalCode where
  | capabilityScopeViolation | cancellationInProgress | schemaUnsupported | expectedOldRefMismatch
  | nonFastForwardRefused | forceNotPermitted | protectedRefTransitionDenied | refNameInvalid
  | objectClosureIncomplete | nativeObjectIdMismatch | hashAlgorithmDomainMismatch
  | resourceBudgetExceeded | retentionHoldViolation | policyEpochSuperseded
  | basisCapsuleNotReusable | forgeTransitionInvalid | effectIdempotencyKeyReuse
  | conflictingSemanticEffects | durabilityProfileUnavailable | internalInvariantBreach
deriving DecidableEq

/-- Why a request was rejected before a seal existed. -/
inductive RequestRejectionCode where
  | unsupportedCapability | idempotencyKeyReuse | schemaUnsupported
deriving DecidableEq

/-- The terminal outcome of one transaction. -/
inductive DecisionOutcome where
  | committed (repositoryCommitId : RepositoryCommitId)
  | refused (code : RefusalCode) (refusalRecordId : RefusalRecordId)
deriving DecidableEq

/-- Only a commit advances the repository sequence. -/
def DecisionOutcome.advancesRepositorySequence : DecisionOutcome → Bool
  | committed _ => true
  | refused _ _ => false

/-- What a statement does when a precondition does not match. -/
inductive MismatchPolicy where
  | noOp | statementError | txnAbort
deriving DecidableEq

end Frankengit
