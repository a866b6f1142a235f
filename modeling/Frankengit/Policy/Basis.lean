/-
Frankengit/Policy/Basis.lean

The facts a policy is evaluated on (`fgit-policy`, `basis.rs`): the ref
updates of one request, the principal behind it, the evidence receipts and
status checks it offers, the aggregate readings and the instant.

Every type carries what its constructor checks: an update's sides agree with
its kind, a receipt's window is not empty, an input root names a ref once,
holds its receipts in order and at most one status check a slot.
-/
import Frankengit.Types.Label
import Frankengit.Lib.SortedUnique

namespace Frankengit.Policy

open Sorted Function

/-- Seconds since the epoch. -/
abbrev PolicyInstant := ℕ

/-! ### Enumerations -/

inductive PrincipalKind where
  | human | machine | agent | service
deriving DecidableEq

inductive AuthenticationStrength where
  | none | singleFactor | multiFactor | hardwareBacked
deriving DecidableEq

inductive RefUpdateKind where
  | create | fastForward | nonFastForward | delete | unclassifiedUpdate
deriving DecidableEq

inductive StatusCheckConclusion where
  | success | failure | cancelled | timedOut | actionRequired
deriving DecidableEq

namespace PrincipalKind

def token : PrincipalKind → Bytes
  | human => ascii "human"
  | machine => ascii "machine"
  | agent => ascii "agent"
  | service => ascii "service"

def all : List PrincipalKind := [human, machine, agent, service]

def fromToken (text : Bytes) : Option PrincipalKind := all.find? fun kind => kind.token = text

def rank : PrincipalKind → ℕ
  | human => 0
  | machine => 1
  | agent => 2
  | service => 3

theorem rank_injective : Injective rank := by
  intro a b h
  cases a <;> cases b <;> first | rfl | cases h

instance : LinearOrder PrincipalKind := LinearOrder.lift' rank rank_injective

end PrincipalKind

namespace AuthenticationStrength

def token : AuthenticationStrength → Bytes
  | none => ascii "none"
  | singleFactor => ascii "single_factor"
  | multiFactor => ascii "multi_factor"
  | hardwareBacked => ascii "hardware_backed"

def all : List AuthenticationStrength := [none, singleFactor, multiFactor, hardwareBacked]

def fromToken (text : Bytes) : Option AuthenticationStrength :=
  all.find? fun strength => strength.token = text

def rank : AuthenticationStrength → ℕ
  | none => 0
  | singleFactor => 1
  | multiFactor => 2
  | hardwareBacked => 3

theorem rank_injective : Injective rank := by
  intro a b h
  cases a <;> cases b <;> first | rfl | cases h

instance : LinearOrder AuthenticationStrength := LinearOrder.lift' rank rank_injective

end AuthenticationStrength

namespace RefUpdateKind

def token : RefUpdateKind → Bytes
  | create => ascii "create"
  | fastForward => ascii "fast_forward"
  | nonFastForward => ascii "non_fast_forward"
  | delete => ascii "delete"
  | unclassifiedUpdate => ascii "update_unclassified"

def all : List RefUpdateKind := [create, fastForward, nonFastForward, delete, unclassifiedUpdate]

def fromToken (text : Bytes) : Option RefUpdateKind := all.find? fun kind => kind.token = text

def rank : RefUpdateKind → ℕ
  | create => 0
  | fastForward => 1
  | nonFastForward => 2
  | delete => 3
  | unclassifiedUpdate => 4

theorem rank_injective : Injective rank := by
  intro a b h
  cases a <;> cases b <;> first | rfl | cases h

instance : LinearOrder RefUpdateKind := LinearOrder.lift' rank rank_injective

end RefUpdateKind

/-! ### Ref updates -/

/-- One ref command.  A creation has no previous side, a deletion no next
one, every other kind has both. -/
structure RefUpdateFact where
  name : RefName
  previous : Option GitOid
  next : Option GitOid
  kind : RefUpdateKind
  forceRequested : Bool
  previous_shape : previous.isSome = decide (kind ≠ .create)
  next_shape : next.isSome = decide (kind ≠ .delete)

namespace RefUpdateFact

/-- The component after `refs`, empty outside the canonical namespace. -/
def scope (fact : RefUpdateFact) : Bytes :=
  if fact.name.isUnder RefName.canonicalRefSpace then fact.name.components[1]?.getD [] else []

end RefUpdateFact

/-! ### The principal -/

/-- The text forms of identities. -/
structure Display where
  principal : PrincipalId → Bytes
  snapshot : PrincipalSnapshotId → Bytes
  oid : GitOid → Bytes

structure PrincipalFacts where
  principal : PrincipalId
  snapshot : PrincipalSnapshotId
  kind : PrincipalKind
  authentication : AuthenticationStrength
  teams : BTreeSet LabelName
  capabilities : BTreeSet LabelName

/-! ### Evidence -/

/-- An evidence receipt, live from its issue until before its expiry. -/
@[ext] structure EvidenceReceipt where
  kind : EvidenceKind
  issuer : IssuerLabel
  subject : RefName
  issuedAt : PolicyInstant
  expiresAt : PolicyInstant
  window : issuedAt < expiresAt

namespace EvidenceReceipt

def isLiveAt (receipt : EvidenceReceipt) (instant : PolicyInstant) : Bool :=
  receipt.issuedAt ≤ instant && instant < receipt.expiresAt

/-- The order of the source: field by field. -/
def key (receipt : EvidenceReceipt) : EvidenceKind ×ₗ IssuerLabel ×ₗ RefName ×ₗ ℕ ×ₗ ℕ :=
  toLex (receipt.kind, toLex (receipt.issuer, toLex (receipt.subject,
    toLex (receipt.issuedAt, receipt.expiresAt))))

theorem key_injective : Injective key := by
  intro a b h
  simp only [key, EmbeddingLike.apply_eq_iff_eq, Prod.mk.injEq] at h
  obtain ⟨hkind, hissuer, hsubject, hissued, hexpires⟩ := h
  exact EvidenceReceipt.ext hkind hissuer hsubject hissued hexpires

instance : LinearOrder EvidenceReceipt := LinearOrder.lift' key key_injective

end EvidenceReceipt

/-- The conclusion of one named status check for one proposed commit. -/
structure StatusCheckReceipt where
  subject : RefName
  commit : GitOid
  name : AsciiSlug
  issuer : IssuerLabel
  conclusion : StatusCheckConclusion
  issuedAt : PolicyInstant
  expiresAt : PolicyInstant
  commit_ne_zero : commit.bytes ≠ 0
  window : issuedAt < expiresAt

namespace StatusCheckReceipt

def isLiveAt (receipt : StatusCheckReceipt) (instant : PolicyInstant) : Bool :=
  receipt.issuedAt ≤ instant && instant < receipt.expiresAt

/-- What a status check is about. -/
abbrev Slot := RefName ×ₗ GitOid ×ₗ AsciiSlug

def slot (receipt : StatusCheckReceipt) : Slot :=
  toLex (receipt.subject, toLex (receipt.commit, receipt.name))

end StatusCheckReceipt

/-! ### The input root -/

/-- Everything a policy may look at. -/
structure PolicyInputRoot where
  principal : PrincipalFacts
  updates : List RefUpdateFact
  receipts : List EvidenceReceipt
  statusChecks : List StatusCheckReceipt
  aggregates : BTreeMap AggregateName ℕ
  instant : PolicyInstant
  /-- A ref is named once. -/
  names_nodup : (updates.map RefUpdateFact.name).Nodup
  receipts_sorted : receipts.Pairwise (· < ·)
  /-- A slot is filled once. -/
  checks_sorted : statusChecks.Pairwise fun a b => a.slot < b.slot

end Frankengit.Policy
