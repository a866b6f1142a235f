/-
Frankengit/Policy/Eval.lean

Evaluation of a policy (`fgit-policy`, `eval.rs`).  Every subject of the
input root is decided by the rules whose predicate holds of it: the first
matching denial, else the first matching permission, else the default.

Before that two checks see to it that the rules can be answered: a policy
that tests commit ancestry is refused on a subject whose ancestry is not
known (`requireAncestry`, a bounded walk over the predicates), and every
aggregate a rule reads must have a reading (`requireAggregates`).
-/
import Frankengit.Policy.Program
import Frankengit.Lib.Fallible

namespace Frankengit.Policy

open Sorted Fallible List

/-! ### Facts -/

/-- What the rules see of one subject. -/
structure Facts where
  policy : CompiledPolicy
  input : Option PolicyInputRoot
  authentication : AuthenticationStrength
  subject : RefUpdateFact
  actorId : Bytes
  actorSnapshot : Option Bytes

variable (facts : Facts)

namespace Facts

def text : Selector → Bytes
  | .refName => facts.subject.name.bytes
  | .refScope => facts.subject.scope
  | .actorId => facts.actorId
  | .actorSnapshot => facts.actorSnapshot.getD []
  | _ => []

/-- The first receipt of the kind the policy accepts for the subject. -/
def accepted (kind : EvidenceKind) : Option EvidenceReceipt := do
  let requirement ← facts.policy.requirement kind
  let input ← facts.input
  input.receipts.find? fun receipt =>
    receipt.kind = kind && receipt.subject = facts.subject.name
      && receipt.issuer = requirement.issuer && receipt.isLiveAt input.instant
      && requirement.maxAgeSeconds.all fun maxAge => input.instant - receipt.issuedAt ≤ maxAge

def aggregate (name : AggregateName) : Option ℕ := do
  let input ← facts.input
  input.aggregates[name]?

end Facts

/-! ### Predicates -/

def Test.holds : Test → Bool
  | textEquals selector value => facts.text selector = value.bytes
  | textIn selector values => values.any fun value => facts.text selector = value.bytes
  | textMatches selector pattern => pattern.matchesName (facts.text selector)
  | updateKindEquals kind => facts.subject.kind = kind
  | updateKindIn kinds => kinds.contains facts.subject.kind
  | principalKindEquals kind => facts.input.any fun input => input.principal.kind = kind
  | principalKindIn kinds => facts.input.any fun input => kinds.contains input.principal.kind
  | authenticationCompare operator value => operator.holds facts.authentication.rank value.rank
  | labelContains .actorTeams label =>
    facts.input.any fun input => input.principal.teams.contains label
  | labelContains .actorCapabilities label =>
    facts.input.any fun input => input.principal.capabilities.contains label
  | labelContains _ _ => false
  | forceRequested => facts.subject.forceRequested
  | aggregateCompare name operator value =>
    (facts.aggregate name).any fun reading => operator.holds reading value
  | evidenceAccepted kind => (facts.accepted kind).isSome

mutual

def holds (facts : Facts) : Predicate → Bool
  | .always => true
  | .never => false
  | .all operands => allHold facts operands
  | .any operands => anyHolds facts operands
  | .not inner => !holds facts inner
  | .test t => t.holds facts

def allHold (facts : Facts) : List Predicate → Bool
  | [] => true
  | operand :: rest => holds facts operand && allHold facts rest

def anyHolds (facts : Facts) : List Predicate → Bool
  | [] => false
  | operand :: rest => holds facts operand || anyHolds facts rest

end

theorem allHold_eq (operands : List Predicate) :
    allHold facts operands = operands.all (holds facts) := by
  induction operands with
  | nil => rw [allHold, all_nil]
  | cons operand rest ih => rw [allHold, all_cons, ih]

theorem anyHolds_eq (operands : List Predicate) :
    anyHolds facts operands = operands.any (holds facts) := by
  induction operands with
  | nil => rw [anyHolds, any_nil]
  | cons operand rest ih => rw [anyHolds, any_cons, ih]

/-! ### Subjects -/

structure RuleVisit where
  rule : RuleId
  matched : Bool
  outcome : RuleOutcome
deriving DecidableEq

structure EvidenceUse where
  kind : EvidenceKind
  issuer : IssuerLabel
  issuedAt : PolicyInstant
  expiresAt : PolicyInstant
deriving DecidableEq

structure SubjectOutcome where
  index : ℕ
  name : Bytes
  update : RefUpdateKind
  decision : Decision
  governingRule : Option RuleId
  reason : Option DenyReason
  visits : List RuleVisit
  evidence : List EvidenceUse
deriving DecidableEq

/-- The state of the loop over the rules. -/
structure Tally where
  visits : List RuleVisit
  denial : Option (RuleId × DenyReason)
  permission : Option RuleId

/-- One rule, which did or did not match. -/
def Tally.visit (tally : Tally) (rule : CompiledRule) (matched : Bool) : Tally where
  visits := tally.visits ++ [⟨rule.id, matched, rule.outcome⟩]
  denial :=
    match matched, rule.outcome with
    | true, .deny reason => tally.denial <|> some (rule.id, reason)
    | _, _ => tally.denial
  permission :=
    match matched, rule.outcome with
    | true, .allow => tally.permission <|> some rule.id
    | _, _ => tally.permission

/-- The decision of the rules that were visited. -/
def Tally.decision (tally : Tally) (defaultOutcome : RuleOutcome) :
    Decision × Option RuleId × Option DenyReason :=
  match tally.denial, tally.permission with
  | some (rule, reason), _ => (.deny, some rule, some reason)
  | none, some rule => (.allow, some rule, none)
  | none, none =>
    match defaultOutcome with
    | .allow => (.allow, none, none)
    | .deny reason => (.deny, none, some reason)

def acceptedEvidence : List EvidenceUse :=
  (sortedUnique (facts.policy.rules.flatMap fun rule => rule.predicate.evidenceKinds)).filterMap
    fun kind => (facts.accepted kind).map fun receipt =>
      ⟨kind, receipt.issuer, receipt.issuedAt, receipt.expiresAt⟩

def tallyRules : Tally :=
  facts.policy.rules.foldl (fun tally rule => tally.visit rule (holds facts rule.predicate))
    ⟨[], none, none⟩

def decideSubject (index : ℕ) (facts : Facts) : SubjectOutcome :=
  let tally := tallyRules facts
  let (decision, governingRule, reason) := tally.decision facts.policy.defaultOutcome
  { index, decision, governingRule, reason
    name := facts.subject.name.bytes
    update := facts.subject.kind
    visits := tally.visits
    evidence := acceptedEvidence facts }

/-! ### Checks before the evaluation -/

inductive PolicyEvalRefusal where
  | ancestryUnavailable (rule : Bytes) (name : Bytes)
  | predicateLimitExceeded (rule : Bytes)
  | aggregateMissing (rule : Bytes) (name : AggregateName)
deriving DecidableEq

def maxSourceLen : ℕ := 65536
def maxPredicateDepth : ℕ := 32

def RefUpdateKind.isAncestry : RefUpdateKind → Bool
  | fastForward | nonFastForward => true
  | _ => false

/-- Whether a test can be answered only with the commit ancestry known. -/
def Test.needsAncestry : Test → Bool
  | updateKindEquals kind => kind.isAncestry
  | updateKindIn kinds => kinds.any RefUpdateKind.isAncestry
  | _ => false

/-- The walk over a rule's predicate: the predicates still to visit with
their depth, the next one first, and how many visits remain. -/
def ancestryScan (rule : CompiledRule) (name : Bytes) :
    ℕ → List (Predicate × ℕ) → Except PolicyEvalRefusal ℕ
  | remaining, [] => .ok remaining
  | 0, _ :: _ => .error (.predicateLimitExceeded rule.id.bytes)
  | remaining + 1, (predicate, depth) :: pending =>
    if maxPredicateDepth < depth then .error (.predicateLimitExceeded rule.id.bytes)
    else
      match predicate with
      | .test t =>
        if t.needsAncestry then .error (.ancestryUnavailable rule.id.bytes name)
        else ancestryScan rule name remaining pending
      | .not inner => ancestryScan rule name remaining ((inner, depth + 1) :: pending)
      | .all children | .any children =>
        if remaining < children.length + pending.length then
          .error (.predicateLimitExceeded rule.id.bytes)
        else
          -- the last child is popped first
          ancestryScan rule name remaining
            (children.reverse.map (fun child => (child, depth + 1)) ++ pending)
      | _ => ancestryScan rule name remaining pending

def requireAncestry (policy : CompiledPolicy) (input : PolicyInputRoot) :
    Except PolicyEvalRefusal Unit :=
  match input.updates.find? fun subject => subject.kind = .unclassifiedUpdate with
  | none => .ok ()
  | some subject =>
    (fun _ => ()) <$> policy.rules.foldlM
      (fun remaining rule =>
        ancestryScan rule subject.name.bytes remaining [(rule.predicate, 0)]) maxSourceLen

def requireAggregates (policy : CompiledPolicy) (input : PolicyInputRoot) :
    Except PolicyEvalRefusal Unit :=
  policy.rules.forM fun rule =>
    rule.predicate.aggregates.forM fun name =>
      refuseIf (name ∉ input.aggregates) (.aggregateMissing rule.id.bytes name)

/-! ### Evaluation -/

/-- A policy with its content identity. -/
structure PolicySnapshot where
  policy : CompiledPolicy
  id : Digest

structure PolicyEvaluation where
  policy : PolicyName
  snapshot : Digest
  decision : Decision
  subjects : List SubjectOutcome

def evaluateFacts (snapshot : PolicySnapshot) (updates : List RefUpdateFact)
    (input : Option PolicyInputRoot) (authentication : AuthenticationStrength) (actorId : Bytes)
    (actorSnapshot : Option Bytes) : PolicyEvaluation :=
  let subjects := updates.zipIdx.map fun (update, index) =>
    decideSubject index ⟨snapshot.policy, input, authentication, update, actorId, actorSnapshot⟩
  { subjects
    policy := snapshot.policy.name
    snapshot := snapshot.id
    decision := if subjects.any fun outcome => outcome.decision = .deny then .deny else .allow }

def evaluate (display : Display) (snapshot : PolicySnapshot) (input : PolicyInputRoot) :
    Except PolicyEvalRefusal PolicyEvaluation := do
  requireAncestry snapshot.policy input
  requireAggregates snapshot.policy input
  return evaluateFacts snapshot input.updates (some input) input.principal.authentication
    (display.principal input.principal.principal) (some (display.snapshot input.principal.snapshot))

end Frankengit.Policy
