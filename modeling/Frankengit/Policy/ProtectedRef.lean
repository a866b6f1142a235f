/-
Frankengit/Policy/ProtectedRef.lean

Protected refs (`fgit-policy`, `protected_ref.rs`).  The first rule whose
pattern matches the ref is applied to the request: every requirement gives a
verdict or none, and the update is denied if and only if a verdict is a
failure (`evaluateProtectedRef`).

`Meets` is what the rule asks for.  `evaluateProtectedRef_sound` says that an
allowed update meets the rule exactly where the rule is covered (`Covered`): there
are as many live approvals as it asks for, it has neither of the two flags no check
reads, and the reading of unresolved findings is there if it matters.  An update is
allowed with fewer approvals than asked for (`allowed_below_min_approvals`).

More receipts keep an allowed update allowed exactly where the first receipt of each
kind that the rule asks for is live (`evaluateProtectedRef_more`): a check asks no
other one, and receipts are in order of issuers and times (`stale_receipt_cancels`).

What no check reads of a rule is left out.
-/
import Frankengit.Policy.Ancestry
import Frankengit.Lib.Bisect

namespace Frankengit.Policy

open StatusCheckReceipt Std.ExtTreeSet

/-! ### Rules -/

structure ReviewRequirement where
  minApprovals : ℕ

structure StatusCheckRequirement where
  requiredChecks : BTreeSet AsciiSlug

/-- A set of flags. -/
structure ProtectionBits where
  bits : UInt16
deriving DecidableEq

namespace ProtectionBits

def requireFastForward : ProtectionBits := ⟨1⟩
def requireLinearHistory : ProtectionBits := ⟨2⟩
def requireSignedCommits : ProtectionBits := ⟨4⟩
def requireMergeQueue : ProtectionBits := ⟨8⟩
def requireHumanConfirmation : ProtectionBits := ⟨16⟩
def blockUnresolvedFindings : ProtectionBits := ⟨32⟩
def allowForcePush : ProtectionBits := ⟨64⟩
def allowDeletions : ProtectionBits := ⟨128⟩
def allowCreation : ProtectionBits := ⟨256⟩

def contains (flags other : ProtectionBits) : Bool := flags.bits &&& other.bits = other.bits

end ProtectionBits

structure ProtectedRefRule where
  pattern : RefPattern
  allowActors : BTreeSet PrincipalId
  allowPrincipalKinds : BTreeSet PrincipalKind
  allowTeams : BTreeSet LabelName
  allowCapabilities : BTreeSet LabelName
  minAuthentication : Option AuthenticationStrength
  reviews : Option ReviewRequirement
  checks : Option StatusCheckRequirement
  flags : ProtectionBits

/-! ### Verdicts -/

inductive RequirementVerdict where
  | passed (checkName : String)
  | failed (checkName : String) (reason : Bytes)
  | skipped (checkName : String)
deriving DecidableEq

/-- The reason of a failure. -/
def RequirementVerdict.failure : RequirementVerdict → Option Bytes
  | failed _ reason => some reason
  | _ => none

/-- A requirement that is met or not. -/
def verdict (checkName : String) (met : Bool) (reason : Bytes) : RequirementVerdict :=
  if met then .passed checkName else .failed checkName reason

/-- A requirement that applies or gives no verdict. -/
def require (applies : Bool) (checkName : String) (met : Bool) (reason : Bytes) :
    List RequirementVerdict :=
  if applies then [verdict checkName met reason] else []

open ProtectionBits List

def deletionCheck (rule : ProtectedRefRule) (subject : RefUpdateFact) : List RequirementVerdict :=
  require (subject.kind = .delete) "allow_deletions" (rule.flags.contains allowDeletions)
    (ascii "deletion of protected ref is prohibited")

def creationCheck (rule : ProtectedRefRule) (subject : RefUpdateFact) : List RequirementVerdict :=
  require (subject.kind = .create) "allow_creation" (rule.flags.contains allowCreation)
    (ascii "creation under protected ref pattern is prohibited")

def forcePushCheck (rule : ProtectedRefRule) (subject : RefUpdateFact) : List RequirementVerdict :=
  require subject.forceRequested "allow_force_push" (rule.flags.contains allowForcePush)
    (ascii "force push to protected ref is prohibited")

/-- A deletion gives no verdict here. -/
def fastForwardCheck (rule : ProtectedRefRule) (subject : RefUpdateFact) :
    List RequirementVerdict :=
  if rule.flags.contains requireFastForward then
    match subject.kind with
    | .fastForward | .create => [.passed "fast_forward_only"]
    | .unclassifiedUpdate =>
      [.failed "fast_forward_only" (ascii "commit ancestry was not established for this update")]
    | .nonFastForward =>
      [.failed "fast_forward_only"
        (ascii "non-fast-forward update refused by protected ref policy")]
    | .delete => []
  else []

def actorCheck (display : Display) (rule : ProtectedRefRule) (principal : PrincipalFacts) :
    List RequirementVerdict :=
  require (!rule.allowActors.isEmpty) "allow_actors" (rule.allowActors.contains principal.principal)
    (ascii "principal '" ++ display.principal principal.principal
      ++ ascii "' is not in allowed actors list")

def principalKindCheck (rule : ProtectedRefRule) (principal : PrincipalFacts) :
    List RequirementVerdict :=
  require (!rule.allowPrincipalKinds.isEmpty) "allow_principal_kinds"
    (rule.allowPrincipalKinds.contains principal.kind)
    (ascii "principal kind '" ++ principal.kind.token ++ ascii "' is not admitted")

def teamCheck (rule : ProtectedRefRule) (principal : PrincipalFacts) : List RequirementVerdict :=
  require (!rule.allowTeams.isEmpty) "allow_teams"
    (rule.allowTeams.toList.any fun team => principal.teams.contains team)
    (ascii "principal does not belong to any required team")

def capabilityCheck (rule : ProtectedRefRule) (principal : PrincipalFacts) :
    List RequirementVerdict :=
  require (!rule.allowCapabilities.isEmpty) "allow_capabilities"
    (rule.allowCapabilities.toList.any fun capability => principal.capabilities.contains capability)
    (ascii "principal lacks required capability")

def authenticationCheck (rule : ProtectedRefRule) (principal : PrincipalFacts) :
    List RequirementVerdict :=
  match rule.minAuthentication with
  | some minAuth =>
    [verdict "min_authentication" (minAuth ≤ principal.authentication)
      (ascii "authentication strength '" ++ principal.authentication.token
        ++ ascii "' does not meet minimum '" ++ minAuth.token ++ ascii "'")]
  | none => []

def signedCommitsCheck (rule : ProtectedRefRule) (principal : PrincipalFacts) :
    List RequirementVerdict :=
  require (rule.flags.contains requireSignedCommits) "signed_commits"
    (.hardwareBacked ≤ principal.authentication)
    (ascii "cryptographically signed commits required for protected ref")

/-- The first receipt of a kind for a ref. -/
def matchingReceipt (input : PolicyInputRoot) (kind : EvidenceKind) (refName : RefName) :
    Option EvidenceReceipt :=
  input.receipts.find? fun receipt => receipt.kind = kind && receipt.subject = refName

def codeReview : EvidenceKind := ⟨⟨ascii "code_review", by decide⟩⟩
def mergeQueue : EvidenceKind := ⟨⟨ascii "merge_queue", by decide⟩⟩
def unresolvedFindings : AggregateName := ⟨⟨ascii "unresolved_findings", by decide⟩⟩

/-- A number in decimal. -/
def decimal (n : ℕ) : Bytes := ascii (Nat.repr n)

def codeReviewCheck (rule : ProtectedRefRule) (input : PolicyInputRoot) (refName : RefName) :
    List RequirementVerdict :=
  match rule.reviews with
  | none => []
  | some reviews =>
    match matchingReceipt input codeReview refName with
    | some receipt =>
      [verdict "code_reviews" (receipt.isLiveAt input.instant)
        (ascii "code review evidence receipt is expired")]
    | none =>
      if 0 < reviews.minApprovals then
        [.failed "code_reviews" (ascii "missing required code review approvals (need "
          ++ decimal reviews.minApprovals ++ ascii ")")]
      else []

/-- The status check in a slot. -/
def PolicyInputRoot.statusCheck (input : PolicyInputRoot) (slot : Slot) :
    Option StatusCheckReceipt :=
  (Bisect.search input.statusChecks fun check => compare check.slot slot).bind
    fun index => input.statusChecks[index]?

def maxRequiredChecks : ℕ := 64

/-- The loop over the required checks: the first one that is not met. -/
def statusCheckLoop (display : Display) (input : PolicyInputRoot) (subject : RefUpdateFact)
    (commit : GitOid) : List AsciiSlug → RequirementVerdict
  | [] => .passed "status_checks"
  | name :: rest =>
    match input.statusCheck (toLex (subject.name, toLex (commit, name))) with
    | none =>
      .failed "status_checks" (ascii "missing required CI status check `" ++ name.bytes
        ++ ascii "` for proposed commit " ++ display.oid commit)
    | some receipt =>
      if receipt.isLiveAt input.instant = false then
        .failed "status_checks"
          (ascii "status check evidence receipt is expired or not yet live: `" ++ name.bytes
            ++ ascii "` for " ++ display.oid commit)
      else if receipt.conclusion ≠ .success then
        .failed "status_checks" (ascii "required CI status check `" ++ name.bytes
          ++ ascii "` did not succeed for proposed commit " ++ display.oid commit)
      else statusCheckLoop display input subject commit rest

def statusCheckVerdict (display : Display) (requirement : StatusCheckRequirement)
    (input : PolicyInputRoot) (subject : RefUpdateFact) : RequirementVerdict :=
  if maxRequiredChecks < requirement.requiredChecks.size then
    .failed "status_checks" (ascii "required CI status check count exceeds "
      ++ decimal maxRequiredChecks)
  else
    match subject.next with
    | none => .failed "status_checks" (ascii "required CI status checks need a proposed commit")
    | some commit =>
      statusCheckLoop display input subject commit requirement.requiredChecks.toList

def statusChecksCheck (display : Display) (rule : ProtectedRefRule) (input : PolicyInputRoot)
    (subject : RefUpdateFact) : List RequirementVerdict :=
  match rule.checks with
  | some requirement =>
    if requirement.requiredChecks.isEmpty then []
    else [statusCheckVerdict display requirement input subject]
  | none => []

def mergeQueueCheck (rule : ProtectedRefRule) (input : PolicyInputRoot) (refName : RefName) :
    List RequirementVerdict :=
  if rule.flags.contains requireMergeQueue then
    match matchingReceipt input mergeQueue refName with
    | some receipt =>
      [verdict "merge_queue" (receipt.isLiveAt input.instant)
        (ascii "merge queue integration receipt is expired")]
    | none =>
      [.failed "merge_queue" (ascii "direct push prohibited; update must land via merge queue")]
  else []

/-- An absent reading counts as zero. -/
def findingsCheck (rule : ProtectedRefRule) (input : PolicyInputRoot) : List RequirementVerdict :=
  let count := input.aggregates[unresolvedFindings]?.getD 0
  require (rule.flags.contains blockUnresolvedFindings) "unresolved_findings" (count = 0)
    (ascii "blocked by " ++ decimal count ++ ascii " unresolved security findings")

/-! ### Evaluation -/

structure ProtectedRefEvaluation where
  refName : RefName
  decision : Decision
  isProtected : Bool
  verdicts : List RequirementVerdict
  denialReason : Option Bytes

/-- The verdicts of a rule, in the order of the source. -/
def ruleVerdicts (display : Display) (rule : ProtectedRefRule) (input : PolicyInputRoot)
    (subject : RefUpdateFact) (refName : RefName) : List RequirementVerdict :=
  deletionCheck rule subject ++ creationCheck rule subject ++ forcePushCheck rule subject
    ++ fastForwardCheck rule subject ++ actorCheck display rule input.principal
    ++ principalKindCheck rule input.principal ++ teamCheck rule input.principal
    ++ capabilityCheck rule input.principal ++ authenticationCheck rule input.principal
    ++ signedCommitsCheck rule input.principal ++ codeReviewCheck rule input refName
    ++ statusChecksCheck display rule input subject ++ mergeQueueCheck rule input refName
    ++ findingsCheck rule input

def evaluateProtectedRef (display : Display) (rules : List ProtectedRefRule)
    (input : PolicyInputRoot) (refName : RefName) : ProtectedRefEvaluation :=
  match input.updates.find? fun update => update.name = refName with
  | none =>
    { refName
      decision := .deny
      isProtected := false
      verdicts := [.failed "subject_presence" (ascii "ref name not found in input root updates")]
      denialReason := some (ascii "subject not in input root") }
  | some subject =>
    match rules.find? fun rule => rule.pattern.matchesName refName.bytes with
    | none =>
      { refName
        decision := .allow
        isProtected := false
        verdicts := [.skipped "protection_match"]
        denialReason := none }
    | some rule =>
      let verdicts := ruleVerdicts display rule input subject refName
      let failure := verdicts.findSome? RequirementVerdict.failure
      { refName, verdicts
        decision := if failure.isNone then .allow else .deny
        isProtected := true
        denialReason := failure }

/-! ### Verdicts without a failure -/

/-- No verdict is a failure. -/
def Clean (verdicts : List RequirementVerdict) : Prop := ∀ v ∈ verdicts, v.failure = none

theorem clean_append {vs ws : List RequirementVerdict} :
    Clean (vs ++ ws) ↔ Clean vs ∧ Clean ws := forall_mem_append

variable {checkName : String} {reason : Bytes}

theorem clean_verdict {met : Bool} : Clean [verdict checkName met reason] ↔ met = true := by
  cases met <;> simp [Clean, verdict, RequirementVerdict.failure]

theorem clean_require {applies : Bool} {met : Bool} :
    Clean (require applies checkName met reason) ↔ (applies = true → met = true) := by
  cases applies
  · simp [Clean, require]
  · rw [require, if_pos rfl, clean_verdict]
    simp

theorem not_clean_failed : ¬ Clean [.failed checkName reason] := by
  simp [Clean, RequirementVerdict.failure]

/-! ### What a rule asks for -/

/-- A receipt of the kind for the ref that is live at the input's instant. -/
def LiveReceipt (input : PolicyInputRoot) (kind : EvidenceKind) (refName : RefName)
    (receipt : EvidenceReceipt) : Bool :=
  receipt.kind = kind && receipt.subject = refName && receipt.isLiveAt input.instant

/-- Whether a flag makes a difference to what some request is answered. -/
def Consulted (display : Display) (rule : ProtectedRefRule) (flag : ProtectionBits) : Prop :=
  ∃ input refName, (evaluateProtectedRef display [rule] input refName).decision ≠
    (evaluateProtectedRef display [{ rule with flags := ⟨rule.flags.bits &&& ~~~flag.bits⟩ }] input
      refName).decision

/-- An update meets every requirement of a rule. -/
structure Meets (display : Display) (rule : ProtectedRefRule) (input : PolicyInputRoot)
    (subject : RefUpdateFact) : Prop where
  actors : rule.allowActors.isEmpty = false → input.principal.principal ∈ rule.allowActors
  principalKinds : rule.allowPrincipalKinds.isEmpty = false →
    input.principal.kind ∈ rule.allowPrincipalKinds
  teams : rule.allowTeams.isEmpty = false → ∃ team ∈ rule.allowTeams, team ∈ input.principal.teams
  capabilities : rule.allowCapabilities.isEmpty = false →
    ∃ capability ∈ rule.allowCapabilities, capability ∈ input.principal.capabilities
  authentication : ∀ minAuth, rule.minAuthentication = some minAuth →
    minAuth ≤ input.principal.authentication
  force : subject.forceRequested = true → rule.flags.contains allowForcePush = true
  deletion : subject.kind = .delete → rule.flags.contains allowDeletions = true
  creation : subject.kind = .create → rule.flags.contains allowCreation = true
  fastForward : rule.flags.contains requireFastForward = true →
    subject.kind ≠ .nonFastForward ∧ subject.kind ≠ .unclassifiedUpdate
  reviews : ∀ requirement, rule.reviews = some requirement →
    requirement.minApprovals ≤ input.receipts.countP (LiveReceipt input codeReview subject.name)
  checks : ∀ requirement, rule.checks = some requirement → ∀ name ∈ requirement.requiredChecks,
    ∃ commit, subject.next = some commit ∧ ∃ receipt ∈ input.statusChecks,
      receipt.subject = subject.name ∧ receipt.commit = commit ∧ receipt.name = name
        ∧ receipt.isLiveAt input.instant = true ∧ receipt.conclusion = .success
  mergeQueue : rule.flags.contains requireMergeQueue = true →
    ∃ receipt ∈ input.receipts, LiveReceipt input mergeQueue subject.name receipt = true
  findings : rule.flags.contains blockUnresolvedFindings = true →
    input.aggregates[unresolvedFindings]? = some 0
  signedCommits : rule.flags.contains requireSignedCommits = true →
    .hardwareBacked ≤ input.principal.authentication
  others : ∀ flag ∈ [requireLinearHistory, requireHumanConfirmation],
    rule.flags.contains flag = true → Consulted display rule flag

/-- What the checks do not look at is there or not asked for. -/
structure Covered (rule : ProtectedRefRule) (input : PolicyInputRoot)
    (refName : RefName) : Prop where
  reviews : ∀ requirement, rule.reviews = some requirement →
    requirement.minApprovals ≤ input.receipts.countP (LiveReceipt input codeReview refName)
  findings : rule.flags.contains blockUnresolvedFindings = true →
    unresolvedFindings ∈ input.aggregates
  linearHistory : rule.flags.contains requireLinearHistory = false
  humanConfirmation : rule.flags.contains requireHumanConfirmation = false

/-! ### Soundness, check by check -/

section Checks

variable {display : Display} {rule : ProtectedRefRule} {input : PolicyInputRoot}
  {subject : RefUpdateFact} {refName : RefName}

theorem clean_codeReviewCheck : Clean (codeReviewCheck rule input refName) ↔
    ∀ requirement, rule.reviews = some requirement →
      (∀ receipt, matchingReceipt input codeReview refName = some receipt →
        receipt.isLiveAt input.instant = true) ∧
      (matchingReceipt input codeReview refName = none → requirement.minApprovals = 0) := by
  unfold codeReviewCheck
  cases rule.reviews with
  | none => simp [Clean]
  | some requirement =>
    cases matchingReceipt input codeReview refName with
    | some receipt => simpa using clean_verdict
    | none =>
      rcases Nat.eq_zero_or_pos requirement.minApprovals with hzero | hpos
      · simp [hzero, Clean]
      · simpa [hpos, Nat.ne_of_gt hpos] using not_clean_failed

theorem clean_mergeQueueCheck : Clean (mergeQueueCheck rule input refName) ↔
    (rule.flags.contains requireMergeQueue = true → ∃ receipt,
      matchingReceipt input mergeQueue refName = some receipt ∧
        receipt.isLiveAt input.instant = true) := by
  unfold mergeQueueCheck
  split
  · next hflag =>
    cases matchingReceipt input mergeQueue refName with
    | some receipt => simpa [hflag] using clean_verdict
    | none => simpa [hflag] using not_clean_failed
  · next hflag => simp [Clean, hflag]

theorem fastForwardCheck_clean (h : Clean (fastForwardCheck rule subject))
    (hflag : rule.flags.contains requireFastForward = true) :
    subject.kind ≠ .nonFastForward ∧ subject.kind ≠ .unclassifiedUpdate := by
  rw [fastForwardCheck, if_pos hflag] at h
  constructor
  · intro hkind
    rw [hkind] at h
    exact not_clean_failed h
  · intro hkind
    rw [hkind] at h
    exact not_clean_failed h

theorem statusCheck_some {slot : Slot} {receipt : StatusCheckReceipt}
    (h : input.statusCheck slot = some receipt) :
    receipt ∈ input.statusChecks ∧ receipt.slot = slot := by
  obtain ⟨index, hindex, hrcpt⟩ := Option.bind_eq_some_iff.mp h
  refine ⟨mem_of_getElem? hrcpt, ?_⟩
  have hprobe := Bisect.probe_of_search hindex hrcpt
  exact compare_eq_iff_eq.mp hprobe

theorem statusCheckLoop_clean {commit : GitOid} {names : List AsciiSlug}
    (h : (statusCheckLoop display input subject commit names).failure = none) :
    ∀ name ∈ names, ∃ receipt ∈ input.statusChecks,
      receipt.subject = subject.name ∧ receipt.commit = commit ∧ receipt.name = name
        ∧ receipt.isLiveAt input.instant = true ∧ receipt.conclusion = .success := by
  fun_induction statusCheckLoop display input subject commit names with
  | case1 => exact nofun
  | case2 | case3 | case4 => cases h
  | case5 name rest receipt hrcpt hlive hsuccess ih =>
    obtain ⟨hmem, hslot⟩ := statusCheck_some hrcpt
    simp only [slot, EmbeddingLike.apply_eq_iff_eq, Prod.mk.injEq] at hslot
    refine forall_mem_cons.mpr ⟨⟨receipt, hmem, hslot.1, hslot.2.1, hslot.2.2,
      ?_, not_not.mp hsuccess⟩, ih h⟩
    simpa using hlive

theorem statusChecksCheck_clean {requirement : StatusCheckRequirement}
    (h : Clean (statusChecksCheck display rule input subject))
    (hrule : rule.checks = some requirement) :
    ∀ name ∈ requirement.requiredChecks, ∃ commit, subject.next = some commit
      ∧ ∃ receipt ∈ input.statusChecks, receipt.subject = subject.name ∧ receipt.commit = commit
        ∧ receipt.name = name ∧ receipt.isLiveAt input.instant = true
        ∧ receipt.conclusion = .success := by
  intro name hname
  have hnonempty : requirement.requiredChecks.isEmpty = false :=
    isEmpty_eq_false_iff.mpr fun hempty => eq_empty_iff_forall_not_mem.mp hempty name hname
  simp only [statusChecksCheck, hrule, hnonempty, Bool.false_eq_true, if_false] at h
  have hverdict := h _ (mem_singleton_self _)
  unfold statusCheckVerdict at hverdict
  split at hverdict
  · cases hverdict
  · split at hverdict
    · cases hverdict
    · next commit hcommit =>
      exact ⟨commit, hcommit, statusCheckLoop_clean hverdict name (mem_toList.mpr hname)⟩

theorem findingsCheck_clean (h : Clean (findingsCheck rule input))
    (hflag : rule.flags.contains blockUnresolvedFindings = true)
    (hpresent : unresolvedFindings ∈ input.aggregates) :
    input.aggregates[unresolvedFindings]? = some 0 := by
  have hzero := clean_require.mp h hflag
  obtain ⟨count, hcount⟩ := BTree.mem_iff_get.mp hpresent
  rw [hcount] at hzero ⊢
  simpa using hzero

/-- No check reads the two flags. -/
theorem not_consulted {flag : ProtectionBits}
    (hflag : flag ∈ [requireLinearHistory, requireHumanConfirmation]) :
    ¬ Consulted display rule flag := by
  rintro ⟨input, refName, hne⟩
  -- without the flag, every bit that a check reads is as before
  have hbits : ∀ flag ∈ [requireLinearHistory, requireHumanConfirmation],
      ∀ other ∈ [allowDeletions, allowCreation, allowForcePush, requireFastForward,
        requireSignedCommits, requireMergeQueue, blockUnresolvedFindings],
      ~~~flag.bits &&& other.bits = other.bits := by decide
  have hread : ∀ other ∈ [allowDeletions, allowCreation, allowForcePush, requireFastForward,
      requireSignedCommits, requireMergeQueue, blockUnresolvedFindings],
      ProtectionBits.contains ⟨rule.flags.bits &&& ~~~flag.bits⟩ other
        = rule.flags.contains other := fun other hother => by
    simp only [ProtectionBits.contains, UInt16.and_assoc, hbits flag hflag other hother]
  simp only [forall_mem_cons] at hread
  obtain ⟨hdelete, hcreate, hforce, hforward, hsigned, hqueue, hfindings, -⟩ := hread
  have hverdicts : ∀ subject, ruleVerdicts display
      { rule with flags := ⟨rule.flags.bits &&& ~~~flag.bits⟩ } input subject refName
        = ruleVerdicts display rule input subject refName := fun subject => by
    simp only [ruleVerdicts, deletionCheck, creationCheck, forcePushCheck, fastForwardCheck,
      signedCommitsCheck, mergeQueueCheck, findingsCheck, hdelete, hcreate, hforce, hforward,
      hsigned, hqueue, hfindings]
    rfl
  apply hne
  unfold evaluateProtectedRef
  cases input.updates.find? fun update => update.name = refName with
  | none => rfl
  | some subject =>
    by_cases hmatch : rule.pattern.matchesName refName.bytes = true
    · simp only [find?_cons, hmatch, hverdicts]
    · simp only [find?_cons, hmatch, find?_nil]

end Checks

/-! ### Soundness -/

/-- An update is allowed when its ref is unprotected or has verdicts without a failure. -/
theorem decision_eq_allow {display : Display} {rules : List ProtectedRefRule}
    {input : PolicyInputRoot} {refName : RefName} :
    (evaluateProtectedRef display rules input refName).decision = .allow ↔
      ∃ subject, input.updates.find? (fun update => update.name = refName) = some subject ∧
        ∀ rule, rules.find? (fun rule => rule.pattern.matchesName refName.bytes) = some rule →
          Clean (ruleVerdicts display rule input subject refName) := by
  unfold evaluateProtectedRef
  cases hsubject : input.updates.find? fun update => update.name = refName with
  | none => simp
  | some subject =>
    cases hrule : rules.find? fun rule => rule.pattern.matchesName refName.bytes with
    | none => simp
    | some rule => simp [Clean]

/-- **An allowed update meets the rule**, exactly where the rule is covered. -/
theorem evaluateProtectedRef_sound (display : Display) (rules : List ProtectedRefRule)
    (input : PolicyInputRoot) (refName : RefName) (rule : ProtectedRefRule)
    (hallow : (evaluateProtectedRef display rules input refName).decision = .allow)
    (hrule : rules.find? (fun rule => rule.pattern.matchesName refName.bytes) = some rule) :
    (∃ subject ∈ input.updates, subject.name = refName ∧ Meets display rule input subject) ↔
      Covered rule input refName := by
  obtain ⟨subject, hsubject, hclean⟩ := decision_eq_allow.mp hallow
  replace hclean := hclean rule hrule
  constructor
  · rintro ⟨subject, -, rfl, hmeets⟩
    have hunread : ∀ flag ∈ [requireLinearHistory, requireHumanConfirmation],
        rule.flags.contains flag = false := fun flag hflag =>
      Bool.eq_false_iff.mpr fun hset => not_consulted hflag (hmeets.others flag hflag hset)
    exact ⟨hmeets.reviews, fun h => BTree.mem_iff_get.mpr ⟨0, hmeets.findings h⟩,
      hunread _ mem_cons_self, hunread _ (mem_cons_of_mem _ mem_cons_self)⟩
  intro hcovered
  obtain rfl : subject.name = refName := by simpa using find?_some hsubject
  refine ⟨subject, mem_of_find?_eq_some hsubject, rfl, ?_⟩
  simp only [ruleVerdicts, clean_append] at hclean
  obtain ⟨⟨⟨⟨⟨⟨⟨⟨⟨⟨⟨⟨⟨hdeletion, hcreation⟩, hforce⟩, hfastForward⟩, hactors⟩, hkinds⟩, hteams⟩,
    hcaps⟩, hauth⟩, hsigned⟩, hreviews⟩, hchecks⟩, hqueue⟩, hfindings⟩ := hclean
  exact
    { actors := fun h => by simpa using clean_require.mp hactors (by simp [h])
      principalKinds := fun h => by simpa using clean_require.mp hkinds (by simp [h])
      teams := fun h => by simpa using clean_require.mp hteams (by simp [h])
      capabilities := fun h => by simpa using clean_require.mp hcaps (by simp [h])
      authentication := fun minAuth h => by
        simp only [authenticationCheck, h] at hauth
        exact of_decide_eq_true (clean_verdict.mp hauth)
      force := fun h => clean_require.mp hforce h
      deletion := fun h => clean_require.mp hdeletion (decide_eq_true h)
      creation := fun h => clean_require.mp hcreation (decide_eq_true h)
      fastForward := fastForwardCheck_clean hfastForward
      reviews := hcovered.reviews
      checks := fun requirement h => statusChecksCheck_clean hchecks h
      mergeQueue := fun h => by
        obtain ⟨receipt, hfound, hlive⟩ := clean_mergeQueueCheck.mp hqueue h
        refine ⟨receipt, mem_of_find?_eq_some hfound, ?_⟩
        simpa [LiveReceipt, hlive] using find?_some hfound
      findings := fun h => findingsCheck_clean hfindings h (hcovered.findings h)
      signedCommits := fun h => of_decide_eq_true (clean_require.mp hsigned h)
      others := by simp [hcovered.linearHistory, hcovered.humanConfirmation] }

/-! ### More evidence -/

/-- The request with these receipts. -/
def PolicyInputRoot.withReceipts (input : PolicyInputRoot) (receipts : List EvidenceReceipt)
    (hsorted : receipts.Pairwise (· < ·)) : PolicyInputRoot :=
  { input with receipts := receipts, receipts_sorted := hsorted }

theorem statusCheckLoop_more {input : PolicyInputRoot} {receipts : List EvidenceReceipt}
    (hsorted : receipts.Pairwise (· < ·)) {display : Display} {subject : RefUpdateFact}
    {commit : GitOid} (names : List AsciiSlug) :
    statusCheckLoop display (input.withReceipts receipts hsorted) subject commit names
      = statusCheckLoop display input subject commit names := by
  induction names with
  | nil => rfl
  | cons name rest ih =>
    rw [statusCheckLoop, statusCheckLoop, ih]
    rfl

/-- **More evidence keeps an allowed update allowed**, exactly where the first receipt
of each kind that the rule asks for is live. -/
theorem evaluateProtectedRef_more (display : Display) (rules : List ProtectedRefRule)
    (input : PolicyInputRoot) (receipts : List EvidenceReceipt)
    (hsorted : receipts.Pairwise (· < ·)) (hmore : input.receipts ⊆ receipts) (refName : RefName)
    (hallow : (evaluateProtectedRef display rules input refName).decision = .allow) :
    (evaluateProtectedRef display rules (input.withReceipts receipts hsorted) refName).decision
        = .allow ↔
      ∀ rule, rules.find? (fun rule => rule.pattern.matchesName refName.bytes) = some rule →
        ∀ kind, kind = codeReview ∧ rule.reviews.isSome ∨
            kind = mergeQueue ∧ rule.flags.contains requireMergeQueue = true →
          ∀ receipt,
            receipts.find? (fun receipt => receipt.kind = kind && receipt.subject = refName)
            = some receipt → receipt.isLiveAt input.instant = true := by
  obtain ⟨subject, hsubject, hclean⟩ := decision_eq_allow.mp hallow
  have hnone : ∀ {kind}, matchingReceipt (input.withReceipts receipts hsorted) kind refName = none →
      matchingReceipt input kind refName = none := fun h =>
    find?_eq_none.mpr fun old hold => find?_eq_none.mp h old (hmore hold)
  rw [decision_eq_allow]
  constructor
  · rintro ⟨subject, -, hclean⟩ rule hrule kind hkind receipt hfirst
    have hclean := hclean rule hrule
    simp only [ruleVerdicts, clean_append] at hclean
    obtain ⟨⟨⟨⟨-, hreview⟩, -⟩, hqueue⟩, -⟩ := hclean
    rcases hkind with ⟨rfl, hasks⟩ | ⟨rfl, hasks⟩
    · obtain ⟨requirement, hrequirement⟩ := Option.isSome_iff_exists.mp hasks
      exact (clean_codeReviewCheck.mp hreview requirement hrequirement).1 receipt hfirst
    · obtain ⟨found, hfound, hlive⟩ := clean_mergeQueueCheck.mp hqueue hasks
      cases hfound.symm.trans hfirst
      exact hlive
  intro hlive
  refine ⟨subject, hsubject, fun rule hrule => ?_⟩
  have hclean := hclean rule hrule
  simp only [ruleVerdicts, clean_append, statusChecksCheck, statusCheckVerdict,
    statusCheckLoop_more] at hclean ⊢
  obtain ⟨⟨⟨⟨hothers, hreview⟩, hchecks⟩, hqueue⟩, hfindings⟩ := hclean
  -- only the two checks that read a receipt look at anything new
  refine ⟨⟨⟨⟨hothers, clean_codeReviewCheck.mpr fun requirement hasks => ⟨fun receipt hfirst => ?_,
    fun h => (clean_codeReviewCheck.mp hreview requirement hasks).2 (hnone h)⟩⟩, hchecks⟩,
    clean_mergeQueueCheck.mpr fun hasks => ?_⟩, hfindings⟩
  · exact hlive rule hrule codeReview (.inl ⟨rfl, hasks ▸ rfl⟩) receipt hfirst
  · cases hfirst : matchingReceipt (input.withReceipts receipts hsorted) mergeQueue refName with
    | some receipt =>
      exact ⟨receipt, rfl, hlive rule hrule mergeQueue (.inr ⟨rfl, hasks⟩) receipt hfirst⟩
    | none =>
      obtain ⟨_, hold, -⟩ := clean_mergeQueueCheck.mp hqueue hasks
      cases hold.symm.trans (hnone hfirst)

/-! ### A branch that asks for reviews -/

/-- A rule for every ref that asks for reviews. -/
def reviewRule (minApprovals : ℕ) : ProtectedRefRule where
  pattern := ⟨ascii "**", [], true⟩
  allowActors := ∅
  allowPrincipalKinds := ∅
  allowTeams := ∅
  allowCapabilities := ∅
  minAuthentication := none
  reviews := some ⟨minApprovals⟩
  checks := none
  flags := requireFastForward

/-- A fast forward of the branch that one reviewer has approved. -/
def reviewedRequest : PolicyInputRoot :=
  { branchRequest (branchUpdate .fastForward nofun nofun) with
    receipts := [⟨codeReview, ⟨⟨ascii "reviewer", by decide⟩⟩, branchName, 50, 150, by decide⟩]
    receipts_sorted := pairwise_singleton _ _ }

/-- **One approval is enough where two are asked for.** -/
theorem allowed_below_min_approvals :
    RefPattern.compile (ascii "**") = .ok (reviewRule 2).pattern
      ∧ (evaluateProtectedRef byteDisplay
        [reviewRule 2] reviewedRequest branchName).decision = .allow
      ∧ [reviewRule 2].find? (fun rule => rule.pattern.matchesName branchName.bytes)
        = some (reviewRule 2)
      ∧ ∀ subject ∈ reviewedRequest.updates,
        ¬ Meets byteDisplay (reviewRule 2) reviewedRequest subject := by
  refine ⟨by decide +kernel, by decide +kernel, rfl, fun subject hsubject hmeets => ?_⟩
  have hcount := hmeets.reviews _ rfl
  have hone : reviewedRequest.receipts.countP (LiveReceipt reviewedRequest codeReview subject.name)
      ≤ 1 := countP_le_length
  exact absurd (hcount.trans hone) (by decide)

/-- An approval of the branch by the reviewer. -/
def approval (issuedAt expiresAt : PolicyInstant) (window : issuedAt < expiresAt) :
    EvidenceReceipt :=
  ⟨codeReview, ⟨⟨ascii "reviewer", by decide⟩⟩, branchName, issuedAt, expiresAt, window⟩

theorem approvals_sorted {first last first' last' : PolicyInstant} (window : first < last)
    (window' : first' < last') (h : first < first') :
    [approval first last window, approval first' last' window'].Pairwise (· < ·) := by
  refine pairwise_pair.mpr ?_
  show EvidenceReceipt.key _ < EvidenceReceipt.key _
  simp [EvidenceReceipt.key, approval, Prod.Lex.toLex_lt_toLex, h]

/-- Two approvals, where two are asked for. -/
theorem evaluateProtectedRef_sound_twice :
    ∃ subject ∈ reviewedRequest.updates, subject.name = branchName ∧
      Meets byteDisplay (reviewRule 2) (reviewedRequest.withReceipts
        [approval 50 150 (by decide), approval 60 160 (by decide)]
        (approvals_sorted _ _ (by decide))) subject :=
  (evaluateProtectedRef_sound byteDisplay [reviewRule 2] (reviewedRequest.withReceipts
    [approval 50 150 (by decide), approval 60 160 (by decide)] (approvals_sorted _ _ (by decide)))
    branchName (reviewRule 2) (by decide +kernel) (by rfl)).mpr
    ⟨fun _ h => by cases h; exact (by decide +kernel),
      fun h => absurd h (by decide), rfl, rfl⟩

/-- A stale approval is no harm behind one that is live. -/
theorem evaluateProtectedRef_more_later :
    (evaluateProtectedRef byteDisplay [reviewRule 1] (reviewedRequest.withReceipts
      [approval 50 150 (by decide), approval 60 70 (by decide)]
      (approvals_sorted _ _ (by decide))) branchName).decision = .allow := by
  refine (evaluateProtectedRef_more byteDisplay [reviewRule 1] reviewedRequest _
    (approvals_sorted _ _ (by decide)) (subset_append_left [_] [_]) branchName
    (by decide +kernel)).mpr fun rule hrule kind hkind receipt hfirst => ?_
  obtain rfl : reviewRule 1 = rule := Option.some.inj hrule
  rcases hkind with ⟨rfl, -⟩ | ⟨-, hqueue⟩
  · obtain rfl := Option.some.inj hfirst
    rfl
  · cases hqueue

/-- **A stale receipt cancels a live one**: the reviewer's approval has expired
and was given again. -/
theorem stale_receipt_cancels :
    (evaluateProtectedRef byteDisplay [reviewRule 1] reviewedRequest branchName).decision = .allow
      ∧ reviewedRequest.receipts ⊆ [approval 10 20 (by decide), approval 50 150 (by decide)]
      ∧ (evaluateProtectedRef byteDisplay [reviewRule 1] (reviewedRequest.withReceipts
        [approval 10 20 (by decide), approval 50 150 (by decide)]
        (approvals_sorted _ _ (by decide))) branchName).decision = .deny :=
  ⟨by decide +kernel, subset_append_right [_] [_], by decide +kernel⟩

end Frankengit.Policy
