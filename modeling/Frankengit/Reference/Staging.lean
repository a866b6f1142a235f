/-
Frankengit/Reference/Staging.lean

The staging loop, inverted.

Staging decides the selected capsules one after the other against the roots
the earlier ones left.  `CapsuleStep` lists what one turn of that loop can
do, with every check it passed, and `StageRun.induct` carries an invariant
of the consumed capsules through the loop.  The results about decisions,
admission, serializability and policy are all obtained from these two.
-/
import Frankengit.Reference.HeadChain

namespace Frankengit.Reference

open Fallible List

/-! ### Deciding a capsule -/

/-- What a capsule that may commit has passed. -/
structure Accepted (s : RepositoryState) (roots : RepositoryRoots) (capsule : PreparedTxnCapsule)
    (effects : NetEffects) : Prop where
  undecided : s.outcomeOf capsule.txId = none
  verdict : capsule.verdict = .commit effects
  epoch : capsule.witness.policyEpoch = s.head.body.configuration.epoch
  reads : capsule.witness.refinedReadsHold roots = true

variable {s : RepositoryState} {capsule : PreparedTxnCapsule} {roots : RepositoryRoots}

theorem decideAgainst_commit {generation : HeadGeneration} {effects : NetEffects}
    (h : decideAgainst s capsule roots generation = .commit effects) :
    Accepted s roots capsule effects := by
  unfold decideAgainst at h
  split at h
  · cases h
  next hundec =>
  split at h
  · cases h
  next verdict hverdict =>
  dsimp only at h
  split at h
  · split at h <;> cases h
  next hepoch =>
  split at h
  · next hreusable =>
    cases h
    refine ⟨hundec, hverdict, not_not.mp hepoch, ?_⟩
    -- both granularities check the recorded reads
    unfold ConflictWitness.isReusableAgainst at hreusable
    rw [if_neg hepoch] at hreusable
    split at hreusable
    · exact (Bool.and_eq_true_iff.mp hreusable).2
    · exact hreusable
  · split at h <;> cases h

/-! ### One turn of the loop -/

theorem reserveDecisionSequence_eq_ok {draft draft' : DecisionBatchDraft} {txId : TxId}
    {sequence : DecisionSequence}
    (h : draft.reserveDecisionSequence txId = .ok (draft', sequence)) :
    txId ∉ draft.seen ∧ sequence = draft.nextDecisionSequence ∧
      ∃ following, draft.nextDecisionSequence.next = some following ∧ draft' = { draft with
          seen := draft.seen.insert txId, nextDecisionSequence := following } := by
  simp only [DecisionBatchDraft.reserveDecisionSequence, throwIf_eq_ok, bind_eq_ok, pure_eq_ok,
    Prod.mk.injEq] at h
  obtain ⟨hunseen, following, hnext, rfl, rfl⟩ := h
  exact ⟨hunseen, rfl, following, nextOr_eq_ok.mp hnext, rfl⟩

/-- The progress after recording a decision and its outcome. -/
def StageProgress.decide (p : StageProgress) (txId : TxId) (outcome : DecisionOutcome)
    (following : DecisionSequence) : StageProgress :=
  { p with
    draft := { p.draft with
      seen := p.draft.seen.insert txId
      nextDecisionSequence := following
      decisions := p.draft.decisions ++ [⟨txId, p.draft.nextDecisionSequence, outcome⟩] }
    scratch := p.scratch.withOutcome txId outcome }

/-- The progress after recording a commit on top of its decision. -/
def StageProgress.commit (p : StageProgress) (s : RepositoryState) (capsule : PreparedTxnCapsule)
    (id : RepositoryCommitId) (effects : NetEffects) (scratch : RepositoryRoots)
    (following : DecisionSequence) (followingRepository : RepositorySequence) : StageProgress :=
  let record := (commitCandidate s capsule id effects scratch).record
    p.draft.nextRepositorySequence p.draft.parentCommit
  let decided := { p with scratch := scratch }.decide capsule.txId (.committed id) following
  { decided with
    draft := { decided.draft with
      nextRepositorySequence := followingRepository
      parentCommit := some id
      committed := p.draft.committed ++ [record] }
    committedTransactions := p.committedTransactions ++ [capsule.txId] }

/-- Everything one turn of the staging loop can do. -/
inductive CapsuleStep (s : RepositoryState) (input : StageRequest) (p : StageProgress)
    (capsule : PreparedTxnCapsule) : StageProgress → Prop
  | deferred (reason : RepreparationReason)
      (verdict : decideAgainst s capsule p.scratch s.head.body.generation
        = .requiresRepreparation reason) :
      CapsuleStep s input p capsule
        { p with deferred := p.deferred ++ [(capsule.txId, reason)] }
  | refused (code : RefusalCode) (refusal : RefusalRecordId) (following : DecisionSequence)
      (undecided : s.outcomeOf capsule.txId = none)
      (unseen : capsule.txId ∉ p.draft.seen)
      (next : p.draft.nextDecisionSequence.next = some following)
      (verdict : decideAgainst s capsule p.scratch s.head.body.generation = .refuse code) :
      CapsuleStep s input p capsule (p.decide capsule.txId (.refused code refusal) following)
  | committed (bodies : DecisionBodyIdentity) (effects : NetEffects) (scratch : RepositoryRoots)
      (following : DecisionSequence) (followingRepository : RepositorySequence)
      (found : input.bodies[capsule.txId]? = some bodies)
      (accepted : Accepted s p.scratch capsule effects)
      (apply : applyEffects p.scratch effects = .ok scratch)
      (unseen : capsule.txId ∉ p.draft.seen)
      (next : p.draft.nextDecisionSequence.next = some following)
      (nextRepository : p.draft.nextRepositorySequence.next = some followingRepository)
      (verdict : decideAgainst s capsule p.scratch s.head.body.generation = .commit effects) :
      CapsuleStep s input p capsule
        (p.commit s capsule bodies.commit effects scratch following followingRepository)

theorem stageCapsule_step {input : StageRequest} {p p' : StageProgress}
    (h : stageCapsule s input p capsule = .ok p') : CapsuleStep s input p capsule p' := by
  unfold stageCapsule at h
  dsimp only at h
  split at h
  · cases h
  next hundec =>
  have hundec : s.outcomeOf capsule.txId = none := Option.eq_none_iff_forall_ne_some.mpr
    fun existing he => hundec existing he
  split at h
  · cases h
  next bodies hbodies =>
  split at h
  · cases h
  · next reason hverdict =>
    cases h
    exact .deferred reason hverdict
  · next code hverdict =>
    simp only [DecisionBatchDraft.pushRefusal, bind_eq_ok, pure_eq_ok] at h
    obtain ⟨draft, hpush, rfl⟩ := h
    split at hpush
    · cases hpush
    simp only [bind_eq_ok, pure_eq_ok] at hpush
    obtain ⟨⟨reserved, sequence⟩, hreserve, rfl⟩ := hpush
    obtain ⟨hunseen, rfl, following, hnext, rfl⟩ := reserveDecisionSequence_eq_ok hreserve
    exact .refused code bodies.refusalRecord following hundec hunseen hnext hverdict
  · next effects hverdict =>
    simp only [DecisionBatchDraft.pushCommit, bind_eq_ok, pure_eq_ok] at h
    obtain ⟨scratch, happly, draft, hpush, rfl⟩ := h
    obtain ⟨⟨reserved, sequence⟩, hreserve, followingRepository, hrepo, rfl⟩ := hpush
    obtain ⟨hunseen, rfl, following, hnext, rfl⟩ := reserveDecisionSequence_eq_ok hreserve
    exact .committed bodies effects scratch following followingRepository hbodies
      (decideAgainst_commit hverdict) happly hunseen hnext (nextOr_eq_ok.mp hrepo) hverdict

/-! ### The whole loop -/

/-- The draft a batch starts from, spelled out. -/
structure Opened (s : RepositoryState) (draft : DecisionBatchDraft) : Prop where
  decision : s.head.body.nextDecisionSequence = .ok draft.nextDecisionSequence
  first : draft.firstDecisionSequence = draft.nextDecisionSequence
  repository : s.head.body.nextRepositorySequence = .ok draft.nextRepositorySequence
  parentCommit : draft.parentCommit = s.head.body.latestCommittedRcr
  seen : draft.seen = ∅
  decisions : draft.decisions = []
  committed : draft.committed = []

namespace StageRun

variable {s : RepositoryState} {input : StageRequest} {x : StagedBatch}
variable (attempt : StageRun s input x)

theorem opened : Opened s attempt.draft := by
  have h := attempt.open
  simp only [openDraft, bind_eq_ok, pure_eq_ok] at h
  obtain ⟨decision, hdec, repository, hrepo, h⟩ := h
  rw [← h]
  exact ⟨hdec, rfl, hrepo, rfl, rfl, rfl, rfl⟩

/-- Every selected capsule is held by the state. -/
theorem mem_selected (h : capsule ∈ attempt.selected) :
    ∃ id : PreparedTxnCapsuleId, s.capsules[id]? = some capsule := by
  have hselect := attempt.select
  simp only [selectCapsules, bind_eq_ok, pure_eq_ok] at hselect
  obtain ⟨found, hfound, hsorted⟩ := hselect
  rw [← hsorted, mem_insertionSort] at h
  obtain ⟨id, -, hid⟩ := mapM_ok_forall hfound capsule h
  refine ⟨id, ?_⟩
  split at hid
  · next hget => rw [hget, Except.ok.inj hid]
  · cases hid

/-- An invariant of the consumed capsules holds where the loop ends. -/
theorem induct {P : List PreparedTxnCapsule → StageProgress → Prop}
    (init : P [] ⟨attempt.draft, s.head.body.roots, [], []⟩)
    (step : ∀ done capsule p p', capsule ∈ attempt.selected → P done p →
      CapsuleStep s input p capsule p' → P (done ++ [capsule]) p') :
    P attempt.selected attempt.progress :=
  foldlM_induction attempt.loop init fun done capsule p p' hmem hP hstep =>
    step done capsule p p' hmem hP (stageCapsule_step hstep)

/-- The batch is the finished draft. -/
theorem batch_eq : x.batch.decisions = attempt.progress.draft.decisions ∧
      x.batch.committed = attempt.progress.draft.committed ∧
      x.batch.resulting = attempt.progress.scratch := by
  have h := attempt.finish
  rw [DecisionBatchDraft.finish, ite_error_eq_ok] at h
  rw [← Except.ok.inj h.2]
  exact ⟨rfl, rfl, rfl⟩

end StageRun

/-! ### Where the committed records come from -/

/-- A committed record: the held capsule it was made from, accepted against
the roots `mid` its predecessors in the batch left, and the roots `after` it
leaves. -/
structure CommitOrigin (s : RepositoryState) (mid : RepositoryRoots)
    (capsule : PreparedTxnCapsule) (record : RepositoryCommitRecord) (after : RepositoryRoots) :
    Prop where
  held : ∃ id : PreparedTxnCapsuleId, s.capsules[id]? = some capsule
  accepted : Accepted s mid capsule record.effects
  apply : applyEffects mid record.effects = .ok after
  txId : record.txId = capsule.txId
  closure : record.objectClosure = capsule.objectClosure
  digest : record.canonicalRequestDigest = capsule.canonicalRequestDigest
  refs : record.resultingRefs = after.refs

/-- The committed records of a batch, each on top of the roots the earlier
ones left.  Recording outcomes does not count as a change here. -/
inductive CommitTrace (s : RepositoryState) (roots : RepositoryRoots) :
    List RepositoryCommitRecord → RepositoryRoots → Prop
  | start {now : RepositoryRoots} (same : now.basis = roots.basis) : CommitTrace s roots [] now
  | commit {records : List RepositoryCommitRecord} {mid after now : RepositoryRoots}
      {capsule : PreparedTxnCapsule} {record : RepositoryCommitRecord}
      (trace : CommitTrace s roots records mid)
      (origin : CommitOrigin s mid capsule record after) (same : now.basis = after.basis) :
      CommitTrace s roots (records ++ [record]) now

theorem CommitTrace.of_basis {now now' : RepositoryRoots} {records : List RepositoryCommitRecord}
    (h : CommitTrace s roots records now) (hbasis : now'.basis = now.basis) :
    CommitTrace s roots records now' := by
  cases h with
  | start same => exact .start (hbasis.trans same)
  | commit trace origin same => exact .commit trace origin (hbasis.trans same)

/-- Every committed record has its origin. -/
theorem CommitTrace.origin_of_mem {now : RepositoryRoots} {records : List RepositoryCommitRecord}
    (h : CommitTrace s roots records now) {record : RepositoryCommitRecord}
    (hrec : record ∈ records) : ∃ mid capsule after, CommitOrigin s mid capsule record after := by
  induction h with
  | start => simp at hrec
  | commit trace origin same ih =>
    rcases mem_append.mp hrec with hrec | hrec
    · exact ih hrec
    · rw [mem_singleton.mp hrec]
      exact ⟨_, _, _, origin⟩

theorem StageRun.trace {input : StageRequest} {x : StagedBatch} (attempt : StageRun s input x) :
    CommitTrace s s.head.body.roots x.batch.committed x.batch.resulting := by
  obtain ⟨-, hcommitted, hresulting⟩ := attempt.batch_eq
  rw [hcommitted, hresulting]
  refine attempt.induct
    (P := fun _ p => CommitTrace s s.head.body.roots p.draft.committed p.scratch)
    ?_ fun done capsule p p' hmem htrace hstep => ?_
  · rw [attempt.opened.committed]
    exact .start rfl
  · cases hstep with
    | deferred => exact htrace
    | refused => exact htrace.of_basis rfl
    | committed bodies effects scratch following followingRepository hfound hacc happly =>
      exact .commit htrace ⟨attempt.mem_selected hmem, hacc, happly, rfl, rfl, rfl, rfl⟩ rfl

end Frankengit.Reference
