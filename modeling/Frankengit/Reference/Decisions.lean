/-
Frankengit/Reference/Decisions.lean

The decision log.

Abstractly a repository is a log of decisions with a log of commits and an
index of outcomes (`DecisionLog`); a transaction is decided by appending one
decision, and a commit appends one record with it.  `WellFormed` says what
such a log is and is closed under the two ways of appending.

The staging loop appends to a *copy* of that log (`Extending`), and the
compare-and-swap installs the copy.  What ties the two moments together is
`swap_staged_here`: the batch was staged on the head it replaces, and a head
determines how long the log under it is (`Took.log_eq`), so the copy
is a copy of the current log.
-/
import Frankengit.Lib.Log
import Frankengit.Reference.Staging

namespace Frankengit.Reference

open Fallible List Counter PublishedDecision Log Option

/-! ### Decision logs -/

/-- The transaction and commit a decision records, when it commits. -/
def PublishedDecision.committedAs (decision : PublishedDecision) :
    Option (TxId × RepositoryCommitId) :=
  match decision.outcome with
  | .committed id => some (decision.txId, id)
  | .refused _ _ => none

/-- Decisions, the commits among them and the outcome of each transaction. -/
structure DecisionLog where
  decisions : List PublishedDecision
  commits : List RepositoryCommitRecord
  outcomes : BTreeMap TxId DecisionOutcome

namespace DecisionLog

structure WellFormed (log : DecisionLog) : Prop where
  indexed : Indexed txId outcome log.outcomes log.decisions
  numbered : Numbered (log.decisions.map (·.decisionSequence.val))
  commitsNumbered : Numbered (log.commits.map (·.repositorySequence.val))
  matched : log.commits.map (fun record => (record.txId, record.id))
    = log.decisions.filterMap (·.committedAs)
  parented : Parented RepositoryCommitRecord.id RepositoryCommitRecord.parent log.commits

variable {log : DecisionLog} {txId : TxId} {sequence : DecisionSequence}

/-- Deciding a new transaction against it. -/
theorem WellFormed.refuse (h : log.WellFormed) (hfresh : txId ∉ log.decisions.map (·.txId))
    (hseq : sequence.val = log.decisions.length + 1) (code : RefusalCode)
    (refusal : RefusalRecordId) : WellFormed
      ⟨log.decisions ++ [⟨txId, sequence, .refused code refusal⟩], log.commits,
        log.outcomes.insert txId (.refused code refusal)⟩ where
  indexed := h.indexed.snoc (x := ⟨txId, sequence, .refused code refusal⟩) hfresh
  numbered := by
    rw [map_append]
    exact h.numbered.snoc (by simpa using hseq)
  commitsNumbered := h.commitsNumbered
  matched := by
    rw [filterMap_append, ← h.matched]
    simp [committedAs]
  parented := h.parented

/-- Deciding a new transaction in its favour. -/
theorem WellFormed.commit (h : log.WellFormed) (record : RepositoryCommitRecord)
    (hfresh : record.txId ∉ log.decisions.map (·.txId))
    (hseq : sequence.val = log.decisions.length + 1)
    (hrepo : record.repositorySequence.val = log.commits.length + 1)
    (hpar : record.parent = log.commits.getLast?.map (·.id)) : WellFormed
      ⟨log.decisions ++ [⟨record.txId, sequence, .committed record.id⟩], log.commits ++ [record],
        log.outcomes.insert record.txId (.committed record.id)⟩ where
  indexed := h.indexed.snoc (x := ⟨record.txId, sequence, .committed record.id⟩) hfresh
  numbered := by
    rw [map_append]
    exact h.numbered.snoc (by simpa using hseq)
  commitsNumbered := by
    rw [map_append]
    exact h.commitsNumbered.snoc (by simpa using hrepo)
  matched := by
    rw [map_append, filterMap_append, ← h.matched]
    simp [committedAs]
  parented := h.parented.snoc hpar

end DecisionLog

/-- The log a state has published. -/
def RepositoryState.log (s : RepositoryState) : DecisionLog :=
  ⟨s.decisions, s.commits, s.head.body.roots.outcomeIndex⟩

/-- The published log is well formed and the head names its last elements. -/
structure LogPublished (s : RepositoryState) : Prop where
  log : s.log.WellFormed
  lastDecision : s.head.body.latestDecisionSequence = s.decisions.getLast?.map (·.decisionSequence)
  lastCommit : s.head.body.latestCommittedRcr = s.commits.getLast?.map (·.id)
  lastRepository : s.head.body.latestRepositorySequence
    = s.commits.getLast?.map (·.repositorySequence)

theorem LogPublished.genesis (configuration : GenesisConfiguration) :
    LogPublished (.genesis configuration) where
  log :=
    { indexed := Log.Indexed.nil
      numbered := Log.Numbered.nil
      commitsNumbered := Log.Numbered.nil
      matched := rfl
      parented := Log.Parented.nil }
  lastDecision := rfl
  lastCommit := rfl
  lastRepository := rfl

/-! ### The next number -/

/-- The counter `c` comes after `latest`, or is the first when there is none. -/
def Follows {kind : CounterKind} (latest : Option (Counter kind)) (c : Counter kind) : Prop :=
  latest.elim (c = .first) fun latest => latest.next = some c

theorem nextDecisionSequence_follows {body : AuthorityHeadBody} {c : DecisionSequence}
    (h : body.nextDecisionSequence = .ok c) : Follows body.latestDecisionSequence c := by
  unfold AuthorityHeadBody.nextDecisionSequence at h
  cases hlatest : body.latestDecisionSequence with
  | none => rw [hlatest] at h; exact (Except.ok.inj h).symm
  | some latest => rw [hlatest] at h; exact nextOr_eq_ok.mp h

theorem nextRepositorySequence_follows {body : AuthorityHeadBody} {c : RepositorySequence}
    (h : body.nextRepositorySequence = .ok c) : Follows body.latestRepositorySequence c := by
  unfold AuthorityHeadBody.nextRepositorySequence at h
  cases hlatest : body.latestRepositorySequence with
  | none => rw [hlatest] at h; exact (Except.ok.inj h).symm
  | some latest => rw [hlatest] at h; exact nextOr_eq_ok.mp h

/-- The last of a numbered log carries the log's length. -/
theorem last_of_numbered {α : Type} {kind : CounterKind} {l : List α} {number : α → Counter kind}
    (h : Numbered (l.map fun a => (number a).val)) :
    l.length = (l.getLast?.map number).elim 0 val := by
  cases hlast : l.getLast? with
  | none => simp [getLast?_eq_none_iff.mp hlast]
  | some a =>
    have hval := h.getLast (n := (number a).val) (by rw [getLast?_map, hlast]; rfl)
    rw [length_map] at hval
    exact hval.symm

/-- What follows the last of a numbered log is its length plus one. -/
theorem next_of_numbered {α : Type} {kind : CounterKind} {l : List α} {number : α → Counter kind}
    (h : Numbered (l.map fun a => (number a).val)) {c : Counter kind}
    (hc : Follows (l.getLast?.map number) c) : c.val = l.length + 1 := by
  rw [last_of_numbered h]
  cases hlast : l.getLast? with
  | none => rw [hlast] at hc; exact congrArg val hc
  | some a => rw [hlast] at hc; exact next_eq_some.mp hc

namespace LogPublished

variable {s : RepositoryState}

variable (h : LogPublished s)
include h

theorem nextDecisionSequence {c : DecisionSequence}
    (hc : s.head.body.nextDecisionSequence = .ok c) : c.val = s.decisions.length + 1 :=
  next_of_numbered h.log.numbered (h.lastDecision ▸ nextDecisionSequence_follows hc)

theorem nextRepositorySequence {c : RepositorySequence}
    (hc : s.head.body.nextRepositorySequence = .ok c) : c.val = s.commits.length + 1 :=
  next_of_numbered h.log.commitsNumbered (h.lastRepository ▸ nextRepositorySequence_follows hc)

/-- The head determines how many decisions lie under it. -/
theorem length_decisions : s.decisions.length = s.head.body.latestDecisionSequence.elim 0 val := by
  rw [h.lastDecision]
  exact last_of_numbered h.log.numbered

/-- The head determines how many commits lie under it. -/
theorem length_commits : s.commits.length = s.head.body.latestRepositorySequence.elim 0 val := by
  rw [h.lastRepository]
  exact last_of_numbered h.log.commitsNumbered

end LogPublished

/-! ### The staging loop extends a copy of the log -/

/-- Where the loop stands, its draft continues the published log. -/
structure Extending (s : RepositoryState) (p : StageProgress) : Prop where
  log : DecisionLog.WellFormed
    ⟨s.decisions ++ p.draft.decisions, s.commits ++ p.draft.committed, p.scratch.outcomeIndex⟩
  next : p.draft.nextDecisionSequence.val = (s.decisions ++ p.draft.decisions).length + 1
  nextRepository : p.draft.nextRepositorySequence.val = (s.commits ++ p.draft.committed).length + 1
  parent : p.draft.parentCommit = (s.commits ++ p.draft.committed).getLast?.map (·.id)
  seen : ∀ decision ∈ p.draft.decisions, decision.txId ∈ p.draft.seen

theorem applyEffects_outcomeIndex {roots roots' : RepositoryRoots} {effects : NetEffects}
    (h : applyEffects roots effects = .ok roots') : roots'.outcomeIndex = roots.outcomeIndex := by
  simp only [applyEffects, bind_eq_ok, pure_eq_ok] at h
  obtain ⟨positions, -, rfl⟩ := h
  rfl

namespace Extending

variable {s : RepositoryState} {p : StageProgress} {txId : TxId}

/-- A transaction the state has not decided and the draft has not seen is
new to the extended log. -/
theorem fresh (h : Extending s p) (hs : LogPublished s) (hundec : s.outcomeOf txId = none)
    (hunseen : txId ∉ p.draft.seen) : txId ∉ (s.decisions ++ p.draft.decisions).map (·.txId) := by
  rw [map_append, mem_append]
  rintro (hold | hnew)
  · exact hs.log.indexed.get_eq_none.mp hundec hold
  · obtain ⟨decision, hmem, rfl⟩ := List.mem_map.mp hnew
    exact hunseen (h.seen decision hmem)

theorem seen_insert (h : Extending s p) (sequence : DecisionSequence) (outcome : DecisionOutcome) :
    ∀ decision ∈ p.draft.decisions ++ [⟨txId, sequence, outcome⟩],
      decision.txId ∈ p.draft.seen.insert txId := by
  simp only [BTree.mem_insert]
  exact forall_mem_append.mpr ⟨fun decision hmem => .inr (h.seen decision hmem),
    forall_mem_singleton.mpr (.inl rfl)⟩

theorem step {input : StageRequest} {capsule : PreparedTxnCapsule} {p' : StageProgress}
    (hs : LogPublished s) (h : Extending s p) (hstep : CapsuleStep s input p capsule p') :
    Extending s p' := by
  cases hstep with
  | deferred => exact ⟨h.log, h.next, h.nextRepository, h.parent, h.seen⟩
  | refused code refusal following hundec hunseen hnext =>
    have hlog := h.log.refuse (h.fresh hs hundec hunseen) h.next code refusal
    refine ⟨?_, ?_, h.nextRepository, h.parent, h.seen_insert _ _⟩
    · rw [append_assoc] at hlog
      exact hlog
    · show following.val = (s.decisions ++ (p.draft.decisions ++ [_])).length + 1
      rw [next_eq_some.mp hnext, h.next]
      simp [Nat.add_assoc]
  | committed bodies effects scratch following followingRepository hfound hacc happly hunseen
      hnext hnextRepo =>
      have hlog := h.log.commit ((commitCandidate s capsule bodies.commit effects scratch).record
          p.draft.nextRepositorySequence p.draft.parentCommit)
        (h.fresh hs hacc.undecided hunseen) h.next h.nextRepository h.parent
      refine ⟨?_, ?_, ?_, ?_, h.seen_insert _ _⟩
      · rw [append_assoc, append_assoc] at hlog
        -- the effects leave the outcome index alone
        rw [← applyEffects_outcomeIndex happly] at hlog
        exact hlog
      · show following.val = (s.decisions ++ (p.draft.decisions ++ [_])).length + 1
        rw [next_eq_some.mp hnext, h.next]
        simp [Nat.add_assoc]
      · show followingRepository.val = (s.commits ++ (p.draft.committed ++ [_])).length + 1
        rw [next_eq_some.mp hnextRepo, h.nextRepository]
        simp [Nat.add_assoc]
      · show some bodies.commit = (s.commits ++ (p.draft.committed ++ [_])).getLast?.map _
        rw [← append_assoc, getLast?_concat]
        rfl

end Extending

theorem StageRun.extending {s : RepositoryState} {input : StageRequest} {x : StagedBatch}
    (attempt : StageRun s input x) (hs : LogPublished s) : Extending s attempt.progress := by
  have hopen := attempt.opened
  refine attempt.induct (P := fun _ p => Extending s p) ?_ fun _ _ _ _ _ h hstep => h.step hs hstep
  refine ⟨?_, ?_, ?_, ?_, ?_⟩
  · rw [hopen.decisions, hopen.committed, append_nil, append_nil]
    exact hs.log
  · simpa [hopen.decisions] using hs.nextDecisionSequence hopen.decision
  · simpa [hopen.committed] using hs.nextRepositorySequence hopen.repository
  · simpa [hopen.committed, hopen.parentCommit] using hs.lastCommit
  · simp [hopen.decisions]

/-! ### The log only grows -/

/-- Decisions and commits of the first state begin those of the second. -/
def LogExtends (s s' : RepositoryState) : Prop :=
  s.decisions <+: s'.decisions ∧ s.commits <+: s'.commits

theorem Moves.logExtends {s s' : RepositoryState} {i : ModelInput} (m : Moves s i s') :
    LogExtends s s' := by
  cases m with
  | stays | sealed | quarantined | prepared | staged | configured | cancelled =>
    exact ⟨prefix_refl _, prefix_refl _⟩
  | swapped input x guards =>
    rw [installBatch_eq]
    exact ⟨prefix_append _ _, prefix_append _ _⟩

theorem log_persists (configuration : GenesisConfiguration) (done rest : List ModelInput) :
    LogExtends (run configuration done) (run configuration (done ++ rest)) := by
  unfold run
  rw [Run.exec_append]
  exact Run.exec_mono (I := fun _ => True) (fun _ => ⟨prefix_refl _, prefix_refl _⟩)
    (fun hab hbc => ⟨hab.1.trans hbc.1, hab.2.trans hbc.2⟩) (fun _ _ _ => trivial)
    (fun s i _ => (next_moves s i).logExtends) trivial rest

section Runs

variable {configuration : GenesisConfiguration}

/-- An earlier state of the run under the same head has the same log. -/
theorem Took.log_eq {inputs : List ModelInput} {before : RepositoryState} {i : ModelInput}
    (h : Took configuration inputs before i) (hbefore : LogPublished before)
    (hnow : LogPublished (run configuration inputs))
    (hhead : before.head = (run configuration inputs).head) :
    before.decisions = (run configuration inputs).decisions ∧
      before.commits = (run configuration inputs).commits := by
  have hextends : LogExtends before (run configuration inputs) := by
    obtain ⟨done, rest, rfl, rfl⟩ := h.exists_run
    exact log_persists configuration done (i :: rest)
  constructor
  · refine hextends.1.eq_of_length ?_
    rw [hbefore.length_decisions, hnow.length_decisions, hhead]
  · refine hextends.2.eq_of_length ?_
    rw [hbefore.length_commits, hnow.length_commits, hhead]

/-- Installing a batch that extends the published log publishes the extended
log. -/
theorem LogPublished.install {s before : RepositoryState} {request : StageRequest}
    {x : StagedBatch} (attempt : StageRun before request x) (hbefore : LogPublished before)
    (hs : LogPublished s) (hhead : before.head = s.head)
    (hdecs : before.decisions = s.decisions) (hcoms : before.commits = s.commits)
    (batchId : RepositoryDecisionBatchId) : LogPublished (installBatch s batchId x) := by
  have hextending := attempt.extending hbefore
  obtain ⟨hbatch, hcommitted, hresulting⟩ := attempt.batch_eq
  obtain ⟨-, -, -, hlastDec, hlastCommit, hlastRepo, hroots⟩ := attempt.candidateHead_eq
  rw [installBatch_eq]
  refine ⟨?_, ?_, ?_, ?_⟩
  · show DecisionLog.WellFormed
      ⟨s.decisions ++ x.batch.decisions, s.commits ++ x.batch.committed,
        x.candidateHead.body.roots.outcomeIndex⟩
    rw [hroots, hresulting, hbatch, hcommitted, ← hdecs, ← hcoms]
    exact hextending.log
  · show x.candidateHead.body.latestDecisionSequence
      = (s.decisions ++ x.batch.decisions).getLast?.map _
    rw [hlastDec, hhead, hs.lastDecision, getLast?_append, map_or]
    rfl
  · show x.candidateHead.body.latestCommittedRcr = (s.commits ++ x.batch.committed).getLast?.map _
    rw [hlastCommit, hhead, hs.lastCommit, getLast?_append, map_or,
      DecisionBatch.lastCommit, Option.map_map]
    rfl
  · show x.candidateHead.body.latestRepositorySequence
      = (s.commits ++ x.batch.committed).getLast?.map _
    rw [hlastRepo, hhead, hs.lastRepository, getLast?_append, map_or,
      DecisionBatch.lastCommit, Option.map_map]
    rfl

theorem run_logPublished (configuration : GenesisConfiguration) (inputs : List ModelInput) :
    LogPublished (run configuration inputs) := by
  refine Run.exec_course (.genesis configuration) (fun done i hall => ?_) inputs
  have hs : LogPublished (run configuration done) := hall _ _ (Run.Happened.last done i)
  have hmove := next_moves (run configuration done) i
  change LogPublished (next (run configuration done) i)
  generalize next (run configuration done) i = s' at hmove
  cases hmove with
  | stays | sealed | quarantined | prepared | staged | configured | cancelled =>
    exact ⟨hs.log, hs.lastDecision, hs.lastCommit, hs.lastRepository⟩
  | swapped input x guards =>
    obtain ⟨before, request, htook, ⟨attempt⟩, hhead⟩ := swap_staged_here guards
    have hbefore : LogPublished before := hall before _ (htook.append _)
    obtain ⟨hdecs, hcoms⟩ := htook.log_eq hbefore hs hhead
    exact .install attempt hbefore hs hhead hdecs hcoms _

/-- A recorded outcome is never changed. -/
theorem outcome_persists (configuration : GenesisConfiguration) (done rest : List ModelInput)
    {txId : TxId} {outcome : DecisionOutcome}
    (h : (run configuration done).outcomeOf txId = some outcome) :
    (run configuration (done ++ rest)).outcomeOf txId = some outcome := by
  obtain ⟨decision, hmem, htx, hout⟩ :=
    ((run_logPublished configuration done).log.indexed.exact txId outcome).mp h
  exact ((run_logPublished configuration (done ++ rest)).log.indexed.exact txId outcome).mpr
    ⟨decision, (log_persists configuration done rest).1.subset hmem, htx, hout⟩

end Runs

/-- **Decisions are final, numbered without gap and indexed exactly.**  In
every reached state no transaction is decided twice and the outcome index
holds exactly the recorded outcomes; decision and repository sequences count
from the first value, the commits are those of the committing decisions in
order, each on top of the previous one; the head names the last elements;
and an outcome once recorded stays. -/
theorem decisions_final (configuration : GenesisConfiguration) (inputs : List ModelInput) :
    let s := run configuration inputs
    ((s.decisions.map (·.txId)).Nodup ∧
      ∀ (txId : TxId) outcome, s.head.body.roots.outcomeIndex[txId]? = some outcome ↔
        ∃ decision ∈ s.decisions, decision.txId = txId ∧ decision.outcome = outcome) ∧
    (s.decisions.map (·.decisionSequence.val)
        = List.range' (Counter.first : DecisionSequence).val s.decisions.length ∧
      s.commits.map (·.repositorySequence.val)
        = List.range' (Counter.first : RepositorySequence).val s.commits.length ∧
      s.commits.map (fun record => (record.txId, record.id))
        = s.decisions.filterMap (·.committedAs) ∧
      ∀ k record, s.commits[k]? = some record →
        record.parent = (s.commits.take k).getLast?.map (·.id)) ∧
    (s.head.body.latestDecisionSequence = s.decisions.getLast?.map (·.decisionSequence) ∧
      s.head.body.latestCommittedRcr = s.commits.getLast?.map (·.id) ∧
      s.head.body.latestRepositorySequence = s.commits.getLast?.map (·.repositorySequence)) ∧
    (∀ done rest, inputs = done ++ rest → ∀ txId outcome,
      (run configuration done).outcomeOf txId = some outcome →
        s.outcomeOf txId = some outcome) := by
  have h := run_logPublished configuration inputs
  have hnumbered := h.log.numbered
  have hcoms := h.log.commitsNumbered
  rw [Numbered, length_map] at hnumbered hcoms
  refine ⟨⟨h.log.indexed.nodup, h.log.indexed.exact⟩,
    ⟨hnumbered, hcoms, h.log.matched, h.log.parented⟩,
    ⟨h.lastDecision, h.lastCommit, h.lastRepository⟩, ?_⟩
  rintro done rest rfl txId outcome hrecorded
  exact outcome_persists configuration done rest hrecorded

end Frankengit.Reference
