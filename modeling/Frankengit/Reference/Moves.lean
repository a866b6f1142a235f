/-
Frankengit/Reference/Moves.lean

What one step of the model can do, said once.

`Moves s i s'` lists every way the input `i` can take `s` to `s'`, with
the guards the code checked on the way.  `next_moves` shows that the
machine only moves like this, so an invariant of runs is a case analysis
over `Moves` and never unfolds a transition again.

`installBatch` is given in closed form first (`installBatch_eq`): promoting
closures touches the objects only, retiring transactions touches the
quarantine and the capsules only.
-/
import Frankengit.Lib.Fallible
import Frankengit.Reference.Publish

namespace Frankengit.Reference

open Fallible List Option Prod BTree

/-! ### Installing a batch, in closed form -/

/-- The record an object is admitted with when a closure is promoted out of
a quarantine slot. -/
def promotedRecord (staged : BTreeMap GitOid QuarantinedObject) (oid : GitOid) :
    Option ObjectRecord :=
  (staged[oid]?.filter (·.isIdentityVerified)).map fun object => ⟨object.parents⟩

theorem get_promoteFrom (staged : BTreeMap GitOid QuarantinedObject) (closure : BTreeSet GitOid)
    (objects : BTreeMap GitOid ObjectRecord) (oid : GitOid) :
    (promoteFrom staged closure objects)[oid]?
      = if oid ∈ closure then (promotedRecord staged oid).or objects[oid]? else objects[oid]? := by
  refine foldl_observe_set (fun (m : BTreeMap GitOid ObjectRecord) k => m[k]?) _
    (fun k seen => (promotedRecord staged k).or seen) (fun m k a => ?_) closure objects oid
  unfold promotedRecord
  by_cases hk : k = a
  · subst hk
    rcases staged[k]? with - | object
    · simp
    · by_cases hv : object.isIdentityVerified <;> simp [Option.filter, hv]
  · rcases staged[k]? with - | object
    · simp [hk]
    · by_cases hv : object.isIdentityVerified <;> simp [hv, hk, get_insert]

variable (quarantine : BTreeMap TxId (BTreeMap GitOid QuarantinedObject))

/-- The objects after promoting one committed closure. -/
def promoteRecord (objects : BTreeMap GitOid ObjectRecord) (record : RepositoryCommitRecord) :
    BTreeMap GitOid ObjectRecord :=
  promoteFrom (quarantine[record.txId]?.getD ∅) record.objectClosure objects

theorem promoteClosure_eq (s : RepositoryState) (record : RepositoryCommitRecord) :
    promoteClosure s record.txId record.objectClosure
      = { s with objects := promoteRecord s.quarantine s.objects record } := by
  unfold promoteClosure promoteRecord
  cases s.quarantine[record.txId]? with
  | some staged => rfl
  | none =>
    -- nothing quarantined: nothing is promoted
    have hkeep : promoteFrom ∅ record.objectClosure s.objects = s.objects := by
      refine Std.ExtTreeMap.ext_getElem? fun oid => ?_
      simp [get_promoteFrom, promotedRecord]
    simp only [getD_none, hkeep]

theorem foldl_promoteClosure (records : List RepositoryCommitRecord) (s : RepositoryState) :
    records.foldl (fun s record => promoteClosure s record.txId record.objectClosure) s
      = { s with objects := records.foldl (promoteRecord s.quarantine) s.objects } := by
  induction records generalizing s with
  | nil => rfl
  | cons record rest ih =>
    rw [foldl_cons, promoteClosure_eq, ih]
    rfl

variable (terminated : List TxId)

/-- The quarantine after dropping the terminated transactions. -/
def dropQuarantine : BTreeMap TxId (BTreeMap GitOid QuarantinedObject) :=
  terminated.foldl (·.erase ·) quarantine

/-- The capsules after dropping those of the terminated transactions. -/
def dropCapsules (capsules : BTreeMap PreparedTxnCapsuleId PreparedTxnCapsule)
    (terminated : List TxId) : BTreeMap PreparedTxnCapsuleId PreparedTxnCapsule :=
  terminated.foldl (fun capsules txId => capsules.filter fun _ c => c.txId ≠ txId) capsules

theorem foldl_retireTransaction (s : RepositoryState) : terminated.foldl retireTransaction s
      = { s with
          quarantine := dropQuarantine s.quarantine terminated
          capsules := dropCapsules s.capsules terminated } := by
  induction terminated generalizing s with
  | nil => rfl
  | cons txId rest ih =>
    rw [foldl_cons, ih]
    rfl

theorem installBatch_eq (s : RepositoryState) (batchId : RepositoryDecisionBatchId)
    (staged : StagedBatch) : installBatch s batchId staged = { s with
        staged := s.staged.erase batchId
        headChain := s.headChain.insert staged.candidateHead.id staged.candidateHead.body
        head := staged.candidateHead
        decisions := s.decisions ++ staged.batch.decisions
        commits := s.commits ++ staged.batch.committed
        objects := staged.batch.committed.foldl (promoteRecord s.quarantine) s.objects
        quarantine := dropQuarantine s.quarantine staged.batch.terminatedTransactions
        capsules := dropCapsules s.capsules staged.batch.terminatedTransactions
        batches := s.batches.insert staged.batch.id staged.batch } := by
  simp only [installBatch, foldl_promoteClosure, foldl_retireTransaction]

theorem get_dropQuarantine (txId : TxId) : (dropQuarantine quarantine terminated)[txId]?
      = if txId ∈ terminated then none else quarantine[txId]? := by
  induction terminated generalizing quarantine with
  | nil => simp [dropQuarantine]
  | cons t rest ih =>
    refine (ih _).trans ?_
    rw [get_erase]
    by_cases hrest : txId ∈ rest <;> by_cases ht : t = txId <;>
      simp [hrest, ht, eq_comm (a := txId)]

theorem get_dropCapsules (capsules : BTreeMap PreparedTxnCapsuleId PreparedTxnCapsule)
    (terminated : List TxId) (id : PreparedTxnCapsuleId) (capsule : PreparedTxnCapsule) :
    (dropCapsules capsules terminated)[id]? = some capsule
      ↔ capsules[id]? = some capsule ∧ capsule.txId ∉ terminated := by
  induction terminated generalizing capsules with
  | nil => simp [dropCapsules]
  | cons t rest ih =>
    refine (ih _).trans ?_
    simp only [BTree.get_filter, filter_eq_some_iff, mem_cons, not_or,
      decide_eq_true_eq, ne_eq]
    tauto

/-! ### The moves -/

/-- A staging attempt that produced a batch: the capsules it selected, the
draft it opened and where its loop ended. -/
structure StageRun (s : RepositoryState) (input : StageRequest) (staged : StagedBatch) where
  selected : List PreparedTxnCapsule
  draft : DecisionBatchDraft
  progress : StageProgress
  select : selectCapsules s input = .ok selected
  «open» : openDraft s input selected = .ok draft
  loop : selected.foldlM (stageCapsule s input) ⟨draft, s.head.body.roots, [], []⟩ = .ok progress
  decided : progress.draft.decisions ≠ []
  finish : progress.draft.finish progress.scratch s.head.body.configuration.epoch = .ok staged.batch
  candidate : buildCandidateHead s.head staged.batch input.candidateHeadId
    = .ok staged.candidateHead
  durability : staged.durabilitySatisfied = input.durabilitySatisfied

/-- The guards of a compare-and-swap that wins. -/
structure SwapGuards (s : RepositoryState) (input : CasRequest) (staged : StagedBatch) :
    Prop where
  lookup : s.staged[input.batch]? = some staged
  expectedHead : input.expectedHead = s.head.id
  expectedGeneration : input.expectedGeneration = s.head.body.generation
  predecessor : staged.candidateHead.body.predecessor = some s.head.id
  generation : s.head.body.nextGeneration = .ok staged.candidateHead.body.generation
  decision : s.head.body.nextDecisionSequence = .ok staged.batch.firstDecisionSequence
  repository : ∀ first, staged.batch.committed.head? = some first →
    s.head.body.nextRepositorySequence = .ok first.repositorySequence
  visible : staged.mayBecomeVisible = true

/-- Every way an input can move the state. -/
inductive Moves (s : RepositoryState) : ModelInput → RepositoryState → Prop
  | stays (i : ModelInput) : Moves s i s
  | sealed (input : SealRequest) (bound identities : IdentityLedger)
      (bind : s.identities.bindTransaction input.request.txId
        input.request.sealFields.derivationInputs = .ok bound)
      (spend : bound.introduceSeal input.sealId = .ok identities)
      (fresh : s.seals[input.request.txId]? = none) :
      Moves s (.seal input) { s with
        identities := identities
        seals := s.seals.insert input.request.txId ⟨input.sealId, input.request.sealFields, 0⟩
        idempotencyIndex := s.idempotencyIndex.insert input.request.idempotencyScope
          input.request.canonicalRequestDigest }
  | quarantined (input : QuarantineRequest) (sealed : input.txId ∈ s.seals) :
      Moves s (.stageObjects input) { s with
        quarantine := s.quarantine.insert input.txId
          (stageInto (s.quarantine[input.txId]?.getD ∅) input.objects) }
  | prepared (input : PrepareRequest) (record : SealRecord) (identities : IdentityLedger)
      (sealed : s.seals[input.request.txId]? = some record)
      (same : record.fields = input.request.sealFields)
      (spend : s.identities.introduceCapsule input.capsuleId = .ok identities) :
      Moves s (.prepare input) { s with
        identities := identities
        capsules := s.capsules.insert input.capsuleId (preparedCapsule s record.sealId input)
        seals := s.seals.insert input.request.txId
          { record with preparations := min (record.preparations + 1) u32Max } }
  | staged (input : StageRequest) (batch : StagedBatch) (attempt : StageRun s input batch)
      (identities : IdentityLedger)
      (spend : spendStaged s.identities input attempt.progress.committedTransactions
        = .ok identities) :
      Moves s (.stage input) { s with
        identities := identities
        staged := s.staged.insert input.batchId batch }
  | configured (input : ConfigurationRequest) (generation : HeadGeneration)
      (identities : IdentityLedger)
      (expectedHead : input.expectedHead = s.head.id)
      (epoch : nextOr "policy" s.head.body.configuration.epoch = .ok input.policy.epoch)
      (next : s.head.body.nextGeneration = .ok generation)
      (spend : s.identities.introduceHead input.candidateHeadId = .ok identities) :
      Moves s (.publishConfiguration input) { s with
        identities := identities
        headChain := s.headChain.insert input.candidateHeadId
          (configuredHead s.head generation input).body
        head := configuredHead s.head generation input }
  | swapped (input : CasRequest) (staged : StagedBatch) (guards : SwapGuards s input staged) :
      Moves s (.compareAndSwap input) (installBatch s input.batch staged)
  | cancelled (input : CancellationRequest) : Moves s (.cancel input) { s with
        capsules := s.capsules.filter fun _ capsule => capsule.txId ≠ input.txId }

variable {s s' : RepositoryState}

theorem seal_moves {input : SealRequest} {outcome : SealOutcome}
    (h : «seal» s input = .ok (s', outcome)) : Moves s (.seal input) s' := by
  unfold «seal» at h
  dsimp only at h
  split at h
  · cases h
  split at h
  · cases h
    exact .stays _
  split at h
  · cases h
    exact .stays _
  split at h
  · split at h <;> cases h <;> exact .stays _
  · next hfresh =>
    simp only [bind_eq_ok, pure_eq_ok, mk.injEq] at h
    obtain ⟨bound, hbind, identities, hspend, rfl, -⟩ := h
    exact .sealed input bound identities hbind hspend hfresh

theorem prepare_moves {input : PrepareRequest} {capsule : PreparedTxnCapsuleId}
    (h : prepare s input = .ok (s', capsule)) : Moves s (.prepare input) s' := by
  unfold prepare at h
  dsimp only at h
  split at h
  · cases h
  · next record hrec =>
    simp only [throwIf_eq_ok, not_not, bind_eq_ok, pure_eq_ok, mk.injEq] at h
    obtain ⟨hsame, identities, hspend, rfl, -⟩ := h
    exact .prepared input record identities hrec hsame hspend

theorem stage_moves {input : StageRequest} {outcome : StageOutcome}
    (h : stage s input = .ok (s', outcome)) : Moves s (.stage input) s' := by
  simp only [stage, bind_eq_ok] at h
  obtain ⟨selected, hselect, draft, hopen, progress, hloop, h⟩ := h
  split at h
  · cases h
    exact .stays _
  · next hdecided =>
    simp only [bind_eq_ok, pure_eq_ok, mk.injEq] at h
    obtain ⟨batch, hbatch, candidate, hcand, identities, hspend, rfl, -⟩ := h
    exact .staged input ⟨batch, candidate, input.durabilitySatisfied⟩
      ⟨selected, draft, progress, hselect, hopen, hloop, by simpa using hdecided, hbatch,
        hcand, rfl⟩ identities hspend

theorem publishConfiguration_moves {input : ConfigurationRequest} {outcome : ConfigurationOutcome}
    (h : publishConfiguration s input = .ok (s', outcome)) :
    Moves s (.publishConfiguration input) s' := by
  unfold publishConfiguration at h
  split at h
  · cases h
    exact .stays _
  · next hexp =>
    rw [not_or, not_not, not_not] at hexp
    simp only [bind_eq_ok, throwIf_eq_ok, not_not, pure_eq_ok, mk.injEq] at h
    obtain ⟨required, hrequired, rfl, generation, hgen, identities, hspend, rfl, -⟩ := h
    exact .configured input generation identities hexp.1 hrequired hgen hspend

/-- A compare-and-swap wins under its guards and installs the batch, or
leaves the state alone. -/
theorem compareAndSwap_cases {input : CasRequest} {outcome : CasOutcome}
    (h : compareAndSwap s input = .ok (s', outcome)) :
    (s' = s ∧ ∀ head batch, outcome ≠ .won head batch) ∨
      ∃ staged, SwapGuards s input staged ∧ s' = installBatch s input.batch staged ∧
        outcome = .won staged.candidateHead.id staged.batch.id := by
  unfold compareAndSwap at h
  split at h
  · cases h
  next staged hlookup =>
  split at h
  · cases h
    exact .inl ⟨rfl, by simp⟩
  next hexp =>
  rw [not_or, not_not, not_not] at hexp
  simp only [throwIf_eq_ok, bind_eq_ok, not_not] at h
  obtain ⟨hpred, generation, hgen, rfl, decision, hdec, rfl, h⟩ := h
  -- the repository sequence is checked only for a batch that commits something
  have hfinal : (∀ first, staged.batch.committed.head? = some first →
        s.head.body.nextRepositorySequence = .ok first.repositorySequence) ∧
      (if staged.mayBecomeVisible = false then
          pure (s, CasOutcome.durabilityUnsatisfied input.batch)
        else pure (installBatch s input.batch staged,
          CasOutcome.won staged.candidateHead.id staged.batch.id) :
          ModelResult (RepositoryState × CasOutcome)) = .ok (s', outcome) := by
    split at h
    · next first hhead =>
      simp only [throwIf_eq_ok, bind_eq_ok, not_not] at h
      obtain ⟨repository, hrepo, rfl, h⟩ := h
      refine ⟨fun f hf => ?_, h⟩
      rw [hhead, some.injEq] at hf
      rw [hrepo, hf]
    · next hhead => exact ⟨fun f hf => absurd hf (hhead f), h⟩
  obtain ⟨hrepo, h⟩ := hfinal
  split at h
  · cases h
    exact .inl ⟨rfl, by simp⟩
  · next hvisible =>
    cases h
    exact .inr ⟨staged,
      ⟨hlookup, hexp.1, hexp.2, hpred, hgen, hdec, hrepo, by simpa using hvisible⟩, rfl, rfl⟩

theorem compareAndSwap_moves {input : CasRequest} {outcome : CasOutcome}
    (h : compareAndSwap s input = .ok (s', outcome)) : Moves s (.compareAndSwap input) s' := by
  obtain ⟨rfl, -⟩ | ⟨staged, hguards, rfl, -⟩ := compareAndSwap_cases h
  · exact .stays _
  · exact .swapped input staged hguards

/-- A compare-and-swap that reports a win installed a staged batch. -/
theorem compareAndSwap_won {input : CasRequest} {head : RepositoryAuthorityHeadId}
    {batch : RepositoryDecisionBatchId} (h : compareAndSwap s input = .ok (s', .won head batch)) :
    ∃ staged, SwapGuards s input staged ∧ s' = installBatch s input.batch staged := by
  obtain ⟨-, hlost⟩ | ⟨staged, hguards, hinstall, -⟩ := compareAndSwap_cases h
  · exact absurd rfl (hlost head batch)
  · exact ⟨staged, hguards, hinstall⟩

theorem cancel_moves (s : RepositoryState) (request : CancellationRequest) :
    Moves s (.cancel request) (cancel s request).next := by
  unfold cancel
  split
  · exact .stays _
  · exact .stays _
  · exact .cancelled request

/-- The machine moves only as `Moves` says. -/
theorem next_moves (s : RepositoryState) (i : ModelInput) : Moves s i (next s i) := by
  unfold next
  split
  · next result h =>
    unfold step at h
    cases i with
    | «seal» request =>
      simp only [bind_eq_ok, pure_eq_ok] at h
      obtain ⟨⟨s', outcome⟩, hmove, rfl⟩ := h
      exact seal_moves hmove
    | stageObjects request =>
      simp only [bind_eq_ok, pure_eq_ok] at h
      obtain ⟨s', hmove, rfl⟩ := h
      rw [stageObjects, ite_error_eq_ok, not_not] at hmove
      obtain ⟨hsealed, ⟨⟩⟩ := hmove
      exact .quarantined request hsealed
    | prepare request =>
      simp only [bind_eq_ok, pure_eq_ok] at h
      obtain ⟨⟨s', capsule⟩, hmove, rfl⟩ := h
      exact prepare_moves hmove
    | decide capsule =>
      dsimp only at h
      split at h
      · cases h
      · cases h
        exact .stays _
    | stage request =>
      simp only [bind_eq_ok, pure_eq_ok] at h
      obtain ⟨⟨s', outcome⟩, hmove, rfl⟩ := h
      exact stage_moves hmove
    | compareAndSwap request =>
      simp only [bind_eq_ok, pure_eq_ok] at h
      obtain ⟨⟨s', outcome⟩, hmove, rfl⟩ := h
      exact compareAndSwap_moves hmove
    | publishConfiguration request =>
      simp only [bind_eq_ok, pure_eq_ok] at h
      obtain ⟨⟨s', outcome⟩, hmove, rfl⟩ := h
      exact publishConfiguration_moves hmove
    | cancel request =>
      cases h
      exact cancel_moves s request
  · exact .stays i

end Frankengit.Reference
