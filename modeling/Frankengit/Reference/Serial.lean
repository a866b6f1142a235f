/-
Frankengit/Reference/Serial.lean

Batches are serializable.

A capsule is folded once, when it is prepared, possibly several heads before
it commits and never against the roots its batch predecessors leave.  The
serial reading of a batch (`processSerially`) has none of this: it folds
each request afresh against the roots the previous one left and applies the
effects.  Both give the same roots and the same effects, because a fold
depends only on what the witness recorded (`refold_same`) and the witness
was checked against those very roots.
-/
import Frankengit.Reference.Footprint
import Frankengit.Reference.Staging

namespace Frankengit.Reference

open Fallible

/-! ### Serial processing -/

/-- Fold one request afresh against the roots reached and apply its effects. -/
def serialStep (reached : RepositoryRoots × List NetEffects) (request : TransactionRequest) :
    Option (RepositoryRoots × List NetEffects) :=
  match (fold reached.1.basis request).outcome with
  | .folded effects =>
    (applyEffects reached.1 effects).toOption.map fun roots => (roots, reached.2 ++ [effects])
  | .aborted _ _ => none

/-- Process requests one after the other: the roots reached and the effects
of each request. -/
def processSerially (roots : RepositoryRoots) (requests : List TransactionRequest) :
    Option (RepositoryRoots × List NetEffects) :=
  requests.foldlM serialStep (roots, [])

variable {roots mid : RepositoryRoots}

theorem processSerially_snoc {requests : List TransactionRequest} {effects : List NetEffects}
    (h : processSerially roots requests = some (mid, effects)) (request : TransactionRequest) :
    processSerially roots (requests ++ [request]) = serialStep (mid, effects) request := by
  unfold processSerially at h ⊢
  simp [h]

variable {after : RepositoryRoots}

/-- Applying effects depends only on, and determines, the folded planes. -/
theorem applyEffects_basis {roots' : RepositoryRoots} {effects : NetEffects}
    (hbasis : roots'.basis = roots.basis) (h : applyEffects roots effects = .ok after) :
    ∃ after', applyEffects roots' effects = .ok after' ∧ after'.basis = after.basis := by
  obtain ⟨hrefs, hposs, hret, houtbox⟩ := FoldBasis.mk.inj hbasis
  simp only [applyEffects, bind_eq_ok, pure_eq_ok] at h
  obtain ⟨positions, hforge, rfl⟩ := h
  simp only [applyEffects, bind_eq_ok, pure_eq_ok, hposs, hforge, hrefs, hret, houtbox]
  exact ⟨_, ⟨positions, rfl, rfl⟩, rfl⟩

/-! ### Accepted capsules refold -/

variable {before : RepositoryState} {capsule : PreparedTxnCapsule}

/-- **An accepted capsule refolds.**  Where a witness was accepted, folding
the prepared request afresh yields exactly the capsule's effects. -/
theorem PreparedAt.refold {s : RepositoryState} {input : PrepareRequest} {effects : NetEffects}
    (h : PreparedAt before input capsule) (hacc : Accepted s roots capsule effects) :
    (fold roots.basis input.request).outcome = .folded effects := by
  obtain ⟨record, -, -, rfl⟩ := h.produced
  have hcomm := evaluate_commit hacc.verdict
  rw [refold_same hacc.reads]
  exact hcomm.folded

section Runs

variable {configuration : GenesisConfiguration}

/-- A committed record and the request it commits: the request was handed to
a preparation of the run, after a seal for the same stable fields. -/
structure CommittedFrom (configuration : GenesisConfiguration) (inputs : List ModelInput)
    (record : RepositoryCommitRecord) (request : TransactionRequest) : Prop where
  prepared : ∃ before input capsule, Took configuration inputs before (.prepare input) ∧
    PreparedAt before input capsule ∧ input.request = request ∧
    capsule.verdict = .commit record.effects ∧ capsule.objectClosure = record.objectClosure
  sealed : ∃ before input, Took configuration inputs before (.seal input) ∧
    input.request.sealFields = request.sealFields
  txId : record.txId = request.txId
  digest : record.canonicalRequestDigest = request.canonicalRequestDigest

variable {inputs : List ModelInput}

theorem PreparedAt.committedFrom {prior : RepositoryState} {input : PrepareRequest}
    (hprep : PreparedAt prior input capsule)
    (hprepare : Took configuration inputs prior (.prepare input)) {record : RepositoryCommitRecord}
    (h : CommitOrigin before mid capsule record after) :
    CommittedFrom configuration inputs record input.request := by
  refine ⟨?_, ?_, ?_, ?_⟩
  · exact ⟨prior, input, capsule, hprepare, hprep, rfl, h.accepted.verdict, h.closure.symm⟩
  · obtain ⟨sealRecord, hsealed, hfields, -⟩ := hprep.produced
    obtain ⟨first, sealInput, hseal, -, hsame⟩ := hprepare.provenance.sealed _ _ hsealed
    exact ⟨first, sealInput, hseal, hsame.symm.trans hfields⟩
  · obtain ⟨sealRecord, -, -, rfl⟩ := hprep.produced
    exact h.txId
  · obtain ⟨sealRecord, -, -, rfl⟩ := hprep.produced
    exact h.digest

/-- The capsule a record commits was prepared in the run. -/
theorem CommitOrigin.preparedAt {i : ModelInput} (htook : Took configuration inputs before i)
    {record : RepositoryCommitRecord} (h : CommitOrigin before mid capsule record after) :
    ∃ prior input, Took configuration inputs prior (.prepare input) ∧
      PreparedAt prior input capsule := by
  obtain ⟨id, hheld⟩ := h.held
  exact htook.provenance.capsule id capsule hheld

/-- A batch is its requests processed serially. -/
theorem CommitTrace.serial {i : ModelInput} (htook : Took configuration inputs before i)
    {now : RepositoryRoots} {records : List RepositoryCommitRecord}
    (h : CommitTrace before roots records now) :
    ∃ requests final, List.Forall₂ (CommittedFrom configuration inputs) records requests ∧
      processSerially roots requests = some (final, records.map (·.effects)) ∧
      final.basis = now.basis := by
  induction h with
  | start same => exact ⟨[], roots, .nil, rfl, same.symm⟩
  | @commit records mid after now capsule record trace origin same ih =>
    obtain ⟨requests, final, hfrom, hserial, hbasis⟩ := ih
    obtain ⟨prior, input, hprepare, hprep⟩ := origin.preparedAt htook
    have hreq := hprep.committedFrom hprepare origin
    have hfold := hprep.refold origin.accepted
    -- the serial roots have the planes the capsule was accepted against
    obtain ⟨after', happly, hafter⟩ := applyEffects_basis hbasis origin.apply
    refine ⟨requests ++ [input.request], after', List.rel_append hfrom (.cons hreq .nil), ?_,
      hafter.trans same.symm⟩
    rw [processSerially_snoc hserial, serialStep, hbasis, hfold]
    show (applyEffects final record.effects).toOption.map _ = _
    rw [happly, List.map_append]
    rfl

end Runs

/-- **Batches are serializable.**  In every reached state, a held capsule
that is accepted against some roots, whatever its witness's granularity,
refolds against them to exactly its effects; and a compare-and-swap that
wins publishes the planes which processing the batch's requests one after
the other reaches from the roots of the head it replaces, with the recorded
effects. -/
theorem batch_serializable (configuration : GenesisConfiguration) (inputs : List ModelInput) :
    let s := run configuration inputs
    (∀ (id : PreparedTxnCapsuleId) capsule roots generation effects,
      s.capsules[id]? = some capsule →
      decideAgainst s capsule roots generation = .commit effects →
      ∃ before input, Took configuration inputs before (.prepare input) ∧
        PreparedAt before input capsule ∧
        (fold roots.basis input.request).outcome = .folded effects) ∧
    (∀ input s' head batch, compareAndSwap s input = .ok (s', .won head batch) →
      ∃ x before request, s.staged[input.batch]? = some x ∧
        Took configuration inputs before (.stage request) ∧ Nonempty (StageRun before request x) ∧
        before.head = s.head ∧
        ∃ requests final,
          List.Forall₂ (CommittedFrom configuration inputs) x.batch.committed requests ∧
          processSerially s.head.body.roots requests
            = some (final, x.batch.committed.map (·.effects)) ∧
          s'.head.body.roots.refs = final.refs ∧
          s'.head.body.roots.forgePositions = final.forgePositions ∧
          s'.head.body.roots.retention = final.retention ∧
          s'.head.body.roots.outbox = final.outbox) := by
  constructor
  · intro id capsule roots generation effects hheld hdecide
    obtain ⟨before, input, htook, hprep⟩ :=
      (run_provenance configuration inputs).capsule id capsule hheld
    exact ⟨before, input, htook, hprep, hprep.refold (decideAgainst_commit hdecide)⟩
  · intro input s' head batch hwon
    obtain ⟨x, guards, rfl⟩ := compareAndSwap_won hwon
    obtain ⟨before, request, htook, ⟨attempt⟩, hhead⟩ := swap_staged_here guards
    refine ⟨x, before, request, guards.lookup, htook, ⟨attempt⟩, hhead, ?_⟩
    obtain ⟨requests, final, hfrom, hserial, hbasis⟩ := attempt.trace.serial htook
    obtain ⟨-, -, -, -, -, -, hroots⟩ := attempt.candidateHead_eq
    obtain ⟨hrefs, hforge, hret, houtbox⟩ := FoldBasis.mk.inj hbasis
    refine ⟨requests, final, hfrom, hhead ▸ hserial, ?_⟩
    rw [installBatch_eq]
    rw [hroots]
    exact ⟨hrefs.symm, hforge.symm, hret.symm, houtbox.symm⟩

end Frankengit.Reference
