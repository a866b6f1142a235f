/-
Frankengit/Reference/History.lean

Where the things a state holds came from.

A capsule is prepared at one moment, staged at a second and becomes
canonical at a third.  Every result about the last moment has to look back
at the first two, so this module says once what can be recovered:

* every held capsule was produced by a `prepare` step of the run, and every
  staged batch by a `stage` step (`run_provenance`);
* head identities are spent once, so a body published under an identity
  stays there (`headChain_persists`);
* hence a batch that wins the compare-and-swap was staged on *the very head
  it replaces*, not merely on one with the same identity
  (`swap_staged_here`).
-/
import Frankengit.Reference.Moves

namespace Frankengit.Reference

open Fallible BTree RepositoryState IdentityLedger Run

/-! ### What spending identities does to the head ledger -/

variable {ledger ledger' : IdentityLedger}

/-- Spend an identity in one of the ledgers. -/
theorem introduce_eq_ok {role : Role} {set : BTreeSet (Tagged role)} {id : Tagged role}
    {kind : String} {f : BTreeSet (Tagged role) → IdentityLedger} :
    (introduce set id kind >>= fun set => pure (f set)) = .ok ledger' ↔
      id ∉ set ∧ ledger' = f (set.insert id) := by
  unfold introduce
  split
  · next h => simp [h]
  · next h => simp [h, eq_comm]

theorem introduceHead_eq_ok {id : RepositoryAuthorityHeadId} : ledger.introduceHead id = .ok ledger'
      ↔ id ∉ ledger.heads ∧ ledger' = { ledger with heads := ledger.heads.insert id } :=
  introduce_eq_ok

theorem bindTransaction_heads {txId : TxId} {inputs : TxIdDerivationInputs}
    (h : ledger.bindTransaction txId inputs = .ok ledger') : ledger'.heads = ledger.heads := by
  unfold bindTransaction at h
  repeat' split at h
  all_goals cases h
  all_goals rfl

variable {input : StageRequest}

/-- Staging spends exactly one head identity, and a fresh one. -/
theorem spendStaged_heads {committed : List TxId}
    (h : spendStaged ledger input committed = .ok ledger') : input.candidateHeadId ∉ ledger.heads ∧
      ledger'.heads = ledger.heads.insert input.candidateHeadId := by
  simp only [spendStaged, bind_eq_ok, introduceHead_eq_ok] at h
  obtain ⟨_, hbatch, _, ⟨hfresh, rfl⟩, hloop⟩ := h
  obtain ⟨-, rfl⟩ := introduce_eq_ok.mp hbatch
  refine ⟨hfresh, ?_⟩
  -- the commits of the batch are spent in their own ledger
  refine foldlM_induction (P := fun _ l => l.heads = ledger.heads.insert input.candidateHeadId)
    hloop rfl fun _ txId a b _ hkept hstep => ?_
  split at hstep
  · obtain ⟨-, rfl⟩ := introduce_eq_ok.mp hstep
    exact hkept
  · cases hstep
    exact hkept

/-! ### Head identities are spent once -/

/-- The head is in the chain, every identity of the chain is spent, and the
candidate of a staged batch has an identity of its own that is spent but not
yet published. -/
structure HeadsFresh (s : RepositoryState) : Prop where
  current : s.headChain[s.head.id]? = some s.head.body
  spent : ∀ (id : RepositoryAuthorityHeadId) body, s.headChain[id]? = some body →
    id ∈ s.identities.heads
  reserved : ∀ (b : RepositoryDecisionBatchId) x, s.staged[b]? = some x →
    x.candidateHead.id ∈ s.identities.heads
  unpublished : ∀ (b : RepositoryDecisionBatchId) x, s.staged[b]? = some x →
    s.headChain[x.candidateHead.id]? = none
  distinct : ∀ (b b' : RepositoryDecisionBatchId) x x', s.staged[b]? = some x →
    s.staged[b']? = some x' → x.candidateHead.id = x'.candidateHead.id → b = b'

variable {s s' : RepositoryState}

namespace HeadsFresh

theorem genesis (configuration : GenesisConfiguration) : HeadsFresh (.genesis configuration) where
  current := by simp [RepositoryState.genesis]
  spent := by
    intro id body h
    simp only [RepositoryState.genesis, get_insert] at h
    split at h
    · next e => simp [RepositoryState.genesis, e]
    · simp at h
  reserved := by simp [RepositoryState.genesis]
  unpublished := by simp [RepositoryState.genesis]
  distinct := by simp [RepositoryState.genesis]

/-- A step that leaves the chain, the staged batches and the spent head
identities alone keeps the invariant. -/
theorem of_same (h : HeadsFresh s) (hhead : s'.head = s.head) (hchain : s'.headChain = s.headChain)
    (hstaged : s'.staged = s.staged) (hheads : s'.identities.heads = s.identities.heads) :
    HeadsFresh s' where
  current := by rw [hhead, hchain]; exact h.current
  spent := by rw [hchain, hheads]; exact h.spent
  reserved := by rw [hstaged, hheads]; exact h.reserved
  unpublished := by rw [hstaged, hchain]; exact h.unpublished
  distinct := by rw [hstaged]; exact h.distinct

end HeadsFresh

variable {x : StagedBatch}

/-- The head the batch would install. -/
theorem StageRun.candidateHead_eq (attempt : StageRun s input x) :
    x.candidateHead.id = input.candidateHeadId ∧ x.candidateHead.body.predecessor = some s.head.id ∧
      x.candidateHead.body.configuration = s.head.body.configuration ∧
      x.candidateHead.body.latestDecisionSequence
        = x.batch.lastDecisionSequence.or s.head.body.latestDecisionSequence ∧
      x.candidateHead.body.latestCommittedRcr
        = (x.batch.lastCommit.map Prod.fst).or s.head.body.latestCommittedRcr ∧
      x.candidateHead.body.latestRepositorySequence
        = (x.batch.lastCommit.map Prod.snd).or s.head.body.latestRepositorySequence ∧
      x.candidateHead.body.roots = x.batch.resulting := by
  have h := attempt.candidate
  simp only [buildCandidateHead, bind_eq_ok, pure_eq_ok] at h
  obtain ⟨generation, -, h⟩ := h
  rw [← h]
  exact ⟨rfl, rfl, rfl, rfl, rfl, rfl, rfl⟩

variable {i : ModelInput}

theorem Moves.headsFresh (h : HeadsFresh s) (m : Moves s i s') : HeadsFresh s' := by
  cases m with
  | stays => exact h
  | sealed input bound identities hbind hspend hfresh =>
    obtain ⟨-, rfl⟩ := introduce_eq_ok.mp hspend
    have hheads := bindTransaction_heads hbind
    exact h.of_same rfl rfl rfl hheads
  | quarantined | cancelled => exact h.of_same rfl rfl rfl rfl
  | prepared input record identities hsealed hsame hspend =>
    obtain ⟨-, rfl⟩ := introduce_eq_ok.mp hspend
    exact h.of_same rfl rfl rfl rfl
  | staged input x attempt identities hspend =>
    obtain ⟨hfresh, hheads⟩ := spendStaged_heads hspend
    have hid := attempt.candidateHead_eq.1
    -- the new candidate's identity is fresh, so no chain entry and no other candidate has it
    have hnew : s.headChain[x.candidateHead.id]? = none := by
      obtain hnone | ⟨body, hbody⟩ := (s.headChain[x.candidateHead.id]?).eq_none_or_eq_some
      · exact hnone
      · exact absurd (hid ▸ h.spent _ _ hbody) hfresh
    have hother : ∀ (b : RepositoryDecisionBatchId) y, s.staged[b]? = some y →
        y.candidateHead.id ≠ x.candidateHead.id := by
      intro b y hy heq
      exact hfresh (hid ▸ heq ▸ h.reserved b y hy)
    refine ⟨h.current, fun id body hb => ?_, fun b y hy => ?_, fun b y hy => ?_,
      fun b b' y y' hy hy' heq => ?_⟩
    · show id ∈ identities.heads
      rw [hheads, mem_insert]
      exact .inr (h.spent id body hb)
    · show y.candidateHead.id ∈ identities.heads
      rw [hheads, mem_insert]
      obtain ⟨-, rfl⟩ | ⟨-, hy⟩ := get_insert_some hy
      · exact .inl hid.symm
      · exact .inr (h.reserved b y hy)
    · obtain ⟨-, rfl⟩ | ⟨-, hy⟩ := get_insert_some hy
      · exact hnew
      · exact h.unpublished b y hy
    · obtain ⟨e, rfl⟩ | ⟨-, hy⟩ := get_insert_some hy <;>
        obtain ⟨e', rfl⟩ | ⟨-, hy'⟩ := get_insert_some hy'
      · rw [← e, ← e']
      · exact absurd heq.symm (hother b' y' hy')
      · exact absurd heq (hother b y hy)
      · exact h.distinct b b' y y' hy hy' heq
  | configured input generation identities hexp hepoch hnext hspend =>
    obtain ⟨hfresh, rfl⟩ := introduceHead_eq_ok.mp hspend
    refine ⟨by simp [configuredHead], fun id body hb => ?_, fun b y hy => ?_, fun b y hy => ?_,
      h.distinct⟩
    · show id ∈ s.identities.heads.insert input.candidateHeadId
      rw [mem_insert]
      obtain ⟨e, -⟩ | ⟨-, hb⟩ := get_insert_some hb
      · exact .inl e
      · exact .inr (h.spent id body hb)
    · show y.candidateHead.id ∈ s.identities.heads.insert input.candidateHeadId
      rw [mem_insert]
      exact .inr (h.reserved b y hy)
    · rw [get_insert, if_neg]
      · exact h.unpublished b y hy
      · intro heq
        exact hfresh (heq ▸ h.reserved b y hy)
  | swapped input x guards =>
    rw [installBatch_eq]
    have hlookup := guards.lookup
    refine ⟨by simp, fun id body hb => ?_, fun b y hy => ?_, fun b y hy => ?_,
      fun b b' y y' hy hy' => ?_⟩
    · obtain ⟨e, -⟩ | ⟨-, hb⟩ := get_insert_some hb
      · exact e ▸ h.reserved _ _ hlookup
      · exact h.spent id body hb
    · exact h.reserved b y (get_erase_some hy).2
    · obtain ⟨hne, hy⟩ := get_erase_some hy
      -- another candidate cannot share the identity just published
      rw [get_insert, if_neg fun e => hne (h.distinct _ _ _ _ hlookup hy e)]
      exact h.unpublished b y hy
    · exact h.distinct b b' y y' (get_erase_some hy).2 (get_erase_some hy').2

theorem run_headsFresh (configuration : GenesisConfiguration) (inputs : List ModelInput) :
    HeadsFresh (run configuration inputs) :=
  exec_invariant (.genesis configuration) (fun s i h => (next_moves s i).headsFresh h) inputs

/-! ### Published heads stay -/

/-- Every binding of the first chain is in the second. -/
def ChainExtends (s s' : RepositoryState) : Prop :=
  ∀ (id : RepositoryAuthorityHeadId) body, s.headChain[id]? = some body →
    s'.headChain[id]? = some body

theorem ChainExtends.insert {id : RepositoryAuthorityHeadId} {body : AuthorityHeadBody}
    (hnew : s.headChain[id]? = none) (h : s'.headChain = s.headChain.insert id body) :
    ChainExtends s s' := by
  intro id' body' hold
  rw [h, get_insert, if_neg]
  · exact hold
  · rintro rfl
    rw [hnew] at hold
    cases hold

theorem Moves.chainExtends (h : HeadsFresh s) (m : Moves s i s') : ChainExtends s s' := by
  cases m with
  | stays | sealed | quarantined | prepared | staged | cancelled => exact fun _ _ h => h
  | configured input generation identities hexp hepoch hnext hspend =>
    obtain ⟨hfresh, -⟩ := introduceHead_eq_ok.mp hspend
    refine .insert ?_ rfl
    obtain hnone | ⟨body, hbody⟩ := (s.headChain[input.candidateHeadId]?).eq_none_or_eq_some
    · exact hnone
    · exact absurd (h.spent _ _ hbody) hfresh
  | swapped input x guards =>
    rw [installBatch_eq]
    exact .insert (h.unpublished _ _ guards.lookup) rfl

section Runs

variable {configuration : GenesisConfiguration}

/-- Induction over the runs of the model, for a property of the inputs
consumed and the state reached. -/
theorem run_history {P : List ModelInput → RepositoryState → Prop}
    (init : P [] (.genesis configuration)) (step : ∀ done i, P done (run configuration done) →
      P (done ++ [i]) (next (run configuration done) i)) (inputs : List ModelInput) :
    P inputs (run configuration inputs) :=
  exec_history init step inputs

theorem headChain_persists (configuration : GenesisConfiguration) (done rest : List ModelInput) :
    ChainExtends (run configuration done) (run configuration (done ++ rest)) := by
  unfold run
  rw [exec_append]
  exact exec_mono (fun _ _ _ h => h) (fun hab hbc id body h => hbc id body (hab id body h))
    (fun s i h => (next_moves s i).headsFresh h) (fun s i h => (next_moves s i).chainExtends h)
    (run_headsFresh configuration done) rest

/-- `Took configuration inputs before i`: along the run of `inputs`, the
input `i` was given to the state `before`. -/
abbrev Took (configuration : GenesisConfiguration) (inputs : List ModelInput)
    (before : RepositoryState) (i : ModelInput) : Prop :=
  Run.Happened next (.genesis configuration) inputs before i

variable {inputs : List ModelInput} {before : RepositoryState}

section

variable (h : Took configuration inputs before i)
include h

theorem Took.exists_run :
    ∃ done rest, inputs = done ++ i :: rest ∧ before = run configuration done :=
  h

theorem Took.headsFresh : HeadsFresh before := by
  obtain ⟨done, rest, -, rfl⟩ := h.exists_run
  exact run_headsFresh configuration done

theorem Took.chainExtends : ChainExtends before (run configuration inputs) := by
  obtain ⟨done, rest, rfl, rfl⟩ := h.exists_run
  exact headChain_persists configuration done (i :: rest)

/-- A head that was current at some step of the run and has the identity of
the current head *is* the current head. -/
theorem Took.head_eq (hid : before.head.id = (run configuration inputs).head.id) :
    before.head = (run configuration inputs).head := by
  have hbefore := h.chainExtends _ _ h.headsFresh.current
  have hnow := (run_headsFresh configuration inputs).current
  rw [hid, hnow, Option.some.injEq] at hbefore
  exact AuthorityHead.ext hid hbefore.symm

end

/-! ### Provenance -/

/-- The capsule is what preparing `input` at `before` produced. -/
structure PreparedAt (before : RepositoryState) (input : PrepareRequest)
    (capsule : PreparedTxnCapsule) : Prop where
  produced : ∃ record, before.seals[input.request.txId]? = some record ∧
    record.fields = input.request.sealFields ∧
    capsule = preparedCapsule before record.sealId input

/-- Every seal, capsule and staged batch a state holds was produced by a
step of the run. -/
structure Provenance (configuration : GenesisConfiguration) (inputs : List ModelInput)
    (s : RepositoryState) : Prop where
  sealed : ∀ (txId : TxId) record, s.seals[txId]? = some record →
    ∃ before input, Took configuration inputs before (.seal input) ∧
      input.request.txId = txId ∧ record.fields = input.request.sealFields
  capsule : ∀ (id : PreparedTxnCapsuleId) c, s.capsules[id]? = some c →
    ∃ before input, Took configuration inputs before (.prepare input) ∧ PreparedAt before input c
  staged : ∀ (id : RepositoryDecisionBatchId) x, s.staged[id]? = some x →
    ∃ before input, Took configuration inputs before (.stage input) ∧
      Nonempty (StageRun before input x)

/-- What came from a run came from every longer run. -/
theorem Provenance.append {done : List ModelInput} (h : Provenance configuration done s)
    (later : List ModelInput) : Provenance configuration (done ++ later) s where
  sealed txId record hrec := by
    obtain ⟨before, input, htook, hsealed⟩ := h.sealed txId record hrec
    exact ⟨before, input, htook.append later, hsealed⟩
  capsule id c hc := by
    obtain ⟨before, input, htook, hp⟩ := h.capsule id c hc
    exact ⟨before, input, htook.append later, hp⟩
  staged id x hx := by
    obtain ⟨before, input, htook, hx⟩ := h.staged id x hx
    exact ⟨before, input, htook.append later, hx⟩

/-- Dropping capsules and batches keeps provenance. -/
theorem Provenance.of_subset {done : List ModelInput} (h : Provenance configuration done s)
    (hseals : s'.seals = s.seals)
    (hcapsules : ∀ (id : PreparedTxnCapsuleId) c, s'.capsules[id]? = some c →
      s.capsules[id]? = some c)
    (hstaged : ∀ (id : RepositoryDecisionBatchId) x, s'.staged[id]? = some x →
      s.staged[id]? = some x) : Provenance configuration done s' where
  sealed txId record hrec := h.sealed txId record (hseals ▸ hrec)
  capsule id c hc := h.capsule id c (hcapsules id c hc)
  staged id x hx := h.staged id x (hstaged id x hx)

theorem run_provenance (configuration : GenesisConfiguration) (inputs : List ModelInput) :
    Provenance configuration inputs (run configuration inputs) := by
  refine run_history (P := Provenance configuration) ⟨by simp [genesis],
    by simp [genesis], by simp [genesis]⟩ (fun done i h => ?_) inputs
  have hkeep := h.append [i]
  have htook : Took configuration (done ++ [i]) (run configuration done) i :=
    Run.Happened.last done i
  generalize run configuration done = s at h hkeep htook ⊢
  have hmove := next_moves s i
  generalize next s i = s' at hmove
  cases hmove with
  | stays => exact hkeep
  | sealed input bound identities hbind hspend hfresh =>
    refine ⟨fun txId record hrec => ?_, hkeep.capsule, hkeep.staged⟩
    obtain ⟨heq, rfl⟩ | ⟨-, hrec⟩ := get_insert_some hrec
    · exact ⟨s, input, htook, heq, rfl⟩
    · exact hkeep.sealed txId record hrec
  | quarantined | configured =>
    exact hkeep.of_subset rfl (fun _ _ h => h) (fun _ _ h => h)
  | cancelled input =>
    refine hkeep.of_subset rfl (fun id c hc => ?_) (fun _ _ h => h)
    rw [get_filter, Option.filter_eq_some_iff] at hc
    exact hc.1
  | prepared input record identities hsealed hsame hspend =>
    refine ⟨fun txId other hother => ?_, fun id c hc => ?_, hkeep.staged⟩
    · -- counting a preparation keeps the sealed fields
      obtain ⟨rfl, rfl⟩ | ⟨-, hother⟩ := get_insert_some hother
      · exact hkeep.sealed _ record hsealed
      · exact hkeep.sealed txId other hother
    · obtain ⟨-, rfl⟩ | ⟨-, hc⟩ := get_insert_some hc
      · exact ⟨s, input, htook, ⟨record, hsealed, hsame, rfl⟩⟩
      · exact hkeep.capsule id c hc
  | staged input x attempt identities hspend =>
    refine ⟨hkeep.sealed, hkeep.capsule, fun id y hy => ?_⟩
    obtain ⟨-, rfl⟩ | ⟨-, hy⟩ := get_insert_some hy
    · exact ⟨s, input, htook, ⟨attempt⟩⟩
    · exact hkeep.staged id y hy
  | swapped input x guards =>
    rw [installBatch_eq]
    refine hkeep.of_subset rfl (fun id c hc => ?_) (fun id y hy => ?_)
    · exact ((get_dropCapsules _ _ id c).mp hc).1
    · exact (get_erase_some hy).2

theorem Took.provenance (h : Took configuration inputs before i) :
    Provenance configuration inputs before := by
  obtain ⟨done, rest, rfl, rfl⟩ := h.exists_run
  exact (run_provenance configuration done).append (i :: rest)

/-- **A batch that wins was staged on the head it replaces.** -/
theorem swap_staged_here {input : CasRequest}
    (guards : SwapGuards (run configuration inputs) input x) :
    ∃ before request, Took configuration inputs before (.stage request) ∧
      Nonempty (StageRun before request x) ∧ before.head = (run configuration inputs).head := by
  obtain ⟨before, request, htook, ⟨attempt⟩⟩ :=
    (run_provenance configuration inputs).staged _ _ guards.lookup
  refine ⟨before, request, htook, ⟨attempt⟩, htook.head_eq ?_⟩
  have hpred := attempt.candidateHead_eq.2.1
  rw [guards.predecessor, Option.some.injEq] at hpred
  exact hpred.symm

end Runs

end Frankengit.Reference
