/-
Frankengit/Reference/Policy.lean

Policy under capsule reuse.

Policy is evaluated once, when a capsule is prepared: over the net effects,
against the head of that moment and against a view of the admitted objects
plus the transaction's own quarantine.  The capsule may commit several heads
later.  What makes the verdict last:

* the policy epoch is rechecked, and one epoch has one configuration
  (`Took.configuration_eq`);
* the value of a changed ref is a recorded read, so the old value the policy
  judged is the one the commit replaces;
* a fast-forward seen through quarantined objects is only as good as their
  promotion.  Promotion follows the request's closure, and nothing checks
  that the closure holds the history in between: a ref can move to a commit
  whose parent is never admitted (`unpromised_history_is_lost`).

`KeepsHistory` adds the missing check to `KeepsRelied`; under both every
canonical ref change is permitted (`ref_changes_permitted`).
-/
import Frankengit.Reference.Admission
import Frankengit.Reference.Serial

namespace Frankengit.Reference

open Fallible List Option RepositoryState

/-! ### One epoch, one configuration -/

/-- The second configuration comes no earlier, and is the first one if the
epoch is the same. -/
def ConfigurationFollows (s s' : RepositoryState) : Prop :=
  s.head.body.configuration.epoch.val ≤ s'.head.body.configuration.epoch.val ∧
    (s.head.body.configuration.epoch = s'.head.body.configuration.epoch →
      s.head.body.configuration = s'.head.body.configuration)

variable {s s' : RepositoryState}

theorem ConfigurationFollows.of_eq (h : s.head.body.configuration = s'.head.body.configuration) :
    ConfigurationFollows s s' :=
  ⟨by rw [h], fun _ => h⟩

theorem ConfigurationFollows.trans {a b c : RepositoryState} (hab : ConfigurationFollows a b)
    (hbc : ConfigurationFollows b c) : ConfigurationFollows a c := by
  refine ⟨hab.1.trans hbc.1, fun heq => ?_⟩
  -- equal ends squeeze the epoch in the middle
  have hle := hab.1
  have hle' := hbc.1
  have hab' : a.head.body.configuration.epoch = b.head.body.configuration.epoch := by
    rw [Counter.ext_iff]
    rw [← heq] at hle'
    omega
  exact (hab.2 hab').trans (hbc.2 (hab' ▸ heq))

variable {inputs : List ModelInput} {before : RepositoryState} {i : ModelInput} {oid : GitOid}

section Runs

variable {configuration : GenesisConfiguration}

theorem next_configuration (configuration : GenesisConfiguration) (done : List ModelInput)
    (i : ModelInput) :
    ConfigurationFollows (run configuration done) (next (run configuration done) i) := by
  have hmove := next_moves (run configuration done) i
  generalize next (run configuration done) i = s' at hmove
  cases hmove with
  | stays | sealed | quarantined | prepared | staged | cancelled => exact .of_eq rfl
  | configured input generation identities hexp hepoch hnext hspend =>
    have hsucc := Counter.next_eq_some.mp (nextOr_eq_ok.mp hepoch)
    refine ⟨?_, fun heq => ?_⟩
    · show _ ≤ input.policy.epoch.val
      omega
    · have hval : (run configuration done).head.body.configuration.epoch.val
          = input.policy.epoch.val := congrArg Counter.val heq
      omega
  | swapped input x guards =>
    obtain ⟨before, request, -, ⟨attempt⟩, hhead⟩ := swap_staged_here guards
    refine .of_eq ?_
    rw [installBatch_eq]
    rw [attempt.candidateHead_eq.2.2.1, hhead]

theorem configuration_persists (configuration : GenesisConfiguration)
    (done rest : List ModelInput) :
    ConfigurationFollows (run configuration done) (run configuration (done ++ rest)) := by
  induction rest using reverseRecOn with
  | nil =>
    rw [append_nil]
    exact .of_eq rfl
  | append_singleton rest i ih =>
    rw [← append_assoc]
    refine ih.trans ?_
    have hstep := next_configuration configuration (done ++ rest) i
    unfold run at hstep ⊢
    rwa [Run.exec_snoc]

theorem Took.configuration_eq (h : Took configuration inputs before i)
    (hepoch : before.head.body.configuration.epoch
      = (run configuration inputs).head.body.configuration.epoch) :
    before.head.body.configuration = (run configuration inputs).head.body.configuration := by
  obtain ⟨done, rest, rfl, rfl⟩ := h.exists_run
  exact (configuration_persists configuration done (i :: rest)).2 hepoch

theorem Moves.mem_objects (m : Moves s i s') (h : oid ∈ s.objects) : oid ∈ s'.objects := by
  cases m with
  | stays | sealed | quarantined | prepared | staged | configured | cancelled => exact h
  | swapped => exact mem_installBatch h

theorem Took.mem_objects (h : Took configuration inputs before i) (hoid : oid ∈ before.objects) :
    oid ∈ (run configuration inputs).objects :=
  Run.Happened.mono (I := fun _ => True)
    (R := fun s s' => ∀ oid : GitOid, oid ∈ s.objects → oid ∈ s'.objects)
    (fun _ _ h => h) (fun hab hbc oid h => hbc oid (hab oid h)) (fun _ _ _ => trivial)
    (fun s i _ _ h => (next_moves s i).mem_objects h) trivial h oid hoid

end Runs

/-! ### Parents are a function of the object -/

/-- The verified objects an input stages have the parents `parentsOf` says. -/
def ParentsFrom (parentsOf : GitOid → List GitOid) : ModelInput → Prop
  | .stageObjects request =>
    ∀ object ∈ request.objects, object.isIdentityVerified = true →
      object.parents = parentsOf object.declared
  | _ => True

/-- So have the objects a state has admitted or holds verified. -/
structure ParentsKnown (parentsOf : GitOid → List GitOid) (s : RepositoryState) : Prop where
  objects : ∀ (oid : GitOid) record, s.objects[oid]? = some record → record.parents = parentsOf oid
  slots : ∀ (txId : TxId) (oid : GitOid) object, (s.slot txId)[oid]? = some object →
    object.isIdentityVerified = true → object.parents = parentsOf oid

theorem get_foldl_promoteRecord_cases
    {quarantine : BTreeMap TxId (BTreeMap GitOid QuarantinedObject)} {admitted : ObjectRecord}
    (records : List RepositoryCommitRecord) (objects : BTreeMap GitOid ObjectRecord)
    (h : (records.foldl (promoteRecord quarantine) objects)[oid]? = some admitted) :
    objects[oid]? = some admitted ∨
      ∃ record ∈ records, promotedRecord (quarantine[record.txId]?.getD ∅) oid = some admitted := by
  induction records generalizing objects with
  | nil => exact .inl h
  | cons record rest ih =>
    rcases ih _ h with hnow | ⟨r, hr, hprom⟩
    · rw [promoteRecord, get_promoteFrom] at hnow
      split at hnow
      · rcases or_eq_some_iff.mp hnow with hprom | ⟨-, hold⟩
        · exact .inr ⟨record, by simp, hprom⟩
        · exact .inl hold
      · exact .inl hnow
    · exact .inr ⟨r, by simp [hr], hprom⟩

section Parents

variable {parentsOf : GitOid → List GitOid}

theorem ParentsKnown.promoted (h : ParentsKnown parentsOf s) {txId : TxId} {admitted : ObjectRecord}
    (hprom : promotedRecord (s.slot txId) oid = some admitted) :
    admitted.parents = parentsOf oid := by
  simp only [promotedRecord, map_eq_some_iff, filter_eq_some_iff] at hprom
  obtain ⟨object, ⟨hobj, hver⟩, rfl⟩ := hprom
  exact h.slots txId oid object hobj hver

theorem ParentsKnown.install (h : ParentsKnown parentsOf s) (batchId : RepositoryDecisionBatchId)
    (x : StagedBatch) : ParentsKnown parentsOf (installBatch s batchId x) := by
  rw [installBatch_eq]
  refine ⟨fun oid admitted hget => ?_, fun txId oid object hget => ?_⟩
  · rcases get_foldl_promoteRecord_cases _ _ hget with hold | ⟨record, -, hprom⟩
    · exact h.objects oid admitted hold
    · exact h.promoted hprom
  · simp only [slot, get_dropQuarantine] at hget
    split at hget
    · simp at hget
    · exact h.slots txId oid object hget

theorem Moves.parentsKnown (h : ParentsKnown parentsOf s) (hi : ParentsFrom parentsOf i)
    (m : Moves s i s') : ParentsKnown parentsOf s' := by
  cases m with
  | stays | sealed | prepared | staged | configured | cancelled => exact ⟨h.objects, h.slots⟩
  | swapped input x guards => exact h.install _ _
  | quarantined input hsealed =>
    refine ⟨h.objects, fun txId oid object hget hver => ?_⟩
    rw [slot_stageObjects] at hget
    split at hget
    · rw [get_stageInto, or_eq_some_iff] at hget
      rcases hget with hlast | ⟨-, hold⟩
      · obtain ⟨hmem, rfl⟩ := lastDeclared_declared hlast
        exact hi object hmem hver
      · exact h.slots _ _ _ hold hver
    · exact h.slots _ _ _ hget hver

theorem run_parentsKnown (configuration : GenesisConfiguration)
    (h : ∀ i ∈ inputs, ParentsFrom parentsOf i) :
    ParentsKnown parentsOf (run configuration inputs) := by
  refine run_history
    (P := fun done s => (∀ i ∈ done, ParentsFrom parentsOf i) → ParentsKnown parentsOf s)
    (fun _ => ⟨?_, ?_⟩) (fun done i ih hall => ?_) inputs h
  · simp [genesis]
  · simp [genesis, slot]
  · have hdone := ih fun j hj => hall j (by simp [hj])
    exact (next_moves _ i).parentsKnown hdone (hall i (by simp))

theorem Took.parentsKnown {configuration : GenesisConfiguration}
    (h : Took configuration inputs before i) (hall : ∀ i ∈ inputs, ParentsFrom parentsOf i) :
    ParentsKnown parentsOf before := by
  obtain ⟨done, rest, rfl, rfl⟩ := h.exists_run
  exact run_parentsKnown configuration fun j hj => hall j (by simp [hj])

end Parents

/-! ### The second guard the code lacks -/

/-- The part of a preparation's view that its commit will admit: what is
admitted already and what the request's closure holds. -/
def closedView (s : RepositoryState) (request : TransactionRequest) :
    BTreeMap GitOid (List GitOid) :=
  (availableObjects s request.txId).filter fun oid _ => oid ∈ s.objects ∨ oid ∈ closureOf request

/-- A preparation that sees a requested update as a fast-forward sees it so
through objects its commit will admit. -/
def KeepsHistory (s : RepositoryState) : ModelInput → Prop
  | .prepare input =>
    ∀ entry ∈ input.request.addressedIntents, ∀ name expected new force,
      entry.2 = .ref (.update name expected new force) →
      ∀ old, s.head.body.roots.refs[name]? = some old →
        reachableIn (availableObjects s input.request.txId) new old = true →
        reachableIn (closedView s input.request) new old = true
  | _ => True

/-! ### Permitted changes -/

/-- The change of a ref from `old` to `new` is permitted by the policy to the
request's principal; fast-forwards are judged over the objects admitted in
`after`. -/
def PermittedChange (policy : PolicySnapshot) (request : TransactionRequest)
    (after : RepositoryState) (name : RefName) (old new : Option GitOid) : Prop :=
  ∃ scope, name.scopeOf = some scope ∧
    (policy.capabilitiesOf request.principal).mayWriteScope scope = true ∧
    match old, new with
    | some old, some new =>
      after.isReachable new old = true ∨ (name ∈ forcedRefs request ∧
          (policy.capabilitiesOf request.principal).mayForce = true ∧
          policy.isProtected scope = false)
    | some _, none => policy.isProtected scope = false
    | none, _ => True

variable {name : RefName}

theorem evaluatePolicy_refs {request : TransactionRequest} {effects : NetEffects}
    {available : BTreeMap GitOid (List GitOid)}
    (h : evaluatePolicy s request effects available = none) {effect : RefEffect}
    (heffect : effects.refs[name]? = some effect) :
    refEffectRefusal s request available name effect = none := by
  unfold evaluatePolicy at h
  simp only [orElse_eq_orElse, orElse_eq_or, or_eq_none_iff] at h
  exact findSome?_eq_none_iff.mp h.1 (name, effect)
    (Std.ExtTreeMap.mem_toList_iff_getElem?_eq_some.mpr heffect)

/-- What policy has checked about a surviving ref effect. -/
theorem refEffectRefusal_eq_none {request : TransactionRequest}
    {available : BTreeMap GitOid (List GitOid)} {effect : RefEffect}
    (h : refEffectRefusal s request available name effect = none) :
    ∃ scope, name.scopeOf = some scope ∧
      (s.head.body.configuration.capabilitiesOf request.principal).mayWriteScope scope = true ∧
      match effect with
      | .delete => s.head.body.configuration.isProtected scope = false
      | .set new => ∀ old, s.head.body.roots.refs[name]? = some old →
          reachableIn available new old = true ∨ (name ∈ forcedRefs request ∧
              (s.head.body.configuration.capabilitiesOf request.principal).mayForce = true ∧
              s.head.body.configuration.isProtected scope = false) := by
  unfold refEffectRefusal at h
  dsimp only at h
  split at h
  · cases h
  next scope hscope =>
  split at h
  · cases h
  next hwrite =>
  have hdenied : ∀ {code : RefusalCode},
      (if s.head.body.configuration.isProtected scope = true then some code else none) = none →
      s.head.body.configuration.isProtected scope = false := by
    intro code hd
    split at hd
    · cases hd
    · next hp => simpa using hp
  refine ⟨scope, hscope, by simpa using hwrite, ?_⟩
  cases effect with
  | delete => exact hdenied h
  | set new =>
    intro old hold
    rw [hold] at h
    dsimp only at h
    split at h
    · next hreach => exact .inl hreach
    split at h
    · cases h
    next hforced =>
    split at h
    · cases h
    next hforce =>
    exact .inr ⟨not_not.mp hforced, by simpa using hforce, hdenied h⟩

theorem witnessIntent_policyEpoch (roots : RepositoryRoots) (witness : ConflictWitness)
    (intent : Intent) : (witnessIntent roots witness intent).policyEpoch = witness.policyEpoch := by
  rcases intent with intent | forge | (root | root) | outbox <;> simp only [witnessIntent] <;>
    split <;> rfl

theorem buildWitness_policyEpoch (s : RepositoryState) (request : TransactionRequest)
    (granularity : WitnessGranularity) :
    (buildWitness s request granularity).policyEpoch = s.head.body.configuration.epoch := by
  refine foldlRecOn (motive := fun w : ConflictWitness =>
    w.policyEpoch = s.head.body.configuration.epoch) _ _ rfl fun w hw entry _ => ?_
  rw [witnessIntent_policyEpoch, hw]

/-! ### The refs a batch passes through -/

/-- The refs before the commit at position `k` of a batch. -/
def refsBefore (refs : BTreeMap RefName GitOid) (records : List RepositoryCommitRecord) (k : ℕ) :
    BTreeMap RefName GitOid :=
  ((records.take k).getLast?.map (·.resultingRefs)).getD refs

theorem CommitTrace.origin_at {roots now : RepositoryRoots} {records : List RepositoryCommitRecord}
    (h : CommitTrace s roots records now) :
    now.refs = refsBefore roots.refs records records.length ∧
      ∀ k record, records[k]? = some record → ∃ mid capsule after,
        CommitOrigin s mid capsule record after ∧ mid.refs = refsBefore roots.refs records k := by
  induction h with
  | start same =>
    obtain ⟨hrefs, -, -, -⟩ := FoldBasis.mk.inj same
    exact ⟨hrefs, by simp⟩
  | @commit records mid after now capsule record trace origin same ih =>
    obtain ⟨hrefs, -, -, -⟩ := FoldBasis.mk.inj same
    obtain ⟨hmid, hearlier⟩ := ih
    constructor
    · rw [refsBefore, take_length, getLast?_concat]
      exact hrefs.trans origin.refs.symm
    · intro k found hfound
      rcases Nat.lt_trichotomy k records.length with hk | rfl | hk
      · rw [getElem?_append_left hk] at hfound
        rw [refsBefore, take_append_of_le_length hk.le]
        exact hearlier k found hfound
      · rw [getElem?_concat_length, some.injEq] at hfound
        subst hfound
        refine ⟨mid, capsule, after, origin, ?_⟩
        rw [hmid, refsBefore, refsBefore, take_length, take_left' rfl]
      · rw [getElem?_eq_none (by simp; omega)] at hfound
        cases hfound

/-! ### The theorem -/

variable {input : CasRequest}

section Main

variable {configuration : GenesisConfiguration} {inputs : List ModelInput}
  {parentsOf : GitOid → List GitOid}

/-- A fast-forward through what a commit admits is one over the admitted
objects once the commit is canonical. -/
theorem reachable_after_swap (hcov : Covered (run configuration inputs))
    (hall : ∀ i ∈ inputs, ParentsFrom parentsOf i) {x : StagedBatch}
    (guards : SwapGuards (run configuration inputs) input x) {prior : RepositoryState}
    {prepareInput : PrepareRequest}
    (htook : Took configuration inputs prior (.prepare prepareInput)) (hprior : Covered prior)
    {record : RepositoryCommitRecord} (hrec : record ∈ x.batch.committed)
    (hclo : ∀ oid ∈ closureOf prepareInput.request, oid ∈ record.objectClosure)
    {new old : GitOid} (h : reachableIn (closedView prior prepareInput.request) new old = true) :
    (installBatch (run configuration inputs) input.batch x).isReachable new old = true := by
  have hknown := (run_parentsKnown configuration hall).install input.batch x
  have hbefore := htook.parentsKnown hall
  refine Search.reaches_mono (fun oid parents hget => ?_) h
  rw [closedView, BTree.get_filter, filter_eq_some_iff, decide_eq_true_eq] at hget
  obtain ⟨havail, hclosed⟩ := hget
  -- the parents in the view are the ones of the object
  have hpars : parents = parentsOf oid := by
    obtain ⟨admitted, hadm, rfl⟩ | ⟨key, object, hobj, hver, rfl, rfl⟩ :=
      get_availableObjects havail
    · exact hbefore.objects oid admitted hadm
    · rw [hprior.keyed _ _ _ hobj]
      exact hbefore.slots _ _ _ hobj hver
  have hmem : oid ∈ (installBatch (run configuration inputs) input.batch x).objects := by
    rcases hclosed with hadm | hreq
    · exact mem_installBatch (htook.mem_objects hadm)
    · exact hcov.promotes guards hrec (hclo oid hreq)
  rw [← Std.ExtTreeMap.isSome_getElem?_iff_mem, isSome_iff_exists] at hmem
  obtain ⟨admitted, hadm⟩ := hmem
  rw [admittedView, Std.ExtTreeMap.getElem?_map, hadm, hpars]
  exact congrArg some (hknown.objects oid admitted hadm)

theorem Took.covered (h : Took configuration inputs before i)
    (hmeets : Run.Meets next KeepsRelied (.genesis configuration) inputs) : Covered before := by
  obtain ⟨done, rest, rfl, rfl⟩ := h.exists_run
  exact run_covered fun before j hj => hmeets before j (hj.append (i :: rest))

/-- One committed record changes refs only as its request's principal may. -/
theorem CommitOrigin.permitted
    (hrelied : Run.Meets next KeepsRelied (.genesis configuration) inputs)
    (hhistory : Run.Meets next KeepsHistory (.genesis configuration) inputs)
    (hall : ∀ i ∈ inputs, ParentsFrom parentsOf i) {x : StagedBatch}
    (guards : SwapGuards (run configuration inputs) input x)
    (hhead : before.head = (run configuration inputs).head) {mid after : RepositoryRoots}
    {capsule : PreparedTxnCapsule} {record : RepositoryCommitRecord}
    (hrec : record ∈ x.batch.committed) (origin : CommitOrigin before mid capsule record after)
    {prior : RepositoryState} {prepareInput : PrepareRequest}
    (hprepare : Took configuration inputs prior (.prepare prepareInput))
    (hprep : PreparedAt prior prepareInput capsule)
    (hchange : mid.refs[name]? ≠ record.resultingRefs[name]?) :
    PermittedChange (run configuration inputs).head.body.configuration prepareInput.request
      (installBatch (run configuration inputs) input.batch x) name mid.refs[name]?
      record.resultingRefs[name]? := by
  obtain ⟨sealRecord, -, -, rfl⟩ := hprep.produced
  have hcomm := evaluate_commit origin.accepted.verdict
  -- the epoch was rechecked, so the configuration is the one policy judged by
  have hcfg : prior.head.body.configuration
      = (run configuration inputs).head.body.configuration := by
    refine hprepare.configuration_eq ?_
    rw [← hhead, ← origin.accepted.epoch]
    exact (buildWitness_policyEpoch prior prepareInput.request prepareInput.granularity).symm
  -- a change comes from a ref effect
  have happly := origin.apply
  simp only [applyEffects, bind_eq_ok, pure_eq_ok] at happly
  obtain ⟨positions, -, rfl⟩ := happly
  have hresult : record.resultingRefs[name]?
      = (record.effects.refs[name]?).elim mid.refs[name]? RefEffect.result := by
    rw [origin.refs]
    exact get_applyRefEffects _ _ _
  obtain hnone | ⟨effect, heffect⟩ := (record.effects.refs[name]?).eq_none_or_eq_some
  · rw [hresult, hnone] at hchange
    exact absurd rfl hchange
  -- the replaced value is the one the preparation read
  have hread : prior.head.body.roots.refs[name]? = mid.refs[name]? :=
    (buildWitness_records prior prepareInput.request prepareInput.granularity
      (fold_refs_target hcomm.folded heffect)).sameAt origin.accepted.reads
  obtain ⟨scope, hscope, hwrite, heffectAllowed⟩ :=
    refEffectRefusal_eq_none (evaluatePolicy_refs hcomm.allowed heffect)
  rw [hcfg] at hwrite heffectAllowed
  refine ⟨scope, hscope, hwrite, ?_⟩
  rw [hresult, heffect]
  cases hold : mid.refs[name]? with
  | none => exact trivial
  | some old =>
    cases effect with
    | delete => exact heffectAllowed
    | set new =>
      rcases heffectAllowed old (hread.trans hold) with hreach | hforced
      · refine .inl ?_
        obtain ⟨entry, hentry, expected, force, hintent⟩ :=
          fold_sets_updated hcomm.folded heffect
        have hclosed := hhistory _ _ hprepare entry hentry name expected new force hintent old
          (hread.trans hold) hreach
        refine reachable_after_swap (run_covered hrelied) hall guards hprepare
          (hprepare.covered hrelied) hrec (fun oid hoid => ?_) hclosed
        rw [origin.closure]
        exact hcomm.mem_closure.mpr hoid
      · exact .inr hforced

end Main

/-- **Canonical ref changes are permitted, where preparations keep history
and staging keeps what pending commits rely on.**  When a compare-and-swap
wins, the refs go from the head's to the published ones record by record,
and each record changes a ref only as the policy of the extended head
permits the principal of the request it commits: in a writable scope;
over an existing value by a fast-forward over the admitted objects or by a
requested force outside the protected scopes; and with no deletion in a
protected scope. -/
theorem ref_changes_permitted (configuration : GenesisConfiguration) (inputs : List ModelInput)
    (parentsOf : GitOid → List GitOid) (hall : ∀ i ∈ inputs, ParentsFrom parentsOf i)
    (hrelied : Run.Meets next KeepsRelied (.genesis configuration) inputs)
    (hhistory : Run.Meets next KeepsHistory (.genesis configuration) inputs) :
    let s := run configuration inputs
    ∀ input s' head batch, compareAndSwap s input = .ok (s', .won head batch) →
      ∃ x, s.staged[input.batch]? = some x ∧
        s'.head.body.roots.refs
          = refsBefore s.head.body.roots.refs x.batch.committed x.batch.committed.length ∧
        ∀ k record, x.batch.committed[k]? = some record →
          ∃ request, CommittedFrom configuration inputs record request ∧
            ∀ name : RefName,
              (refsBefore s.head.body.roots.refs x.batch.committed k)[name]?
                  ≠ record.resultingRefs[name]? →
              PermittedChange s.head.body.configuration request s' name
                (refsBefore s.head.body.roots.refs x.batch.committed k)[name]?
                record.resultingRefs[name]? := by
  intro s input s' head batch hwon
  obtain ⟨x, guards, rfl⟩ := compareAndSwap_won hwon
  obtain ⟨before, request, htook, ⟨attempt⟩, hhead⟩ := swap_staged_here guards
  obtain ⟨hpub, horigin⟩ := attempt.trace.origin_at
  rw [hhead] at hpub horigin
  refine ⟨x, guards.lookup, ?_, fun k record hrec => ?_⟩
  · obtain ⟨-, -, -, -, -, -, hroots⟩ := attempt.candidateHead_eq
    rw [installBatch_eq]
    rw [hroots]
    exact hpub
  · obtain ⟨mid, capsule, after, origin, hmid⟩ := horigin k record hrec
    obtain ⟨prior, prepareInput, hprepare, hprep⟩ := origin.preparedAt htook
    refine ⟨prepareInput.request, hprep.committedFrom hprepare origin, fun name hchange => ?_⟩
    rw [← hmid] at hchange ⊢
    exact origin.permitted hrelied hhistory hall guards hhead (mem_of_getElem? hrec)
      hprepare hprep hchange

/-! ### A run that breaks the second guard -/

/-- A linear history: every object but the first has its predecessor as its
parent. -/
def linearParents (oid : GitOid) : List GitOid :=
  if oid.bytes ≤ 1 then [] else [⟨oid.algorithm, oid.bytes - 1⟩]

/-- The verified object with the given number of the linear history. -/
def linearObject (n : ℕ) : QuarantinedObject :=
  ⟨⟨.sha1, n⟩, ⟨.sha1, n⟩, linearParents ⟨.sha1, n⟩⟩

variable (promised : BTreeSet GitOid)

/-- Move `refs/heads/main` from object 1 to object 3 with a given closure. -/
def advanceMain : TransactionRequest :=
  { moveMain 2 (.exact ⟨.sha1, 1⟩) ⟨.sha1, 3⟩ with promisedClosure := promised }

/-- Create `refs/heads/main` at object 1, then prepare and stage its advance
to object 3, whose parent is object 2. -/
def advancing : List ModelInput :=
  preparing createMain [linearObject 1] ++ publishing createMain ⟨0⟩ .first ++
    preparing (advanceMain promised) [linearObject 2, linearObject 3] ++
    (publishing (advanceMain promised) ⟨1⟩ ⟨2, by decide, by decide⟩).dropLast

/-- The compare-and-swap that publishes the advance. -/
def publishAdvance : CasRequest := ⟨⟨1⟩, ⟨2, by decide, by decide⟩, ⟨2⟩⟩

theorem advancing_parents : ∀ i ∈ advancing promised, ParentsFrom linearParents i := by
  intro i hi
  simp only [advancing, preparing, publishing, cons_append, nil_append,
    dropLast_cons_cons, dropLast_singleton, mem_cons, not_mem_nil,
    or_false] at hi
  rcases hi with rfl | rfl | rfl | rfl | rfl | rfl | rfl | rfl | rfl <;>
    simp [ParentsFrom, linearObject]

theorem compareAndSwap_of_wins {outcome : CasOutcome}
    (h : (compareAndSwap s input).toOption.map (·.2) = some outcome) :
    compareAndSwap s input = .ok (next s (.compareAndSwap input), outcome) := by
  obtain ⟨result, hcas, rfl⟩ := exists_ok_of_toOption h
  have hnext : next s (.compareAndSwap input) = result.1 := by simp [next, step, hcas]
  rw [hnext, hcas]

theorem advancing_keepsRelied :
    Run.Meets next KeepsRelied (.genesis branchConfiguration) (advancing promised) := by
  have hver : ∀ s txId objects, (∀ object ∈ objects, ∃ n, object = linearObject n) →
      KeepsRelied s (.stageObjects ⟨txId, objects⟩) := by
    intro s txId objects hall oid _ _ object hobj
    obtain ⟨hmem, -⟩ := lastDeclared_declared hobj
    obtain ⟨n, rfl⟩ := hall object hmem
    simp [linearObject, QuarantinedObject.isIdentityVerified]
  refine .cons trivial (.cons (hver _ _ _ ?_) (.cons trivial (.cons trivial (.cons trivial
    (.cons trivial (.cons (hver _ _ _ ?_) (.cons trivial (.cons trivial .nil))))))))
  · simp
  · simp

/-- The closure that keeps the history of the advance. -/
def promisedParent : BTreeSet GitOid := (∅ : BTreeSet GitOid).insert ⟨.sha1, 2⟩

/-- With the parent in the closure the fast-forward is seen through objects
that the commit admits. -/
theorem advancing_keepsHistory :
    Run.Meets next KeepsHistory (.genesis branchConfiguration) (advancing promisedParent) := by
  -- at both preparations the one intent updates `refs/heads/main`
  have hmain : ∀ (s : RepositoryState) (txId : ℕ) (expected : ExpectedRefState) (new : GitOid)
      (promised : BTreeSet GitOid) (old : Option GitOid), s.head.body.roots.refs[mainRef]? = old →
      (∀ o ∈ old, reachableIn (closedView s { moveMain txId expected new with
        promisedClosure := promised }) new o = true) →
      KeepsHistory s (.prepare ⟨⟨txId⟩, { moveMain txId expected new with
        promisedClosure := promised }, ⟨0⟩, ⟨0⟩, .refined⟩) := by
    rintro s txId expected new promised old hold hreach entry hentry name _ _ _ hintent o ho -
    rw [mem_singleton.mp (show entry ∈ [(_, _)] from hentry)] at hintent
    cases hintent
    exact hreach o (hold ▸ ho)
  refine .cons trivial (.cons trivial (.cons ?_ (.cons trivial (.cons trivial
    (.cons trivial (.cons trivial (.cons ?_ (.cons trivial .nil))))))))
  · exact hmain _ 1 _ _ ∅ none (by decide +kernel) (by simp)
  · exact hmain _ 2 _ _ promisedParent (some ⟨.sha1, 1⟩) (by decide +kernel) (by decide +kernel)

theorem ref_changes_permitted_advance :
    let s := run branchConfiguration (advancing promisedParent)
    let s' := next s (.compareAndSwap publishAdvance)
    compareAndSwap s publishAdvance = .ok (s', .won ⟨2⟩ ⟨2⟩) ∧
      s.head.body.roots.refs[mainRef]? = some ⟨.sha1, 1⟩ ∧
      s'.head.body.roots.refs[mainRef]? = some ⟨.sha1, 3⟩ ∧
      ∃ request, PermittedChange s.head.body.configuration request s' mainRef
        (some ⟨.sha1, 1⟩) (some ⟨.sha1, 3⟩) := by
  intro s s'
  have hwins : compareAndSwap s publishAdvance = .ok (s', .won ⟨2⟩ ⟨2⟩) :=
    compareAndSwap_of_wins (by decide +kernel)
  have hold : s.head.body.roots.refs[mainRef]? = some ⟨.sha1, 1⟩ := by decide +kernel
  have hnew : s'.head.body.roots.refs[mainRef]? = some ⟨.sha1, 3⟩ := by decide +kernel
  refine ⟨hwins, hold, hnew, ?_⟩
  obtain ⟨x, hstaged, hrefs, hrecords⟩ := ref_changes_permitted branchConfiguration
    (advancing promisedParent) linearParents (advancing_parents _) (advancing_keepsRelied _)
    advancing_keepsHistory publishAdvance s' _ _ hwins
  -- the staged batch has one committed record
  have hone : s.staged[publishAdvance.batch]?.map (·.batch.committed.length) = some 1 := by
    decide +kernel
  rw [hstaged] at hone
  obtain ⟨record, hrec⟩ := length_eq_one_iff.mp (some.inj hone)
  rw [hrec] at hrefs hrecords
  obtain ⟨request, -, hpermitted⟩ := hrecords 0 record rfl
  have hresult : record.resultingRefs[mainRef]? = some ⟨.sha1, 3⟩ := hnew ▸ hrefs ▸ rfl
  have hchange := hpermitted mainRef
  rw [show (refsBefore s.head.body.roots.refs [record] 0)[mainRef]? = some ⟨.sha1, 1⟩ from hold,
    hresult] at hchange
  exact ⟨request, hchange (by decide)⟩

/-- **A canonical ref can move off its history.**  The request closes over
its target alone.  The preparation sees the fast-forward through the staged
parent; promotion leaves the parent behind, and over the admitted objects the
old value is not reachable from the new one, though nobody asked for force. -/
theorem unpromised_history_is_lost :
    (∀ i ∈ advancing ∅, ParentsFrom linearParents i) ∧
    let s := run branchConfiguration (advancing ∅)
    let s' := next s (.compareAndSwap publishAdvance)
    compareAndSwap s publishAdvance = .ok (s', .won ⟨2⟩ ⟨2⟩) ∧
      s.head.body.roots.refs[mainRef]? = some ⟨.sha1, 1⟩ ∧
      s'.head.body.roots.refs[mainRef]? = some ⟨.sha1, 3⟩ ∧
      (⟨.sha1, 2⟩ : GitOid) ∉ s'.objects ∧
      s'.isReachable ⟨.sha1, 3⟩ ⟨.sha1, 1⟩ = false ∧
      ¬ PermittedChange s.head.body.configuration (advanceMain ∅) s' mainRef
        (some ⟨.sha1, 1⟩) (some ⟨.sha1, 3⟩) := by
  refine ⟨advancing_parents ∅, compareAndSwap_of_wins (by decide +kernel), by decide +kernel,
    by decide +kernel, by decide +kernel, by decide +kernel, ?_⟩
  rintro ⟨scope, -, -, hreach | ⟨hforced, -, -⟩⟩
  · revert hreach
    decide +kernel
  · revert hforced
    decide

end Frankengit.Reference
