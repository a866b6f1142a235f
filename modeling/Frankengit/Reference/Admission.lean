/-
Frankengit/Reference/Admission.lean

Canonical roots and admitted objects.

Preparation checks that every object of a transaction's closure is admitted
or verified in the transaction's own quarantine; promotion moves the
verified ones when the compare-and-swap wins.  In between the quarantine
stays open: `stageObjects` may *replace* a verified object by one whose
bytes hash to something else, and promotion then skips it silently.  So the
link between the check and the promotion can be cut, and a canonical ref can
name an object that was never admitted (`restaged_object_escapes`).

`KeepsRelied` is the missing guard: a staging step must not replace an
object some pending commit relies on by an unverified one.  On every run
that keeps to it the closures of pending commits stay available (`Covered`),
and no canonical root ever points outside the admitted objects
(`no_quarantine_escape`).
-/
import Frankengit.Reference.Footprint
import Frankengit.Reference.NormalForm
import Frankengit.Reference.Staging

namespace Frankengit.Reference

open Fallible List Option RepositoryState Std.ExtTreeMap BTree

/-! ### Availability -/

/-- The quarantine slot of a transaction. -/
def RepositoryState.slot (s : RepositoryState) (txId : TxId) : BTreeMap GitOid QuarantinedObject :=
  s.quarantine[txId]?.getD ∅

/-- The object is admitted, or a promotion for the transaction would admit
it. -/
def Available (s : RepositoryState) (txId : TxId) (oid : GitOid) : Prop :=
  oid ∈ s.objects ∨ (promotedRecord (s.slot txId) oid).isSome

variable {oid : GitOid}

theorem promotedRecord_isSome {slot : BTreeMap GitOid QuarantinedObject} :
    (promotedRecord slot oid).isSome ↔
      ∃ object, slot[oid]? = some object ∧ object.isIdentityVerified = true := by
  unfold promotedRecord
  rw [isSome_map, isSome_iff_exists]
  simp only [filter_eq_some_iff]

/-- The last object of a staging request declared under an identity. -/
def lastDeclared (objects : List QuarantinedObject) (oid : GitOid) : Option QuarantinedObject :=
  objects.reverse.find? fun object => object.declared = oid

theorem get_stageInto (slot : BTreeMap GitOid QuarantinedObject)
    (objects : List QuarantinedObject) (oid : GitOid) :
    (stageInto slot objects)[oid]? = (lastDeclared objects oid).or slot[oid]? := by
  induction objects generalizing slot with
  | nil => rfl
  | cons object rest ih =>
    unfold stageInto lastDeclared at ih ⊢
    rw [foldl_cons, ih, reverse_cons, find?_append, get_insert]
    cases hrest : rest.reverse.find? fun object => object.declared = oid with
    | some found => rfl
    | none =>
      by_cases heq : object.declared = oid
      · simp [heq]
      · simp [heq]

theorem lastDeclared_declared {objects : List QuarantinedObject} {object : QuarantinedObject}
    (h : lastDeclared objects oid = some object) : object ∈ objects ∧ object.declared = oid := by
  exact ⟨by simpa using mem_of_find?_eq_some h, by simpa using find?_some h⟩

/-- Every object sits in its slot under the identity it was declared with. -/
def SlotsKeyed (s : RepositoryState) : Prop :=
  ∀ (txId : TxId) (oid : GitOid) object, (s.slot txId)[oid]? = some object → object.declared = oid

variable {s : RepositoryState}

/-- An entry of the view preparation reasons over is an admitted object or a
verified one of the transaction's slot. -/
theorem get_availableObjects {txId : TxId} {parents : List GitOid}
    (h : (availableObjects s txId)[oid]? = some parents) :
    (∃ record, s.objects[oid]? = some record ∧ record.parents = parents) ∨
      ∃ (key : GitOid) (object : QuarantinedObject), (s.slot txId)[key]? = some object ∧
        object.isIdentityVerified = true ∧ object.declared = oid ∧ object.parents = parents := by
  unfold availableObjects at h
  rw [foldl_eq_foldl_toList] at h
  -- generalise over the entries not yet folded in
  suffices aux : ∀ (entries : List (GitOid × QuarantinedObject))
      (view : BTreeMap GitOid (List GitOid)),
      (entries.foldl (fun view e => if e.2.isIdentityVerified then
        view.insert e.2.declared e.2.parents else view) view)[oid]? = some parents →
      view[oid]? = some parents ∨ ∃ e ∈ entries, e.2.isIdentityVerified = true ∧
        e.2.declared = oid ∧ e.2.parents = parents by
    obtain hadm | ⟨⟨key, object⟩, hmem, hver⟩ := aux _ _ h
    · left
      simp only [admittedView, Std.ExtTreeMap.getElem?_map, map_eq_some_iff] at hadm
      exact hadm
    · exact .inr ⟨key, object, Std.ExtTreeMap.mem_toList_iff_getElem?_eq_some.mp hmem, hver⟩
  intro entries
  induction entries with
  | nil => exact fun view h => .inl h
  | cons e rest ih =>
    intro view h
    rw [foldl_cons] at h
    rcases ih _ h with hview | ⟨e', hmem, he'⟩
    · split at hview
      · next hver =>
        obtain hnew | ⟨-, hold⟩ := get_insert_some hview
        · exact .inr ⟨e, by simp, hver, hnew⟩
        · exact .inl hold
      · exact .inl hview
    · exact .inr ⟨e', by simp [hmem], he'⟩

theorem available_of_mem (hkeyed : SlotsKeyed s) {txId : TxId} (h : oid ∈ availableObjects s txId) :
    Available s txId oid := by
  rw [← isSome_getElem?_iff_mem, isSome_iff_exists] at h
  obtain ⟨parents, hget⟩ := h
  obtain ⟨record, hrec, -⟩ | ⟨key, object, hobj, hver, hdecl, -⟩ :=
    get_availableObjects hget
  · left
    rw [← isSome_getElem?_iff_mem, hrec]
    rfl
  · right
    rw [hkeyed _ _ _ hobj] at hdecl
    exact promotedRecord_isSome.mpr ⟨object, hdecl ▸ hobj, hver⟩

/-! ### Closures -/

theorem mem_foldl_insert (objects : List GitOid) (set : BTreeSet GitOid) :
    oid ∈ objects.foldl (·.insert ·) set ↔ oid ∈ set ∨ oid ∈ objects := by
  induction objects generalizing set with
  | nil => simp
  | cons first rest ih =>
    rw [foldl_cons, ih, BTree.mem_insert, mem_cons]
    constructor
    · rintro ((rfl | h) | h)
      · exact .inr (.inl rfl)
      · exact .inl h
      · exact .inr (.inr h)
    · rintro (h | rfl | h)
      · exact .inl (.inr h)
      · exact .inl (.inl rfl)
      · exact .inr h

variable {request : TransactionRequest} {effects : NetEffects}

/-- The closure of a preparation that may commit is what the request
promises and names. -/
theorem Committable.mem_closure (h : Committable s request effects) :
    oid ∈ (evaluate s request).objectClosure ↔ oid ∈ closureOf request := by
  rw [h.closure, mem_foldl_insert, closureOf, mem_append]
  simp

/-- A preparation that refuses has an empty closure. -/
theorem evaluate_closure_refuse {code : RefusalCode}
    (h : (evaluate s request).verdict = .refuse code) : (evaluate s request).objectClosure = ∅ := by
  unfold evaluate at h ⊢
  split
  · rfl
  next hadm =>
  simp only [hadm] at h
  dsimp only at h ⊢
  split
  · rfl
  next effects hfolded =>
  simp only [hfolded] at h
  split
  · rfl
  next hallowed =>
  simp only [hallowed] at h
  cases h

/-- Admission checked that the whole closure is at hand. -/
theorem Committable.available (hkeyed : SlotsKeyed s) (h : Committable s request effects)
    (hoid : oid ∈ closureOf request) : Available s request.txId oid := by
  have hadm := h.admitted
  unfold admissionRefusal at hadm
  dsimp only at hadm
  iterate 6
    split at hadm
    · cases hadm
  split at hadm
  · cases hadm
  · next hclo =>
    refine available_of_mem hkeyed ?_
    by_contra hmissing
    refine hclo (any_eq_true.mpr ⟨oid, hoid, ?_⟩)
    simpa using hmissing

theorem preparedCapsule_available (hkeyed : SlotsKeyed s) {sealId : TransactionSealId}
    {input : PrepareRequest} (hoid : oid ∈ (preparedCapsule s sealId input).objectClosure) :
    Available s input.request.txId oid := by
  have hclo : oid ∈ (evaluate s input.request).objectClosure := hoid
  cases hverdict : (evaluate s input.request).verdict with
  | commit effects =>
    have hcomm := evaluate_commit hverdict
    exact hcomm.available hkeyed (hcomm.mem_closure.mp hclo)
  | refuse code =>
    rw [evaluate_closure_refuse hverdict] at hclo
    simp at hclo

/-! ### The guard the code lacks -/

/-- A pending commit of the transaction relies on the object: a held capsule
or a batch staged on the current head has it in its closure. -/
def Relied (s : RepositoryState) (txId : TxId) (oid : GitOid) : Prop :=
  (∃ (id : PreparedTxnCapsuleId) (capsule : PreparedTxnCapsule),
    s.capsules[id]? = some capsule ∧ capsule.txId = txId ∧ oid ∈ capsule.objectClosure) ∨
  ∃ (batch : RepositoryDecisionBatchId) (x : StagedBatch) (record : RepositoryCommitRecord),
    s.staged[batch]? = some x ∧ x.candidateHead.body.predecessor = some s.head.id ∧
      record ∈ x.batch.committed ∧ record.txId = txId ∧ oid ∈ record.objectClosure

/-- The input does not replace an object some pending commit relies on, and
that is not admitted yet, by an object that fails identity verification. -/
def KeepsRelied (s : RepositoryState) : ModelInput → Prop
  | .stageObjects request =>
    ∀ oid, Relied s request.txId oid → oid ∉ s.objects →
      ∀ object, lastDeclared request.objects oid = some object → object.isIdentityVerified = true
  | _ => True

/-- What pending commits rely on is available to them. -/
structure Covered (s : RepositoryState) : Prop where
  keyed : SlotsKeyed s
  available : ∀ txId oid, Relied s txId oid → Available s txId oid

theorem Covered.genesis (configuration : GenesisConfiguration) :
    Covered (.genesis configuration) where
  keyed := by
    intro txId oid object h
    simp [RepositoryState.slot, RepositoryState.genesis] at h
  available := by
    rintro txId oid (⟨id, capsule, h, -⟩ | ⟨batch, x, record, h, -⟩)
    · simp [RepositoryState.genesis] at h
    · simp [RepositoryState.genesis] at h

/-- Fewer pending commits and more admitted objects keep the cover. -/
theorem Covered.mono {s' : RepositoryState} (h : Covered s) (hkeyed : SlotsKeyed s')
    (hrelied : ∀ txId oid, Relied s' txId oid → Relied s txId oid)
    (havail : ∀ txId oid, Relied s' txId oid → Available s txId oid → Available s' txId oid) :
    Covered s' where
  keyed := hkeyed
  available txId oid hr := havail txId oid hr (h.available txId oid (hrelied txId oid hr))

/-! ### Objects only grow -/

theorem get_foldl_promoteRecord {quarantine : BTreeMap TxId (BTreeMap GitOid QuarantinedObject)}
    (records : List RepositoryCommitRecord) (objects : BTreeMap GitOid ObjectRecord)
    (h : oid ∈ objects ∨ ∃ record ∈ records, oid ∈ record.objectClosure ∧
      (promotedRecord (quarantine[record.txId]?.getD ∅) oid).isSome) :
    oid ∈ records.foldl (promoteRecord quarantine) objects := by
  induction records generalizing objects with
  | nil => simpa using h
  | cons record rest ih =>
    refine ih _ ?_
    -- the object is there already, is promoted now, or is promoted later
    have hnow : (oid ∈ objects ∨ (oid ∈ record.objectClosure ∧
        (promotedRecord (quarantine[record.txId]?.getD ∅) oid).isSome)) →
        oid ∈ promoteRecord quarantine objects record := by
      intro hcase
      rw [← isSome_getElem?_iff_mem, promoteRecord, get_promoteFrom]
      rcases hcase with hmem | ⟨hclo, hprom⟩
      · have hsome := isSome_getElem?_iff_mem.mpr hmem
        split <;> simp [hsome]
      · rw [if_pos hclo]
        simp [hprom]
    rcases h with hmem | ⟨r, hr, hclo, hprom⟩
    · exact .inl (hnow (.inl hmem))
    · rcases mem_cons.mp hr with rfl | hr
      · exact .inl (hnow (.inr ⟨hclo, hprom⟩))
      · exact .inr ⟨r, hr, hclo, hprom⟩

theorem slot_dropQuarantine {terminated : List TxId} {txId : TxId} (h : txId ∉ terminated) :
    (dropQuarantine s.quarantine terminated)[txId]?.getD ∅ = s.slot txId := by
  rw [get_dropQuarantine, if_neg h]
  rfl

/-! ### The step -/

theorem slot_stageObjects (s : RepositoryState) (input : QuarantineRequest) (txId : TxId) :
    slot { s with
        quarantine := s.quarantine.insert input.txId
          (stageInto (s.quarantine[input.txId]?.getD ∅) input.objects) } txId
      = if input.txId = txId then stageInto (s.slot input.txId) input.objects else s.slot txId := by
  simp only [slot, get_insert]
  split <;> rfl

/-- Staging under the guard: the slot of one transaction changes, and what
is relied on stays verified. -/
theorem Covered.stageObjects (h : Covered s) {input : QuarantineRequest}
    (hok : KeepsRelied s (.stageObjects input)) : Covered { s with
      quarantine := s.quarantine.insert input.txId
        (stageInto (s.quarantine[input.txId]?.getD ∅) input.objects) } := by
  refine h.mono (fun txId oid object hget => ?_) (fun _ _ hr => hr) (fun txId oid hr ha => ?_)
  · rw [slot_stageObjects] at hget
    split at hget
    · rw [get_stageInto, or_eq_some_iff] at hget
      rcases hget with hlast | ⟨-, hold⟩
      · exact (lastDeclared_declared hlast).2
      · exact h.keyed _ _ _ hold
    · exact h.keyed _ _ _ hget
  · by_cases hadm : oid ∈ s.objects
    · exact .inl hadm
    · right
      obtain ⟨object, hobj, hver⟩ := promotedRecord_isSome.mp (ha.resolve_left hadm)
      rw [slot_stageObjects]
      split
      · next heq =>
        subst heq
        refine promotedRecord_isSome.mpr ?_
        rw [get_stageInto]
        cases hlast : lastDeclared input.objects oid with
        | none => exact ⟨object, hobj, hver⟩
        | some restaged => exact ⟨restaged, rfl, hok oid hr hadm restaged hlast⟩
      · exact promotedRecord_isSome.mpr ⟨object, hobj, hver⟩

/-- Installing a batch on whose head nothing is staged yet. -/
theorem Covered.install (h : Covered s) (batchId : RepositoryDecisionBatchId) (x : StagedBatch)
    (hunbuilt : ∀ (b : RepositoryDecisionBatchId) y, s.staged[b]? = some y →
      y.candidateHead.body.predecessor ≠ some x.candidateHead.id) :
    Covered (installBatch s batchId x) := by
  -- after the swap only the surviving capsules rely on anything
  have hcapsule : ∀ txId oid, Relied (installBatch s batchId x) txId oid →
      ∃ (id : PreparedTxnCapsuleId) (capsule : PreparedTxnCapsule),
        (s.capsules[id]? = some capsule ∧ capsule.txId ∉ x.batch.terminatedTransactions) ∧
          capsule.txId = txId ∧ oid ∈ capsule.objectClosure := by
    rw [installBatch_eq]
    rintro txId oid (⟨id, capsule, hget, hrest⟩ | ⟨b, y, record, hget, hpred, -⟩)
    · exact ⟨id, capsule, (get_dropCapsules _ _ _ _).mp hget, hrest⟩
    · exact absurd hpred (hunbuilt b y (get_erase_some hget).2)
  rw [installBatch_eq] at hcapsule ⊢
  refine h.mono (fun txId oid object hget => ?_) (fun txId oid hr => ?_) (fun txId oid hr ha => ?_)
  · simp only [slot, get_dropQuarantine] at hget
    split at hget
    · simp at hget
    · exact h.keyed txId oid object hget
  · obtain ⟨id, capsule, ⟨hget, -⟩, hrest⟩ := hcapsule txId oid hr
    exact .inl ⟨id, capsule, hget, hrest⟩
  · rcases ha with hadm | hprom
    · exact .inl (get_foldl_promoteRecord _ _ (.inl hadm))
    · right
      obtain ⟨id, capsule, ⟨-, hkept⟩, rfl, -⟩ := hcapsule txId oid hr
      rw [slot, slot_dropQuarantine hkept]
      exact hprom

section Runs

variable {configuration : GenesisConfiguration}

/-- No batch is staged on a head that is not in the chain. -/
theorem staged_on_published {inputs : List ModelInput} {id : RepositoryAuthorityHeadId}
    (hid : (run configuration inputs).headChain[id]? = none)
    (batch : RepositoryDecisionBatchId) (x : StagedBatch)
    (h : (run configuration inputs).staged[batch]? = some x) :
    x.candidateHead.body.predecessor ≠ some id := by
  obtain ⟨before, input, htook, ⟨attempt⟩⟩ := (run_provenance configuration inputs).staged batch x h
  rw [attempt.candidateHead_eq.2.1]
  intro heq
  have hpub := htook.chainExtends _ _ htook.headsFresh.current
  rw [some.inj heq, hid] at hpub
  cases hpub

variable {done : List ModelInput}

theorem covered_step {i : ModelInput} (h : Covered (run configuration done))
    (hok : KeepsRelied (run configuration done) i) : Covered (next (run configuration done) i) := by
  have hunbuilt := fun id => @staged_on_published configuration done id
  have hfresh := run_headsFresh configuration done
  generalize run configuration done = s at h hok hunbuilt hfresh ⊢
  have hmove := next_moves s i
  generalize next s i = s' at hmove
  cases hmove with
  | stays => exact h
  | sealed => exact h.mono h.keyed (fun _ _ hr => hr) (fun _ _ _ ha => ha)
  | quarantined input hsealed => exact h.stageObjects hok
  | cancelled input =>
    refine h.mono h.keyed (fun txId oid hr => ?_) (fun _ _ _ ha => ha)
    rcases hr with ⟨id, capsule, hget, hrest⟩ | hr
    · rw [BTree.get_filter, filter_eq_some_iff] at hget
      exact .inl ⟨id, capsule, hget.1, hrest⟩
    · exact .inr hr
  | prepared input record identities hsealed hsame hspend =>
    refine ⟨h.keyed, fun txId oid hr => ?_⟩
    rcases hr with ⟨id, capsule, hget, htx, hclo⟩ | hr
    · obtain ⟨-, rfl⟩ | ⟨-, hget⟩ := get_insert_some hget
      · exact htx ▸ preparedCapsule_available h.keyed hclo
      · exact h.available txId oid (.inl ⟨id, capsule, hget, htx, hclo⟩)
    · exact h.available txId oid (.inr hr)
  | staged input x attempt identities hspend =>
    refine h.mono h.keyed (fun txId oid hr => ?_) (fun _ _ _ ha => ha)
    rcases hr with hr | ⟨batch, y, record, hget, hpred, hrec, hrest⟩
    · exact .inl hr
    · obtain ⟨-, rfl⟩ | ⟨-, hget⟩ := get_insert_some hget
      · -- a fresh batch relies on what its capsules rely on
        obtain ⟨mid, capsule, after, origin⟩ := attempt.trace.origin_of_mem hrec
        obtain ⟨id, hheld⟩ := origin.held
        exact .inl ⟨id, capsule, hheld, origin.txId ▸ hrest.1, origin.closure ▸ hrest.2⟩
      · exact .inr ⟨batch, y, record, hget, hpred, hrec, hrest⟩
  | configured input generation identities hexp hepoch hnext hspend =>
    refine h.mono h.keyed (fun txId oid hr => ?_) (fun _ _ _ ha => ha)
    rcases hr with hr | ⟨batch, y, record, hget, hpred, -⟩
    · exact .inl hr
    · -- no staged batch can already stand on the new head
      have hnew : s.headChain[input.candidateHeadId]? = none := by
        obtain hnone | ⟨body, hbody⟩ := (s.headChain[input.candidateHeadId]?).eq_none_or_eq_some
        · exact hnone
        · exact absurd (hfresh.spent _ _ hbody) (introduceHead_eq_ok.mp hspend).1
      exact absurd hpred (hunbuilt _ hnew batch y hget)
  | swapped input x guards =>
    exact h.install input.batch x (hunbuilt _ (hfresh.unpublished _ _ guards.lookup))

theorem run_covered {inputs : List ModelInput}
    (h : Run.Meets next KeepsRelied (.genesis configuration) inputs) :
    Covered (run configuration inputs) :=
  Run.exec_invariant_of_meets (P := fun _ s => Covered s) (.genesis configuration)
    (fun _ _ hcov hok => covered_step hcov hok) h

/-! ### Canonical roots -/

/-- Every object a canonical root names is admitted. -/
structure RootsAdmitted (s : RepositoryState) : Prop where
  refs : ∀ (name : RefName) oid, s.head.body.roots.refs[name]? = some oid → oid ∈ s.objects
  retention : ∀ root : RetentionRoot, root ∈ s.head.body.roots.retention → root.object ∈ s.objects

/-- The check of the source says exactly that. -/
theorem assertNoQuarantineEscape_iff : s.assertNoQuarantineEscape = .ok () ↔ RootsAdmitted s := by
  have hcheck : ∀ oid, (if oid ∈ s.objects then (.ok () : ModelResult Unit)
      else .error (.quarantineEscape oid)) = .ok () ↔ oid ∈ s.objects := by
    intro oid
    split <;> simp [*]
  unfold assertNoQuarantineEscape
  rw [forM_eq_ok]
  simp only [hcheck, RepositoryRoots.protectedObjects, mem_append, List.mem_map]
  constructor
  · intro h
    refine ⟨fun name oid hget => ?_, fun root hmem => ?_⟩
    · exact h oid (.inl ⟨(name, oid), mem_toList_iff_getElem?_eq_some.mpr hget, rfl⟩)
    · exact h root.object (.inr ⟨root, by simpa using hmem, rfl⟩)
  · rintro h oid (⟨⟨name, value⟩, hmem, rfl⟩ | ⟨root, hroot, rfl⟩)
    · exact h.refs name value (mem_toList_iff_getElem?_eq_some.mp hmem)
    · exact h.retention root (by simpa using hroot)

/-- The refs and retention roots a batch leaves are the old ones or were
written by one of its records. -/
theorem CommitTrace.written {roots now : RepositoryRoots} {records : List RepositoryCommitRecord}
    (h : CommitTrace s roots records now) :
    (∀ (name : RefName) oid, now.refs[name]? = some oid → roots.refs[name]? = some oid ∨
      ∃ record ∈ records, record.effects.refs[name]? = some (.set oid)) ∧
    (∀ root : RetentionRoot, root ∈ now.retention → root ∈ roots.retention ∨
      ∃ record ∈ records, record.effects.retention[root]? = some .add) := by
  induction h with
  | start same =>
    obtain ⟨hrefs, -, hret, -⟩ := FoldBasis.mk.inj same
    exact ⟨fun name oid h => .inl (hrefs ▸ h), fun root h => .inl (hret ▸ h)⟩
  | @commit records mid after now capsule record trace origin same ih =>
    obtain ⟨hrefs, -, hret, -⟩ := FoldBasis.mk.inj same
    have happly := origin.apply
    simp only [applyEffects, bind_eq_ok, pure_eq_ok] at happly
    obtain ⟨positions, -, rfl⟩ := happly
    have hlast : record ∈ records ++ [record] := by simp
    constructor
    · intro name oid hget
      rw [show now.refs = _ from hrefs, get_applyRefEffects] at hget
      cases heffect : record.effects.refs[name]? with
      | none =>
        rw [heffect] at hget
        exact (ih.1 name oid hget).imp_right fun ⟨r, hr, he⟩ => ⟨r, by simp [hr], he⟩
      | some effect =>
        rw [heffect] at hget
        cases effect with
        | set value =>
          obtain rfl : value = oid := some.inj hget
          exact .inr ⟨record, hlast, heffect⟩
        | delete => cases hget
    · intro root hmem
      rw [show now.retention = _ from hret, mem_applyRetentionEffects] at hmem
      cases heffect : record.effects.retention[root]? with
      | none =>
        rw [heffect] at hmem
        exact (ih.2 root hmem).imp_right fun ⟨r, hr, he⟩ => ⟨r, by simp [hr], he⟩
      | some effect =>
        rw [heffect] at hmem
        cases effect with
        | add => exact .inr ⟨record, hlast, heffect⟩
        | remove => simp at hmem

/-- What a committed record sets or adds is in its closure. -/
theorem PreparedAt.names_closure {before : RepositoryState} {input : PrepareRequest}
    {capsule : PreparedTxnCapsule} (h : PreparedAt before input capsule)
    (hverdict : capsule.verdict = .commit effects) :
    (∀ (name : RefName) oid, effects.refs[name]? = some (.set oid) → oid ∈ capsule.objectClosure) ∧
    (∀ root : RetentionRoot, effects.retention[root]? = some .add →
      root.object ∈ capsule.objectClosure) := by
  obtain ⟨record, -, -, rfl⟩ := h.produced
  have hcomm := evaluate_commit hverdict
  have hnamed : ∀ oid ∈ intentObjects input.request,
      oid ∈ (evaluate before input.request).objectClosure := by
    intro oid hoid
    exact hcomm.mem_closure.mpr (mem_append_right _ hoid)
  exact ⟨fun name oid he => hnamed oid (fold_sets_named hcomm.folded he),
    fun root he => hnamed root.object (fold_adds_named hcomm.folded he)⟩

variable {x : StagedBatch}

/-- A batch that wins admits the whole closure of each of its commits. -/
theorem Covered.promotes {input : CasRequest} (hcov : Covered s) (guards : SwapGuards s input x)
    {record : RepositoryCommitRecord} (hrec : record ∈ x.batch.committed)
    (hoid : oid ∈ record.objectClosure) : oid ∈ (installBatch s input.batch x).objects := by
  have hrelied : Relied s record.txId oid :=
    .inr ⟨input.batch, x, record, guards.lookup, guards.predecessor, hrec, rfl, hoid⟩
  rw [installBatch_eq]
  rcases hcov.available _ _ hrelied with hadm | hprom
  · exact get_foldl_promoteRecord _ _ (.inl hadm)
  · exact get_foldl_promoteRecord _ _ (.inr ⟨record, hrec, hoid, hprom⟩)

/-- Installing a batch drops no object. -/
theorem mem_installBatch {batchId : RepositoryDecisionBatchId} (h : oid ∈ s.objects) :
    oid ∈ (installBatch s batchId x).objects := by
  rw [installBatch_eq]
  exact get_foldl_promoteRecord _ _ (.inl h)

/-- Installing a covered batch on admitted roots. -/
theorem RootsAdmitted.install {input : CasRequest} (h : RootsAdmitted (run configuration done))
    (hcov : Covered (run configuration done))
    (guards : SwapGuards (run configuration done) input x) :
    RootsAdmitted (installBatch (run configuration done) input.batch x) := by
  obtain ⟨before, request, htook, ⟨attempt⟩, hhead⟩ := swap_staged_here guards
  obtain ⟨hrefs, hret⟩ := attempt.trace.written
  obtain ⟨-, -, -, -, -, -, hroots⟩ := attempt.candidateHead_eq
  rw [hhead] at hrefs hret
  -- whatever a record protects is in its closure, hence promoted now
  have hclosed : ∀ record ∈ x.batch.committed, ∃ capsule : PreparedTxnCapsule,
      record.objectClosure = capsule.objectClosure ∧
      (∀ (name : RefName) oid, record.effects.refs[name]? = some (.set oid) →
        oid ∈ capsule.objectClosure) ∧
      (∀ root : RetentionRoot, record.effects.retention[root]? = some .add →
        root.object ∈ capsule.objectClosure) := by
    intro record hrec
    obtain ⟨mid, capsule, after, origin⟩ := attempt.trace.origin_of_mem hrec
    obtain ⟨id, hheld⟩ := origin.held
    obtain ⟨prior, prepareInput, -, hprep⟩ := htook.provenance.capsule id capsule hheld
    exact ⟨capsule, origin.closure, hprep.names_closure origin.accepted.verdict⟩
  have hnew : (installBatch (run configuration done) input.batch x).head.body.roots
      = x.batch.resulting := by
    rw [installBatch_eq]
    exact hroots
  constructor
  · intro name oid hget
    rw [hnew] at hget
    rcases hrefs name oid hget with hold | ⟨record, hrec, hset⟩
    · exact mem_installBatch (h.refs name oid hold)
    · obtain ⟨capsule, hclo, hsets, -⟩ := hclosed record hrec
      exact hcov.promotes guards hrec (hclo ▸ hsets name oid hset)
  · intro root hmem
    rw [hnew] at hmem
    rcases hret root hmem with hold | ⟨record, hrec, hadd⟩
    · exact mem_installBatch (h.retention root hold)
    · obtain ⟨capsule, hclo, -, hadds⟩ := hclosed record hrec
      exact hcov.promotes guards hrec (hclo ▸ hadds root hadd)

theorem rootsAdmitted_step {i : ModelInput} (hcov : Covered (run configuration done))
    (h : RootsAdmitted (run configuration done)) :
    RootsAdmitted (next (run configuration done) i) := by
  have hmove := next_moves (run configuration done) i
  generalize next (run configuration done) i = s' at hmove
  cases hmove with
  | stays | sealed | quarantined | prepared | staged | cancelled | configured =>
    exact ⟨h.refs, h.retention⟩
  | swapped input x guards => exact h.install hcov guards

end Runs

/-- **No canonical root escapes the admitted objects, where staging keeps
what pending commits rely on.**  On every run whose staging steps never
replace such an object by an unverified one, the check of the source
succeeds in the state reached: every ref value and every retained object is
admitted. -/
theorem no_quarantine_escape (configuration : GenesisConfiguration) (inputs : List ModelInput)
    (h : Run.Meets next KeepsRelied (.genesis configuration) inputs) :
    (run configuration inputs).assertNoQuarantineEscape = .ok () ∧
      (∀ (name : RefName) oid,
        (run configuration inputs).head.body.roots.refs[name]? = some oid →
        oid ∈ (run configuration inputs).objects) ∧
      ∀ root : RetentionRoot, root ∈ (run configuration inputs).head.body.roots.retention →
        root.object ∈ (run configuration inputs).objects := by
  have hboth : Covered (run configuration inputs) ∧ RootsAdmitted (run configuration inputs) := by
    refine Run.exec_invariant_of_meets (P := fun _ s => Covered s ∧ RootsAdmitted s)
      ⟨.genesis configuration, ?_, ?_⟩ (fun done i ih hok => ?_) h
    · simp [genesis, genesisBody]
    · simp [genesis, genesisBody]
    · exact ⟨covered_step ih.1 hok, rootsAdmitted_step ih.1 ih.2⟩
  exact ⟨assertNoQuarantineEscape_iff.mpr hboth.2, hboth.2.refs, hboth.2.retention⟩

/-! ### A run that breaks the guard -/

/-- The ref `refs/heads/main`. -/
def mainRef : RefName :=
  ⟨[114, 101, 102, 115, 47, 104, 101, 97, 100, 115, 47, 109, 97, 105, 110], by decide⟩

/-- A repository in which one principal may write branches. -/
def branchConfiguration : GenesisConfiguration where
  tenant := ⟨0⟩
  repository := ⟨0⟩
  objectFormat := .sha1
  genesisHeadId := ⟨0⟩
  policy :=
    { epoch := .first
      protectedScopes := ∅
      principals := (∅ : BTreeMap PrincipalId PrincipalCapabilities).insert ⟨0⟩
        { writableScopes := (∅ : BTreeSet Scope).insert ⟨[104, 101, 97, 100, 115]⟩ }
      maxIntentsPerTransaction := 1
      supportedSchemas := (∅ : BTreeSet SchemaId).insert ⟨0⟩
      supportedDurability := (∅ : BTreeSet DurabilityProfile).insert .derivedGeneration }
  formatRegistryEpoch := .first

/-- A request of that principal to move `refs/heads/main`, without force. -/
def moveMain (txId : ℕ) (expected : ExpectedRefState) (new : GitOid) : TransactionRequest where
  txId := ⟨txId⟩
  tenant := ⟨0⟩
  repository := ⟨0⟩
  principal := ⟨0⟩
  schema := ⟨0⟩
  idempotencyKey := ⟨txId⟩
  canonicalRequestDigest := ⟨0, txId⟩
  statements := [⟨[.ref (.update mainRef expected new false)], .txnAbort⟩]
  promisedClosure := ∅
  atomic := true
  durability := .derivedGeneration

/-- Seal a request, stage objects for it and prepare it. -/
def preparing (request : TransactionRequest) (objects : List QuarantinedObject) : List ModelInput :=
  [.seal ⟨⟨request.txId.spelled⟩, request⟩, .stageObjects ⟨request.txId, objects⟩,
    .prepare ⟨⟨request.txId.spelled⟩, request, ⟨0⟩, ⟨0⟩, .refined⟩]

/-- Stage the one capsule of a prepared request and swap its batch in, on top
of the head with the given number. -/
def publishing (request : TransactionRequest) (head : RepositoryAuthorityHeadId)
    (generation : HeadGeneration) : List ModelInput :=
  let id := request.txId.spelled
  [.stage ⟨⟨id⟩, ⟨id⟩, [⟨id⟩],
      (∅ : BTreeMap TxId DecisionBodyIdentity).insert request.txId ⟨⟨id⟩, ⟨id⟩⟩, false⟩,
    .compareAndSwap ⟨head, generation, ⟨id⟩⟩]

/-- Create `refs/heads/main` at object 1. -/
def createMain : TransactionRequest := moveMain 1 .absent ⟨.sha1, 1⟩

/-- A run that keeps the guard and publishes: the object stays verified. -/
theorem no_quarantine_escape_published :
    let inputs := preparing createMain [⟨⟨.sha1, 1⟩, ⟨.sha1, 1⟩, []⟩] ++
      publishing createMain ⟨0⟩ .first
    Run.Meets next KeepsRelied (.genesis branchConfiguration) inputs ∧
      (run branchConfiguration inputs).head.body.roots.refs[mainRef]? = some ⟨.sha1, 1⟩ ∧
      (run branchConfiguration inputs).assertNoQuarantineEscape = .ok () := by
  intro inputs
  have hmeets : Run.Meets next KeepsRelied (.genesis branchConfiguration) inputs := by
    refine .cons trivial (.cons ?_ (.cons trivial (.cons trivial (.cons trivial .nil))))
    intro oid _ _ object hobj
    obtain ⟨hmem, -⟩ := lastDeclared_declared hobj
    rw [mem_singleton.mp hmem]
    decide
  exact ⟨hmeets, by decide, (no_quarantine_escape branchConfiguration inputs hmeets).1⟩

/-- **A staging step can cut a canonical ref off its object.**  After the
preparation the object is staged again with bytes that hash to something
else; promotion skips it and `refs/heads/main` names an object that is not
admitted. -/
theorem restaged_object_escapes :
    let s := run branchConfiguration
      (preparing createMain [⟨⟨.sha1, 1⟩, ⟨.sha1, 1⟩, []⟩] ++
        [.stageObjects ⟨⟨1⟩, [⟨⟨.sha1, 1⟩, ⟨.sha1, 2⟩, []⟩]⟩] ++ publishing createMain ⟨0⟩ .first)
    s.head.body.roots.refs[mainRef]? = some ⟨.sha1, 1⟩ ∧ (⟨.sha1, 1⟩ : GitOid) ∉ s.objects ∧
      s.assertNoQuarantineEscape = .error (.quarantineEscape ⟨.sha1, 1⟩) := by
  decide

end Frankengit.Reference
