/-
Frankengit/Reference/Evaluate.lean

The transaction evaluator (`fgit-txn`, `lib.rs` and `sparse.rs`).

`evaluate` folds a request against the whole basis, or against the part of it
that the request addresses when the basis is larger than the request.  A fold
depends only on what is addressed (`fold_same`), so the two are one
(`evaluate_eq_fold`).

`validateReport` checks the report of a fold.  `runIntents` lists what each
intent did in turn, and `Tally` says how the loop of the fold records it: the
position of the last change of each target, and the events of each stream.
Every report of a fold is then accepted, and its survivors are the last changes
of the targets the effects name (`fold_explained`).
-/
import Frankengit.Reference.Footprint
import Frankengit.Reference.NormalForm

namespace Frankengit.Reference

open Fallible List Std.ExtTreeMap BTree IntentMapping

/-! ### The sparse basis -/

/-- Whether the whole basis is no larger than the request. -/
def fullBasisFitsRequest (basis : FoldBasis) (request : TransactionRequest) : Bool :=
  let entries :=
    basis.refs.size + basis.forgePositions.size + basis.retention.size + basis.outbox.size
  if u64Max < entries then false
  else if entries = 0 then true
  else
    let intents := request.statements.foldl
      (fun count statement => min (count + statement.intents.length) u64Max) 0
    decide (entries ≤ intents)

/-- Copy the entry of a key, if there is one. -/
def copyEntry {K V : Type} [LinearOrder K] (source selected : BTreeMap K V) (k : K) :
    BTreeMap K V :=
  match source[k]? with
  | some value => selected.insert k value
  | none => selected

/-- One turn of the selection. -/
def selectIntent (basis selected : FoldBasis) : Intent → FoldBasis
  | .ref intent => { selected with refs := copyEntry basis.refs selected.refs intent.target }
  | .forge forge =>
    { selected with
      forgePositions := copyEntry basis.forgePositions selected.forgePositions forge.stream }
  | .retention (.addRoot root) | .retention (.removeRoot root) =>
    if root ∈ basis.retention then { selected with retention := selected.retention.insert root }
    else selected
  | .outbox outbox =>
    { selected with outbox := copyEntry basis.outbox selected.outbox outbox.deliveryKey }

/-- The part of the basis that the request addresses. -/
def selectBasis (basis : FoldBasis) (request : TransactionRequest) : FoldBasis :=
  request.addressedIntents.foldl (fun selected entry => selectIntent basis selected entry.2)
    ⟨∅, ∅, ∅, ∅⟩

/-- Fold a request, against the part of the basis it needs. -/
def IntentEvaluator.evaluate (basis : FoldBasis) (request : TransactionRequest) : FoldReport :=
  if fullBasisFitsRequest basis request then fold basis request
  else fold (selectBasis basis request) request

variable {request : TransactionRequest}

section Sparse

variable {basis selected : FoldBasis} {intent : Intent} {t : EffectTarget}

/-- What is read of an entry is copied with it. -/
theorem read_copyEntry {K V W : Type} [LinearOrder K] (read : Option V → W)
    {source selected : BTreeMap K V}
    {k : K} (h : read selected[k]? = read source[k]? ∨ read selected[k]? = read none) :
    read (copyEntry source selected k)[k]? = read source[k]? := by
  unfold copyEntry
  split
  · next value hvalue => rw [get_insert, if_pos rfl, hvalue]
  · next hnone =>
    rw [hnone] at h ⊢
    exact h.elim id id

theorem get_copyEntry_ne {K V : Type} [LinearOrder K] (source selected : BTreeMap K V) {k a : K}
    (h : k ≠ a) :
    (copyEntry source selected k)[a]? = selected[a]? := by
  unfold copyEntry
  split
  · rw [get_insert, if_neg h]
  · rfl

/-- A turn changes nothing but its target. -/
theorem selectIntent_frame (ht : intent.target ≠ t) :
    (selectIntent basis selected intent).SameAt selected t := by
  have hkeep : selected.SameAt selected t := .refl _ _
  have hret {root : RetentionRoot} (hne : EffectTarget.retention root ≠ t) :
      (if root ∈ basis.retention then { selected with retention := selected.retention.insert root }
        else selected).SameAt selected t := by
    split
    · cases t with
      | retention other =>
        show other ∈ selected.retention.insert root ↔ other ∈ selected.retention
        rw [BTree.mem_insert, or_iff_right fun e => hne (congrArg EffectTarget.retention e)]
      | ref | forgeStream | outbox => exact hkeep
    · exact hkeep
  rcases intent with intent | forge | (root | root) | outbox
  · cases t with
    | ref other => exact get_copyEntry_ne _ _ fun e => ht (congrArg EffectTarget.ref e)
    | forgeStream | retention | outbox => exact hkeep
  · cases t with
    | forgeStream stream =>
      refine ⟨congrArg (Option.getD · _) (get_copyEntry_ne _ _ fun e => ht ?_), rfl⟩
      exact congrArg EffectTarget.forgeStream e
    | ref | retention | outbox => exact hkeep
  · exact hret ht
  · exact hret ht
  · cases t with
    | outbox key => exact get_copyEntry_ne _ _ fun e => ht (congrArg EffectTarget.outbox e)
    | ref | forgeStream | retention => exact hkeep

/-- A turn copies its target. -/
theorem selectIntent_target (h : selected.SameAt basis intent.target ∨
    selected.SameAt ⟨∅, ∅, ∅, ∅⟩ intent.target) :
    (selectIntent basis selected intent).SameAt basis intent.target := by
  have hret {root : RetentionRoot} (h : (root ∈ selected.retention ↔ root ∈ basis.retention) ∨
      (root ∈ selected.retention ↔ root ∈ (∅ : BTreeSet RetentionRoot))) :
      (if root ∈ basis.retention then { selected with retention := selected.retention.insert root }
        else selected).SameAt basis (.retention root) := by
    split
    · next hmem => exact iff_of_true ((mem_insert _ _ _).mpr (.inl rfl)) hmem
    · next hnot =>
      refine h.elim id fun hnone => iff_of_false (fun hmem => ?_) hnot
      simpa using hnone.mp hmem
  have hnone {K V : Type} [LinearOrder K] {k : K} : (∅ : BTreeMap K V)[k]? = none := by simp
  rcases intent with intent | forge | (root | root) | outbox
  · exact read_copyEntry id (h.imp_right fun h => Eq.trans h hnone)
  · refine ⟨read_copyEntry (fun position => position.getD ForgeStreamPosition.genesis) ?_, rfl⟩
    exact h.imp (fun h => h.1) fun h => h.1.trans (congrArg (Option.getD · _) hnone)
  · exact hret h
  · exact hret h
  · exact read_copyEntry id (h.imp_right fun h => Eq.trans h hnone)

/-- The selection holds what the basis holds at every target of the request. -/
theorem selectBasis_same (ht : request.Targets t) : (selectBasis basis request).SameAt basis t := by
  obtain ⟨entry, hmem, rfl⟩ := ht
  -- a target is empty until its first turn and copied from then on
  suffices haux : ∀ (entries : List (IntentAddress × Intent)) (selected : FoldBasis),
      selected.SameAt basis entry.2.target ∨
        entry ∈ entries ∧ selected.SameAt ⟨∅, ∅, ∅, ∅⟩ entry.2.target →
      (entries.foldl
        (fun selected entry => selectIntent basis selected entry.2) selected).SameAt basis
        entry.2.target from haux _ _ (.inr ⟨hmem, .refl _ _⟩)
  intro entries
  induction entries with
  | nil => exact fun selected h => h.resolve_right fun h => not_mem_nil h.1
  | cons first rest ih =>
    intro selected h
    apply ih
    by_cases heq : first.2.target = entry.2.target
    · left
      rw [← heq] at h ⊢
      exact selectIntent_target (h.imp_right And.right)
    · have hframe : (selectIntent basis selected first.2).SameAt selected entry.2.target :=
        selectIntent_frame heq
      refine h.imp hframe.trans fun ⟨hmem, hempty⟩ => ⟨?_, hframe.trans hempty⟩
      exact (mem_cons.mp hmem).resolve_left fun e => heq (e ▸ rfl)

end Sparse

/-- **The evaluator is the reference folder.** -/
theorem evaluate_eq_fold (basis : FoldBasis) (request : TransactionRequest) :
    IntentEvaluator.evaluate basis request = fold basis request := by
  unfold IntentEvaluator.evaluate
  split
  · rfl
  · exact fold_same fun t ht => selectBasis_same ht

/-! ### Reports -/

/-- The same test as the folder's. -/
def targetIsSurviving (effects : NetEffects) (target : EffectTarget) : Bool :=
  targetChanged effects target

def EffectTarget.isForgeStream : EffectTarget → Bool
  | .forgeStream _ => true
  | _ => false

/-- The target an intent is said to have changed. -/
def IntentDisposition.survivor : IntentDisposition → Option EffectTarget
  | .surviving target => some target
  | _ => none

def IntentDisposition.isTransactionAborted : IntentDisposition → Bool
  | .transactionAborted => true
  | _ => false

/-- The survivors seen, and those that only one intent may write. -/
structure Survivors where
  survivors : BTreeSet EffectTarget
  singleWriterTargets : BTreeSet EffectTarget

/-- One turn of the walk over the mappings. -/
def validateMapping (effects : NetEffects) (seen : Survivors) (mapping : IntentMapping) :
    Except RefusalCode Survivors :=
  match mapping.disposition.survivor with
  | some target =>
    if targetIsSurviving effects target = false then .error .internalInvariantBreach
    else if target.isForgeStream = false ∧ target ∈ seen.singleWriterTargets then
      .error .conflictingSemanticEffects
    else .ok ⟨seen.survivors.insert target,
      if target.isForgeStream then seen.singleWriterTargets
        else seen.singleWriterTargets.insert target⟩
  | none => .ok seen

def effectTargets (effects : NetEffects) : List EffectTarget :=
  effects.refs.keys.map .ref ++ effects.forge.keys.map .forgeStream ++
    effects.retention.keys.map .retention ++ effects.outbox.keys.map .outbox

/-- Check the report of a fold against its request. -/
def validateReport (request : TransactionRequest) (report : FoldReport) :
    Except RefusalCode Unit := do
  refuseIf (report.mappings.length ≠ request.intentCount) .internalInvariantBreach
  refuseIf (report.mappings.map address ≠ request.addressedIntents.map Prod.fst)
    .internalInvariantBreach
  match report.outcome with
  | .aborted _ address =>
    refuseIf ((∀ entry ∈ request.addressedIntents, entry.1 ≠ address) ∨
      ¬ report.mappings.all fun mapping =>
        mapping.disposition.isTransactionAborted) .internalInvariantBreach
  | .folded effects =>
    let seen ← report.mappings.foldlM (validateMapping effects) ⟨∅, ∅⟩
    refuseIf (∃ target ∈ effectTargets effects, target ∉ seen.survivors) .internalInvariantBreach

/-! ### What each intent did -/

/-- The target that was changed, if one was. -/
def Applied.target : Applied → Option EffectTarget
  | .changed target => some target
  | _ => none

/-- The scratch state that intents leave, and what each of them changed. -/
def runIntents (scratch : Scratch) (entries : List (IntentAddress × Intent)) :
    Scratch × List (Option EffectTarget) :=
  entries.foldl (fun run entry =>
    let (scratch, applied) := applyIntent run.1 entry.2
    (scratch, run.2 ++ [applied.target])) (scratch, [])

/-- What each intent of a request changed. -/
def changesOf (basis : FoldBasis) (request : TransactionRequest) : List (Option EffectTarget) :=
  (runIntents (.fromBasis basis) request.addressedIntents).2

/-- The last position that a target was changed at. -/
def LastChange (changes : List (Option EffectTarget)) (t : EffectTarget) (i : ℕ) : Prop :=
  changes[i]? = some (some t) ∧ some t ∉ changes.drop (i + 1)

/-- An intent changes its target, or nothing. -/
theorem applyIntent_changed (a : Scratch) (intent : Intent) :
    (applyIntent a intent).2.target = some intent.target ∨
      (applyIntent a intent).2.target = none ∧ (applyIntent a intent).1 = a := by
  simp only [applyIntent, applyRef, applyForge, applyRetention, applyOutbox]
  repeat' split
  all_goals first | exact .inl rfl | exact .inr ⟨rfl, rfl⟩

/-- The number of changes of a stream is the number of its events. -/
theorem applyIntent_events (a : Scratch) (intent : Intent) (stream : ForgeStreamId) :
    ((applyIntent a intent).1.forgeEvents[stream]?.getD []).length
      = (a.forgeEvents[stream]?.getD []).length
      + [(applyIntent a intent).2.target].count (some (.forgeStream stream)) := by
  obtain hchanged | ⟨hnone, hsame⟩ := applyIntent_changed a intent
  · by_cases heq : intent.target = .forgeStream stream
    · rcases intent with intent | forge | (root | root) | outbox <;> cases heq
      simp only [applyIntent, applyForge] at hchanged ⊢
      repeat' split at hchanged
      · cases hchanged
      · cases hchanged
      · next hpos hroom => simp [hpos, hroom, Applied.target]
    · rw [hchanged, (applyIntent_frame a intent heq).2]
      simp [heq]
  · rw [hsame, hnone]
    rfl

variable {t : EffectTarget}

theorem lastChange_append {changes : List (Option EffectTarget)} {change : Option EffectTarget}
    {i : ℕ} : LastChange (changes ++ [change]) t i ↔
      if change = some t then i = changes.length else LastChange changes t i := by
  unfold LastChange
  rcases lt_trichotomy i changes.length with hlt | rfl | hgt
  · rw [getElem?_append_left hlt, drop_append_of_le_length hlt]
    split <;> simp_all [hlt.ne, eq_comm]
  · split <;> simp_all
  · split <;> simp_all [hgt.ne', hgt.le]

/-- What the loop of a fold has recorded. -/
structure Tally (basis : FoldBasis) (entries : List (IntentAddress × Intent))
    (changes : List (Option EffectTarget)) (st : FoldState) : Prop where
  addresses : st.mappings.map address = entries.map Prod.fst
  survivors : st.mappings.map (·.disposition.survivor) = changes
  decided : ∀ m ∈ st.mappings, m.disposition ≠ .transactionAborted
  contributed : ∀ t i, st.contributed[t]? = some i ↔ LastChange changes t i
  untouched : ∀ t, st.contributed[t]? = none → st.scratch.SameAt (.fromBasis basis) t
  events : ∀ stream, (st.scratch.forgeEvents[stream]?.getD []).length
    = changes.count (some (.forgeStream stream))

variable {st : FoldState}

/-- What one turn records. -/
theorem foldStep_records {st' : FoldState} {entry : IntentAddress × Intent}
    (h : foldStep request st entry = .ok st') :
    ∃ disposition, st'.mappings = st.mappings ++ [⟨entry.1, disposition⟩] ∧
      disposition.survivor = (applyIntent st.scratch entry.2).2.target ∧
      disposition ≠ .transactionAborted ∧
      st'.contributed = (applyIntent st.scratch entry.2).2.target.elim st.contributed
        (st.contributed.insert · st.mappings.length) := by
  unfold foldStep at h
  generalize applyIntent st.scratch entry.2 = result at h ⊢
  obtain ⟨scratch, applied⟩ := result
  cases applied with
  | changed target | absorbed reason =>
    cases h
    exact ⟨_, rfl, rfl, by simp, rfl⟩
  | mismatch code =>
    dsimp only at h
    split at h <;> cases h <;> exact ⟨_, rfl, rfl, by simp, rfl⟩

variable {basis : FoldBasis}

theorem Tally.step {done : List (IntentAddress × Intent)} {changes : List (Option EffectTarget)}
    {st' : FoldState} {entry : IntentAddress × Intent} (h : Tally basis done changes st)
    (hstep : foldStep request st entry = .ok st') :
    Tally basis (done ++ [entry]) (changes ++ [(applyIntent st.scratch entry.2).2.target]) st' := by
  obtain ⟨disposition, hmappings, hsurvivor, hdecided, hcontributed⟩ := foldStep_records hstep
  have hscratch := foldStep_scratch hstep
  have hlen : st.mappings.length = changes.length := by rw [← h.survivors, length_map]
  refine ⟨?_, ?_, ?_, fun t i => ?_, fun t hnone => ?_, fun stream => ?_⟩
  · simp [hmappings, h.addresses]
  · simp [hmappings, h.survivors, hsurvivor]
  · rw [hmappings]
    exact forall_mem_append.mpr ⟨h.decided, by simpa using hdecided⟩
  · rw [lastChange_append, hcontributed, ← hlen]
    cases htgt : (applyIntent st.scratch entry.2).2.target with
    | none => simpa using h.contributed t i
    | some target =>
      rw [Option.elim_some, get_insert]
      by_cases heq : target = t
      · simp [heq, eq_comm]
      · simpa [heq] using h.contributed t i
  · rw [hscratch]
    rw [hcontributed] at hnone
    obtain hchanged | ⟨hunchanged, hsame⟩ := applyIntent_changed st.scratch entry.2
    · rw [hchanged, Option.elim_some, get_insert] at hnone
      split at hnone
      · cases hnone
      · next hne => exact (applyIntent_frame _ _ hne).trans (h.untouched t hnone)
    · rw [hunchanged] at hnone
      rw [hsame]
      exact h.untouched t hnone
  · rw [hscratch, applyIntent_events, h.events, count_append]

theorem fold_tally
    (h : request.addressedIntents.foldlM (foldStep request) ⟨.fromBasis basis, [], ∅⟩ = .ok st) :
    Tally basis request.addressedIntents (changesOf basis request) st := by
  have hrun :=
    foldlM_induction (P := fun done m => m.scratch = (runIntents (.fromBasis basis) done).1 ∧
    Tally basis done (runIntents (.fromBasis basis) done).2 m) h ?_ ?_
  · exact hrun.2
  · exact ⟨rfl, rfl, rfl, by simp, by simp [runIntents, LastChange], fun t _ => .refl _ _,
      by simp [runIntents, Scratch.fromBasis]⟩
  · rintro done entry m m' - ⟨hscratch, htally⟩ hstep
    have hnext := htally.step hstep
    rw [hscratch] at hnext
    refine ⟨?_, ?_⟩
    · rw [foldStep_scratch hstep, hscratch]
      simp [runIntents]
    · simpa [runIntents] using hnext

/-! ### What a report says -/

/-- A target that holds what it held has no effect. -/
theorem targetChanged_of_same {scratch : Scratch} (h : scratch.SameAt (.fromBasis basis) t) :
    targetChanged (diff basis scratch) t = false := by
  cases t with
  | ref name =>
    have hsame : scratch.refs[name]? = basis.refs[name]? := h
    rw [targetChanged, ← isSome_getElem?_eq_contains, diff_refs, hsame]
    cases basis.refs[name]? <;> simp [refChange]
  | forgeStream stream =>
    rw [targetChanged, ← isSome_getElem?_eq_contains, diff_forge, h.2]
    simp [Scratch.fromBasis]
  | retention root =>
    have hsame : root ∈ scratch.retention ↔ root ∈ basis.retention := h
    rw [targetChanged, ← isSome_getElem?_eq_contains, diff_retention]
    simp [hsame]
  | outbox key =>
    have hsame : scratch.outbox[key]? = basis.outbox[key]? := h
    rw [targetChanged, ← isSome_getElem?_eq_contains, diff_outbox, hsame]
    cases basis.outbox[key]? <;> simp [Option.filter]

/-- The effect on a stream is its events. -/
theorem diff_events (basis : FoldBasis) (scratch : Scratch) (stream : ForgeStreamId) :
    (diff basis scratch).forge[stream]?.getD [] = scratch.forgeEvents[stream]?.getD [] ∧
      (targetChanged (diff basis scratch) (.forgeStream stream) = true ↔
        0 < (scratch.forgeEvents[stream]?.getD []).length) := by
  rw [targetChanged, ← isSome_getElem?_eq_contains, diff_forge]
  cases scratch.forgeEvents[stream]? with
  | none => simp
  | some events => cases events <;> simp [Option.filter]

variable {effects : NetEffects}

theorem mem_effectTargets : t ∈ effectTargets effects ↔ targetChanged effects t = true := by
  cases t <;> simp [effectTargets, targetChanged]

/-- A survivor stays one where the effects name its target and no other intent wrote it later. -/
theorem retire_survivor (effects : NetEffects) (contributed : BTreeMap EffectTarget ℕ) (i : ℕ)
    (disposition : IntentDisposition) :
    (retire effects contributed i disposition).survivor = disposition.survivor.filter fun t =>
      targetChanged effects t && (t.isForgeStream || decide (contributed[t]? = some i)) := by
  cases disposition with
  | surviving target =>
    cases target <;> simp only [retire] <;> split <;>
      simp_all [IntentDisposition.survivor, EffectTarget.isForgeStream, Option.filter]
  | absorbed | statementError | transactionAborted => rfl

theorem retire_ne_aborted {contributed : BTreeMap EffectTarget ℕ} {i : ℕ}
    {disposition : IntentDisposition} (h : disposition ≠ .transactionAborted) :
    retire effects contributed i disposition ≠ .transactionAborted := by
  cases disposition with
  | surviving target => cases target <;> simp only [retire] <;> split <;> simp
  | absorbed | statementError => simp [retire]
  | transactionAborted => exact absurd rfl h

/-- The mapping at a position says that the intent there changed the target. -/
def FoldReport.Survives (report : FoldReport) (i : ℕ) (t : EffectTarget) : Prop :=
  (report.mappings.map (·.disposition.survivor))[i]? = some (some t)

section Folded

variable {basis : FoldBasis} {request : TransactionRequest} {st : FoldState}
  (hst : request.addressedIntents.foldlM (foldStep request) ⟨.fromBasis basis, [], ∅⟩ = .ok st)

include hst

theorem fold_of_loop : fold basis request = ⟨.folded (diff basis st.scratch),
    retireAbsorbed (diff basis st.scratch) st.contributed st.mappings⟩ := by
  unfold fold
  rw [hst]

/-- A survivor is a change that the effects name; of a target with one writer, the last. -/
theorem survives_iff {i : ℕ} : (fold basis request).Survives i t ↔
    (changesOf basis request)[i]? = some (some t) ∧ targetChanged (diff basis st.scratch) t = true ∧
      (t.isForgeStream = true ∨ st.contributed[t]? = some i) := by
  rw [fold_of_loop hst, FoldReport.Survives, ← (fold_tally hst).survivors]
  simp only [retireAbsorbed, List.map_map, getElem?_map, getElem?_zipIdx]
  cases st.mappings[i]? with
  | none => simp
  | some m => simp [retire_survivor, Option.filter_eq_some_iff]

/-- A target that the effects name was changed. -/
theorem exists_survives (h : targetChanged (diff basis st.scratch) t = true) :
    ∃ i, (fold basis request).Survives i t ∧ st.contributed[t]? = some i := by
  have htally := fold_tally hst
  cases hlast : st.contributed[t]? with
  | none =>
    rw [targetChanged_of_same (htally.untouched t hlast)] at h
    cases h
  | some i =>
    exact ⟨i, (survives_iff hst).mpr ⟨((htally.contributed t i).mp hlast).1, h, .inr hlast⟩, rfl⟩

theorem contributed_of_survives {i : ℕ} (hforge : t.isForgeStream = false)
    (h : (fold basis request).Survives i t) : st.contributed[t]? = some i := by
  simpa [hforge] using ((survives_iff hst).mp h).2.2

theorem exists_unique_survives (hforge : t.isForgeStream = false) :
    targetChanged (diff basis st.scratch) t = true ↔ ∃! i, (fold basis request).Survives i t := by
  refine ⟨fun hchanged => ?_, fun ⟨i, hi, _⟩ => ((survives_iff hst).mp hi).2.1⟩
  obtain ⟨i, hi, hlast⟩ := exists_survives hst hchanged
  refine ⟨i, hi, fun j hj => ?_⟩
  exact Option.some.inj ((contributed_of_survives hst hforge hj).symm.trans hlast)

/-- As many intents survive on a stream as it has events. -/
theorem survives_events (stream : ForgeStreamId) :
    ((fold basis request).mappings.map (·.disposition.survivor)).count (some (.forgeStream stream))
      = ((diff basis st.scratch).forge[stream]?.getD []).length := by
  have htally := fold_tally hst
  rw [(diff_events ..).1, htally.events, ← htally.survivors, fold_of_loop hst]
  -- retiring keeps every survivor of a stream
  simp only [retireAbsorbed, List.map_map, List.count, countP_map]
  rw [← zipIdx_map_fst 0 st.mappings, countP_map, zipIdx_map_fst]
  refine countP_congr fun e he => ?_
  simp only [Function.comp_apply, beq_iff_eq, retire_survivor, Option.filter_eq_some_iff]
  refine and_iff_left_of_imp fun hsurvivor => ?_
  have hcount : 0 < (changesOf basis request).count (some (.forgeStream stream)) := by
    rw [count_pos_iff, ← htally.survivors]
    exact mem_map.mpr ⟨e.1, fst_mem_of_mem_zipIdx he, hsurvivor⟩
  rw [← htally.events, ← (diff_events basis ..).2] at hcount
  simp [hcount, EffectTarget.isForgeStream]

theorem exists_survives_forge {stream : ForgeStreamId} :
    targetChanged (diff basis st.scratch) (.forgeStream stream) = true ↔
      ∃ i, (fold basis request).Survives i (.forgeStream stream) := by
  rw [(diff_events ..).2, ← (diff_events basis ..).1, ← survives_events hst, count_pos_iff,
    mem_iff_getElem?]
  rfl

theorem mapping_decided {m : IntentMapping} (hm : m ∈ (fold basis request).mappings)
    (hnone : m.disposition.survivor = none) :
    (∃ reason, m.disposition = .absorbed reason) ∨
      ∃ code, m.disposition = .statementError code := by
  rw [fold_of_loop hst] at hm
  obtain ⟨e, he, rfl⟩ := mem_map.mp hm
  have hdecided : retire
      (diff basis st.scratch) st.contributed e.2 e.1.disposition ≠ .transactionAborted :=
    retire_ne_aborted ((fold_tally hst).decided e.1 (fst_mem_of_mem_zipIdx he))
  generalize retire _ _ _ _ = disposition at hnone hdecided ⊢
  cases disposition with
  | surviving t => cases hnone
  | absorbed reason => exact .inl ⟨reason, rfl⟩
  | statementError code => exact .inr ⟨code, rfl⟩
  | transactionAborted => exact absurd rfl hdecided

/-- Only a stream has more than one survivor. -/
theorem survivors_once :
    (fold basis request).mappings.Pairwise fun a b => ∀ t, t.isForgeStream = false →
    a.disposition.survivor = some t → b.disposition.survivor ≠ some t := by
  rw [pairwise_iff_getElem]
  intro i j hi hj hlt t hforge ha hb
  have hlast : ∀ {k : ℕ} (hk : k < (fold basis request).mappings.length),
      ((fold basis request).mappings[k]).disposition.survivor = some t →
        st.contributed[t]? = some k := by
    intro k hk h
    exact contributed_of_survives hst hforge (by simp [FoldReport.Survives, hk, h])
  exact hlt.ne (Option.some.inj ((hlast hi ha).symm.trans (hlast hj hb)))

end Folded

/-! ### Reports are valid -/

/-- The walk passes where the survivors are named by the effects and have one writer each. -/
theorem validateMappings_ok {mappings : List IntentMapping} (seen : Survivors)
    (hnamed : ∀ m ∈ mappings, ∀ t, m.disposition.survivor = some t → targetChanged effects t = true)
    (honce : mappings.Pairwise fun a b => ∀ t, t.isForgeStream = false →
      a.disposition.survivor = some t →
      b.disposition.survivor ≠ some t)
    (hfresh : ∀ m ∈ mappings, ∀ t, m.disposition.survivor = some t → t ∉ seen.singleWriterTargets) :
    ∃ seen', mappings.foldlM (validateMapping effects) seen = .ok seen' ∧ ∀ t,
      t ∈ seen.survivors ∨ some t ∈ mappings.map (·.disposition.survivor) →
        t ∈ seen'.survivors := by
  induction mappings generalizing seen with
  | nil => exact ⟨seen, rfl, by simp⟩
  | cons m rest ih =>
    obtain ⟨hfirst, honce⟩ := pairwise_cons.mp honce
    obtain ⟨hnamedm, hnamed⟩ := forall_mem_cons.mp hnamed
    obtain ⟨hfreshm, hfresh⟩ := forall_mem_cons.mp hfresh
    simp only [foldlM_cons_ok, validateMapping]
    cases hsurvivor : m.disposition.survivor with
    | none =>
      obtain ⟨seen', hseen', hall⟩ := ih seen hnamed honce hfresh
      exact ⟨seen', ⟨seen, rfl, hseen'⟩, by simpa [hsurvivor] using hall⟩
    | some target =>
      obtain ⟨seen', hseen', hall⟩ := ih ⟨seen.survivors.insert target,
          if target.isForgeStream then seen.singleWriterTargets
          else seen.singleWriterTargets.insert target⟩ hnamed honce fun b hb t ht => by
        split
        · exact hfresh b hb t ht
        · next hforge =>
          rw [BTree.mem_insert, not_or]
          refine ⟨?_, hfresh b hb t ht⟩
          rintro rfl
          exact hfirst b hb target (by simpa using hforge) hsurvivor ht
      refine ⟨seen', ⟨_, ?_, hseen'⟩, fun t ht => hall t ?_⟩
      · simp [targetIsSurviving, hnamedm target hsurvivor, hfreshm target hsurvivor]
      · rw [BTree.mem_insert]
        simpa [hsurvivor, or_assoc, or_left_comm, eq_comm] using ht

theorem length_addressedIntents (request : TransactionRequest) :
    request.addressedIntents.length = request.intentCount := by
  rw [TransactionRequest.addressedIntents, length_flatMap, TransactionRequest.intentCount]
  refine congrArg sum (ext_getElem? fun i => ?_)
  cases h : request.statements[i]? <;> simp [h]

theorem fold_addresses (basis : FoldBasis) (request : TransactionRequest) :
    (fold basis request).mappings.map address = request.addressedIntents.map Prod.fst := by
  cases hst : request.addressedIntents.foldlM (foldStep request) ⟨.fromBasis basis, [], ∅⟩ with
  | error e =>
    rw [fold, hst]
    simp
  | ok st =>
    rw [fold_of_loop hst, ← (fold_tally hst).addresses]
    refine ext_getElem? fun i => ?_
    cases h : st.mappings[i]? <;> simp [retireAbsorbed, h]

/-- **The report of a fold is valid and explains its effects.** -/
theorem fold_explained (basis : FoldBasis) (request : TransactionRequest) :
    validateReport request (fold basis request) = .ok () ∧
    (fold basis request).mappings.map IntentMapping.address
      = request.addressedIntents.map Prod.fst ∧
    ∀ effects, (fold basis request).outcome = .folded effects →
      (∀ t, t.isForgeStream = false →
        (targetIsSurviving effects t = true ↔ ∃! i, (fold basis request).Survives i t) ∧
        ∀ i, (fold basis request).Survives i t → LastChange (changesOf basis request) t i) ∧
      (∀ stream,
        (targetIsSurviving effects (.forgeStream stream) = true ↔
          ∃ i, (fold basis request).Survives i (.forgeStream stream)) ∧
        ((fold basis request).mappings.map (·.disposition.survivor)).count
          (some (.forgeStream stream))
          = (effects.forge[stream]?.getD []).length) ∧
      ∀ m ∈ (fold basis request).mappings, m.disposition.survivor = none →
        (∃ reason, m.disposition = .absorbed reason) ∨
          ∃ code, m.disposition = .statementError code := by
  have haddr := fold_addresses basis request
  have hlen : (fold basis request).mappings.length = request.intentCount := by
    rw [← length_addressedIntents, ← length_map (f := Prod.fst), ← haddr, length_map]
  simp only [validateReport, bind_eq_ok, refuseIf_eq_ok, not_not]
  obtain ⟨st, hst, -⟩ | ⟨code, before, address, intent, after, w, herror, hsplit, -⟩ :=
    foldlM_execute request request.addressedIntents ⟨.fromBasis basis, [], ∅⟩
  · have hout : (fold basis request).outcome = .folded (diff basis st.scratch) :=
      by rw [fold_of_loop hst]
    refine ⟨⟨⟨⟩, hlen, ⟨⟩, haddr, ?_⟩, haddr, fun effects heffects => ?_⟩
    · have hnamed : ∀ m ∈ (fold basis request).mappings, ∀ t, m.disposition.survivor = some t →
          targetChanged (diff basis st.scratch) t = true := by
        intro m hm t ht
        obtain ⟨i, hi⟩ := mem_iff_getElem?.mp hm
        exact ((survives_iff hst).mp (show (fold basis request).Survives i t by
          simp [FoldReport.Survives, hi, ht])).2.1
      obtain ⟨seen, hseen, hall⟩ := validateMappings_ok ⟨∅, ∅⟩ hnamed (survivors_once hst) (by simp)
      rw [hout]
      refine bind_eq_ok.mpr ⟨seen, hseen, refuseIf_eq_ok.mpr ?_⟩
      rintro ⟨t, ht, hnot⟩
      obtain ⟨i, hi, -⟩ := exists_survives hst (mem_effectTargets.mp ht)
      exact hnot (hall t (.inr (mem_of_getElem? hi)))
    · cases hout.symm.trans heffects
      refine ⟨fun t hforge => ⟨exists_unique_survives hst hforge, fun i hi => ?_⟩,
        fun stream => ⟨exists_survives_forge hst, survives_events hst stream⟩,
          fun m => mapping_decided hst⟩
      exact ((fold_tally hst).contributed t i).mp (contributed_of_survives hst hforge hi)
  · have hfold : fold basis request = ⟨.aborted code address,
        request.addressedIntents.map fun entry => ⟨entry.1, .transactionAborted⟩⟩ := by
      rw [fold, herror]
    refine ⟨⟨⟨⟩, hlen, ⟨⟩, haddr, ?_⟩, haddr, by simp [hfold]⟩
    rw [hfold]
    refine refuseIf_eq_ok.mpr ?_
    rintro (hall | hnot)
    · exact hall (address, intent) (by simp [hsplit]) rfl
    · exact hnot (by simp [IntentDisposition.isTransactionAborted])

end Frankengit.Reference
