/-
Frankengit/Reference/Footprint.lean

The footprint of a fold.

Each intent reads and writes one target (`Intent.target`).  So a fold only
depends on what its basis holds at the targets of the request
(`fold_same`), and its effects only touch those targets
(`fold_refs_target`).  A preparation records exactly these values in its
conflict witness (`buildWitness_records`); hence a witness whose reads still
hold against other roots promises that the fold would go the same way there
(`refold_same`), whatever its granularity.
-/
import Frankengit.Lib.Fallible
import Frankengit.Reference.Prepare

namespace Frankengit.Reference

open Fallible List EffectTarget BTree

/-! ### Targets -/

/-- The target an intent reads and writes. -/
def Intent.target : Intent → EffectTarget
  | .ref intent => .ref intent.target
  | .forge intent => .forgeStream intent.stream
  | .retention (.addRoot root) | .retention (.removeRoot root) => .retention root
  | .outbox intent => .outbox intent.deliveryKey

/-- Two scratch states hold the same at a target. -/
def Scratch.SameAt (a b : Scratch) : EffectTarget → Prop
  | .ref name => a.refs[name]? = b.refs[name]?
  | .forgeStream stream =>
    positionOf a.forgePositions stream = positionOf b.forgePositions stream ∧
      a.forgeEvents[stream]? = b.forgeEvents[stream]?
  | .retention root => root ∈ a.retention ↔ root ∈ b.retention
  | .outbox key => a.outbox[key]? = b.outbox[key]?

variable {t : EffectTarget} (a : Scratch)

namespace Scratch.SameAt

theorem refl (t : EffectTarget) : a.SameAt a t := by
  cases t with
  | ref | outbox => exact rfl
  | forgeStream => exact ⟨rfl, rfl⟩
  | retention => exact Iff.rfl

theorem trans {a b c : Scratch} (hab : a.SameAt b t) (hbc : b.SameAt c t) : a.SameAt c t := by
  cases t with
  | ref | outbox => exact Eq.trans hab hbc
  | forgeStream => exact ⟨hab.1.trans hbc.1, hab.2.trans hbc.2⟩
  | retention => exact Iff.trans hab hbc

theorem symm {a b : Scratch} (h : a.SameAt b t) : b.SameAt a t := by
  cases t with
  | ref | outbox => exact Eq.symm h
  | forgeStream => exact ⟨h.1.symm, h.2.symm⟩
  | retention => exact Iff.symm h

end Scratch.SameAt

/-! ### One intent -/

/-- What an intent makes of a scratch state: nothing, or one binding at its
own target. -/
inductive Writes (a : Scratch) : Intent → Scratch → Prop
  | nothing {intent} : Writes a intent a
  | set {name expected new force} : Writes a (.ref (.update name expected new force))
      { a with refs := a.refs.insert name new }
  | delete {name expected} : Writes a (.ref (.delete name expected))
      { a with refs := a.refs.erase name }
  | append {forge position events} : Writes a (.forge forge)
      { a with
        forgePositions := a.forgePositions.insert forge.stream position
        forgeEvents := a.forgeEvents.insert forge.stream events }
  | add {root} : Writes a (.retention (.addRoot root))
      { a with retention := a.retention.insert root }
  | remove {root} : Writes a (.retention (.removeRoot root))
      { a with retention := a.retention.erase root }
  | bind {outbox} : Writes a (.outbox outbox)
      { a with outbox := a.outbox.insert outbox.deliveryKey outbox.parameters }

variable (intent : Intent)

theorem applyIntent_writes : Writes a intent (applyIntent a intent).1 := by
  simp only [applyIntent, applyRef, applyForge, applyRetention, applyOutbox]
  repeat' split
  all_goals constructor

/-- An intent changes nothing but its own target. -/
theorem applyIntent_frame (ht : intent.target ≠ t) : (applyIntent a intent).1.SameAt a t := by
  have hkeep : a.SameAt a t := .refl a t
  have hwrites := applyIntent_writes a intent
  generalize (applyIntent a intent).1 = b at hwrites ⊢
  cases hwrites with
  | nothing => exact hkeep
  | set =>
    cases t with
    | ref => exact (get_insert ..).trans (if_neg fun e => ht (congrArg ref e))
    | forgeStream | retention | outbox => exact hkeep
  | delete =>
    cases t with
    | ref => exact (get_erase ..).trans (if_neg fun e => ht (congrArg ref e))
    | forgeStream | retention | outbox => exact hkeep
  | @append forge =>
    cases t with
    | forgeStream stream =>
      have hne : ¬ forge.stream = stream := fun e => ht (congrArg forgeStream e)
      exact ⟨by simp only [positionOf, get_insert, if_neg hne],
        by simp only [get_insert, if_neg hne]⟩
    | ref | retention | outbox => exact hkeep
  | add =>
    cases t with
    | retention =>
      exact (mem_insert ..).trans (or_iff_right fun e => ht (congrArg retention e))
    | ref | forgeStream | outbox => exact hkeep
  | remove =>
    cases t with
    | retention =>
      exact (mem_erase ..).trans (and_iff_right fun e => ht (congrArg retention e))
    | ref | forgeStream | outbox => exact hkeep
  | bind =>
    cases t with
    | outbox => exact (get_insert ..).trans (if_neg fun e => ht (congrArg outbox e))
    | ref | forgeStream | retention => exact hkeep

/-- Scratch states that hold the same at the target of an intent take it
the same way and hold the same there afterwards. -/
theorem applyIntent_same {a b : Scratch} (intent : Intent) (h : a.SameAt b intent.target) :
    (applyIntent a intent).2 = (applyIntent b intent).2 ∧
      (applyIntent a intent).1.SameAt (applyIntent b intent).1 intent.target := by
  rcases intent with (⟨name, expected, new, force⟩ | ⟨name, expected⟩) | forge
    | (root | root) | outbox
  · have hget : a.refs[name]? = b.refs[name]? := h
    simp only [applyIntent, applyRef, hget]
    split
    · exact ⟨rfl, h⟩
    split
    · exact ⟨rfl, h⟩
    · exact ⟨rfl, by simp [Intent.target, RefIntent.target, Scratch.SameAt]⟩
  · have hget : a.refs[name]? = b.refs[name]? := h
    have hmem : name ∈ a.refs ↔ name ∈ b.refs := by
      rw [← Std.ExtTreeMap.isSome_getElem?_iff_mem, hget, Std.ExtTreeMap.isSome_getElem?_iff_mem]
    simp only [applyIntent, applyRef, hget, hmem]
    split
    · exact ⟨rfl, h⟩
    split
    · exact ⟨rfl, by simp [Intent.target, RefIntent.target, Scratch.SameAt]⟩
    · exact ⟨rfl, h⟩
  · obtain ⟨hpos, hevents⟩ := h
    simp only [applyIntent, applyForge, hpos, hevents]
    split
    · exact ⟨rfl, hpos, hevents⟩
    split
    · exact ⟨rfl, hpos, hevents⟩
    · exact ⟨rfl, by simp [positionOf], by simp⟩
  · have hmem : root ∈ a.retention ↔ root ∈ b.retention := h
    simp only [applyIntent, applyRetention, hmem]
    split
    · exact ⟨rfl, h⟩
    · exact ⟨rfl, by simp [Intent.target, Scratch.SameAt]⟩
  · have hmem : root ∈ a.retention ↔ root ∈ b.retention := h
    simp only [applyIntent, applyRetention, hmem]
    split
    · exact ⟨rfl, by simp [Intent.target, Scratch.SameAt]⟩
    · exact ⟨rfl, h⟩
  · have hget : a.outbox[outbox.deliveryKey]? = b.outbox[outbox.deliveryKey]? := h
    simp only [applyIntent, applyOutbox, hget]
    cases b.outbox[outbox.deliveryKey]? with
    | some bound =>
      dsimp only
      split <;> exact ⟨rfl, h⟩
    | none => exact ⟨rfl, by simp [Intent.target, Scratch.SameAt]⟩

/-! ### The loop -/

/-- Two loop states differ at most in what their scratch states hold outside
the targets in `T`. -/
structure FoldState.SameOn (T : EffectTarget → Prop) (st st' : FoldState) : Prop where
  scratch : ∀ t, T t → st.scratch.SameAt st'.scratch t
  mappings : st.mappings = st'.mappings
  contributed : st.contributed = st'.contributed

/-- Two turns or loops end the same way: in states that agree on `T`, or
with the same abort. -/
def SameEnd (T : EffectTarget → Prop) : Except (RefusalCode × IntentAddress) FoldState →
      Except (RefusalCode × IntentAddress) FoldState → Prop
  | .ok st, .ok st' => st.SameOn T st'
  | .error e, .error e' => e = e'
  | _, _ => False

variable {st : FoldState} {entry : IntentAddress × Intent}
  {T : EffectTarget → Prop} {st' : FoldState}

theorem foldStep_same (request : TransactionRequest) (h : st.SameOn T st') (hT : T entry.2.target) :
    SameEnd T (foldStep request st entry) (foldStep request st' entry) := by
  obtain ⟨happlied, hsame⟩ := applyIntent_same entry.2 (h.scratch _ hT)
  -- after the intent the scratch states still agree on all of `T`
  have hscratch : ∀ t, T t →
      (applyIntent st.scratch entry.2).1.SameAt (applyIntent st'.scratch entry.2).1 t := by
    intro t ht
    by_cases heq : entry.2.target = t
    · exact heq ▸ hsame
    · exact ((applyIntent_frame _ _ heq).trans (h.scratch t ht)).trans
        (applyIntent_frame _ _ heq).symm
  unfold foldStep
  generalize applyIntent st.scratch entry.2 = result at happlied hscratch ⊢
  generalize applyIntent st'.scratch entry.2 = result' at happlied hscratch ⊢
  obtain ⟨scratch, applied⟩ := result
  obtain ⟨scratch', applied'⟩ := result'
  obtain rfl : applied = applied' := happlied
  cases applied with
  | changed target => exact ⟨hscratch, by rw [h.mappings], by rw [h.mappings, h.contributed]⟩
  | absorbed reason => exact ⟨hscratch, by rw [h.mappings], h.contributed⟩
  | mismatch code =>
    cases policyAt request entry.1 with
    | noOp | statementError => exact ⟨hscratch, by rw [h.mappings], h.contributed⟩
    | txnAbort => exact rfl

theorem foldlM_same (request : TransactionRequest) (entries : List (IntentAddress × Intent))
    (hT : ∀ entry ∈ entries, T entry.2.target) : ∀ {st st' : FoldState}, st.SameOn T st' →
      SameEnd T (entries.foldlM (foldStep request) st) (entries.foldlM (foldStep request) st') := by
  induction entries with
  | nil => exact fun h => h
  | cons entry rest ih =>
    intro st st' h
    have hstep := foldStep_same request h (hT entry (by simp))
    rw [foldlM_cons, foldlM_cons]
    generalize foldStep request st entry = m, foldStep request st' entry = m' at hstep ⊢
    rcases m with e | m <;> rcases m' with e' | m'
    · exact hstep
    · exact hstep.elim
    · exact hstep.elim
    · exact ih (fun e he => hT e (by simp [he])) hstep

variable {request : TransactionRequest}

/-- A turn of the fold ends in the scratch state of its intent. -/
theorem foldStep_scratch (h : foldStep request st entry = .ok st') :
    st'.scratch = (applyIntent st.scratch entry.2).1 := by
  unfold foldStep at h
  generalize applyIntent st.scratch entry.2 = result at h ⊢
  obtain ⟨scratch, applied⟩ := result
  cases applied with
  | changed target | absorbed reason => cases h; rfl
  | mismatch code =>
    dsimp only at h
    split at h <;> cases h <;> rfl

/-- A loop leaves every target alone that no entry names. -/
theorem foldlM_frame {entries : List (IntentAddress × Intent)}
    (h : entries.foldlM (foldStep request) st = .ok st')
    (ht : ∀ entry ∈ entries, entry.2.target ≠ t) : st'.scratch.SameAt st.scratch t :=
  foldlM_induction (P := fun _ m => m.scratch.SameAt st.scratch t) h (.refl _ _)
    fun _ entry _ _ hmem ih hstep =>
      (foldStep_scratch hstep ▸ applyIntent_frame _ _ (ht entry hmem)).trans ih

/-! ### The fold -/

/-- Two bases hold the same at a target. -/
def FoldBasis.SameAt (basis basis' : FoldBasis) (t : EffectTarget) : Prop :=
  (Scratch.fromBasis basis).SameAt (.fromBasis basis') t

/-- The targets of a request. -/
def TransactionRequest.Targets (request : TransactionRequest) (t : EffectTarget) : Prop :=
  ∃ entry ∈ request.addressedIntents, entry.2.target = t

variable {basis : FoldBasis}

theorem diff_same {basis' : FoldBasis} {scratch scratch' : Scratch}
    (hbasis : ∀ t, T t → basis.SameAt basis' t) (hscratch : ∀ t, T t → scratch.SameAt scratch' t)
    (hframe : ∀ t, ¬ T t → scratch.SameAt (.fromBasis basis) t)
    (hframe' : ∀ t, ¬ T t → scratch'.SameAt (.fromBasis basis') t) :
    diff basis scratch = diff basis' scratch' := by
  refine NetEffects.ext ?_ ?_ ?_ ?_ <;> refine Std.ExtTreeMap.ext_getElem? fun a => ?_
  · rw [diff_refs, diff_refs]
    by_cases hT : T (.ref a)
    · rw [show basis.refs[a]? = basis'.refs[a]? from hbasis _ hT,
        show scratch.refs[a]? = scratch'.refs[a]? from hscratch _ hT]
    · -- an untouched ref has no effect on either side
      rw [show scratch.refs[a]? = basis.refs[a]? from hframe _ hT,
        show scratch'.refs[a]? = basis'.refs[a]? from hframe' _ hT]
      cases basis.refs[a]? <;> cases basis'.refs[a]? <;> simp [refChange]
  · rw [diff_forge, diff_forge]
    by_cases hT : T (.forgeStream a)
    · rw [(hscratch _ hT).2]
    · rw [(hframe _ hT).2, (hframe' _ hT).2]
      rfl
  · rw [diff_retention, diff_retention]
    by_cases hT : T (.retention a)
    · have hb : a ∈ basis.retention ↔ a ∈ basis'.retention := hbasis _ hT
      have hs : a ∈ scratch.retention ↔ a ∈ scratch'.retention := hscratch _ hT
      simp only [hb, hs]
    · have hs : a ∈ scratch.retention ↔ a ∈ basis.retention := hframe _ hT
      have hs' : a ∈ scratch'.retention ↔ a ∈ basis'.retention := hframe' _ hT
      simp [hs, hs']
  · rw [diff_outbox, diff_outbox]
    by_cases hT : T (.outbox a)
    · rw [show basis.outbox[a]? = basis'.outbox[a]? from hbasis _ hT,
        show scratch.outbox[a]? = scratch'.outbox[a]? from hscratch _ hT]
    · rw [show scratch.outbox[a]? = basis.outbox[a]? from hframe _ hT,
        show scratch'.outbox[a]? = basis'.outbox[a]? from hframe' _ hT]
      cases basis.outbox[a]? <;> cases basis'.outbox[a]? <;> simp [Option.filter]

/-- **A fold depends only on the targets of its request.** -/
theorem fold_same {basis' : FoldBasis} (h : ∀ t, request.Targets t → basis.SameAt basis' t) :
    fold basis request = fold basis' request := by
  have hnames : ∀ entry ∈ request.addressedIntents, request.Targets entry.2.target :=
    fun entry hmem => ⟨entry, hmem, rfl⟩
  have hstart : FoldState.SameOn request.Targets ⟨.fromBasis basis, [], ∅⟩
      ⟨.fromBasis basis', [], ∅⟩ := ⟨h, rfl, rfl⟩
  have hloop := foldlM_same request request.addressedIntents hnames hstart
  unfold fold
  generalize hm : request.addressedIntents.foldlM (foldStep request) ⟨.fromBasis basis, [], ∅⟩ = m,
    hm' : request.addressedIntents.foldlM (foldStep request) ⟨.fromBasis basis', [], ∅⟩ = m'
    at hloop ⊢
  rcases m with e | st <;> rcases m' with e' | st'
  · obtain rfl : e = e' := hloop
    rfl
  · exact hloop.elim
  · exact hloop.elim
  · have hdiff : diff basis st.scratch = diff basis' st'.scratch :=
      diff_same h hloop.scratch (fun t ht => foldlM_frame hm fun e he heq => ht ⟨e, he, heq⟩)
        (fun t ht => foldlM_frame hm' fun e he heq => ht ⟨e, he, heq⟩)
    simp only [hdiff, hloop.mappings, hloop.contributed]

variable {name : RefName}

/-! ### Where the values of effects come from -/

/-- Every ref value and retention root of the scratch state is the basis's
or was written by one of the intents. -/
structure Written (basis : FoldBasis) (done : List (IntentAddress × Intent)) (scratch : Scratch) :
    Prop where
  refs : ∀ (name : RefName) oid, scratch.refs[name]? = some oid → basis.refs[name]? = some oid ∨
      ∃ entry ∈ done, ∃ expected force, entry.2 = .ref (.update name expected oid force)
  retention : ∀ root : RetentionRoot, root ∈ scratch.retention →
    root ∈ basis.retention ∨ ∃ entry ∈ done, intentObject entry.2 = some root.object

variable {oid : GitOid}

theorem applyIntent_writes_ref (h : (applyIntent a intent).1.refs[name]? = some oid) :
    a.refs[name]? = some oid ∨
      ∃ expected force, intent = .ref (.update name expected oid force) := by
  have hwrites := applyIntent_writes a intent
  generalize (applyIntent a intent).1 = b at hwrites h
  cases hwrites with
  | set =>
    obtain ⟨rfl, rfl⟩ | ⟨-, h⟩ := get_insert_some h
    · exact .inr ⟨_, _, rfl⟩
    · exact .inl h
  | delete => exact .inl (get_erase_some h).2
  | nothing | append | add | remove | bind => exact .inl h

theorem applyIntent_writes_retention {root : RetentionRoot}
    (h : root ∈ (applyIntent a intent).1.retention) :
    root ∈ a.retention ∨ intentObject intent = some root.object := by
  have hwrites := applyIntent_writes a intent
  generalize (applyIntent a intent).1 = b at hwrites h
  cases hwrites with
  | add =>
    rcases (mem_insert ..).mp h with rfl | h
    · exact .inr rfl
    · exact .inl h
  | remove => exact .inl ((mem_erase ..).mp h).2
  | nothing | set | delete | append | bind => exact .inl h

theorem foldlM_written
    (h : request.addressedIntents.foldlM (foldStep request) ⟨.fromBasis basis, [], ∅⟩ = .ok st) :
    Written basis request.addressedIntents st.scratch := by
  refine foldlM_induction (P := fun done m => Written basis done m.scratch) h
    ⟨fun _ _ h => .inl h, fun _ h => .inl h⟩ fun done entry m m' _ ih hstep => ?_
  have hlast : entry ∈ done ++ [entry] := by simp
  rw [foldStep_scratch hstep]
  refine ⟨fun name oid hget => ?_, fun root hmem => ?_⟩
  · rcases applyIntent_writes_ref _ _ hget with hold | hnew
    · exact (ih.refs name oid hold).imp_right fun ⟨e, he, ho⟩ => ⟨e, by simp [he], ho⟩
    · exact .inr ⟨entry, hlast, hnew⟩
  · rcases applyIntent_writes_retention _ _ hmem with hold | hnew
    · exact (ih.retention root hold).imp_right fun ⟨e, he, ho⟩ => ⟨e, by simp [he], ho⟩
    · exact .inr ⟨entry, hlast, hnew⟩

section Folded

variable {basis : FoldBasis} {request : TransactionRequest} {effects : NetEffects}

variable (h : (fold basis request).outcome = .folded effects)
include h

theorem fold_folded :
    ∃ st, request.addressedIntents.foldlM (foldStep request) ⟨.fromBasis basis, [], ∅⟩ = .ok st ∧
      effects = diff basis st.scratch := by
  unfold fold at h
  split at h
  · cases h
  · next st hst =>
    cases h
    exact ⟨st, hst, rfl⟩

/-- A ref effect is on a ref the request names. -/
theorem fold_refs_target {name : RefName} {effect : RefEffect}
    (heffect : effects.refs[name]? = some effect) : request.Targets (.ref name) := by
  obtain ⟨st, hst, rfl⟩ := fold_folded h
  by_contra hnot
  -- an unnamed ref keeps its basis value, so the diff has nothing there
  have hframe : st.scratch.refs[name]? = basis.refs[name]? :=
    foldlM_frame hst fun e he heq => hnot ⟨e, he, heq⟩
  rw [diff_refs, hframe] at heffect
  cases hb : basis.refs[name]? <;> simp [hb, refChange] at heffect

omit h in
theorem refChange_eq_set {old new : Option GitOid} :
    refChange old new = some (.set oid) ↔ new = some oid ∧ old ≠ some oid := by
  cases new with
  | none => cases old <;> simp [refChange]
  | some value =>
    simp only [refChange, Option.some.injEq]
    split <;> aesop

omit h in
theorem mem_intentObjects (hmem : entry ∈ request.addressedIntents)
    (hobj : intentObject entry.2 = some oid) : oid ∈ intentObjects request :=
  mem_filterMap.mpr ⟨entry, hmem, hobj⟩

/-- A ref is only ever set by an update the request asks for. -/
theorem fold_sets_updated (heffect : effects.refs[name]? = some (.set oid)) :
    ∃ entry ∈ request.addressedIntents, ∃ expected force,
      entry.2 = .ref (.update name expected oid force) := by
  obtain ⟨st, hst, rfl⟩ := fold_folded h
  rw [diff_refs] at heffect
  -- the effect is a set only where the scratch value differs from the basis
  obtain ⟨hnew, hdiff⟩ := refChange_eq_set.mp heffect
  exact ((foldlM_written hst).refs name oid hnew).resolve_left hdiff

/-- A ref is only ever set to an object the request names. -/
theorem fold_sets_named
    (heffect : effects.refs[name]? = some (.set oid)) : oid ∈ intentObjects request := by
  obtain ⟨entry, hmem, expected, force, hentry⟩ := fold_sets_updated h heffect
  exact mem_intentObjects hmem (by rw [hentry]; rfl)

/-- A retention root is only ever added for an object the request names. -/
theorem fold_adds_named {root : RetentionRoot} (heffect : effects.retention[root]? = some .add) :
    root.object ∈ intentObjects request := by
  obtain ⟨st, hst, rfl⟩ := fold_folded h
  rw [diff_retention] at heffect
  split at heffect
  · cases heffect
  · split at heffect
    · next hadded =>
      obtain hold | ⟨entry, hmem, hobj⟩ := (foldlM_written hst).retention root hadded.1
      · exact absurd hold hadded.2
      · exact mem_intentObjects hmem hobj
    · cases heffect

end Folded

/-! ### What a witness records -/

/-- The witness holds the value of the roots at the target. -/
def ConflictWitness.Records (witness : ConflictWitness) (roots : RepositoryRoots) :
    EffectTarget → Prop
  | .ref name => witness.refs[name]? = some roots.refs[name]?
  | .forgeStream stream =>
    witness.forgePositions[stream]? = some (positionOf roots.forgePositions stream)
  | .retention root =>
    (root ∈ roots.retention ∧ root ∈ witness.retentionPresent) ∨
      (root ∉ roots.retention ∧ root ∈ witness.retentionAbsent)
  | .outbox key => witness.outbox[key]? = some roots.outbox[key]?

section Recording

variable {roots : RepositoryRoots} {witness : ConflictWitness}

/-- Recording a value again changes no binding. -/
theorem get_record {K V : Type} [LinearOrder K] (recorded : BTreeMap K V) (value : K → V)
    {k a : K} (h : k = a ∨ recorded[a]? = some (value a)) :
    (recorded.insert k (value k))[a]? = some (value a) := by
  rw [get_insert]
  split
  · next e => rw [e]
  · next e => exact h.resolve_left e

/-- Recording whether a retention root is held. -/
theorem recordRetention (root : RetentionRoot) (h : .retention root = t ∨ witness.Records roots t) :
    (if root ∈ roots.retention then
        { witness with retentionPresent := witness.retentionPresent.insert root }
      else { witness with retentionAbsent := witness.retentionAbsent.insert root }).Records
      roots t := by
  cases t with
  | retention other =>
    have hcases := h.imp_left retention.inj
    split
    · next hmem =>
      simp only [ConflictWitness.Records, mem_insert] at hcases ⊢
      rcases hcases with rfl | hold
      · exact .inl ⟨hmem, .inl rfl⟩
      · exact hold.imp_left (And.imp_right Or.inr)
    · next hmem =>
      simp only [ConflictWitness.Records, mem_insert] at hcases ⊢
      rcases hcases with rfl | hold
      · exact .inr ⟨hmem, .inl rfl⟩
      · exact hold.imp_right (And.imp_right Or.inr)
  | ref | forgeStream | outbox =>
    have hold := h.resolve_left nofun
    split <;> exact hold

/-- One turn records the target of its intent and keeps what is recorded. -/
theorem witnessIntent_records (h : intent.target = t ∨ witness.Records roots t) :
    (witnessIntent roots witness intent).Records roots t := by
  rcases intent with intent | forge | (root | root) | outbox
  · cases t with
    | ref name =>
      exact get_record witness.refs (fun n => roots.refs[n]?) (h.imp_left ref.inj)
    | forgeStream | retention | outbox => exact h.resolve_left nofun
  · -- a forge intent records its stream and, for some events, a ref as well
    simp only [witnessIntent]
    cases t with
    | forgeStream stream =>
      have hrec := get_record witness.forgePositions (positionOf roots.forgePositions)
        (h.imp_left forgeStream.inj)
      split <;> exact hrec
    | ref name =>
      have hold : witness.refs[name]? = some roots.refs[name]? := h.resolve_left nofun
      split
      · exact get_record witness.refs (fun n => roots.refs[n]?) (.inr hold)
      · exact hold
    | retention | outbox =>
      have hold := h.resolve_left nofun
      split <;> exact hold
  · exact recordRetention root h
  · exact recordRetention root h
  · cases t with
    | outbox key =>
      exact get_record witness.outbox (fun k => roots.outbox[k]?)
        (h.imp_left EffectTarget.outbox.inj)
    | ref | forgeStream | retention => exact h.resolve_left nofun

end Recording

/-- **A preparation records every target of its request.** -/
theorem buildWitness_records (s : RepositoryState) (request : TransactionRequest)
    (granularity : WitnessGranularity) (ht : request.Targets t) :
    (buildWitness s request granularity).Records s.head.body.roots t := by
  obtain ⟨entry, hmem, rfl⟩ := ht
  -- once recorded, a target stays recorded
  suffices aux : ∀ (entries : List (IntentAddress × Intent)) (witness : ConflictWitness),
      entry ∈ entries ∨ witness.Records s.head.body.roots entry.2.target →
      (entries.foldl (fun witness entry => witnessIntent s.head.body.roots witness entry.2)
        witness).Records s.head.body.roots entry.2.target from aux _ _ (.inl hmem)
  intro entries
  induction entries with
  | nil => exact fun witness h => h.resolve_left (not_mem_nil)
  | cons first rest ih =>
    intro witness h
    refine ih _ ?_
    rcases h with hmem | hold
    · rcases mem_cons.mp hmem with rfl | hrest
      · exact .inr (witnessIntent_records _ (.inl rfl))
      · exact .inl hrest
    · exact .inr (witnessIntent_records _ (.inr hold))

theorem all_toList {K V : Type} [LinearOrder K] {m : BTreeMap K V} {p : K × V → Bool}
    (h : m.toList.all p = true) {k : K} {v : V} (hk : m[k]? = some v) : p (k, v) = true :=
  all_eq_true.mp h _ (Std.ExtTreeMap.mem_toList_iff_getElem?_eq_some.mpr hk)

/-- Roots for which the recorded reads hold agree with the recorded ones. -/
theorem ConflictWitness.Records.sameAt {witness : ConflictWitness} {roots roots' : RepositoryRoots}
    (h : witness.Records roots t) (hreads : witness.refinedReadsHold roots' = true) :
    roots.basis.SameAt roots'.basis t := by
  simp only [ConflictWitness.refinedReadsHold, Bool.and_eq_true] at hreads
  obtain ⟨⟨⟨⟨hrefs, hforge⟩, hpresent⟩, habsent⟩, houtbox⟩ := hreads
  cases t with
  | ref name =>
    have := all_toList hrefs h
    exact (of_decide_eq_true this).symm
  | forgeStream stream =>
    have := all_toList hforge h
    exact ⟨(of_decide_eq_true this).symm, rfl⟩
  | retention root =>
    show root ∈ roots.retention ↔ root ∈ roots'.retention
    rcases h with ⟨hmem, hrecorded⟩ | ⟨hmem, hrecorded⟩
    · have := all_eq_true.mp hpresent root (by simpa using hrecorded)
      exact iff_of_true hmem (by simpa using this)
    · have := all_eq_true.mp habsent root (by simpa using hrecorded)
      refine iff_of_false hmem fun hmem' => ?_
      rw [Std.ExtTreeSet.mem_iff_contains.mp hmem'] at this
      cases this
  | outbox key =>
    have := all_toList houtbox h
    exact (of_decide_eq_true this).symm

/-- **A witness that still holds promises the same fold.** -/
theorem refold_same {s : RepositoryState} {granularity : WitnessGranularity}
    {roots : RepositoryRoots}
    (hreads : (buildWitness s request granularity).refinedReadsHold roots = true) :
    fold roots.basis request = fold s.head.body.roots.basis request :=
  (fold_same fun _ ht => (buildWitness_records s request granularity ht).sameAt hreads).symm

/-! ### What an evaluation that commits has checked -/

/-- A preparation that may commit passed admission, folded and passed
policy. -/
structure Committable (s : RepositoryState) (request : TransactionRequest) (effects : NetEffects) :
    Prop where
  admitted : admissionRefusal s request = none
  folded : (fold s.head.body.roots.basis request).outcome = .folded effects
  allowed : evaluatePolicy s request effects (availableObjects s request.txId) = none
  closure : (evaluate s request).objectClosure
    = (intentObjects request).foldl (·.insert ·) request.promisedClosure

theorem evaluate_commit {s : RepositoryState} {effects : NetEffects}
    (h : (evaluate s request).verdict = .commit effects) : Committable s request effects := by
  unfold evaluate at h
  split at h
  · cases h
  next hadm =>
  dsimp only at h
  split at h
  · cases h
  next folded hfolded =>
  split at h
  · cases h
  next hallowed =>
  cases h
  refine ⟨hadm, hfolded, hallowed, ?_⟩
  unfold evaluate
  simp only [hadm, hfolded, hallowed]

end Frankengit.Reference
