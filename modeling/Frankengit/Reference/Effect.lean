/-
Frankengit/Reference/Effect.lean

The net-effect normal form and the reference folder that produces it
(`fgit-reference`, `effect.rs`).

A fold evaluates the request's intents in source order on a scratch copy of
the basis, so later intents read what earlier ones wrote, and then diffs
the basis against the final scratch.  Each effect family is a map keyed by
its target: two effects on one target cannot be represented.

The definitions come first, in the source's order.  The lemmas after them
say what the diff holds at one target, in terms of the basis and scratch
values at that target alone (`diff_refs`, `diff_forge`, `diff_retention`,
`diff_outbox`).
-/
import Frankengit.Lib.Fallible
import Frankengit.Reference.Intent

namespace Frankengit.Reference

/-! ### Effects and reports -/

/-- The surviving effect on one ref. -/
inductive RefEffect where
  | set (oid : GitOid)
  | delete
deriving DecidableEq

/-- The surviving effect on one retention root. -/
inductive RetentionEffect where
  | add | remove
deriving DecidableEq

/-- The target one intent acted on. -/
inductive EffectTarget where
  | ref (name : RefName)
  | forgeStream (stream : ForgeStreamId)
  | retention (root : RetentionRoot)
  | outbox (key : OutboxDeliveryKey)

namespace EffectTarget

/-- The order of the source: by family, then by target. -/
def key : EffectTarget → List ℕ
  | ref name => 0 :: name.key
  | forgeStream stream => [1, stream.spelled]
  | retention root => 2 :: root.key
  | outbox key => [3, key.spelled]

theorem key_injective : Function.Injective key := by
  intro a b h
  cases a <;> cases b <;> simp [key, Tagged.ext_iff] at h ⊢
  · exact RefName.key_injective h
  · exact h
  · exact RetentionRoot.key_injective h
  · exact h

instance : LinearOrder EffectTarget := LinearOrder.lift' key key_injective

end EffectTarget

/-- Why an intent produced no surviving effect. -/
inductive AbsorptionReason where
  | identityEffect
  | overwrittenBySucceedingIntent
  | inverseCancelled
  | preconditionMismatchNoOp
  | duplicateIdenticalDelivery
deriving DecidableEq

/-- What became of one source intent. -/
inductive IntentDisposition where
  | surviving (target : EffectTarget)
  | absorbed (reason : AbsorptionReason)
  | statementError (code : RefusalCode)
  | transactionAborted

/-- One source intent and its disposition. -/
structure IntentMapping where
  address : IntentAddress
  disposition : IntentDisposition

/-- The target-disjoint canonical effects of one transaction. -/
@[ext] structure NetEffects where
  refs : BTreeMap RefName RefEffect
  /-- Forge events appended per stream, in append order. -/
  forge : BTreeMap ForgeStreamId (List ForgeEventKind)
  retention : BTreeMap RetentionRoot RetentionEffect
  outbox : BTreeMap OutboxDeliveryKey Digest

/-- The result of folding one transaction's intents. -/
inductive FoldOutcome where
  | folded (effects : NetEffects)
  | aborted (code : RefusalCode) («at» : IntentAddress)

/-- A fold result with the intent map that explains it. -/
structure FoldReport where
  outcome : FoldOutcome
  mappings : List IntentMapping

/-- The state preconditions are evaluated against. -/
@[ext] structure FoldBasis where
  refs : BTreeMap RefName GitOid
  forgePositions : BTreeMap ForgeStreamId ForgeStreamPosition
  retention : BTreeSet RetentionRoot
  outbox : BTreeMap OutboxDeliveryKey Digest

/-! ### The scratch state -/

/-- Mutable scratch state a fold evaluates against. -/
@[ext] structure Scratch where
  refs : BTreeMap RefName GitOid
  forgePositions : BTreeMap ForgeStreamId ForgeStreamPosition
  forgeEvents : BTreeMap ForgeStreamId (List ForgeEventKind)
  retention : BTreeSet RetentionRoot
  outbox : BTreeMap OutboxDeliveryKey Digest

variable (basis : FoldBasis)

def Scratch.fromBasis : Scratch :=
  ⟨basis.refs, basis.forgePositions, ∅, basis.retention, basis.outbox⟩

/-- A stream that has no recorded position is at genesis. -/
def positionOf (positions : BTreeMap ForgeStreamId ForgeStreamPosition)
    (stream : ForgeStreamId) : ForgeStreamPosition :=
  positions[stream]?.getD .genesis

/-- What applying one intent to scratch state produced. -/
inductive Applied where
  | changed (target : EffectTarget)
  | absorbed (reason : AbsorptionReason)
  | mismatch (code : RefusalCode)

variable (scratch : Scratch)

/-- Apply one ref intent. -/
def applyRef : RefIntent → Scratch × Applied
  | .update name expected new _ =>
    if expected.isSatisfiedBy scratch.refs[name]? = false then
      (scratch, .mismatch .expectedOldRefMismatch)
    else if scratch.refs[name]? = some new then (scratch, .absorbed .identityEffect)
    else ({ scratch with refs := scratch.refs.insert name new }, .changed (.ref name))
  | .delete name expected =>
    if expected.isSatisfiedBy scratch.refs[name]? = false then
      (scratch, .mismatch .expectedOldRefMismatch)
    else if name ∈ scratch.refs then
      ({ scratch with refs := scratch.refs.erase name }, .changed (.ref name))
    else (scratch, .absorbed .identityEffect)

/-- Append one forge event. -/
def applyForge (forge : ForgeIntent) : Scratch × Applied :=
  let current := positionOf scratch.forgePositions forge.stream
  if current ≠ forge.expectedPosition then (scratch, .mismatch .forgeTransitionInvalid)
  else if current.isExhausted then (scratch, .mismatch .resourceBudgetExceeded)
  else
    ({ scratch with
        forgePositions := scratch.forgePositions.insert forge.stream current.successor
        forgeEvents := scratch.forgeEvents.insert forge.stream
          (scratch.forgeEvents[forge.stream]?.getD [] ++ [forge.event]) },
      .changed (.forgeStream forge.stream))

/-- Add or remove one retention root. -/
def applyRetention : RetentionIntent → Scratch × Applied
  | .addRoot root =>
    if root ∈ scratch.retention then (scratch, .absorbed .identityEffect)
    else ({ scratch with retention := scratch.retention.insert root }, .changed (.retention root))
  | .removeRoot root =>
    if root ∈ scratch.retention then
      ({ scratch with retention := scratch.retention.erase root }, .changed (.retention root))
    else (scratch, .absorbed .identityEffect)

/-- Bind one outbox delivery. -/
def applyOutbox (outbox : OutboxIntent) : Scratch × Applied :=
  match scratch.outbox[outbox.deliveryKey]? with
  | some bound =>
    if bound = outbox.parameters then (scratch, .absorbed .duplicateIdenticalDelivery)
    else (scratch, .mismatch .effectIdempotencyKeyReuse)
  | none =>
    ({ scratch with outbox := scratch.outbox.insert outbox.deliveryKey outbox.parameters },
      .changed (.outbox outbox.deliveryKey))

/-- Apply one intent to scratch state with read-your-own-writes. -/
def applyIntent : Intent → Scratch × Applied
  | .ref intent => applyRef scratch intent
  | .forge intent => applyForge scratch intent
  | .retention intent => applyRetention scratch intent
  | .outbox intent => applyOutbox scratch intent

/-! ### The fold -/

/-- What the loop carries from intent to intent. -/
structure FoldState where
  scratch : Scratch
  mappings : List IntentMapping
  /-- The index of the last mapping that wrote each target. -/
  contributed : BTreeMap EffectTarget ℕ

variable (request : TransactionRequest)

/-- The mismatch policy of the statement an address points into. -/
def policyAt (address : IntentAddress) : MismatchPolicy :=
  request.statements[address.statement]?.elim .txnAbort fun statement => statement.mismatchPolicy

/-- One turn of the fold.  An abort leaves the loop with its code and address. -/
def foldStep (st : FoldState) (entry : IntentAddress × Intent) :
    Except (RefusalCode × IntentAddress) FoldState :=
  match applyIntent st.scratch entry.2 with
  | (scratch, .changed target) =>
    .ok ⟨scratch, st.mappings ++ [⟨entry.1, .surviving target⟩],
      st.contributed.insert target st.mappings.length⟩
  | (scratch, .absorbed reason) =>
    .ok ⟨scratch, st.mappings ++ [⟨entry.1, .absorbed reason⟩], st.contributed⟩
  | (scratch, .mismatch code) =>
    match policyAt request entry.1 with
    | .noOp =>
      .ok ⟨scratch, st.mappings ++ [⟨entry.1, .absorbed .preconditionMismatchNoOp⟩], st.contributed⟩
    | .statementError =>
      .ok ⟨scratch, st.mappings ++ [⟨entry.1, .statementError code⟩], st.contributed⟩
    | .txnAbort => .error (code, entry.1)

/-- Diff the basis against the final scratch state. -/
def diff : NetEffects where
  refs :=
    basis.refs.foldl
      (fun acc name _ => if name ∉ scratch.refs then acc.insert name .delete else acc)
      (scratch.refs.foldl (fun acc name value =>
          if basis.refs[name]? ≠ some value then acc.insert name (.set value) else acc) ∅)
  forge :=
    scratch.forgeEvents.foldl
      (fun acc stream events => if events ≠ [] then acc.insert stream events else acc) ∅
  retention :=
    basis.retention.foldl
      (fun acc root => if root ∉ scratch.retention then acc.insert root .remove else acc)
      (scratch.retention.foldl
        (fun acc root => if root ∉ basis.retention then acc.insert root .add else acc) ∅)
  outbox :=
    scratch.outbox.foldl (fun acc key parameters =>
        if basis.outbox[key]? ≠ some parameters then acc.insert key parameters else acc) ∅

variable (effects : NetEffects)

/-- Whether the normal form has an effect on the target. -/
def targetChanged : EffectTarget → Bool
  | .ref name => effects.refs.contains name
  | .forgeStream stream => effects.forge.contains stream
  | .retention root => effects.retention.contains root
  | .outbox key => effects.outbox.contains key

/-- The final disposition of the mapping at `index`.  Forge streams
accumulate rather than overwrite, so an appended event keeps its own. -/
def retire (contributed : BTreeMap EffectTarget ℕ) (index : ℕ) :
    IntentDisposition → IntentDisposition
  | .surviving (.forgeStream stream) =>
    if targetChanged effects (.forgeStream stream) then .surviving (.forgeStream stream)
    else .absorbed .identityEffect
  | .surviving target =>
    match targetChanged effects target, decide (contributed[target]? = some index) with
    | true, true => .surviving target
    | true, false => .absorbed .overwrittenBySucceedingIntent
    | false, true => .absorbed .identityEffect
    | false, false => .absorbed .inverseCancelled
  | disposition => disposition

/-- Resolve each provisionally surviving intent against the diff. -/
def retireAbsorbed (contributed : BTreeMap EffectTarget ℕ) (mappings : List IntentMapping) :
    List IntentMapping :=
  mappings.zipIdx.map fun entry =>
    { entry.1 with disposition := retire effects contributed entry.2 entry.1.disposition }

/-- The reference folder. -/
def fold : FoldReport :=
  match request.addressedIntents.foldlM (foldStep request) ⟨.fromBasis basis, [], ∅⟩ with
  | .error (code, address) =>
    -- an abort emits no effect, so every source intent maps to it
    { outcome := .aborted code address
      mappings := request.addressedIntents.map fun entry => ⟨entry.1, .transactionAborted⟩ }
  | .ok st =>
    { outcome := .folded (diff basis st.scratch)
      mappings := retireAbsorbed (diff basis st.scratch) st.contributed st.mappings }

/-! ### What the diff holds at one target -/

/-- The effect that takes a ref from one value to another. -/
def refChange : Option GitOid → Option GitOid → Option RefEffect
  | old, some value => if old ≠ some value then some (.set value) else none
  | some _, none => some .delete
  | none, none => none

theorem diff_refs (name : RefName) :
    (diff basis scratch).refs[name]? = refChange basis.refs[name]? scratch.refs[name]? := by
  simp only [diff, Fallible.get_foldl_insert]
  cases hs : scratch.refs[name]? with
  | none =>
    have hnot : name ∉ scratch.refs := by simpa using hs
    cases basis.refs[name]? <;> simp [refChange, hnot]
  | some value =>
    have hmem : name ∈ scratch.refs := by simp [← Std.ExtTreeMap.isSome_getElem?_iff_mem, hs]
    cases basis.refs[name]? <;> simp [refChange, hmem]

theorem diff_forge (stream : ForgeStreamId) : (diff basis scratch).forge[stream]?
      = (scratch.forgeEvents[stream]?).filter fun events => events ≠ [] := by
  simp only [diff, Fallible.get_foldl_insert]
  cases scratch.forgeEvents[stream]? <;> simp [Option.filter]

theorem diff_retention (root : RetentionRoot) : (diff basis scratch).retention[root]?
      = if root ∈ basis.retention ∧ root ∉ scratch.retention then some .remove
        else if root ∈ scratch.retention ∧ root ∉ basis.retention then some .add else none := by
  simp only [diff, Fallible.get_foldl_insert_set, Std.ExtTreeMap.getElem?_empty]

theorem diff_outbox (key : OutboxDeliveryKey) : (diff basis scratch).outbox[key]?
      = (scratch.outbox[key]?).filter fun parameters => basis.outbox[key]? ≠ some parameters := by
  simp only [diff, Fallible.get_foldl_insert]
  cases scratch.outbox[key]? <;> simp [Option.filter]

end Frankengit.Reference
