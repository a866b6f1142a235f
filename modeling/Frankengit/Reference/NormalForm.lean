/-
Frankengit/Reference/NormalForm.lean

The normal form is correct: applying the net effects of a fold to its basis
gives the state that executing the intents one at a time gives.

`Plane` says what a transaction is about without saying how it is stored:
the value of every ref, the events appended to every stream and its
position, the retained roots and the outbox bindings, as functions and
sets.  `Plane.admits` is the precondition of one intent and
`Plane.perform` its effect; `execute` runs a request on a plane, skipping
an intent whose precondition fails unless its statement aborts the
transaction.

The layers are connected in the order statement, step, run:

* `applyIntent_plane` — one turn of the folder's scratch evaluation is one
  intent executed or refused on the plane the scratch shows;
* `foldlM_execute` — hence the folder's loop is `execute`;
* `applyNetEffects` (crate `fgit-txn`) and `applyEffects` rebuild the final
  plane from the diff alone, because the diff at a target is a function of
  the basis and the final value there.
-/
import Frankengit.Lib.Fallible
import Frankengit.Reference.Publish

namespace Frankengit.Reference

open Scratch ForgeStreamPosition Function BTree Fallible Option Std.ExtTreeMap List

/-! ### Workspaces -/

/-- The observable state a transaction reads and leaves behind. -/
@[ext] structure Workspace where
  refs : BTreeMap RefName GitOid
  forge : BTreeMap ForgeStreamId (List ForgeEventKind)
  retention : BTreeSet RetentionRoot
  outbox : BTreeMap OutboxDeliveryKey Digest

/-- Apply a net-effect normal form to a basis. -/
def applyNetEffects (basis : Workspace) (effects : NetEffects) : Workspace where
  refs := effects.refs.foldl applyRefEffect basis.refs
  forge := effects.forge.foldl
    (fun forge stream events => forge.insert stream (forge[stream]?.getD [] ++ events)) basis.forge
  retention := effects.retention.foldl applyRetentionEffect basis.retention
  outbox := effects.outbox.foldl (·.insert · ·) basis.outbox

/-! ### The plane a transaction acts on -/

/-- What a transaction observes and changes. -/
@[ext] structure Plane where
  refs : RefName → Option GitOid
  /-- Events this transaction appended. -/
  events : ForgeStreamId → List ForgeEventKind
  positions : ForgeStreamId → ℕ
  retention : Set RetentionRoot
  outbox : OutboxDeliveryKey → Option Digest

namespace Plane

/-- The precondition of an intent. -/
def admits (w : Plane) : Intent → Prop
  | .ref (.update name expected _ _) | .ref (.delete name expected) =>
    expected.isSatisfiedBy (w.refs name) = true
  | .forge intent =>
    w.positions intent.stream = intent.expectedPosition.val ∧ w.positions intent.stream < u64Max
  | .retention _ => True
  | .outbox intent =>
    ∀ bound, w.outbox intent.deliveryKey = some bound → bound = intent.parameters

/-- The effect of an intent. -/
def perform (w : Plane) : Intent → Plane
  | .ref (.update name _ new _) => { w with refs := update w.refs name (some new) }
  | .ref (.delete name _) => { w with refs := update w.refs name none }
  | .forge intent =>
    { w with
      events := update w.events intent.stream (w.events intent.stream ++ [intent.event])
      positions := update w.positions intent.stream (w.positions intent.stream + 1) }
  | .retention (.addRoot root) => { w with retention := insert root w.retention }
  | .retention (.removeRoot root) => { w with retention := w.retention \ {root} }
  | .outbox intent =>
    { w with
      outbox := update w.outbox intent.deliveryKey (some intent.parameters) }

/-- The plane a basis shows, with nothing appended yet. -/
def start (basis : FoldBasis) : Plane where
  refs name := basis.refs[name]?
  events _ := []
  positions stream := (positionOf basis.forgePositions stream).val
  retention := {root | root ∈ basis.retention}
  outbox key := basis.outbox[key]?

end Plane

open Classical in
/-- Execute intents in order on a plane.  An intent whose precondition fails
is skipped, except under a statement that aborts the transaction: the
execution then ends with the intent's address. -/
noncomputable def execute (request : TransactionRequest) :
    Plane → List (IntentAddress × Intent) → Except IntentAddress Plane
  | w, [] => .ok w
  | w, (address, intent) :: rest =>
    if w.admits intent then execute request (w.perform intent) rest
    else if policyAt request address = .txnAbort then .error address
    else execute request w rest

open Classical in
theorem execute_cons (request : TransactionRequest) (w : Plane) (entry : IntentAddress × Intent)
    (rest : List (IntentAddress × Intent)) : execute request w (entry :: rest)
      = if w.admits entry.2 then execute request (w.perform entry.2) rest
        else if policyAt request entry.1 = .txnAbort then .error entry.1
        else execute request w rest := rfl

/-- The plane a scratch state shows. -/
def Scratch.plane (scratch : Scratch) : Plane where
  refs name := scratch.refs[name]?
  events stream := scratch.forgeEvents[stream]?.getD []
  positions stream := (positionOf scratch.forgePositions stream).val
  retention := {root | root ∈ scratch.retention}
  outbox key := scratch.outbox[key]?

/-! ### One intent -/

theorem get_erase_fun {K V : Type*} [LinearOrder K] (m : BTreeMap K V) (k : K) :
    (fun a => (m.erase k)[a]?) = update (fun a => m[a]?) k none := by
  funext a
  rw [get_erase, update_apply]
  exact if_congr eq_comm rfl rfl

/-- What one intent did to the scratch state: it was executed on the plane,
or its precondition failed and nothing happened. -/
def Simulates (scratch : Scratch) (intent : Intent) (result : Scratch × Applied) : Prop :=
  (scratch.plane.admits intent ∧ (∀ code, result.2 ≠ .mismatch code) ∧
      result.1.plane = scratch.plane.perform intent) ∨
    (¬ scratch.plane.admits intent ∧ result.1 = scratch ∧ ∃ code, result.2 = .mismatch code)

section

variable (scratch : Scratch)

theorem applyRef_plane (intent : RefIntent) :
    Simulates scratch (.ref intent) (applyRef scratch intent) := by
  cases intent with
  | update name expected new force =>
    unfold applyRef
    dsimp only
    split
    · next h => exact .inr ⟨by simp [Plane.admits, plane, h], rfl, _, rfl⟩
    · next h =>
      refine .inl ⟨by simpa [Plane.admits, plane] using h, ?_⟩
      simp only [Plane.perform, plane]
      split
      · next hsame =>
        -- already there: the write is the identity
        rw [(update_eq_self_iff (f := fun n : RefName => scratch.refs[n]?)).mpr hsame.symm]
        exact ⟨nofun, rfl⟩
      · rw [← get_insert_fun]
        exact ⟨nofun, rfl⟩
  | delete name expected =>
    unfold applyRef
    dsimp only
    split
    · next h => exact .inr ⟨by simp [Plane.admits, plane, h], rfl, _, rfl⟩
    · next h =>
      refine .inl ⟨by simpa [Plane.admits, plane] using h, ?_⟩
      simp only [Plane.perform, plane]
      split
      · rw [← get_erase_fun]
        exact ⟨nofun, rfl⟩
      · next habsent =>
        rw [(update_eq_self_iff (f := fun n : RefName => scratch.refs[n]?)).mpr
          (by simpa using habsent)]
        exact ⟨nofun, rfl⟩

theorem applyForge_plane (intent : ForgeIntent) :
    Simulates scratch (.forge intent) (applyForge scratch intent) := by
  unfold applyForge
  dsimp only
  split
  · next h =>
    refine .inr ⟨?_, rfl, _, rfl⟩
    rintro ⟨hpos, -⟩
    exact h (ForgeStreamPosition.ext hpos)
  · next h =>
    split
    · next hexhausted =>
      refine .inr ⟨?_, rfl, _, rfl⟩
      rintro ⟨-, hlt⟩
      have : (positionOf scratch.forgePositions intent.stream).val = u64Max := by
        simpa [isExhausted] using hexhausted
      exact absurd hlt (by simp [plane, this])
    · next hexhausted =>
      have hfree : (positionOf scratch.forgePositions intent.stream).isExhausted = false := by
        simpa using hexhausted
      have hne : (positionOf scratch.forgePositions intent.stream).val ≠ u64Max := by
        simpa [isExhausted] using hexhausted
      have hle := (positionOf scratch.forgePositions intent.stream).fits
      refine .inl ⟨⟨?_, lt_of_le_of_ne hle hne⟩, by simp, ?_⟩
      · exact congrArg val (not_not.mp h)
      · ext1
        · rfl
        · funext stream
          by_cases he : intent.stream = stream
          · subst he
            simp [plane, Plane.perform]
          · simp [plane, Plane.perform, he, get_insert, Ne.symm he]
        · funext stream
          by_cases he : intent.stream = stream
          · subst he
            simpa [plane, Plane.perform, positionOf] using successor_val hfree
          · simp [plane, Plane.perform, positionOf, he, get_insert, Ne.symm he]
        · rfl
        · rfl

theorem applyRetention_plane (intent : RetentionIntent) :
    Simulates scratch (.retention intent) (applyRetention scratch intent) := by
  refine .inl ⟨trivial, ?_⟩
  cases intent with
  | addRoot root =>
    simp only [applyRetention, Plane.perform, plane]
    split
    · next h =>
      rw [Set.insert_eq_of_mem (by exact h)]
      exact ⟨nofun, rfl⟩
    · refine ⟨nofun, ?_⟩
      congr 1
      ext kept
      exact (mem_insert _ _ _).trans (or_congr_left eq_comm)
  | removeRoot root =>
    simp only [applyRetention, Plane.perform, plane]
    split
    · refine ⟨nofun, ?_⟩
      congr 1
      ext kept
      exact (mem_erase _ _ _).trans (and_comm.trans (and_congr_right fun _ => ne_comm))
    · next h =>
      rw [Set.sdiff_singleton_eq_self (by exact h)]
      exact ⟨nofun, rfl⟩

theorem applyOutbox_plane (intent : OutboxIntent) :
    Simulates scratch (.outbox intent) (applyOutbox scratch intent) := by
  unfold applyOutbox
  split
  · next bound hbound =>
    split
    · next hsame =>
      subst hsame
      refine .inl ⟨fun b hb => ?_, nofun, ?_⟩
      · simpa [plane, hbound] using hb.symm
      · simp only [Plane.perform, plane]
        rw [(update_eq_self_iff
          (f := fun k : OutboxDeliveryKey => scratch.outbox[k]?)).mpr hbound.symm]
    · next hdiff =>
      exact .inr ⟨fun h => hdiff (h bound hbound), rfl, _, rfl⟩
  · next hnone =>
    refine .inl ⟨fun b hb => ?_, nofun, ?_⟩
    · simp [plane, hnone] at hb
    · simp only [Plane.perform, plane]
      rw [get_insert_fun]

/-- One turn of the scratch evaluation executes the intent or refuses it. -/
theorem applyIntent_plane (intent : Intent) :
    Simulates scratch intent (applyIntent scratch intent) := by
  cases intent with
  | ref intent => exact applyRef_plane scratch intent
  | forge intent => exact applyForge_plane scratch intent
  | retention intent => exact applyRetention_plane scratch intent
  | outbox intent => exact applyOutbox_plane scratch intent

end

/-! ### The loop -/

/-- One turn of the fold, in terms of the plane. -/
theorem foldStep_execute (request : TransactionRequest) (st : FoldState)
    (entry : IntentAddress × Intent) (rest : List (IntentAddress × Intent)) :
    (∃ st', foldStep request st entry = .ok st' ∧ execute request st.scratch.plane (entry :: rest)
        = execute request st'.scratch.plane rest) ∨
    (∃ code, foldStep request st entry = .error (code, entry.1) ∧
      ¬ st.scratch.plane.admits entry.2 ∧ policyAt request entry.1 = .txnAbort ∧
      execute request st.scratch.plane (entry :: rest) = .error entry.1) := by
  obtain ⟨address, intent⟩ := entry
  rw [execute_cons]
  unfold foldStep
  have hsim := applyIntent_plane st.scratch intent
  rcases happly : applyIntent st.scratch intent with ⟨scratch, applied⟩
  rw [happly] at hsim
  rcases hsim with ⟨hadmits, hmatch, hplane⟩ | ⟨hadmits, rfl, code, hcode⟩
  · left
    rw [if_pos hadmits, ← hplane]
    cases applied with
    | changed target | absorbed reason => exact ⟨_, rfl, rfl⟩
    | mismatch code => exact absurd rfl (hmatch code)
  · cases hcode
    rw [if_neg hadmits]
    cases hpol : policyAt request address with
    | noOp | statementError => exact .inl ⟨_, rfl, by simp⟩
    | txnAbort => exact .inr ⟨code, rfl, hadmits, rfl, by simp⟩

/-- The folder's loop is the execution on planes. -/
theorem foldlM_execute (request : TransactionRequest) (entries : List (IntentAddress × Intent))
    (st : FoldState) : (∃ st', entries.foldlM (foldStep request) st = .ok st' ∧
      execute request st.scratch.plane entries = .ok st'.scratch.plane) ∨
    (∃ code before address intent after w,
      entries.foldlM (foldStep request) st = .error (code, address) ∧
      entries = before ++ (address, intent) :: after ∧
      execute request st.scratch.plane before = .ok w ∧ ¬ w.admits intent ∧
      policyAt request address = .txnAbort) := by
  induction entries generalizing st with
  | nil => exact .inl ⟨st, rfl, rfl⟩
  | cons entry rest ih =>
    rcases foldStep_execute request st entry rest with ⟨m, hm, hexec⟩ | ⟨code, hm, hadmits, hpol, -⟩
    · rw [foldlM_cons, hm, hexec]
      rcases ih m with ⟨st', hrun, hexec'⟩
        | ⟨code, before, address, intent, after, w, hrun, hsplit, hbefore, hrest⟩
      · exact .inl ⟨st', hrun, hexec'⟩
      · -- the abort lies further on: the current intent joins what came before it
        refine .inr ⟨code, entry :: before, address, intent, after, w, hrun,
          by simp [hsplit], ?_, hrest⟩
        rcases foldStep_execute request st entry before with ⟨m', hm', hexec'⟩ | ⟨_, hm', -⟩
        · rw [hm] at hm'
          cases hm'
          rw [hexec', hbefore]
        · rw [hm] at hm'
          cases hm'
    · refine .inr ⟨code, [], entry.1, entry.2, rest, st.scratch.plane, ?_, rfl, rfl, hadmits, hpol⟩
      rw [foldlM_cons, hm]
      rfl

/-! ### What an execution never does -/

theorem perform_positions {w : Plane} (intent : Intent) (stream : ForgeStreamId)
    {n : ℕ} (h : w.positions stream = n + (w.events stream).length) :
    (w.perform intent).positions stream = n + ((w.perform intent).events stream).length := by
  cases intent with
  | forge intent =>
    by_cases he : stream = intent.stream
    · subst he
      simp [Plane.perform]
      omega
    · simpa [Plane.perform, he] using h
  | ref intent | retention intent => cases intent <;> exact h
  | outbox intent => exact h

theorem perform_outbox {w : Plane} {intent : Intent} (hadmits : w.admits intent)
    {key : OutboxDeliveryKey} {bound : Digest} (h : w.outbox key = some bound) :
    (w.perform intent).outbox key = some bound := by
  cases intent with
  | outbox intent =>
    by_cases he : key = intent.deliveryKey
    · subst he
      simp [Plane.perform, hadmits bound h]
    · simpa [Plane.perform, he] using h
  | ref intent => cases intent <;> exact h
  | forge intent => exact h
  | retention intent => cases intent <;> exact h

/-- Along an execution a stream's position counts its events and a bound
delivery key stays bound. -/
theorem execute_grows {request : TransactionRequest} (basis : FoldBasis)
    {entries : List (IntentAddress × Intent)} {w w' : Plane}
    (h : execute request w entries = .ok w') (hpos : ∀ stream, w.positions stream
      = (positionOf basis.forgePositions stream).val + (w.events stream).length)
    (hout : ∀ (key : OutboxDeliveryKey) bound, basis.outbox[key]? = some bound →
      w.outbox key = some bound) : (∀ stream, w'.positions stream
      = (positionOf basis.forgePositions stream).val + (w'.events stream).length) ∧
    (∀ (key : OutboxDeliveryKey) bound, basis.outbox[key]? = some bound →
      w'.outbox key = some bound) := by
  induction entries generalizing w with
  | nil =>
    cases h
    exact ⟨hpos, hout⟩
  | cons entry rest ih =>
    rw [execute_cons] at h
    split at h
    · next hadmits =>
      exact ih h (fun stream => perform_positions entry.2 stream (hpos stream))
        fun key bound hb => perform_outbox hadmits (hout key bound hb)
    · split at h
      · cases h
      · exact ih h hpos hout

/-! ### Applying a normal form, target by target -/

/-- The value a ref effect leaves. -/
def RefEffect.result : RefEffect → Option GitOid
  | .set oid => some oid
  | .delete => none

theorem get_applyRefEffects (effects : BTreeMap RefName RefEffect)
    (refs : BTreeMap RefName GitOid) (name : RefName) :
    (effects.foldl applyRefEffect refs)[name]?
      = (effects[name]?).elim refs[name]? RefEffect.result := by
  refine foldl_observe (fun (m : BTreeMap RefName GitOid) n => m[n]?) applyRefEffect
    (fun _ effect _ => effect.result) (fun m n effect a => ?_) effects refs name
  cases effect with
  | set oid => exact get_insert m n a oid
  | delete => exact get_erase m n a

theorem mem_applyRetentionEffects (effects : BTreeMap RetentionRoot RetentionEffect)
    (retention : BTreeSet RetentionRoot) (root : RetentionRoot) :
    root ∈ effects.foldl applyRetentionEffect retention
      ↔ (effects[root]?).elim (root ∈ retention) fun effect => effect = .add := by
  refine iff_of_eq (foldl_observe (fun (m : BTreeSet RetentionRoot) r => r ∈ m)
    applyRetentionEffect (fun _ effect _ => effect = .add) (fun m r effect a => ?_)
    effects retention root)
  cases effect with
  | add | remove => by_cases h : r = a <;> simp [applyRetentionEffect, h]

theorem get_applyOutboxEffects (effects outbox : BTreeMap OutboxDeliveryKey Digest)
    (key : OutboxDeliveryKey) :
    (effects.foldl (·.insert · ·) outbox)[key]? = (effects[key]?).or outbox[key]? := by
  rw [foldl_observe (fun (m : BTreeMap OutboxDeliveryKey Digest) k => m[k]?) _
    (fun _ parameters _ => some parameters) fun m k parameters a => get_insert m k a parameters]
  cases effects[key]? <;> rfl

theorem get_appendEvents (effects forge : BTreeMap ForgeStreamId (List ForgeEventKind))
    (stream : ForgeStreamId) : (effects.foldl (fun forge stream events =>
        forge.insert stream (forge[stream]?.getD [] ++ events)) forge)[stream]?
      = (effects[stream]?).elim forge[stream]? fun events =>
          some (forge[stream]?.getD [] ++ events) := by
  refine foldl_observe (fun (m : BTreeMap ForgeStreamId (List ForgeEventKind)) k => m[k]?) _
    (fun _ events seen => some (seen.getD [] ++ events))
    (fun m k events a => ?_) effects forge stream
  rw [get_insert]
  by_cases h : k = a <;> simp [h]

/-- The position a number of events further on. -/
def ForgeStreamPosition.advanced (position : ForgeStreamPosition) (n : ℕ) : ForgeStreamPosition :=
  ⟨min (position.val + n) u64Max, min_le_right _ _⟩

theorem advance_eq {n : ℕ} {position : ForgeStreamPosition} (h : position.val + n ≤ u64Max) :
    advance n position = .ok (position.advanced n) := by
  induction n generalizing position with
  | zero =>
    refine congrArg Except.ok (ForgeStreamPosition.ext ?_)
    simp [ForgeStreamPosition.advanced, position.fits]
  | succ n ih =>
    have hfree : position.isExhausted = false := by
      simp only [isExhausted, beq_eq_false_iff_ne, ne_eq]
      omega
    have hnext := successor_val hfree
    rw [advance, if_neg (by simp [hfree]), ih (by omega)]
    refine congrArg Except.ok (ForgeStreamPosition.ext ?_)
    simp only [ForgeStreamPosition.advanced, hnext]
    congr 1
    omega

theorem applyForgeEffects_eq (positions : BTreeMap ForgeStreamId ForgeStreamPosition)
    (forge : BTreeMap ForgeStreamId (List ForgeEventKind))
    (hfits : ∀ (stream : ForgeStreamId) events, forge[stream]? = some events →
      (positionOf positions stream).val + events.length ≤ u64Max) :
    ∃ after, applyForgeEffects positions forge = .ok after ∧
      ∀ stream : ForgeStreamId, after[stream]?
        = (forge[stream]?).elim positions[stream]? fun events =>
        some ((positionOf positions stream).advanced events.length) := by
  refine foldlM_observe (fun (m : BTreeMap ForgeStreamId ForgeStreamPosition) k => m[k]?)
    (fun m k (events : List ForgeEventKind) => do
      return m.insert k (← advance events.length (positionOf m k)))
    (fun _ events seen => (seen.getD .genesis).val + events.length ≤ u64Max)
    (fun _ events seen => some ((seen.getD .genesis).advanced events.length))
    (fun m k events hgood => ?_) forge positions hfits
  refine ⟨m.insert k ((positionOf m k).advanced events.length), ?_, fun a => ?_⟩
  · rw [show advance events.length (positionOf m k) = _ from advance_eq hgood]
    rfl
  · rw [get_insert]
    by_cases h : k = a
    · subst h
      rfl
    · simp [h]

/-! ### The normal form reproduces the execution -/

/-- Roots that show a given plane. -/
structure RepositoryRoots.Shows (roots : RepositoryRoots) (w : Plane) : Prop where
  refs : ∀ name : RefName, roots.refs[name]? = w.refs name
  positions : ∀ stream, (positionOf roots.forgePositions stream).val = w.positions stream
  retention : ∀ root, root ∈ roots.retention ↔ root ∈ w.retention
  outbox : ∀ key : OutboxDeliveryKey, roots.outbox[key]? = w.outbox key

/-- The workspace a basis shows, over the events its streams already hold. -/
def FoldBasis.workspace (basis : FoldBasis) (forge : BTreeMap ForgeStreamId (List ForgeEventKind)) :
    Workspace :=
  ⟨basis.refs, forge, basis.retention, basis.outbox⟩

/-- A workspace that shows a given plane on top of the events `forge`. -/
structure Workspace.Shows (workspace : Workspace)
    (forge : BTreeMap ForgeStreamId (List ForgeEventKind)) (w : Plane) : Prop where
  refs : ∀ name : RefName, workspace.refs[name]? = w.refs name
  forge : ∀ stream : ForgeStreamId, workspace.forge[stream]?
    = if w.events stream = [] then forge[stream]?
      else some (forge[stream]?.getD [] ++ w.events stream)
  retention : ∀ root, root ∈ workspace.retention ↔ root ∈ w.retention
  outbox : ∀ key : OutboxDeliveryKey, workspace.outbox[key]? = w.outbox key

/-- Effects that name a target only where the plane differs from the basis. -/
structure NetEffects.Minimal (effects : NetEffects) (basis : FoldBasis) (w : Plane) : Prop where
  refs : ∀ name ∈ effects.refs, w.refs name ≠ basis.refs[name]?
  retention : ∀ root ∈ effects.retention, ¬ (root ∈ w.retention ↔ root ∈ basis.retention)
  outbox : ∀ key ∈ effects.outbox, w.outbox key ≠ basis.outbox[key]?

theorem refChange_result (old new : Option GitOid) :
    (refChange old new).elim old RefEffect.result = new := by
  cases new with
  | none => cases old <;> rfl
  | some value =>
    by_cases h : old = some value <;> simp [refChange, h, RefEffect.result]

variable {basis : FoldBasis} {scratch : Scratch}

theorem diff_minimal : (diff basis scratch).Minimal basis scratch.plane where
  refs name hmem hsame := by
    rw [← isSome_getElem?_iff_mem, diff_refs] at hmem
    simp only [plane] at hsame
    rw [hsame] at hmem
    cases h : basis.refs[name]? <;> simp [refChange, h] at hmem
  retention root hmem hsame := by
    rw [← isSome_getElem?_iff_mem, diff_retention] at hmem
    simp only [plane, Set.mem_ofPred_eq] at hsame
    simp [hsame] at hmem
  outbox key hmem hsame := by
    rw [← isSome_getElem?_iff_mem, diff_outbox] at hmem
    simp only [plane] at hsame
    rw [hsame] at hmem
    cases h : basis.outbox[key]? <;> simp [Option.filter, h] at hmem

theorem diff_retention_result (root : RetentionRoot) :
    ((diff basis scratch).retention[root]?).elim (root ∈ basis.retention)
      (fun effect => effect = .add) ↔ root ∈ scratch.retention := by
  rw [diff_retention]
  by_cases hb : root ∈ basis.retention <;> by_cases hs : root ∈ scratch.retention <;>
    simp [hb, hs]

theorem diff_outbox_result (key : OutboxDeliveryKey)
    (hgrows : ∀ bound, basis.outbox[key]? = some bound → scratch.outbox[key]? = some bound) :
    ((diff basis scratch).outbox[key]?).or basis.outbox[key]? = scratch.outbox[key]? := by
  rw [diff_outbox]
  cases hs : scratch.outbox[key]? with
  | none =>
    cases hb : basis.outbox[key]? with
    | none => rfl
    | some bound =>
      have := hgrows bound hb
      rw [hs] at this
      cases this
  | some parameters =>
    by_cases hb : basis.outbox[key]? = some parameters <;> simp [Option.filter, hb]

theorem applyNetEffects_diff (forge : BTreeMap ForgeStreamId (List ForgeEventKind))
    (hgrows : ∀ (key : OutboxDeliveryKey) bound, basis.outbox[key]? = some bound →
      scratch.outbox[key]? = some bound) :
    (applyNetEffects (basis.workspace forge) (diff basis scratch)).Shows forge scratch.plane where
  refs name := by
    simp only [applyNetEffects, get_applyRefEffects, diff_refs]
    exact refChange_result _ _
  forge stream := by
    simp only [applyNetEffects, get_appendEvents, diff_forge, FoldBasis.workspace, plane]
    obtain hev | ⟨events, hev⟩ := (scratch.forgeEvents[stream]?).eq_none_or_eq_some
    · simp [hev]
    · by_cases h : events = [] <;> simp [hev, Option.filter, h]
  retention root := by
    simp only [applyNetEffects, mem_applyRetentionEffects]
    exact diff_retention_result root
  outbox key := by
    simp only [applyNetEffects, get_applyOutboxEffects]
    exact diff_outbox_result key (hgrows key)

theorem applyEffects_diff (outcomeIndex : BTreeMap TxId DecisionOutcome)
    (hpos : ∀ stream, scratch.plane.positions stream
      = (positionOf basis.forgePositions stream).val + (scratch.plane.events stream).length)
    (hgrows : ∀ (key : OutboxDeliveryKey) bound, basis.outbox[key]? = some bound →
      scratch.outbox[key]? = some bound) : ∃ after, applyEffects
        ⟨basis.refs, basis.forgePositions, outcomeIndex, basis.retention, basis.outbox⟩
        (diff basis scratch) = .ok after ∧
      after.Shows scratch.plane ∧ after.outcomeIndex = outcomeIndex := by
  obtain ⟨positions, hok, hget⟩ := applyForgeEffects_eq basis.forgePositions
    (diff basis scratch).forge fun stream events hevents => by
      rw [diff_forge] at hevents
      have hval := hpos stream
      have hfits := (positionOf scratch.forgePositions stream).fits
      simp only [plane, (filter_eq_some_iff.mp hevents).1, getD_some] at hval
      omega
  refine ⟨_, by rw [applyEffects, hok]; rfl, ⟨fun name => ?_, fun stream => ?_, fun root => ?_,
    fun key => ?_⟩, rfl⟩
  · simp only [get_applyRefEffects, diff_refs]
    exact refChange_result _ _
  · have hval := hpos stream
    have hfits := (positionOf scratch.forgePositions stream).fits
    show (positions[stream]?.getD .genesis).val = _
    rw [hget, diff_forge]
    simp only [plane] at hval ⊢
    rcases hev : scratch.forgeEvents[stream]? with - | events
    · show (positionOf basis.forgePositions stream).val = _
      simpa [hev] using hval.symm
    · rw [hev, getD_some] at hval
      by_cases hnil : events = []
      · subst hnil
        show (positionOf basis.forgePositions stream).val = _
        simpa using hval.symm
      · rw [filter_some_pos (by simpa using hnil), elim_some, getD_some]
        show min _ _ = _
        omega
  · simp only [mem_applyRetentionEffects]
    exact diff_retention_result root
  · simp only [get_applyOutboxEffects]
    exact diff_outbox_result key (hgrows key)

/-- A fold that did not abort is the diff of an execution's scratch state. -/
theorem fold_cases (basis : FoldBasis) (request : TransactionRequest) :
    (∃ st, request.addressedIntents.foldlM (foldStep request) ⟨.fromBasis basis, [], ∅⟩ = .ok st ∧
      (fold basis request).outcome = .folded (diff basis st.scratch) ∧
      execute request (.start basis) request.addressedIntents = .ok st.scratch.plane) ∨
    (∃ code before address intent after w, (fold basis request).outcome = .aborted code address ∧
      (∀ mapping ∈ (fold basis request).mappings, mapping.disposition = .transactionAborted) ∧
      request.addressedIntents = before ++ (address, intent) :: after ∧
      execute request (.start basis) before = .ok w ∧ ¬ w.admits intent ∧
      policyAt request address = .txnAbort) := by
  have hloop := foldlM_execute request request.addressedIntents ⟨.fromBasis basis, [], ∅⟩
  rcases hloop with ⟨st, hrun, hexec⟩ | ⟨code, before, address, intent, after, w, hrun, hrest⟩
  · exact .inl ⟨st, hrun, by simp only [fold, hrun], hexec⟩
  · refine .inr ⟨code, before, address, intent, after, w, by simp only [fold, hrun], ?_, hrest⟩
    simp only [fold, hrun, List.mem_map, forall_exists_index, and_imp]
    rintro mapping entry - rfl
    rfl

/-- **Normal-form correctness.**  A fold that returns effects executed the
whole request, and both ways of applying the effects rebuild the state the
execution ended in; the effects name a target only where that state differs
from the basis.  A fold that aborts does so at the first intent whose
precondition failed under an aborting statement, and emits nothing. -/
theorem fold_normal_form_correct (basis : FoldBasis)
    (forge : BTreeMap ForgeStreamId (List ForgeEventKind))
    (outcomeIndex : BTreeMap TxId DecisionOutcome) (request : TransactionRequest) :
    match (fold basis request).outcome with
    | .folded effects =>
      ∃ final, execute request (.start basis) request.addressedIntents = .ok final ∧
        (applyNetEffects (basis.workspace forge) effects).Shows forge final ∧
        (∃ after, applyEffects
            ⟨basis.refs, basis.forgePositions, outcomeIndex, basis.retention, basis.outbox⟩
            effects = .ok after ∧
          after.Shows final ∧ after.outcomeIndex = outcomeIndex) ∧
        (∀ stream, final.positions stream
          = (positionOf basis.forgePositions stream).val + (final.events stream).length) ∧
        effects.Minimal basis final
    | .aborted _ address =>
      (∀ mapping ∈ (fold basis request).mappings, mapping.disposition = .transactionAborted) ∧
      ∃ before intent after w,
        request.addressedIntents = before ++ (address, intent) :: after ∧
        execute request (.start basis) before = .ok w ∧ ¬ w.admits intent ∧
        policyAt request address = .txnAbort := by
  rcases fold_cases basis request with
    ⟨st, -, hfold, hexec⟩ | ⟨code, before, address, intent, after, w, hfold, hmaps, hrest⟩
  · obtain ⟨hpos, hgrows⟩ := execute_grows basis hexec
      (fun stream => by simp [Plane.start]) (fun key bound h => h)
    rw [hfold]
    exact ⟨st.scratch.plane, hexec, applyNetEffects_diff forge hgrows,
      applyEffects_diff outcomeIndex hpos hgrows, hpos, diff_minimal⟩
  · rw [hfold]
    exact ⟨hmaps, before, intent, after, w, hrest⟩

end Frankengit.Reference
