/-
Frankengit/Policy/Ancestry.lean

Unknown ancestry never decides.  Where the ancestry of an update was not
established, `evaluate` refuses a policy that tests it.  So whenever it
answers, the answer is the one it gives once the ancestry is known, whatever
it turns out to be: `PolicyInputRoot.Classifies` fills in the kind of
unclassified updates in any combination, and `evaluate_classifies` says that
the decision, the governing rules and the matched rules stay the same.

The walk of `requireAncestry` visits every test of every rule
(`ancestryScan_ok`), and the tests it lets pass do not tell the kinds apart.
-/
import Frankengit.Policy.Eval

namespace Frankengit.Policy

open Fallible List Option SubjectOutcome Test Facts

/-! ### What a predicate reads -/

namespace Predicate

theorem mem_testsOf {operands : List Predicate} {t : Test} :
    t ∈ testsOf operands ↔ ∃ p ∈ operands, t ∈ p.tests := by
  induction operands with
  | nil => simp [testsOf]
  | cons operand rest ih => simp [testsOf, ih]

mutual

/-- A predicate holds of the facts its tests hold of. -/
theorem holds_congr {facts facts' : Facts} (p : Predicate)
    (h : ∀ t ∈ p.tests, t.holds facts = t.holds facts') : holds facts p = holds facts' p := by
  cases p with
  | always | never => rfl
  | all operands => exact (operands_congr operands h).1
  | any operands => exact (operands_congr operands h).2
  | not inner => rw [holds, holds, holds_congr inner h]
  | test t => exact h t (by simp [tests])

theorem operands_congr {facts facts' : Facts} (operands : List Predicate)
    (h : ∀ t ∈ testsOf operands, t.holds facts = t.holds facts') :
    allHold facts operands = allHold facts' operands
      ∧ anyHolds facts operands = anyHolds facts' operands := by
  cases operands with
  | nil => exact ⟨rfl, rfl⟩
  | cons operand rest =>
    simp only [testsOf, mem_append] at h
    have hoperand := holds_congr operand fun t ht => h t (.inl ht)
    obtain ⟨hall, hany⟩ := operands_congr rest fun t ht => h t (.inr ht)
    simp only [allHold, anyHolds, hoperand, hall, hany, and_self]

end

end Predicate

/-! ### The walk over the predicates -/

variable {name : Bytes}

/-- The walk visits every test. -/
theorem ancestryScan_ok {rule : CompiledRule} {remaining left : ℕ} {pending : List (Predicate × ℕ)}
    (h : ancestryScan rule name remaining pending = .ok left) :
    ∀ e ∈ pending, ∀ t ∈ e.1.tests, t.needsAncestry = false := by
  fun_induction ancestryScan rule name remaining pending with
  | case1 => exact nofun
  | case2 | case3 | case4 | case7 | case9 => cases h
  | case5 remaining depth pending hdepth t hneeds ih =>
    refine forall_mem_cons.mpr ⟨forall_mem_singleton.mpr ?_, ih h⟩
    simpa using hneeds
  | case6 remaining depth pending hdepth inner ih =>
    obtain ⟨hinner, hpend⟩ := forall_mem_cons.mp (ih h)
    exact forall_mem_cons.mpr ⟨hinner, hpend⟩
  | case8 remaining depth pending hdepth children hroom ih
  | case10 remaining depth pending hdepth children hroom ih =>
    obtain ⟨hchildren, hpend⟩ := forall_mem_append.mp (ih h)
    refine forall_mem_cons.mpr ⟨fun u hu => ?_, hpend⟩
    obtain ⟨child, hchild, hu⟩ := Predicate.mem_testsOf.mp hu
    exact hchildren (child, depth + 1) (by simp [hchild]) u hu
  | case11 remaining predicate depth pending hdepth htest hnot hall hany ih =>
    refine forall_mem_cons.mpr ⟨fun u hu => ?_, ih h⟩
    cases predicate with
    | always | never => cases hu
    | all children => exact absurd rfl (hall children)
    | any children => exact absurd rfl (hany children)
    | not inner => exact absurd rfl (hnot inner)
    | test t => exact absurd rfl (htest t)

/-- Whether the walk succeeds does not depend on the name it reports. -/
theorem ancestryScan_name {rule : CompiledRule} {name' : Bytes} {remaining left : ℕ}
    {pending : List (Predicate × ℕ)} (h : ancestryScan rule name remaining pending = .ok left) :
    ancestryScan rule name' remaining pending = .ok left := by
  fun_induction ancestryScan rule name remaining pending with
  | case1 => rw [ancestryScan, h]
  | case2 | case3 | case4 | case7 | case9 => cases h
  | case5 remaining depth pending hdepth t hneeds ih =>
    rw [ancestryScan, if_neg hdepth, if_neg hneeds, ih h]
  | case6 remaining depth pending hdepth inner ih => rw [ancestryScan, if_neg hdepth, ih h]
  | case8 remaining depth pending hdepth children hroom ih
  | case10 remaining depth pending hdepth children hroom ih =>
    rw [ancestryScan, if_neg hdepth, if_neg hroom, ih h]
  | case11 remaining predicate depth pending hdepth htest hnot hall hany ih =>
    rw [ancestryScan, if_neg hdepth, ih h]
    all_goals assumption

/-- The walk over the rules, for the update it reports. -/
def ancestryWalk (policy : CompiledPolicy) (name : Bytes) : Except PolicyEvalRefusal ℕ :=
  policy.rules.foldlM
    (fun remaining rule => ancestryScan rule name remaining [(rule.predicate, 0)]) maxSourceLen

variable {policy : CompiledPolicy}

theorem ancestryWalk_name {name' : Bytes} {left : ℕ} (h : ancestryWalk policy name = .ok left) :
    ancestryWalk policy name' = .ok left := by
  unfold ancestryWalk at h ⊢
  generalize policy.rules = rules at h ⊢
  generalize maxSourceLen = remaining at h ⊢
  induction rules generalizing remaining with
  | nil => exact h
  | cons rule rest ih =>
    obtain ⟨mid, hrule, hrest⟩ := foldlM_cons_ok.mp h
    exact foldlM_cons_ok.mpr ⟨mid, ancestryScan_name hrule, ih _ hrest⟩

theorem ancestryWalk_ok {left : ℕ} (h : ancestryWalk policy name = .ok left) :
    ∀ rule ∈ policy.rules, ∀ t ∈ rule.predicate.tests, t.needsAncestry = false := by
  unfold ancestryWalk at h
  generalize policy.rules = rules at h ⊢
  generalize maxSourceLen = remaining at h
  induction rules generalizing remaining with
  | nil => exact nofun
  | cons rule rest ih =>
    obtain ⟨mid, hrule, hrest⟩ := foldlM_cons_ok.mp h
    exact forall_mem_cons.mpr ⟨ancestryScan_ok hrule (rule.predicate, 0) (by simp), ih _ hrest⟩

variable {input : PolicyInputRoot}

/-- The check is the walk, made where an update is unclassified. -/
theorem requireAncestry_ok : requireAncestry policy input = .ok () ↔
      ((∃ update ∈ input.updates, update.kind = .unclassifiedUpdate) →
        ∃ left, ancestryWalk policy [] = .ok left) := by
  unfold requireAncestry
  split
  · next hnone =>
    rw [find?_eq_none] at hnone
    refine ⟨fun _ ⟨update, hmem, hkind⟩ => absurd hkind (by simpa using hnone update hmem),
      fun _ => rfl⟩
  · next subject hsome =>
    have hsubject : ∃ update ∈ input.updates, update.kind = .unclassifiedUpdate :=
      ⟨subject, mem_of_find?_eq_some hsome, by simpa using find?_some hsome⟩
    rw [forall_prop_of_true hsubject]
    constructor
    · intro h
      obtain ⟨left, hleft, -⟩ := map_eq_ok.mp h
      exact ⟨left, ancestryWalk_name (show ancestryWalk policy _ = .ok left from hleft)⟩
    · rintro ⟨left, hleft⟩
      exact map_eq_ok.mpr ⟨left, ancestryWalk_name hleft, rfl⟩

/-! ### Filling in the ancestry -/

/-- The same update; its ancestry may have become known. -/
structure RefUpdateFact.Classifies (update update' : RefUpdateFact) : Prop where
  name : update'.name = update.name
  previous : update'.previous = update.previous
  next : update'.next = update.next
  forceRequested : update'.forceRequested = update.forceRequested
  kind : update'.kind = update.kind
    ∨ update.kind = .unclassifiedUpdate ∧ update'.kind.isAncestry = true

/-- The same input; the ancestry of some updates may have become known. -/
structure PolicyInputRoot.Classifies (input input' : PolicyInputRoot) : Prop where
  principal : input'.principal = input.principal
  updates : Forall₂ RefUpdateFact.Classifies input.updates input'.updates
  receipts : input'.receipts = input.receipts
  statusChecks : input'.statusChecks = input.statusChecks
  aggregates : input'.aggregates = input.aggregates
  instant : input'.instant = input.instant

/-- The update kinds a test names. -/
def Test.updateKinds : Test → List RefUpdateKind
  | updateKindEquals kind => [kind]
  | updateKindIn kinds => kinds
  | _ => []

theorem Test.needsAncestry_eq (t : Test) :
    t.needsAncestry = t.updateKinds.any RefUpdateKind.isAncestry := by
  cases t with
  | updateKindEquals kind => simp [needsAncestry, updateKinds]
  | _ => rfl

/-- Whether a test names an update kind. -/
abbrev Test.Names (kind : RefUpdateKind) (t : Test) : Prop := kind ∈ t.updateKinds

/-- Whether some test of a predicate names an update kind. -/
abbrev Predicate.Names (kind : RefUpdateKind) (p : Predicate) : Prop :=
  ∃ t ∈ p.tests, t.Names kind

/-- Two outcomes that differ in the kind they report only. -/
def SubjectOutcome.SameVerdict (outcome outcome' : SubjectOutcome) : Prop :=
  outcome' = { outcome with update := outcome'.update }

section Subject

variable {policy : CompiledPolicy} {input input' : PolicyInputRoot} {update update' : RefUpdateFact}
  {authentication : AuthenticationStrength} {actorId : Bytes} {actorSnapshot : Option Bytes}

/-- A test that names neither the kind an update has nor the one it gets does
not see the difference. -/
theorem Test.holds_classifies (hinput : input.Classifies input')
    (hupd : update.Classifies update') {t : Test}
    (ht : update'.kind = update.kind ∨ ¬ t.Names update.kind ∧ ¬ t.Names update'.kind) :
    t.holds ⟨policy, some input', authentication, update', actorId, actorSnapshot⟩ =
      t.holds ⟨policy, some input, authentication, update, actorId, actorSnapshot⟩ := by
  have hscope : update'.scope = update.scope := by
    rw [RefUpdateFact.scope, RefUpdateFact.scope, hupd.name]
  cases t with
  | textEquals selector | textIn selector | textMatches selector =>
    cases selector <;> simp only [holds, text, hupd.name, hscope] <;> congr
  | updateKindEquals kind =>
    rcases ht with heq | ⟨hold, hnew⟩
    · simp only [holds, heq]
    · have hold' : ¬ update.kind = kind := fun h => hold (mem_singleton.mpr h)
      have hnew' : ¬ update'.kind = kind := fun h => hnew (mem_singleton.mpr h)
      simp only [holds, hold', hnew']
  | updateKindIn kinds =>
    rcases ht with heq | ⟨hold, hnew⟩
    · simp only [holds, heq]
    · have hold' : update.kind ∉ kinds := hold
      have hnew' : update'.kind ∉ kinds := hnew
      simp only [holds, contains_eq_mem, hold', hnew']
  | principalKindEquals kind | principalKindIn kinds =>
    simp only [holds, any_some, hinput.principal]
  | authenticationCompare operator value => rfl
  | labelContains selector label =>
    cases selector <;> simp only [holds, any_some, hinput.principal]
  | forceRequested => exact hupd.forceRequested
  | aggregateCompare name operator value =>
    simp only [holds, aggregate, hinput.aggregates, bind_eq_bind, bind_some]
  | evidenceAccepted kind =>
    simp only [holds, accepted, hinput.receipts, hinput.instant, hupd.name, bind_eq_bind, bind_some]

/-- The outcome of a subject differs in the kind it reports only. -/
theorem decideSubject_classifies (hinput : input.Classifies input')
    (hupd : update.Classifies update')
    (hrules : update'.kind = update.kind ∨ ∀ rule ∈ policy.rules, ∀ t ∈ rule.predicate.tests,
      ¬ t.Names update.kind ∧ ¬ t.Names update'.kind) (index : ℕ) : SameVerdict
      (decideSubject index ⟨policy, some input, authentication, update, actorId, actorSnapshot⟩)
      (decideSubject index
        ⟨policy, some input', authentication, update', actorId, actorSnapshot⟩) := by
  let facts : Facts := ⟨policy, some input, authentication, update, actorId, actorSnapshot⟩
  let facts' : Facts := ⟨policy, some input', authentication, update', actorId, actorSnapshot⟩
  have hholds : ∀ rule ∈ policy.rules, holds facts' rule.predicate
      = holds facts rule.predicate := by
    intro rule hrule
    refine Predicate.holds_congr _ fun t ht => holds_classifies hinput hupd ?_
    exact hrules.imp id fun h => h rule hrule t ht
  have htally : tallyRules facts' = tallyRules facts :=
    foldl_ext _ _ _ fun tally rule hrule => by rw [hholds rule hrule]
  have hev : acceptedEvidence facts' = acceptedEvidence facts := by
    simp only [acceptedEvidence, accepted, facts, facts', hinput.receipts, hinput.instant,
      hupd.name, bind_eq_bind, bind_some]
  simp only [SameVerdict, decideSubject, facts, facts', htally, hev, hupd.name]

end Subject

/-! ### Evaluation -/

/-- A test that passes the walk and does not name the unclassified kind tells
none of the three kinds apart. -/
theorem Test.not_names {t : Test} (hneeds : t.needsAncestry = false)
    (hunclassified : ¬ t.Names .unclassifiedUpdate) {kind : RefUpdateKind}
    (hkind : kind = .unclassifiedUpdate ∨ kind.isAncestry = true) : ¬ t.Names kind := by
  rcases hkind with rfl | hancestry
  · exact hunclassified
  · intro hmem
    rw [needsAncestry_eq, List.any_eq_false] at hneeds
    exact hneeds kind hmem hancestry

/-- An update that is unclassified afterwards was so before. -/
theorem requireAncestry_classifies {input' : PolicyInputRoot} (hclass : input.Classifies input')
    (h : requireAncestry policy input = .ok ()) : requireAncestry policy input' = .ok () := by
  rw [requireAncestry_ok] at h ⊢
  rintro ⟨update', hmem, hkind⟩
  obtain ⟨i, hi, rfl⟩ := mem_iff_getElem.mp hmem
  obtain ⟨hlen, hget⟩ := forall₂_iff_get.mp hclass.updates
  have hclasses := hget i (hlen ▸ hi) hi
  refine h ⟨_, getElem_mem (hlen ▸ hi), ?_⟩
  rcases hclasses.kind with heq | ⟨hunclassified, -⟩
  · exact heq.symm.trans hkind
  · exact hunclassified

theorem subjects_classifies {input' : PolicyInputRoot} {authentication : AuthenticationStrength}
    {actorId : Bytes} {actorSnapshot : Option Bytes} (hinput : input.Classifies input')
    {updates updates' : List RefUpdateFact}
    (hupds : Forall₂ RefUpdateFact.Classifies updates updates')
    (htests : (∃ update ∈ updates, update.kind = .unclassifiedUpdate) →
      ∀ rule ∈ policy.rules, ∀ t ∈ rule.predicate.tests,
        t.needsAncestry = false ∧ ¬ t.Names .unclassifiedUpdate) (start : ℕ) :
    Forall₂ SameVerdict ((updates.zipIdx start).map fun (update, index) => decideSubject index
        ⟨policy, some input, authentication, update, actorId, actorSnapshot⟩)
      ((updates'.zipIdx start).map fun (update, index) => decideSubject index
        ⟨policy, some input', authentication, update, actorId, actorSnapshot⟩) := by
  induction hupds generalizing start with
  | nil => exact .nil
  | @cons update update' _ _ hupd _ ih =>
    refine .cons ?_ (ih (fun ⟨u, hu, hkind⟩ => htests ⟨u, .tail _ hu, hkind⟩) (start + 1))
    refine decideSubject_classifies hinput hupd ?_ start
    refine hupd.kind.imp id fun ⟨hold, hnew⟩ rule hrule t ht => ?_
    obtain ⟨hneeds, hunnamed⟩ := htests ⟨update, .head _, hold⟩ rule hrule t ht
    exact ⟨not_names hneeds hunnamed (.inl hold), not_names hneeds hunnamed (.inr hnew)⟩

theorem any_deny_congr {outcomes outcomes' : List SubjectOutcome}
    (h : Forall₂ SameVerdict outcomes outcomes') :
    outcomes'.any (fun outcome => decide (outcome.decision = .deny))
      = outcomes.any fun outcome => decide (outcome.decision = .deny) := by
  induction h with
  | nil => rfl
  | cons h _ ih =>
    rw [any_cons, any_cons, ih, h]

/-- **Unknown ancestry never decides.**  Where `evaluate` answers, it gives the
same decision, the same governing rules and the same matched rules once the
ancestry of its unclassified updates is known, for a policy that does not name
the unclassified kind. -/
theorem evaluate_classifies (display : Display) (snapshot : PolicySnapshot)
    (input input' : PolicyInputRoot) (evaluation : PolicyEvaluation)
    (hnames : ∀ rule ∈ snapshot.policy.rules, ¬ rule.predicate.Names .unclassifiedUpdate)
    (heval : evaluate display snapshot input = .ok evaluation)
    (hclass : input.Classifies input') :
    ∃ evaluation', evaluate display snapshot input' = .ok evaluation'
      ∧ evaluation'.decision = evaluation.decision
      ∧ List.Forall₂ (fun outcome outcome' => outcome'.decision = outcome.decision
          ∧ outcome'.governingRule = outcome.governingRule ∧ outcome'.visits = outcome.visits)
        evaluation.subjects evaluation'.subjects := by
  simp only [evaluate, bind_eq_ok, pure_eq_ok] at heval ⊢
  obtain ⟨⟨⟩, hancestry, ⟨⟩, haggr, rfl⟩ := heval
  have haggr' : requireAggregates snapshot.policy input' = .ok () := by
    rw [requireAggregates, hclass.aggregates]
    exact haggr
  refine ⟨_, ⟨⟨⟩, requireAncestry_classifies hclass hancestry, ⟨⟩, haggr', rfl⟩, ?_⟩
  have htests : (∃ update ∈ input.updates, update.kind = .unclassifiedUpdate) →
      ∀ rule ∈ snapshot.policy.rules, ∀ t ∈ rule.predicate.tests,
        t.needsAncestry = false ∧ ¬ t.Names .unclassifiedUpdate := by
    intro hunclassified rule hrule t ht
    obtain ⟨left, hleft⟩ := requireAncestry_ok.mp hancestry hunclassified
    exact ⟨ancestryWalk_ok hleft rule hrule t ht, fun hnamed => hnames rule hrule ⟨t, ht, hnamed⟩⟩
  simp only [hclass.principal, evaluateFacts]
  refine ⟨?_, (subjects_classifies hclass hclass.updates htests 0).imp fun outcome outcome' h => ?_⟩
  · rw [any_deny_congr (subjects_classifies hclass hclass.updates htests 0)]
  · rw [SameVerdict] at h
    rw [h]
    exact ⟨rfl, rfl, rfl⟩

/-! ### One update of a branch -/

def branchName : RefName := ⟨ascii "refs/heads/main", by decide +kernel⟩

/-- An update of the branch between two commits. -/
def branchUpdate (kind : RefUpdateKind) (hcreate : kind ≠ .create) (hdelete : kind ≠ .delete) :
    RefUpdateFact :=
  ⟨branchName, some ⟨.sha1, 1⟩, some ⟨.sha1, 2⟩, kind, false, by simp [hcreate], by simp [hdelete]⟩

/-- A request of one update by a person. -/
def branchRequest (update : RefUpdateFact) : PolicyInputRoot where
  principal := ⟨⟨1⟩, ⟨2⟩, .human, .multiFactor, ∅, ∅⟩
  updates := [update]
  receipts := []
  statusChecks := []
  aggregates := ∅
  instant := 100
  names_nodup := nodup_singleton _
  receipts_sorted := .nil
  checks_sorted := .nil

/-- Persons may do anything but delete. -/
def branchPolicy : PolicySnapshot where
  policy := .new ⟨⟨ascii "branches", by decide⟩⟩ [] []
    [CompiledRule.new ⟨⟨ascii "people", by decide⟩⟩
      (.all [.test (.principalKindEquals .human), .not (.test (.updateKindEquals .delete))]) .allow]
    (.deny (.newTruncating (ascii "no rule")))
  id := ⟨0, 0⟩

def byteDisplay : Display :=
  ⟨fun id => [UInt8.ofNat id.spelled], fun id => [UInt8.ofNat id.spelled],
    fun oid => [UInt8.ofNat oid.bytes]⟩

theorem evaluate_classifies_branch :
    ∃ evaluation evaluation',
      evaluate byteDisplay branchPolicy
        (branchRequest (branchUpdate .unclassifiedUpdate nofun nofun))
        = .ok evaluation
      ∧ evaluate byteDisplay branchPolicy (branchRequest (branchUpdate .nonFastForward nofun nofun))
        = .ok evaluation'
      ∧ evaluation'.decision = evaluation.decision := by
  obtain ⟨evaluation', heval', hdec, -⟩ := evaluate_classifies byteDisplay branchPolicy
    (branchRequest (branchUpdate .unclassifiedUpdate nofun nofun))
    (branchRequest (branchUpdate .nonFastForward nofun nofun)) _
    (by decide +kernel) rfl
      ⟨rfl, .cons ⟨rfl, rfl, rfl, rfl, .inr ⟨rfl, rfl⟩⟩ .nil, rfl, rfl, rfl, rfl⟩
  exact ⟨_, evaluation', rfl, heval', hdec⟩

end Frankengit.Policy
