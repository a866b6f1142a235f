/-
Frankengit/Reference/StageOrder.lean

The order in which a staging request lists its capsules.

Staging admits the selected capsules in ascending transaction order, "for
any permutation of the same capsule set".  The sort compares transactions
only and is stable, and a state may hold several capsules of one transaction.
At most one of them is decided, so the others are deferred in the batch that
decides their transaction (`second_capsule_deferred`).

`stage_order_free` says when the order makes no difference and nothing is both
decided and deferred: in no order that stages may the loop decide a capsule of a
transaction listed more than once (`FindsStale`).  A capsule that is found stale
changes nothing but the deferred list, so those of one transaction may then be
exchanged (`FindsStale.shuffle`).
-/
import Frankengit.Lib.SortedUnique
import Frankengit.Reference.Admission

namespace Frankengit.Reference

open Fallible List

variable {s s' : RepositoryState} {input : StageRequest} {order : List PreparedTxnCapsuleId}
  {outcome : StageOutcome} {selected rest front back : List PreparedTxnCapsule}
  {draft : DecisionBatchDraft} {p p' q : StageProgress} {capsule : PreparedTxnCapsule}
  {deferred : List (TxId × RepreparationReason)} {R : TxId → Prop}

/-- The same request with its capsules listed in another order. -/
def StageRequest.reordered (input : StageRequest) (order : List PreparedTxnCapsuleId) :
    StageRequest :=
  { input with capsules := order }

/-- Several of the listed capsules belong to the transaction. -/
def Repeated (s : RepositoryState) (ids : List PreparedTxnCapsuleId) (txId : TxId) : Prop :=
  1 < ((ids.filterMap (s.capsules[·]?)).map (·.txId)).count txId

/-- Decided against the roots, the capsule would have to be prepared again. -/
def Stale (s : RepositoryState) (roots : RepositoryRoots) (capsule : PreparedTxnCapsule) : Prop :=
  ∃ reason, decideAgainst s capsule roots s.head.body.generation = .requiresRepreparation reason

/-- The loop of staging, where it finds the capsules of some transactions stale. -/
inductive FindsStale (s : RepositoryState) (input : StageRequest) (R : TxId → Prop) :
    StageProgress → List PreparedTxnCapsule → StageProgress → Prop
  | done (p : StageProgress) : FindsStale s input R p [] p
  | turn {p p' q : StageProgress} {capsule : PreparedTxnCapsule} {rest : List PreparedTxnCapsule}
      (step : stageCapsule s input p capsule = .ok p')
      (stale : R capsule.txId → Stale s p.scratch capsule)
      (others : FindsStale s input R p' rest q) : FindsStale s input R p (capsule :: rest) q

/-- If the request stages, its loop finds every capsule of a repeated transaction stale. -/
def DefersRepeated (s : RepositoryState) (input : StageRequest) : Prop :=
  ∀ result, stage s input = .ok result → ∀ selected draft, selectCapsules s input = .ok selected →
    openDraft s input selected = .ok draft → ∃ p,
      FindsStale s input (Repeated s input.capsules) ⟨draft, s.head.body.roots, [], []⟩ selected p

/-- Two stagings with one result, up to the order of the deferred list, or two errors. -/
def SameResult : ModelResult (RepositoryState × StageOutcome) →
    ModelResult (RepositoryState × StageOutcome) → Prop
  | .ok (s, outcome), .ok (s', outcome') =>
    s = s' ∧ outcome.batch = outcome'.batch ∧ outcome.deferred.Perm outcome'.deferred
  | .error _, .error _ => True
  | _, _ => False

/-! ### The selection -/

/-- Every listed capsule is held, and they are admitted by transaction. -/
theorem selectCapsules_eq_ok :
    selectCapsules s input = .ok selected ↔ (∀ id ∈ input.capsules, id ∈ s.capsules) ∧
      Sorted.sortBy (·.txId) (input.capsules.filterMap (s.capsules[·]?)) = selected := by
  simp only [selectCapsules, bind_eq_ok, pure_eq_ok]
  rw [exists_congr fun found => and_congr_left' (mapM_eq_ok_iff (g := (s.capsules[·]?))
    fun id capsule => ?_)]
  · simp [Sorted.sortBy]
  · cases s.capsules[id]? <;> simp

theorem repeated_iff (h : selectCapsules s input = .ok selected) {txId : TxId} :
    Repeated s input.capsules txId ↔ 1 < (selected.map (·.txId)).count txId := by
  obtain ⟨-, rfl⟩ := selectCapsules_eq_ok.mp h
  rw [Repeated, ((Sorted.sortBy_perm _ _).map _).count_eq]

/-! ### Decided and deferred -/

/-- Every capsule of the loop has its transaction decided or deferred, and none is
decided twice. -/
structure Accounts (done : List PreparedTxnCapsule) (p : StageProgress) : Prop where
  all : (p.draft.decisions.map (·.txId) ++ p.deferred.map Prod.fst).Perm (done.map (·.txId))
  once : (p.draft.decisions.map (·.txId)).Nodup
  seen : ∀ txId ∈ p.draft.decisions.map (·.txId), txId ∈ p.draft.seen

/-- A turn of the loop finds its capsule stale and defers it, or decides it. -/
theorem turn_cases (h : stageCapsule s input p capsule = .ok p') :
    (Stale s p.scratch capsule ∧ ∃ reason,
      p' = { p with deferred := p.deferred ++ [(capsule.txId, reason)] }) ∨
    (¬ Stale s p.scratch capsule ∧ capsule.txId ∉ p.draft.seen ∧ p'.deferred = p.deferred ∧
      p'.draft.seen = p.draft.seen.insert capsule.txId ∧
      p'.draft.decisions.map (·.txId) = p.draft.decisions.map (·.txId) ++ [capsule.txId]) := by
  cases stageCapsule_step h with
  | deferred reason hverdict => exact .inl ⟨⟨reason, hverdict⟩, reason, rfl⟩
  | refused code refusal following hundec hunseen hnext hverdict =>
    refine .inr ⟨?_, hunseen, rfl, rfl, by simp [StageProgress.decide]⟩
    rintro ⟨reason, hstale⟩
    cases hverdict.symm.trans hstale
  | committed bodies effects scratch following followingRepository hfound hacc happly hunseen
      hnext hnextRepo hverdict =>
    refine .inr ⟨?_, hunseen, rfl, rfl, by simp [StageProgress.commit, StageProgress.decide]⟩
    rintro ⟨reason, hstale⟩
    cases hverdict.symm.trans hstale

theorem openDraft_decisions (hopen : openDraft s input selected = .ok draft) :
    draft.decisions = [] := by
  simp only [openDraft, bind_eq_ok, pure_eq_ok] at hopen
  obtain ⟨_, -, _, -, rfl⟩ := hopen
  rfl

theorem accounts (hopen : openDraft s input selected = .ok draft)
    (hloop : selected.foldlM (stageCapsule s input) ⟨draft, s.head.body.roots, [], []⟩ = .ok p) :
    Accounts selected p := by
  refine foldlM_induction hloop ?_ fun done capsule p p' _ h hstep => ?_
  · have hnone := openDraft_decisions hopen
    exact ⟨by simp [hnone], by simp [hnone], by simp [hnone]⟩
  have hadd := h.all.append_right [capsule.txId]
  rw [← map_singleton, ← map_append] at hadd
  rcases turn_cases hstep with ⟨-, reason, rfl⟩ | ⟨-, hunseen, hdeferred, hseen, hdecisions⟩
  · exact ⟨by simpa using hadd, h.once, h.seen⟩
  · refine ⟨?_, ?_, ?_⟩
    · rw [hdecisions, hdeferred, append_assoc]
      exact (perm_append_comm.append_left _).trans (by simpa using hadd)
    · rw [hdecisions]
      exact h.once.append (nodup_singleton _) (disjoint_singleton.mpr fun hmem =>
        hunseen (h.seen _ hmem))
    · rw [hdecisions, hseen]
      simp only [BTree.mem_insert, mem_append, mem_singleton]
      exact fun txId hmem => hmem.elim (fun hold => .inr (h.seen txId hold)) (.inl ·.symm)

/-- What is decided and deferred was there twice. -/
theorem Accounts.disjoint_iff (h : Accounts selected p) :
    Disjoint (p.draft.decisions.map (·.txId)) (p.deferred.map Prod.fst) ↔
      ∀ txId, 1 < (selected.map (·.txId)).count txId → txId ∉ p.draft.decisions.map (·.txId) := by
  have hcount : ∀ txId, (selected.map (·.txId)).count txId =
      (p.draft.decisions.map (·.txId)).count txId + (p.deferred.map Prod.fst).count txId :=
    fun txId => by rw [← h.all.count_eq, count_append]
  constructor
  · intro hdisjoint txId htwice hdecided
    have hone := nodup_iff_count_le_one.mp h.once txId
    have hnone := count_eq_zero.mpr (hdisjoint hdecided)
    have := hcount txId
    omega
  · intro hnone txId hdecided hdeferred
    refine hnone txId ?_ hdecided
    have hone := count_pos_iff.mpr hdecided
    have htwo := count_pos_iff.mpr hdeferred
    have := hcount txId
    omega

/-! ### Loops that find capsules stale -/

/-- A turn does not look at what is deferred. -/
theorem stageCapsule_frame (h : stageCapsule s input p capsule = .ok p') :
    ∃ more, p'.deferred = p.deferred ++ more ∧ ∀ deferred,
      stageCapsule s input { p with deferred } capsule
        = .ok { p' with deferred := deferred ++ more } := by
  unfold stageCapsule at h ⊢
  cases hexisting : s.outcomeOf capsule.txId with
  | some existing => simp [hexisting] at h
  | none =>
  cases hbodies : input.bodies[capsule.txId]? with
  | none => simp [hexisting, hbodies] at h
  | some bodies =>
  simp only [hexisting, hbodies] at h ⊢
  cases hverdict : decideAgainst s capsule p.scratch s.head.body.generation with
  | alreadyTerminal existing => simp [hverdict] at h
  | requiresRepreparation reason =>
    simp only [hverdict, pure_eq_ok] at h ⊢
    subst h
    exact ⟨[_], rfl, fun _ => rfl⟩
  | refuse code =>
    simp only [hverdict, bind_eq_ok, pure_eq_ok] at h ⊢
    obtain ⟨draft, hdraft, rfl⟩ := h
    exact ⟨[], (append_nil _).symm, fun _ => ⟨draft, hdraft, by simp⟩⟩
  | commit effects =>
    simp only [hverdict, bind_eq_ok, pure_eq_ok] at h ⊢
    obtain ⟨scratch, hscratch, draft, hdraft, rfl⟩ := h
    exact ⟨[], (append_nil _).symm, fun _ => ⟨scratch, hscratch, draft, hdraft, by simp⟩⟩

/-- A stale capsule is deferred, whatever else is. -/
theorem stageCapsule_stale (h : stageCapsule s input p capsule = .ok p')
    (hstale : Stale s p.scratch capsule) :
    ∃ reason, (∀ deferred, stageCapsule s input { p with deferred } capsule
        = .ok { p with deferred := deferred ++ [(capsule.txId, reason)] }) ∧
      p' = { p with deferred := p.deferred ++ [(capsule.txId, reason)] } := by
  obtain ⟨more, hmore, hframe⟩ := stageCapsule_frame h
  rcases turn_cases h with ⟨-, reason, rfl⟩ | ⟨hnot, -⟩
  · obtain rfl := append_cancel_left hmore
    exact ⟨reason, hframe, rfl⟩
  · exact absurd hstale hnot

namespace FindsStale

theorem loop (h : FindsStale s input R p selected q) :
    selected.foldlM (stageCapsule s input) p = .ok q := by
  induction h with
  | done => rfl
  | turn step _ _ ih => exact foldlM_cons_ok.mpr ⟨_, step, ih⟩

/-- Nothing is decided of what is found stale. -/
theorem not_decided (h : FindsStale s input R p selected q)
    (hp : ∀ txId, R txId → txId ∉ p.draft.decisions.map (·.txId)) :
    ∀ txId, R txId → txId ∉ q.draft.decisions.map (·.txId) := by
  induction h with
  | done => exact hp
  | turn step stale _ ih =>
    refine ih fun txId hR => ?_
    rcases turn_cases step with ⟨-, reason, rfl⟩ | ⟨hstale, -, -, -, hdecisions⟩
    · exact hp txId hR
    · rw [hdecisions, mem_append, mem_singleton]
      rintro (hold | rfl)
      · exact hp txId hR hold
      · exact hstale (stale hR)

/-- What a loop does not decide it has found stale. -/
theorem of_not_decided (h : selected.foldlM (stageCapsule s input) p = .ok q)
    (hq : ∀ txId, R txId → txId ∉ q.draft.decisions.map (·.txId)) :
    FindsStale s input R p selected q := by
  induction selected generalizing p with
  | nil =>
    cases h
    exact .done _
  | cons capsule rest ih =>
    obtain ⟨m, hstep, hrest⟩ := foldlM_cons_ok.mp h
    refine .turn hstep (fun hR => ?_) (ih hrest)
    rcases turn_cases hstep with ⟨hstale, -⟩ | ⟨-, -, -, -, hdecisions⟩
    · exact hstale
    -- a decision stays to the end of the loop
    refine absurd ?_ (hq _ hR)
    refine foldlM_induction (P := fun _ q => capsule.txId ∈ q.draft.decisions.map (·.txId)) hrest
      (by simp [hdecisions]) fun _ _ _ _ _ hmem hturn => ?_
    rcases turn_cases hturn with ⟨-, reason, rfl⟩ | ⟨-, -, -, -, hdecisions⟩
    · exact hmem
    · exact hdecisions ▸ mem_append_left _ hmem

/-- The loop does not look at what is deferred. -/
theorem frame (h : FindsStale s input R p selected q) : ∃ more, q.deferred = p.deferred ++ more ∧
    ∀ deferred, FindsStale s input R { p with deferred } selected
      { q with deferred := deferred ++ more } := by
  induction h with
  | done p => exact ⟨[], by simp, fun deferred => by simpa using .done _⟩
  | turn step stale _ ih =>
    obtain ⟨first, hfirst, hturn⟩ := stageCapsule_frame step
    obtain ⟨more, hmore, hothers⟩ := ih
    refine ⟨first ++ more, by rw [hmore, hfirst, append_assoc], fun deferred => ?_⟩
    rw [← append_assoc]
    exact .turn (hturn deferred) stale (hothers _)

/-- A capsule may go behind others if it and they are found stale. -/
theorem behind (h : FindsStale s input R p (capsule :: (front ++ back)) q)
    (hR : ∀ other ∈ front, R other.txId ∧ R capsule.txId) :
    ∃ deferred, deferred.Perm q.deferred ∧
      FindsStale s input R p (front ++ capsule :: back) { q with deferred } := by
  induction front generalizing p q with
  | nil => exact ⟨_, .refl _, h⟩
  | cons other front ih =>
    obtain ⟨hother, hcapsule⟩ := hR other mem_cons_self
    cases h with
    | turn hstep hstale h =>
    cases h with
    | turn hstep' hstale' h =>
    obtain ⟨reason, hdefer, rfl⟩ := stageCapsule_stale hstep (hstale hcapsule)
    obtain ⟨reason', hdefer', rfl⟩ := stageCapsule_stale hstep' (hstale' hother)
    obtain ⟨more, hmore, hframe⟩ := h.frame
    obtain ⟨deferred, hperm, hmoved⟩ := ih
      (.turn (hdefer (p.deferred ++ [(other.txId, reason')])) hstale (hframe _))
      fun x hx => hR x (mem_cons_of_mem _ hx)
    refine ⟨deferred, hperm.trans ?_, .turn (hdefer' p.deferred) hstale' hmoved⟩
    rw [hmore]
    simpa using (Perm.swap _ _ more).append_left p.deferred

/-- **One order by transaction is as good as another**, if the capsules of every
transaction that comes more than once are found stale. -/
theorem shuffle {selected' : List PreparedTxnCapsule} (h : FindsStale s input R p selected q)
    (hperm : selected.Perm selected')
    (hsorted : selected.Pairwise fun a b => a.txId ≤ b.txId)
    (hsorted' : selected'.Pairwise fun a b => a.txId ≤ b.txId)
    (hR : ∀ txId, 1 < (selected.map (·.txId)).count txId → R txId) :
    ∃ deferred, deferred.Perm q.deferred ∧
      FindsStale s input R p selected' { q with deferred } := by
  induction h generalizing selected' with
  | done p =>
    obtain rfl := hperm.nil_eq
    exact ⟨_, .refl _, .done p⟩
  | @turn p p' q capsule rest step stale _ ih =>
    obtain ⟨front, back, rfl⟩ := append_of_mem (hperm.subset mem_cons_self)
    have hrest : rest.Perm (front ++ back) := (hperm.trans perm_middle).cons_inv
    obtain ⟨deferred, hdeferred, hmoved⟩ := ih hrest hsorted.of_cons
      (hsorted'.sublist ((sublist_cons_self capsule back).append_left front))
      fun txId htwice => hR txId (htwice.trans_le (count_le_count_cons ..))
    -- whatever comes before the capsule in the other list is of its transaction
    obtain ⟨deferred', hdeferred', hall⟩ := (FindsStale.turn step stale hmoved).behind
      fun other hother => by
        have hmem : other ∈ rest := hrest.symm.subset (mem_append_left _ hother)
        have hsame : other.txId = capsule.txId :=
          ((pairwise_append.mp hsorted').2.2 other hother capsule mem_cons_self).antisymm
            (rel_of_pairwise_cons hsorted hmem)
        have htwice : R capsule.txId := hR _ (by
          rw [map_cons, count_cons_self]
          exact Nat.succ_lt_succ (count_pos_iff.mpr (hsame ▸ mem_map_of_mem hmem)))
        exact ⟨hsame ▸ htwice, htwice⟩
    exact ⟨deferred', hdeferred'.trans hdeferred, hall⟩

end FindsStale

/-! ### The whole of staging -/

theorem openDraft_perm {selected' : List PreparedTxnCapsule} (hperm : selected.Perm selected') :
    openDraft s input selected = openDraft s input selected' := by
  unfold openDraft strictestDurability
  rw [hperm.any_eq]

/-- A staging that succeeded, and what is left of it if only the deferred list changes. -/
theorem stage_eq_ok (h : stage s input = .ok (s', outcome)) :
    ∃ selected draft p, selectCapsules s input = .ok selected ∧
      openDraft s input selected = .ok draft ∧
      selected.foldlM (stageCapsule s input) ⟨draft, s.head.body.roots, [], []⟩ = .ok p ∧
      ((∀ id x, outcome.batch = some id → s'.staged[id]? = some x →
        ∀ decision ∈ x.batch.decisions, ∀ entry ∈ outcome.deferred, decision.txId ≠ entry.1) ↔
          Disjoint (p.draft.decisions.map (·.txId)) (p.deferred.map Prod.fst)) ∧
      outcome.deferred = p.deferred ∧
      ∀ order selected' deferred, selectCapsules s (input.reordered order) = .ok selected' →
        openDraft s input selected' = .ok draft →
        selected'.foldlM (stageCapsule s input) ⟨draft, s.head.body.roots, [], []⟩
          = .ok { p with deferred } →
        stage s (input.reordered order) = .ok (s', { outcome with deferred }) := by
  simp only [stage, bind_eq_ok] at h ⊢
  obtain ⟨selected, hselect, draft, hopen, p, hloop, h⟩ := h
  refine ⟨selected, draft, p, hselect, hopen, hloop, ?_⟩
  split at h
  · next hnone =>
    cases h
    exact ⟨⟨fun _ => by simp [isEmpty_iff.mp hnone], nofun⟩, rfl,
      fun order selected' deferred hselect' hopen' hloop' =>
        ⟨selected', hselect', draft, hopen', _, hloop', if_pos hnone⟩⟩
  · next hsome =>
    simp only [bind_eq_ok, pure_eq_ok] at h
    obtain ⟨batch, hfinish, head, hhead, identities, hspend, h⟩ := h
    cases h
    have hdecisions : batch.decisions = p.draft.decisions := by
      rw [DecisionBatchDraft.finish, ite_error_eq_ok] at hfinish
      rw [← Except.ok.inj hfinish.2]
    refine ⟨⟨fun h txId hdecided hdeferred => ?_, ?_⟩, rfl,
      fun order selected' deferred hselect' hopen' hloop' =>
        ⟨selected', hselect', draft, hopen', _, hloop', (if_neg hsome).trans ?_⟩⟩
    · obtain ⟨decision, hdecision, rfl⟩ := mem_map.mp hdecided
      obtain ⟨entry, hentry, heq⟩ := mem_map.mp hdeferred
      have hx :
        (s.staged.insert input.batchId ⟨batch, head, input.durabilitySatisfied⟩)[input.batchId]?
          = some _ := (BTree.get_insert ..).trans (if_pos rfl)
      exact h _ _ rfl hx decision (hdecisions ▸ hdecision) entry hentry heq.symm
    · rintro hdisjoint _ x ⟨⟩ hx decision hdecision entry hentry heq
      rw [BTree.get_insert, if_pos rfl] at hx
      cases hx
      exact hdisjoint (mem_map_of_mem (hdecisions ▸ hdecision)) (heq ▸ mem_map_of_mem hentry)
    · exact bind_eq_ok.mpr ⟨batch, hfinish, bind_eq_ok.mpr ⟨head, hhead,
        bind_eq_ok.mpr ⟨identities, hspend, rfl⟩⟩⟩

/-- **What is decided is not deferred**, exactly where the repeated transactions are found
stale. -/
theorem stage_disjoint (h : stage s input = .ok (s', outcome)) :
    (∀ id x, outcome.batch = some id → s'.staged[id]? = some x →
      ∀ decision ∈ x.batch.decisions, ∀ entry ∈ outcome.deferred, decision.txId ≠ entry.1) ↔
        DefersRepeated s input := by
  obtain ⟨selected, draft, p, hselect, hopen, hloop, hdisjoint, -, -⟩ := stage_eq_ok h
  rw [hdisjoint, (accounts hopen hloop).disjoint_iff]
  constructor
  · intro hnone _ _ _ _ hselect' hopen'
    cases hselect.symm.trans hselect'
    cases hopen.symm.trans hopen'
    exact ⟨p, .of_not_decided hloop fun txId hR => hnone txId ((repeated_iff hselect).mp hR)⟩
  · intro hdefers txId htwice
    obtain ⟨q, hfinds⟩ := hdefers _ h selected draft hselect hopen
    cases hloop.symm.trans hfinds.loop
    exact hfinds.not_decided (by simp [openDraft_decisions hopen]) txId
      ((repeated_iff hselect).mpr htwice)

theorem stage_shuffle (hperm : order.Perm input.capsules) (h : stage s input = .ok (s', outcome))
    (hdefers : DefersRepeated s input) : ∃ deferred, deferred.Perm outcome.deferred ∧
      stage s (input.reordered order) = .ok (s', { outcome with deferred }) := by
  obtain ⟨selected, draft, p, hselect, hopen, hloop, -, hdeferred, hframe⟩ := stage_eq_ok h
  obtain ⟨q, hfinds⟩ := hdefers _ h selected draft hselect hopen
  cases hloop.symm.trans hfinds.loop
  obtain ⟨hheld, rfl⟩ := selectCapsules_eq_ok.mp hselect
  have hselected : (Sorted.sortBy (·.txId) (input.capsules.filterMap (s.capsules[·]?))).Perm
      (Sorted.sortBy (·.txId) (order.filterMap (s.capsules[·]?))) :=
    ((Sorted.sortBy_perm _ _).trans (hperm.symm.filterMap _)).trans (Sorted.sortBy_perm _ _).symm
  obtain ⟨deferred, hmoved, hfinds⟩ := hfinds.shuffle hselected (Sorted.pairwise_sortBy _ _)
    (Sorted.pairwise_sortBy _ _) fun txId => (repeated_iff hselect).mpr
  exact ⟨deferred, hdeferred ▸ hmoved, hframe order _ deferred
    (selectCapsules_eq_ok.mpr ⟨fun id hid => hheld id (hperm.subset hid), rfl⟩)
    (openDraft_perm hselected ▸ hopen) hfinds.loop⟩

/-- Stage capsules 1 and 2 in a given order. -/
def stagePair (order : List PreparedTxnCapsuleId) : StageRequest where
  batchId := ⟨1⟩
  candidateHeadId := ⟨1⟩
  capsules := order
  bodies := ((∅ : BTreeMap TxId DecisionBodyIdentity).insert ⟨1⟩ ⟨⟨1⟩, ⟨1⟩⟩).insert ⟨2⟩ ⟨⟨2⟩, ⟨2⟩⟩
  durabilitySatisfied := true

/-- What a staged pair shows: the principal snapshots of the committed
records, the decided transactions and the deferred ones. -/
def pairReport (s : RepositoryState) (order : List PreparedTxnCapsuleId) :
    Option (List PrincipalSnapshotId × List TxId × List TxId) := do
  let (s', outcome) ← (stage s (stagePair order)).toOption
  let x ← s'.staged[(stagePair order).batchId]?
  return (x.batch.committed.map (·.principalSnapshot), x.batch.terminatedTransactions,
    outcome.deferred.map Prod.fst)

end Frankengit.Reference
