/-
Frankengit/TreeFs/Journal.lean

The export journal (`fgit-treefs`, `journal.rs`).  A journal steps through the
phases of an export and logs each one it enters; the cancellation beside it is
not logged.  After a crash the log alone is replayed onto a fresh journal.

The log keeps exactly `logged` of a journal as long as a cancellation is only
finalized from the phase before the last.  From any other phase the final step
of the log is not one that replay enters, and no later call mends that
(`broken_call`).  A crash also loses a cancellation that is on its way
(`Pending`).  `replay_exact` says that nothing else goes wrong.
-/
import Frankengit.TreeFs.Capability

namespace Frankengit.TreeFs

open List Fallible Run

inductive ExportPhase where
  | unstarted | reserved | planned | staged | proposed | settled
deriving DecidableEq

inductive CancellationState where
  | running | requested | drained | finalized | containmentFailed
deriving DecidableEq

inductive JournalRefusal where
  | nonSequentialPhase (current requested : ExportPhase)
  | cancellationInProgress (state : CancellationState)
  | drainIncomplete (state : CancellationState)

structure EpochSet where
  staged : ℕ := 0
  visible : ℕ := 0
  durable : ℕ := 0

def EpochSet.stage (epochs : EpochSet) : EpochSet :=
  { epochs with staged := saturatingAdd epochs.staged 1 }

/-- Only staging moves an epoch. -/
def EpochSet.entering (epochs : EpochSet) (next : ExportPhase) : EpochSet :=
  if next = .staged then epochs.stage else epochs

structure JournalStep where
  phase : ExportPhase
  stagedObjects : ℕ
  stagedBytes : ℕ

structure WorkspaceLeaseReservation where
  workspaceId : WorkspaceId
  reservedBytes : ℕ
  reservedEntries : ℕ

structure OverlayStats where
  entryCount : ℕ
  bodyCount : ℕ
  bodyBytes : ℕ

/-- An abort record; its reason is always that the export was discarded. -/
structure WorkspaceLeaseAbort where
  workspaceId : WorkspaceId
  discarded : OverlayStats

/-- A journal, by default as it is opened. -/
structure ExportJournal where
  workspaceId : WorkspaceId
  phase : ExportPhase := .unstarted
  cancellation : CancellationState := .running
  epochs : EpochSet := {}
  steps : List JournalStep := []
  stagedObjects : ℕ := 0
  stagedBytes : ℕ := 0
  reservation : Option WorkspaceLeaseReservation := none

/-- The phase that a journal may enter next. -/
def ExportPhase.expected : ExportPhase → ExportPhase
  | .unstarted => .reserved
  | .reserved => .planned
  | .planned => .staged
  | .staged => .proposed
  | .proposed | .settled => .settled

namespace ExportJournal

variable (j : ExportJournal)

def reserve (reservation : WorkspaceLeaseReservation) : ExportJournal :=
  { j with reservation := some reservation }

/-- Enter a phase and log it. -/
def enter (next : ExportPhase) (epochs : EpochSet) : ExportJournal :=
  { j with
    phase := next, epochs, steps := j.steps ++ [⟨next, j.stagedObjects, j.stagedBytes⟩] }

def advance (next : ExportPhase) : Except JournalRefusal ExportJournal :=
  if next = j.phase then .ok j
  else if j.cancellation ≠ .running then .error (.cancellationInProgress j.cancellation)
  else if next ≠ j.phase.expected then .error (.nonSequentialPhase j.phase next)
  else .ok (j.enter next (j.epochs.entering next))

def recordStaged (objects bytes : ℕ) : ExportJournal :=
  { j with stagedObjects := objects, stagedBytes := bytes }

def requestCancel : ExportJournal :=
  if j.cancellation = .running then { j with cancellation := .requested } else j

def drain : ExportJournal :=
  if j.cancellation = .requested ∨
    j.cancellation = .drained then { j with cancellation := .drained }
  else j

def finalizeCancel (reclaimed : ℕ) : Except JournalRefusal (WorkspaceLeaseAbort × ExportJournal) :=
  if j.cancellation ≠ .drained then .error (.drainIncomplete j.cancellation)
  else .ok (⟨j.workspaceId, j.stagedObjects, j.stagedObjects, j.stagedBytes⟩,
    { j.enter .settled j.epochs with
      cancellation := if reclaimed = j.stagedObjects then .finalized else .containmentFailed })

def replay (workspaceId : WorkspaceId) (steps : List JournalStep) :
    Except JournalRefusal ExportJournal :=
  steps.foldlM
    (fun j step => (j.recordStaged step.stagedObjects step.stagedBytes).advance step.phase)
    { workspaceId }

inductive Call where
  | reserve (reservation : WorkspaceLeaseReservation)
  | advance (next : ExportPhase)
  | recordStaged (objects bytes : ℕ)
  | requestCancel
  | drain
  | finalizeCancel (reclaimed : ℕ)

/-- The journal after a call; a refused one leaves it as it is. -/
def call : Call → ExportJournal
  | .reserve reservation => j.reserve reservation
  | .advance next => (j.advance next).toOption.getD j
  | .recordStaged objects bytes => j.recordStaged objects bytes
  | .requestCancel => j.requestCancel
  | .drain => j.drain
  | .finalizeCancel reclaimed => ((j.finalizeCancel reclaimed).toOption.map Prod.snd).getD j

/-! ### What the log keeps -/

/-- The staged counts that the log holds last. -/
def lastCounts (steps : List JournalStep) : ℕ × ℕ :=
  (steps.getLast?.map fun step => (step.stagedObjects, step.stagedBytes)).getD (0, 0)

/-- What is left of a journal without its cancellation and its reservation, and
with the counts of its last step. -/
def logged (workspaceId : WorkspaceId) : ExportJournal :=
  { workspaceId, phase := j.phase, epochs := j.epochs, steps := j.steps,
    stagedObjects := (lastCounts j.steps).1, stagedBytes := (lastCounts j.steps).2 }

variable {j} {w : WorkspaceId} {next : ExportPhase}

/-- A step into the expected phase replays. -/
theorem replay_enter (h : replay w j.steps = .ok (j.logged w)) (hne : next ≠ j.phase)
    (hnext : next = j.phase.expected) :
    replay w (j.enter next (j.epochs.entering next)).steps
      = .ok ((j.enter next (j.epochs.entering next)).logged w) := by
  refine foldlM_append.trans (bind_eq_ok.mpr ⟨_, h, ?_⟩)
  have hadvance : ((j.logged w).recordStaged j.stagedObjects j.stagedBytes).advance next = .ok _ :=
    (if_neg hne).trans ((if_neg (not_not.mpr rfl)).trans (if_neg (not_not.mpr hnext)))
  rw [foldlM_cons, hadvance]
  simp [enter, logged, recordStaged, lastCounts]

def Call.finalizes : Call → Bool
  | .finalizeCancel _ => true
  | _ => false

/-- A cancellation is finalized only from the phase before the last. -/
abbrev FromProposed (j : ExportJournal) (c : Call) : Prop :=
  c.finalizes → j.cancellation = .drained → j.phase = .proposed

def Cancelled (j : ExportJournal) : Prop :=
  j.cancellation = .finalized ∨ j.cancellation = .containmentFailed

/-- The log gives back what it keeps, and a journal that was cancelled is in the
last phase. -/
def Kept (w : WorkspaceId) (j : ExportJournal) : Prop :=
  replay w j.steps = .ok (j.logged w) ∧ (j.Cancelled → j.phase = .settled)

theorem kept_call {c : Call} (h : j.Kept w) (hc : FromProposed j c) : (j.call c).Kept w := by
  cases c with
  | reserve reservation => exact h
  | recordStaged objects bytes => exact h
  | advance next =>
    simp only [call, advance]
    split_ifs with hsame hrunning hnext
    · exact h
    · exact h
    · exact h
    · refine ⟨replay_enter h.1 hsame (not_not.mp hnext), fun hcancelled => ?_⟩
      have hstate : j.cancellation = .finalized ∨ j.cancellation = .containmentFailed := hcancelled
      rw [not_not.mp hrunning] at hstate
      cases hstate <;> contradiction
  | requestCancel =>
    simp only [call, requestCancel]
    split_ifs
    · exact ⟨h.1, nofun⟩
    · exact h
  | drain =>
    simp only [call, drain]
    split_ifs
    · exact ⟨h.1, nofun⟩
    · exact h
  | finalizeCancel reclaimed =>
    simp only [call, finalizeCancel]
    split
    · exact h
    · rename_i hdrained
      -- from this phase the step to the last one is what replay expects
      have hphase := hc rfl (not_not.mp hdrained)
      have hne : ExportPhase.settled ≠ j.phase := hphase ▸ nofun
      exact ⟨replay_enter h.1 hne (hphase ▸ rfl), fun _ => rfl⟩

/-- A cancellation is on its way. -/
def Pending (j : ExportJournal) : Prop :=
  j.cancellation = .requested ∨ j.cancellation = .drained

/-- A cancelled journal whose log does not give back its steps. -/
def Broken (w : WorkspaceId) (j : ExportJournal) : Prop :=
  j.Cancelled ∧ ∀ j', replay w j.steps = .ok j' → j'.steps ≠ j.steps

theorem Cancelled.not_pending (h : j.Cancelled) : ¬ j.Pending := by
  unfold Cancelled at h
  unfold Pending
  rcases h with h | h <;> simp [h]

/-- A call leaves the steps of a cancelled journal, and its cancellation, as they are. -/
theorem Cancelled.call_eq (h : j.Cancelled) (c : Call) :
    (j.call c).steps = j.steps ∧ (j.call c).cancellation = j.cancellation := by
  have hrunning : j.cancellation ≠ .running := by rcases h with h | h <;> simp [h]
  obtain ⟨hrequested, hdrained⟩ := not_or.mp h.not_pending
  cases c with
  | reserve | recordStaged => exact ⟨rfl, rfl⟩
  | advance next =>
    simp only [call, advance, if_pos hrunning]
    split_ifs <;> exact ⟨rfl, rfl⟩
  | requestCancel => simp [call, requestCancel, hrunning]
  | drain => simp [call, drain, hrequested, hdrained]
  | finalizeCancel => simp [call, finalizeCancel, hdrained, Except.toOption]

theorem broken_call (h : j.Broken w) (c : Call) : (j.call c).Broken w := by
  obtain ⟨hsteps, hstate⟩ := h.1.call_eq c
  simpa only [Broken, Cancelled, hsteps, hstate] using h

/-- A cancellation finalized from another phase breaks the log: replay refuses the
last step, or takes it for one that was entered before. -/
theorem broken_finalize {c : Call} (h : j.Kept w) (hc : ¬ FromProposed j c) :
    (j.call c).Broken w := by
  cases c with
  | finalizeCancel reclaimed =>
    obtain ⟨hdrained, hphase⟩ : j.cancellation = .drained ∧ j.phase ≠ .proposed := by
      simpa [FromProposed, Call.finalizes] using hc
    have hcall : j.call (.finalizeCancel reclaimed) = { j.enter .settled j.epochs with
        cancellation :=
          if reclaimed = j.stagedObjects then .finalized else .containmentFailed } := by
      simp [call, finalizeCancel, hdrained, Except.toOption]
    refine ⟨?_, fun j' hreplay => ?_⟩
    · rw [Cancelled, hcall]
      split_ifs
      · exact .inl rfl
      · exact .inr rfl
    rw [hcall] at hreplay ⊢
    obtain ⟨_, hkept, hlast⟩ := bind_eq_ok.mp (foldlM_append.symm.trans hreplay)
    cases h.1.symm.trans hkept
    simp only [foldlM_cons, foldlM_nil, bind_pure] at hlast
    -- in the last phase replay takes the step for a repetition and does not log it
    by_cases hsame : j.phase = .settled
    · cases (if_pos hsame.symm).symm.trans hlast
      simp [enter, recordStaged, logged]
    · have hnext : ExportPhase.settled ≠ j.phase.expected := by
        revert hphase hsame
        cases j.phase <;> decide
      cases ((if_neg (Ne.symm hsame)).trans ((if_neg (not_not.mpr rfl)).trans
        (if_pos hnext))).symm.trans hlast
  | _ => exact absurd nofun hc

/-- A replayed journal enters the phase it is in and the next one. -/
theorem advance_logged :
    ((j.logged w).advance next).isOk ↔ next = j.phase ∨ next = j.phase.expected := by
  by_cases hsame : next = j.phase
  · simp [advance, logged, hsame, Except.isOk, Except.toBool]
  · by_cases hnext : next = j.phase.expected
    · simp [advance, logged, hnext, hnext ▸ hsame, Except.isOk, Except.toBool]
    · simp [advance, logged, hsame, hnext, Except.isOk, Except.toBool]

theorem expected_eq_self : ∀ phase : ExportPhase, phase.expected = phase ↔ phase = .settled := by
  intro phase
  cases phase <;> decide

/-- **A journal replays from its log**, with the counts of the last step, and a
cancelled one admits no further phase, exactly when no cancellation is finalized from a
phase other than the one before the last, or still on its way before the last phase. -/
theorem replay_exact (w : WorkspaceId) (calls : List Call) :
    let j := exec call { workspaceId := w } calls
    (∃ j', replay w j.steps = .ok j' ∧ j'.phase = j.phase ∧ j'.epochs = j.epochs ∧
      j'.steps = j.steps ∧ (j'.stagedObjects, j'.stagedBytes) = lastCounts j.steps ∧
      (j.cancellation ≠ .running → ∀ next, next ≠ j'.phase → ¬ (j'.advance next).isOk)) ↔
    Meets call FromProposed { workspaceId := w } calls ∧ (j.Pending → j.phase = .settled) := by
  intro j
  have hruns := exec_meets_or (P := Kept w) (Q := Broken w) (s := { workspaceId := w })
    (fun _ _ h hc => kept_call h hc)
    (fun _ _ => broken_finalize) (fun _ c h => broken_call h c) ⟨rfl, nofun⟩ calls
  constructor
  · rintro ⟨j', hreplay, -, -, hsteps, -, hclosed⟩
    -- a broken log never gives its steps back, so no call broke it
    obtain ⟨hmeets, hkept⟩ := hruns.resolve_right fun h => h.2.2 j' hreplay hsteps
    refine ⟨hmeets, fun hpending => ?_⟩
    obtain rfl : j.logged w = j' := Except.ok.inj (hkept.1.symm.trans hreplay)
    have hstate : j.cancellation ≠ .running := by rcases hpending with h | h <;> simp [h]
    by_contra hphase
    exact hclosed hstate _ (mt (expected_eq_self _).mp hphase) (advance_logged.mpr (.inr rfl))
  · rintro ⟨hmeets, hpending⟩
    obtain ⟨-, hkept⟩ := hruns.resolve_right fun h => h.1 hmeets
    refine ⟨_, hkept.1, rfl, rfl, rfl, rfl, fun hstate next hne hok => ?_⟩
    have hsettled : j.phase = .settled := by
      cases hj : j.cancellation with
      | running => exact absurd hj hstate
      | requested => exact hpending (.inl hj)
      | drained => exact hpending (.inr hj)
      | finalized => exact hkept.2 (.inl hj)
      | containmentFailed => exact hkept.2 (.inr hj)
    rcases advance_logged.mp hok with hnext | hnext
    · exact hne hnext
    · exact hne (hnext.trans ((expected_eq_self _).mpr hsettled))

/-- An export that was staged, proposed and then cancelled. -/
def cancelledProposal : List Call :=
  [.advance .reserved, .advance .planned, .recordStaged 2 30, .advance .staged, .advance .proposed,
    .requestCancel, .drain, .finalizeCancel 2]

example : Meets call FromProposed { workspaceId := 0 } cancelledProposal ∧
    (exec call { workspaceId := 0 } cancelledProposal).cancellation = .finalized := by decide

/-- A cancellation finalized before anything was proposed does not replay; one
that is only requested is forgotten. -/
theorem early_cancel_lost :
    replay 0 (exec call { workspaceId := 0 } [.requestCancel, .drain, .finalizeCancel 0]).steps
        = .error (.nonSequentialPhase .unstarted .settled) ∧
      (exec call { workspaceId := 0 } [.requestCancel]).advance .reserved
        = .error (.cancellationInProgress .requested) ∧
      ((replay 0 (exec call { workspaceId := 0 } [.requestCancel]).steps).bind
        (advance · .reserved)).isOk :=
  ⟨rfl, rfl, rfl⟩

end ExportJournal

end Frankengit.TreeFs
