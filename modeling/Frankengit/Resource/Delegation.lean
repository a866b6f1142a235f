/-
Frankengit/Resource/Delegation.lean

Trees of regions (`fgit-resource`, `ObligationLedger::child` and `close`).

Closing a region gives its parent what the region has not consumed, also what is
still in grants, in reservations and in open regions below it, which may yet be
spent: budget can be spent twice (`spent_twice`).  Where a region is closed only
when nothing of it is out (`World.careful`), all that is ever charged stays
within the capacity of the root.  The argument adds up what has been charged and
what still can be, the `stake` of every ledger; no change increases the sum.

The outcome of a close looks at the obligations, grants and leaks of the region
and not at what it has delegated, so a region may be quiescent over an open child
with budget (`quiescent_over_child`).  Where it has delegated nothing, a
quiescent close is what it says.
-/
import Frankengit.Resource.Operations

namespace Frankengit.Resource

open List Option Ledger World Accounts Bool BTree

namespace Ledger

/-- Nothing of the ledger is out. -/
def Calm (l : Ledger) : Prop :=
  ∀ grade, l.inGrants grade = 0 ∧ l.inObligations grade = 0 ∧ l.delegated.get grade = 0

/-- The ledger is closed and its parent has taken back what was left. -/
def Ended (l : Ledger) : Prop := l.closed = true ∧ l.parent ≠ none

instance (l : Ledger) : Decidable l.Ended := inferInstanceAs (Decidable (_ ∧ _))

/-- What has been charged, and what the ledger still can spend. -/
def stake (grade : Grade) (l : Ledger) : ℕ :=
  l.charges grade + if l.Ended then 0
    else l.available.get grade + l.inGrants grade + l.inObligations grade

variable {l l' : Ledger} {grade : Grade}

theorem not_ended (hopen : l.closed = false) : ¬l.Ended := fun hended => by
  have hclosed := hended.1
  rw [hopen] at hclosed
  cases hclosed

theorem charges_le_stake (grade : Grade) (l : Ledger) : l.charges grade ≤ l.stake grade :=
  Nat.le_add_right _ _

theorem stake_ended (h : l.Ended) : l.stake grade = l.charges grade := by
  rw [stake, if_pos h, Nat.add_zero]

/-- What a ledger can spend is what it has neither consumed nor delegated. -/
theorem stake_active (hl : l.Sound) (h : ¬l.Ended) (grade : Grade) :
    l.stake grade + l.consumed.get grade + l.delegated.get grade
      = l.charges grade + l.capacity.get grade := by
  have hbal := hl.balanced grade
  rw [stake, if_neg h]
  omega

/-- A new ledger can spend its capacity. -/
theorem stake_fresh (parent : Option ℕ) (region : RegionId) (capacity : ResourceVector)
    (grade : Grade) : (fresh parent region capacity).stake grade = capacity.get grade := by
  simp [stake, charges, inGrants, inObligations, Ended, fresh]

theorem charges_congr (hentries : l'.entries = l.entries) (grade : Grade) :
    l'.charges grade = l.charges grade := by
  rw [charges, charges, hentries]

theorem ended_congr (hpar : l'.parent = l.parent) (hclosed : l'.closed = l.closed) :
    l'.Ended ↔ l.Ended := by
  rw [Ended, Ended, hpar, hclosed]

/-- An ended ledger from which nothing is out has nothing to move. -/
theorem Moved.calm (h : Moved l l') (hended : l.Ended) (hcalm : l.Calm) :
    l'.Calm ∧ ∀ grade, l'.charges grade ≤ l.charges grade := by
  have hnone : ∀ grade, l'.inGrants grade = 0 ∧ l'.inObligations grade = 0 ∧
      l'.charges grade ≤ l.charges grade := fun grade => by
    obtain ⟨h1, h2, -⟩ := hcalm grade
    have hidle := h.idle hended.1 grade
    have hcharged := h.charged grade
    omega
  refine ⟨fun grade => ⟨(hnone grade).1, (hnone grade).2.1, ?_⟩, fun grade => (hnone grade).2.2⟩
  rw [h.delegated]
  exact (hcalm grade).2.2

theorem Moved.stake_le (hl : l.Sound) (h : Moved l l') (hcalm : l.Ended → l.Calm) (grade : Grade) :
    l'.stake grade ≤ l.stake grade := by
  have hiff := ended_congr h.parent h.closed
  by_cases hended : l.Ended
  · rw [stake_ended hended, stake_ended (hiff.mpr hended)]
    exact (h.calm hended (hcalm hended)).2 grade
  · have h1 := stake_active hl hended grade
    have h2 := stake_active h.sound (fun h' => hended (hiff.mp h')) grade
    have h3 := h.paid grade
    rw [h.delegated, h.capacity] at h2
    omega

theorem Lent.stake_add {amount : ResourceVector} (hl : l.Sound) (hopen : l.closed = false)
    (h : Lent l l' amount) (grade : Grade) : l'.stake grade + amount.get grade = l.stake grade := by
  have hended := not_ended hopen
  have h1 := stake_active hl hended grade
  have h2 := stake_active h.sound (fun h' => hended ((ended_congr h.parent h.closed).mp h')) grade
  rw [h.delegated grade, h.capacity, h.consumed, charges_congr h.entries] at h2
  omega

end Ledger

/-! ### Charges -/

/-- What is charged and what can be is within the capacity. -/
structure Frugal (capacity : ResourceVector) (ledgers : List Ledger) : Prop where
  ended : ∀ (i : ℕ) (l : Ledger), ledgers[i]? = some l → l.Ended → l.Calm
  bound : ∀ grade, (ledgers.map (stake grade)).sum ≤ capacity.get grade

section Frugal

variable {capacity : ResourceVector} {ls ls' : List Ledger} {i : ℕ} {l l' : Ledger}

theorem ended_set (hf : ∀ (i : ℕ) (l : Ledger), ls[i]? = some l → l.Ended → l.Calm)
    (hcalm : l'.Ended → l'.Calm) (j : ℕ) (m : Ledger) (hj : (ls.set i l')[j]? = some m) :
    m.Ended → m.Calm := by
  rcases set_cases hj with ⟨-, rfl⟩ | ⟨-, hj⟩
  · exact hcalm
  · exact hf j m hj

theorem Frugal.set (hf : Frugal capacity ls) (hi : ls[i]? = some l) (hcalm : l'.Ended → l'.Calm)
    (hstake : ∀ grade, l'.stake grade ≤ l.stake grade) : Frugal capacity (ls.set i l') := by
  refine ⟨ended_set hf.ended hcalm, fun grade => ?_⟩
  have hsum := sum_map_set (y := l') (stake grade) hi
  have hbound := hf.bound grade
  have hle := hstake grade
  omega

theorem Frugal.child (hb : Books ls) (hf : Frugal capacity ls) (hi : ls[i]? = some l)
    (hopen : l.closed = false) {amount : ResourceVector} (h : l.Lent l' amount)
    (region : RegionId) :
    Frugal capacity (ls.set i l' ++ [.fresh (some i) region amount]) := by
  refine ⟨fun j m hj hended => ?_, fun grade => ?_⟩
  · rw [getElem?_append] at hj
    split at hj
    · exact ended_set hf.ended (fun hended => absurd hended (not_ended (h.closed.trans hopen)))
        j m hj hended
    · obtain ⟨_, hget⟩ := List.getElem?_eq_some_iff.mp hj
      rw [getElem_singleton] at hget
      subst hget
      cases hended.1
  · have hsum := sum_map_set (y := l') (stake grade) hi
    have hadd := h.stake_add (hb.sound i l hi) hopen grade
    have hbound := hf.bound grade
    rw [map_append, sum_append, map_singleton, sum_singleton, stake_fresh]
    omega

/-- The parent takes back what the child has not consumed. -/
theorem Frugal.closeChild {p : ℕ} {q q' : Ledger} (hb : Books ls) (hf : Frugal capacity ls)
    (hi : ls[i]? = some l) (hopen : l.closed = false) (hpar : l.parent = some p)
    (hp : ls[p]? = some q) (hcalm : l.Calm) (h : l.Shut l')
    (hq : q.Adopted q' l.capacity l.consumed) : Frugal capacity ((ls.set i l').set p q') := by
  have hp' : (ls.set i l')[p]? = some q := by
    rw [getElem?_set_ne (hb.parents i l p hi hpar).ne', hp]
  have hiff := ended_congr hq.parent hq.closed
  refine ⟨ended_set (ended_set hf.ended fun _ grade => ?_) fun hended grade => ?_, fun grade => ?_⟩
  · rw [inGrants, inObligations, h.grants, h.entries, h.delegated]
    exact hcalm grade
  · have hparCalm := hf.ended p q hp (hiff.mp hended) grade
    have hdelegated := hq.delegated grade
    rw [inGrants, inObligations, hq.grants, hq.entries]
    exact ⟨hparCalm.1, hparCalm.2.1, by omega⟩
  · have hended : l'.Ended := ⟨h.closed, by rw [h.parent, hpar]; exact some_ne_none p⟩
    have hcharges' := charges_congr hq.entries grade
    have h1 := sum_map_set (y := l') (stake grade) hi
    have h2 := sum_map_set (y := q') (stake grade) hp'
    have hchild := stake_active (hb.sound i l hi) (not_ended hopen) grade
    have hbound := hf.bound grade
    have hcalm' := (hcalm grade).2.2
    have hspent := hq.consumed grade
    have hgiven := hq.delegated grade
    rw [stake_ended hended, charges_congr h.entries] at h1
    by_cases hqended : q.Ended
    · -- an ended parent has delegated nothing, so the child had nothing
      have hle := charges_le_stake grade l
      rw [stake_ended hqended, stake_ended (hiff.mpr hqended), hcharges'] at h2
      omega
    · have hold := stake_active (hb.sound p q hp) hqended grade
      have hnew := stake_active hq.sound (fun h' => hqended (hiff.mp h')) grade
      rw [hq.capacity, hcharges'] at hnew
      omega

theorem Frugal.change (hb : Books ls) (hf : Frugal capacity ls)
    (h : Change Calm False ls ls') : Frugal capacity ls' := by
  induction h with
  | same ls => exact hf
  | moved hi h =>
    have hcalm := hf.ended _ _ hi
    refine hf.set hi (fun hended => ?_) (h.stake_le (hb.sound _ _ hi) hcalm)
    have hended' := (ended_congr h.parent h.closed).mp hended
    exact (h.calm hended' (hcalm hended')).1
  | root ls region capacity hgrow => exact hgrow.elim
  | child region hi hopen h => exact hf.child hb hi hopen h region
  | closeRoot hi hopen hroot h =>
    rename_i l l'
    have hactive : ¬l.Ended := fun hended => hended.2 hroot
    have hactive' : ¬l'.Ended := fun hended => hended.2 (h.parent.trans hroot)
    refine hf.set hi (fun hended => absurd hended hactive') fun grade => ?_
    have h1 := stake_active (hb.sound _ _ hi) hactive grade
    have h2 := stake_active h.sound hactive' grade
    rw [h.consumed, h.delegated, h.capacity, charges_congr h.entries] at h2
    omega
  | closeChild hi hopen hpar hp hcalm h hq => exact hf.closeChild hb hi hopen hpar hp hcalm h hq
  | trans h _ ih ih' => exact ih' (hb.change h) (ih hb hf)

end Frugal

/-- The snapshot has nothing granted, reserved or delegated. -/
def Ledger.nothingOut (l : Ledger) : Bool :=
  Grade.all.all fun grade =>
    l.granted.get grade = 0 && l.reserved.get grade = 0 && l.delegated.get grade = 0

theorem Ledger.Sound.calm {l : Ledger} (hl : l.Sound) (h : l.nothingOut) : l.Calm := by
  intro grade
  have hgrade := all_eq_true.mp h grade (Grade.mem_all grade)
  simp only [and_eq_true, decide_eq_true_eq] at hgrade
  rw [← hl.granted_get grade, ← hl.reserved_get grade]
  exact ⟨hgrade.1.1, hgrade.1.2, hgrade.2⟩

/-- The operation is proper, and a region with a parent is closed only when nothing of it is out. -/
def World.careful (w : World) (op : Op) : Bool :=
  w.proper op && match op with
    | .close handle => ((w.ledgerAt handle).bind fun i => w.ledgers[i]?).all
        fun l => l.parent.isNone || l.nothingOut
    | _ => true

def Op.isRoot : Op → Bool
  | .root _ _ => true
  | _ => false

/-- A root and nothing else. -/
theorem frugal_root (region : RegionId) (capacity : ResourceVector) :
    (step empty (.root region capacity)).Inv ∧
      Frugal capacity (step empty (.root region capacity)).ledgers := by
  refine ⟨?_, fun i l hi hended => ?_, fun grade => ?_⟩
  · have hproper : empty.proper (.root region capacity) := rfl
    have hstep : Advance (fun _ => True) True empty _ :=
      World.Inv.empty.step hproper (fun _ _ _ h => nomatch h) fun _ _ _ => trivial
    exact World.Inv.empty.advance hstep
  · have hmem : l ∈ [fresh none region capacity] := mem_of_getElem? hi
    rw [mem_singleton] at hmem
    subst hmem
    exact absurd hended (not_ended rfl)
  · show ([fresh none region capacity].map (stake grade)).sum ≤ _
    rw [map_singleton, sum_singleton, stake_fresh]

theorem frugal_step {w : World} {op : Op} {capacity : ResourceVector} (hw : w.Inv)
    (hf : Frugal capacity w.ledgers) (hcareful : w.careful op) (hroot : op.isRoot = false) :
    (w.step op).Inv ∧ Frugal capacity (w.step op).ledgers := by
  obtain ⟨hproper, hclose⟩ := and_eq_true_iff.mp hcareful
  have hstep : Advance Calm False w (w.step op) := by
    refine hw.step hproper (fun handle i l heq hi hl hpar => ?_) fun region capacity heq => ?_
    · subst heq
      dsimp only at hclose
      rw [hi, bind_some, hl, all_some, or_eq_true, isNone_iff_eq_none] at hclose
      exact (hw.books.sound i l hl).calm (hclose.resolve_left hpar)
    · subst heq
      cases hroot
  exact ⟨hw.advance hstep, hf.change hw.books hstep.change⟩

/-- Along every careful run of the tree grown from a root, what is charged to the obligations of
all regions is within the capacity of the root. -/
theorem charges_le_root (region : RegionId) (capacity : ResourceVector) {ops : List Op}
    (hroots : ∀ op ∈ ops, op.isRoot = false)
    (h : Run.Meets World.step (fun w op => w.careful op)
      (World.step World.empty (.root region capacity)) ops) (grade : Grade) :
    ((Run.exec World.step (World.step World.empty (.root region capacity)) ops).ledgers.map
      (·.charges grade)).sum ≤ capacity.get grade := by
  have hrun := Run.exec_invariant_of_meets
    (P := fun done w => (∀ op ∈ done, op.isRoot = false) → w.Inv ∧ Frugal capacity w.ledgers)
    (fun _ => frugal_root region capacity) (fun done op ih hcareful hroots => ?_) h hroots
  · exact (sum_le_sum fun l _ => charges_le_stake grade l).trans (hrun.2.bound grade)
  · obtain ⟨hw, hf⟩ := ih fun op hop => hroots op (mem_append_left _ hop)
    exact frugal_step hw hf hcareful (hroots op (mem_append_right _ (mem_singleton_self op)))

/-- A child spends some of its budget, is closed, and the rest is spent by the root. -/
def childThenRoot : List Op :=
  [.grant 0 (fewBytes 6), .child 0 2 1, .grant 2 (fewBytes 6),
    .reserve 2 [.bytes] 3, .commitInternal 4 (fewBytes 5), .close 2,
    .grant 0 (fewBytes 5), .reserve 0 [.bytes] 5,
    .commit 6 (fewBytes 5)]

theorem charges_le_root_childThenRoot :
    (∀ op ∈ childThenRoot, op.isRoot = false) ∧
    Run.Meets World.step (fun w op => w.careful op)
      (World.step World.empty (.root 1 (.single .bytes 10 (by decide)))) childThenRoot ∧
    ((Run.exec World.step (World.step World.empty (.root 1 (.single .bytes 10 (by decide))))
      childThenRoot).ledgers.map (·.charges .bytes)).sum ≤ 10 :=
  have hroots : ∀ op ∈ childThenRoot, op.isRoot = false := by decide
  have hcareful : Run.Meets step (fun w op => w.careful op)
      (.step empty (.root 1 (.single .bytes 10 (by decide)))) childThenRoot := by
    decide +kernel
  ⟨hroots, hcareful, charges_le_root 1 (.single .bytes 10 (by decide)) hroots hcareful .bytes⟩

/-- A child is closed over a reservation of all its budget: the root has the budget back, spends it,
and the reservation is committed after that. -/
theorem spent_twice :
    ¬ ((Run.exec World.step (World.step World.empty (.root 1 (.single .bytes 10 (by decide))))
      [.grant 0 (.single .bytes 10 (by decide)), .child 0 2 1,
        .grant 2 (.single .bytes 10 (by decide)), .reserve 2 [.bytes] 3, .close 2,
        .grant 0 (.single .bytes 10 (by decide)), .reserve 0 [.bytes] 5,
        .commit 6 (.single .bytes 10 (by decide)),
        .commit 4 (.single .bytes 10 (by decide))]).ledgers.map
          (·.charges .bytes)).sum ≤ 10 := by
  decide +kernel

/-! ### Quiescence -/

/-- Obligations in these states block quiescence. -/
def ObligationState.isOpen (state : ObligationState) : Prop :=
  state = .reserved ∨ state = .committed ∨ state = .deferredExternally ∨ state = .escalated

namespace Ledger

variable {l : Ledger}

theorem closeOutcome_quiescent {report : CloseReport} {region : RegionId} {settled : ℕ}
    {consumed returned : ResourceVector}
    (h : l.closeOutcome report = .quiescent region settled consumed returned) :
    (report.unsettled = [] ∧ report.escalated = [] ∧ report.leaks = [] ∧
      report.accountingFaults = 0 ∧
      report.outstandingGrants = 0) ∧ consumed = report.consumed ∧ returned = report.returned := by
  unfold closeOutcome at h
  split at h
  · next hall =>
    cases h
    simp only [and_eq_true, List.isEmpty_iff, decide_eq_true_eq] at hall
    obtain ⟨⟨⟨⟨hu, he⟩, hl⟩, hf⟩, hg⟩ := hall
    exact ⟨⟨hu, he, hl, hf, hg⟩, rfl, rfl⟩
  · cases h

theorem closeReport_settled {returned : ResourceVector}
    (hu : (l.closeReport returned).unsettled = [])
    (he : (l.closeReport returned).escalated = []) (id : ObligationId) (entry : LedgerEntry)
    (hid : l.entries[id]? = some entry) : ¬entry.state.isOpen := by
  have hmem := mem_toList_of_get hid
  have hsettled := filter_eq_nil_iff.mp hu _ hmem
  have hescalated := filter_eq_nil_iff.mp he _ hmem
  simp only [contains_cons, contains_nil, Bool.or_false, Bool.or_eq_true, beq_iff_eq] at hsettled
  rintro (h | h | h | h)
  · exact hsettled (.inl h)
  · exact hsettled (.inr (.inl h))
  · exact hsettled (.inr (.inr h))
  · exact hescalated (by simpa using h)

/-- A close that is quiescent returns the whole of the pool and the grants. -/
theorem close_quiescent {region : RegionId} {settled : ℕ} {consumed returned : ResourceVector}
    (h : l.closeState.2.closeOutcome (l.closeState.2.closeReport l.closeState.1)
      = .quiescent region settled consumed returned) :
    (∀ (id : ObligationId) (entry : LedgerEntry), l.entries[id]? = some entry →
      ¬entry.state.isOpen) ∧
      l.closeState.2.leaks = [] ∧ l.grants.toList = [] ∧ consumed = l.consumed ∧
      l.available.combine l.granted = .ok returned := by
  obtain ⟨⟨hu, he, hl, hf, hg⟩, hconsumed, hreturned⟩ := closeOutcome_quiescent h
  have hstate := closeReport_settled hu he
  refine ⟨fun id entry hid => hstate id entry ?_, hl, ?_, hconsumed.trans ?_, ?_⟩
  · unfold closeState
    split <;> exact hid
  · have hgrants : l.closeState.2.grants = l.grants := by
      unfold closeState
      split <;> rfl
    rw [← hgrants]
    exact length_eq_zero_iff.mp hg
  · show l.closeState.2.consumed = _
    unfold closeState
    split <;> rfl
  · have hret : returned = l.closeState.1 := hreturned
    have hfault : l.closeState.2.accountingFaults = 0 := hf
    unfold closeState at hret hfault
    split at hfault
    · next total htotal =>
      rw [htotal] at hret
      rw [htotal, hret]
    · cases hfault

end Ledger

/-- The ledger a close leaves behind. -/
theorem World.close_ledger {w : World} {i : ℕ} {l : Ledger} (hw : w.Inv)
    (hl : w.ledgers[i]? = some l)
    (handle : ℕ) : (w.close handle i).1.ledgers[i]? = some l.closeState.2 := by
  have hshut := closeState_shut (hw.books.sound i l hl)
  rw [close, hl]
  dsimp only
  rw [put_onLedger_eq hl, hshut.parent]
  cases hpar : l.parent with
  | none => exact getElem?_set_self' hl
  | some p =>
    show ((w.ledgers.set i l.closeState.2).modify p _)[i]? = _
    rw [getElem?_modify_ne _ _ (hw.books.parents i l p hl hpar).ne]
    exact getElem?_set_self' hl

/-- A close after a proper run that is quiescent, where the region has delegated nothing. -/
theorem quiescent_sound {ops : List Op}
    (h : Run.Meets World.step (fun w op => w.proper op) World.empty ops) {handle i : ℕ} {l : Ledger}
    (hheld : (Run.exec World.step World.empty ops).ledgerAt handle = some i)
    (hl : (Run.exec World.step World.empty ops).ledgers[i]? = some l)
    (hdelegated : ∀ grade, l.delegated.get grade = 0)
    {region : RegionId} {settled : ℕ} {consumed returned : ResourceVector}
    (hclose : ((Run.exec World.step World.empty ops).close handle i).2
      = some (.quiescent region settled consumed returned)) :
    ∃ l', ((Run.exec World.step World.empty ops).close handle i).1.ledgers[i]? = some l' ∧
      (∀ (id : ObligationId) (entry : LedgerEntry), l'.entries[id]? = some entry →
        ¬entry.state.isOpen) ∧
      (∀ handle' g,
        ((Run.exec World.step World.empty ops).close handle i).1.grantAt handle' = some g →
        g.ledger ≠ i) ∧
      l'.leaks = [] ∧
      (∀ (j : ℕ) (child : Ledger),
        ((Run.exec World.step World.empty ops).close handle i).1.ledgers[j]? = some child →
        child.parent = some i → child.closed = false → ∀ grade, child.capacity.get grade = 0) ∧
      ∀ grade, consumed.get grade + returned.get grade = l'.capacity.get grade := by
  have hw := World.Inv.run h
  generalize Run.exec step empty ops = w at *
  have hsound := hw.books.sound i l hl
  have hshut := closeState_shut hsound
  have hadvance : Advance (fun _ => True) True w (w.close handle i).1 :=
    hw.close (ledgerAt_eq.mp hheld) fun _ _ _ => trivial
  have hw' := hw.advance hadvance
  have hl' : (w.close handle i).1.ledgers[i]? = some l.closeState.2 := close_ledger hw hl handle
  have hout : l.closeState.2.closeOutcome (l.closeState.2.closeReport l.closeState.1)
      = .quiescent region settled consumed returned := by
    rw [close, hl] at hclose
    exact some.inj hclose
  obtain ⟨hsettled, hleaks, hgrants, hconsumed, hreturned⟩ := close_quiescent hout
  refine ⟨_, hl', fun id entry hid => hsettled id entry (hshut.entries ▸ hid),
    fun handle' g hg heq => ?_, hleaks, fun j child hj hpar hopen grade => ?_, fun grade => ?_⟩
  · -- a grant that is held is registered, and there is none
    obtain ⟨m, hm, hid⟩ := hw'.kept.registered (grantAt_eq.mp hg)
    rw [heq, hl'] at hm
    cases hm
    rw [hshut.grants] at hid
    have hmem := mem_toList_of_get hid
    rw [hgrants] at hmem
    cases hmem
  · have hle := hw'.books.capacity_le hj hopen hpar hl' grade
    rw [hshut.delegated, hdelegated grade] at hle
    exact Nat.le_zero.mp hle
  · have hnone : l.inObligations grade = 0 := total_eq_zero fun id entry hid => by
      have hstate : entry.state ≠ .reserved := fun h => hsettled id entry hid (.inl h)
      rw [(hsound.entry id entry hid).2 hstate]
      rfl
    have hbal := hsound.balanced grade
    have hsum := ResourceVector.combine_ok hreturned grade
    rw [hsound.granted_get grade] at hsum
    rw [hnone, hdelegated grade] at hbal
    rw [hconsumed, hsum, hshut.capacity]
    omega

/-- A root opens and closes a child region and spends some of its budget. -/
def spendAndSettle : List Op :=
  [.root 1 (fewBytes 10), .grant 0 (fewBytes 4), .child 0 2 1, .close 2, .grant 0 (fewBytes 6),
    .reserve 0 [.bytes] 3, .commitInternal 4 (fewBytes 5)]

theorem quiescent_sound_spendAndSettle : ∃ consumed returned : ResourceVector,
    ((Run.exec World.step World.empty spendAndSettle).close 0 0).2
      = some (.quiescent 1 1 consumed returned) ∧
    consumed.get .bytes + returned.get .bytes = 10 := by
  have hclose : ∃ consumed returned : ResourceVector,
      ((Run.exec step empty spendAndSettle).close 0 0).2
        = some (.quiescent 1 1 consumed returned) := ⟨_, _, rfl⟩
  obtain ⟨consumed, returned, hclose⟩ := hclose
  have hproper : Run.Meets step (fun w op => w.proper op) empty spendAndSettle := by
    decide +kernel
  obtain ⟨l', hl', -, -, -, -, hsum⟩ := quiescent_sound hproper rfl rfl
    (fun grade => by cases grade <;> rfl) hclose
  refine ⟨consumed, returned, hclose, ?_⟩
  rw [hsum .bytes]
  cases hl'
  rfl

/-- A root is quiescent while a child it has funded is open. -/
theorem quiescent_over_child :
    (∃ consumed returned : ResourceVector, ((Run.exec World.step World.empty
      [.root 1 (.single .bytes 10 (by decide)), .grant 0 (.single .bytes 4 (by decide)),
        .child 0 2 1]).close 0 0).2 = some (.quiescent 1 0 consumed returned)) ∧
    ((Run.exec World.step World.empty
      [.root 1 (.single .bytes 10 (by decide)), .grant 0 (.single .bytes 4 (by decide)),
        .child 0 2 1]).close 0 0).1.ledgers[1]?.map
          (fun child => (child.parent, child.closed, child.capacity.get .bytes))
      = some (some 0, false, 4) :=
  ⟨⟨_, _, rfl⟩, by decide +kernel⟩

end Frankengit.Resource
