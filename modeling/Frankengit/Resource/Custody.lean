/-
Frankengit/Resource/Custody.lean

Region ledgers and the values they issue (`fgit-resource`, `custody.rs`,
`algebra.rs`, `twophase.rs`), under the disposition that records a leak and
goes on.

A `Ledger` is the state of one region; the owned values of the program (ledgers,
grants, obligations, escalation receipts) name the ledger they belong to.  A
`World` has the ledgers and the values the program holds, under handles.  An
operation takes the handles of what it uses; a handle that does not hold such a
value is one the types of the source rule out, and nothing happens.

The counters are numbers without a bound: the results are about runs that do
not reach the bound of 64 bits.  Obligation classes, receipts and the journal
are not modelled.
-/
import Frankengit.Resource.Algebra

namespace Frankengit.Resource

abbrev RegionId := ℕ
abbrev GrantId := RegionId ×ₗ ℕ

instance (priority := high) : Std.TransCmp (compare : GrantId → GrantId → Ordering) :=
  BTree.transCmp_compare
abbrev ObligationId := RegionId ×ₗ ℕ

inductive ObligationState where
  | reserved | committed | deferredExternally | escalated | acknowledged | aborted
  | terminallyFailed | leaked
deriving DecidableEq

inductive LifecycleEvent where
  | commit | abort | acknowledge | defer | escalate | failTerminally | leak
deriving DecidableEq

inductive LifecycleError where
  | illegalTransition (state : ObligationState) (event : LifecycleEvent)
  | unknownObligation (id : ObligationId)
  | chargeExceedsReservation (error : ResourceError)
deriving DecidableEq

namespace ObligationState

def apply (state : ObligationState) (event : LifecycleEvent) :
    Except LifecycleError ObligationState :=
  match state, event with
  | reserved, .commit => .ok committed
  | reserved, .abort => .ok aborted
  | committed, .acknowledge | deferredExternally, .acknowledge | escalated, .acknowledge =>
    .ok acknowledged
  | committed, .defer => .ok deferredExternally
  | deferredExternally, .escalate => .ok escalated
  | deferredExternally, .failTerminally | escalated, .failTerminally => .ok terminallyFailed
  | reserved, .leak | committed, .leak | deferredExternally, .leak | escalated, .leak => .ok leaked
  | state, event => .error (.illegalTransition state event)

def isTerminal : ObligationState → Bool
  | acknowledged | aborted | terminallyFailed | leaked => true
  | _ => false

end ObligationState

/-! ### Ledgers -/

inductive LeakSubject where
  | grant (id : GrantId)
  | obligation (id : ObligationId)
  | region (id : RegionId)

inductive LeakClass where
  | budgetGrantDropped | reservedObligationDropped | committedObligationDropped
  | unacknowledgedRecordDropped | ledgerDroppedWithoutClose

structure LeakRecord where
  subject : LeakSubject
  leakClass : LeakClass
  reclaimed : ResourceVector
  ordinal : ℕ

structure LedgerEntry where
  state : ObligationState
  reserved : ResourceVector
  charged : ResourceVector

/-- The ledger of a region, with the place of its parent's ledger. -/
structure Ledger where
  parent : Option ℕ
  region : RegionId
  capacity : ResourceVector
  available : ResourceVector
  consumed : ResourceVector
  delegated : ResourceVector
  grants : BTreeMap GrantId ResourceVector
  entries : BTreeMap ObligationId LedgerEntry
  leaks : List LeakRecord
  nextGrant : ℕ
  nextObligation : ℕ
  leakOrdinal : ℕ
  accountingFaults : ℕ
  closed : Bool

namespace Ledger

def fresh (parent : Option ℕ) (region : RegionId) (capacity : ResourceVector) : Ledger where
  parent := parent
  region := region
  capacity := capacity
  available := capacity
  consumed := .zero
  delegated := .zero
  grants := ∅
  entries := ∅
  leaks := []
  nextGrant := 0
  nextObligation := 0
  leakOrdinal := 0
  accountingFaults := 0
  closed := false

variable (l : Ledger)

def granted : ResourceVector := .sumAmounts (l.grants.toList.map Prod.snd)

def reserved : ResourceVector := .sumAmounts (l.entries.toList.map fun entry => entry.2.reserved)

/-- The sum of the accounts of a snapshot. -/
def accounted : Except ResourceError ResourceVector := do
  let sum ← l.available.combine l.granted
  let sum ← sum.combine l.reserved
  let sum ← sum.combine l.consumed
  sum.combine l.delegated

def noteFault : Ledger := { l with accountingFaults := l.accountingFaults + 1 }

def addAvailable (amount : ResourceVector) : Ledger :=
  match l.available.combine amount with
  | .ok total => { l with available := total }
  | .error _ => l.noteFault

def addConsumed (amount : ResourceVector) : Ledger :=
  match l.consumed.combine amount with
  | .ok total => { l with consumed := total }
  | .error _ => l.noteFault

def addDelegated (amount : ResourceVector) : Ledger :=
  match l.delegated.combine amount with
  | .ok total => { l with delegated := total }
  | .error _ => l.noteFault

def dropDelegated (amount : ResourceVector) : Ledger :=
  match l.delegated.split amount with
  | .ok (_, rest) => { l with delegated := rest }
  | .error _ => l.noteFault

def freshGrant : GrantId := toLex (l.region, l.nextGrant + 1)

def freshObligation : ObligationId := toLex (l.region, l.nextObligation + 1)

/-- Move an amount out of the pool into a fresh grant. -/
def carve (amount : ResourceVector) : Except ResourceError Ledger := do
  let (_, rest) ← l.available.split amount
  return { l with
    available := rest
    nextGrant := l.nextGrant + 1
    grants := l.grants.insert l.freshGrant amount }

/-- Retire a grant; the amount is the one the ledger has for it. -/
def retire (id : GrantId) : ResourceVector × Ledger :=
  match l.grants[id]? with
  | some held => (held, { l with grants := l.grants.erase id })
  | none => (.zero, l.noteFault)

def divideGrant (old : GrantId) (part rest : ResourceVector) : Ledger :=
  { l with
    nextGrant := l.nextGrant + 1
    grants := (l.grants.insert old rest).insert l.freshGrant part }

def absorbGrant (target source : GrantId) (total : ResourceVector) : Ledger :=
  let l := (l.retire source).2
  { l with grants := l.grants.insert target total }

def releaseGrant (id : GrantId) : Ledger :=
  let (amount, l) := l.retire id
  l.addAvailable amount

/-- The obligation takes what the grant says it holds. -/
def reserveGrant (id : GrantId) (amount : ResourceVector) : Ledger :=
  let l := (l.retire id).2
  { l with
    nextObligation := l.nextObligation + 1
    entries := l.entries.insert l.freshObligation ⟨.reserved, amount, .zero⟩ }

def settle (id : ObligationId) (event : LifecycleEvent) (spent : ResourceVector) :
    Except LifecycleError Ledger :=
  match l.entries[id]? with
  | none => .error (.unknownObligation id)
  | some entry => do
    let next ← entry.state.apply event
    match entry.reserved.firstDeficit spent with
    | some error => .error (.chargeExceedsReservation error)
    | none =>
      let charged := spent.mask .consumable
      let (_, returned) ← (entry.reserved.split charged).mapError .chargeExceedsReservation
      let l := (l.addConsumed charged).addAvailable returned
      return { l with entries := l.entries.insert id ⟨next, .zero, charged⟩ }

/-- An event that moves no budget; one that is refused changes nothing. -/
def mark (id : ObligationId) (event : LifecycleEvent) : Ledger :=
  match l.entries[id]? with
  | some entry =>
    match entry.state.apply event with
    | .ok next => { l with entries := l.entries.insert id { entry with state := next } }
    | .error _ => l
  | none => l

def reclaimObligation (id : ObligationId) : ResourceVector × Ledger :=
  match l.entries[id]? with
  | some entry =>
    match entry.state.apply .leak with
    | .ok next => (entry.reserved,
        { l with entries := l.entries.insert id { entry with state := next, reserved := .zero } }
          |>.addAvailable entry.reserved)
    | .error _ => (entry.reserved,
        { l with entries := l.entries.insert id { entry with reserved := .zero } }
          |>.addAvailable entry.reserved |>.noteFault)
  | none => (.zero, l.addAvailable .zero)

/-- What a leak takes back. -/
def reclaim : LeakSubject → ResourceVector × Ledger
  | .grant id =>
    let (held, l) := l.retire id
    (held, l.addAvailable held)
  | .obligation id => l.reclaimObligation id
  | .region _ => (.zero, l)

def recordLeak (subject : LeakSubject) (leakClass : LeakClass) : Ledger :=
  let (reclaimed, l) := l.reclaim subject
  { l with
    leakOrdinal := l.leakOrdinal + 1
    leaks := l.leaks ++ [⟨subject, leakClass, reclaimed, l.leakOrdinal + 1⟩] }

/-- A closed child's unspent capacity comes back. -/
def settleChild (capacity consumed : ResourceVector) : Ledger :=
  let l := (l.dropDelegated capacity).addConsumed consumed
  match capacity.split consumed with
  | .ok (_, unspent) => l.addAvailable unspent
  | .error _ => l.noteFault

end Ledger

/-! ### Closing -/

structure CloseReport where
  unsettled : List (ObligationId × LedgerEntry)
  escalated : List (ObligationId × LedgerEntry)
  leaks : List LeakRecord
  consumed : ResourceVector
  returned : ResourceVector
  settled : ℕ
  accountingFaults : ℕ
  outstandingGrants : ℕ

inductive RegionCloseOutcome where
  | quiescent (region : RegionId) (settled : ℕ) (consumed returned : ResourceVector)
  | containmentFailure (region : RegionId) (report : CloseReport)

namespace Ledger

/-- The ledger is closed, and what is in the pool and in grants is returned. -/
def closeState (l : Ledger) : ResourceVector × Ledger :=
  match l.available.combine l.granted with
  | .ok total => (total, { l with closed := true })
  | .error _ => (l.available, { l with closed := true }.noteFault)

def closeReport (l : Ledger) (returned : ResourceVector) : CloseReport where
  unsettled := l.entries.toList.filter fun entry =>
    [.reserved, .committed, .deferredExternally].contains entry.2.state
  escalated := l.entries.toList.filter fun entry => entry.2.state = .escalated
  leaks := l.leaks
  consumed := l.consumed
  returned := returned
  settled := l.entries.toList.countP fun entry => entry.2.state.isTerminal
  accountingFaults := l.accountingFaults
  outstandingGrants := l.grants.toList.length

def closeOutcome (l : Ledger) (report : CloseReport) : RegionCloseOutcome :=
  if report.unsettled.isEmpty && report.escalated.isEmpty && report.leaks.isEmpty
      && report.accountingFaults = 0 && report.outstandingGrants = 0 then
    .quiescent l.region report.settled report.consumed report.returned
  else .containmentFailure l.region report

end Ledger

/-! ### The world of a program -/

structure BudgetGrant where
  id : GrantId
  amount : ResourceVector
  ledger : ℕ

/-- Which owned value an obligation is. -/
inductive Phase where
  | reserved | committed | unacknowledged | escalated
deriving DecidableEq

/-- How a dropped obligation is recorded; an escalation receipt has no guard. -/
def Phase.leakClass : Phase → Option LeakClass
  | reserved => some .reservedObligationDropped
  | committed => some .committedObligationDropped
  | unacknowledged => some .unacknowledgedRecordDropped
  | escalated => none

/-- The methods that move no budget: the value they give back, if any. -/
def Phase.advance : Phase → LifecycleEvent → Option (Option Phase)
  | committed, .acknowledge | unacknowledged, .acknowledge | escalated, .acknowledge => some none
  | committed, .defer => some (some unacknowledged)
  | unacknowledged, .escalate => some (some escalated)
  | unacknowledged, .failTerminally | escalated, .failTerminally => some none
  | _, _ => none

structure Obligation where
  phase : Phase
  id : ObligationId
  ledger : ℕ

inductive Value where
  | ledger (index : ℕ)
  | grant (grant : BudgetGrant)
  | obligation (obligation : Obligation)

structure World where
  ledgers : List Ledger
  values : ℕ → Option Value
  size : ℕ

inductive Refusal where
  | resource (error : ResourceError)
  | regionClosed (region : RegionId)
  | missingGrade (grade : Grade)
  | lifecycle (error : LifecycleError)

/-- The public operations; the numbers are handles. -/
inductive Op where
  | root (region : RegionId) (capacity : ResourceVector)
  | grant (ledger : ℕ) (amount : ResourceVector)
  | splitOff (grant : ℕ) (part : ResourceVector)
  | absorb (target source : ℕ)
  | release (grant : ℕ)
  | reserve (ledger : ℕ) (required : List Grade) (grant : ℕ)
  | commit (obligation : ℕ) (actual : ResourceVector)
  | abort (obligation : ℕ) (spent : ResourceVector)
  | abortUnused (obligation : ℕ)
  | commitInternal (obligation : ℕ) (actual : ResourceVector)
  | advance (obligation : ℕ) (event : LifecycleEvent)
  | child (ledger : ℕ) (region : RegionId) (grant : ℕ)
  | close (ledger : ℕ)
  | drop (value : ℕ)

namespace World

def empty : World := ⟨[], fun _ => none, 0⟩

variable (w : World)

def ledgerAt (handle : ℕ) : Option ℕ :=
  match w.values handle with
  | some (.ledger index) => some index
  | _ => none

def grantAt (handle : ℕ) : Option BudgetGrant :=
  match w.values handle with
  | some (.grant grant) => some grant
  | _ => none

def obligationAt (handle : ℕ) : Option Obligation :=
  match w.values handle with
  | some (.obligation obligation) => some obligation
  | _ => none

/-- Change a ledger. -/
def onLedger (index : ℕ) (action : Ledger → Ledger) : World :=
  { w with ledgers := w.ledgers.modify index action }

/-- What a handle holds is replaced, or consumed. -/
def put (handle : ℕ) (value : Option Value) : World :=
  { w with values := Function.update w.values handle value }

/-- A new value, under a new handle. -/
def hold (value : Value) : World :=
  { w with values := Function.update w.values w.size (some value), size := w.size + 1 }

def addLedger (ledger : Ledger) : World :=
  { w with ledgers := w.ledgers ++ [ledger] }.hold (.ledger w.ledgers.length)

def release (handle : ℕ) (grant : BudgetGrant) : World :=
  (w.put handle none).onLedger grant.ledger (·.releaseGrant grant.id)

def grant (index : ℕ) (amount : ResourceVector) : World × Option Refusal :=
  match w.ledgers[index]? with
  | none => (w, none)
  | some l =>
    match l.carve amount with
    | .ok l' => ((w.onLedger index fun _ => l').hold (.grant ⟨l.freshGrant, amount, index⟩), none)
    | .error e => (w, some (.resource e))

def splitOff (handle : ℕ) (grant : BudgetGrant) (part : ResourceVector) : World × Option Refusal :=
  match grant.amount.split part, w.ledgers[grant.ledger]? with
  | .ok (taken, rest), some l =>
    (((w.onLedger grant.ledger (·.divideGrant grant.id taken rest)).put handle
      (some (.grant { grant with amount := rest }))).hold
        (.grant ⟨l.freshGrant, taken, grant.ledger⟩), none)
  | .error e, _ => (w, some (.resource e))
  | _, none => (w, none)

/-- The absorbed grant's ledger writes the sum, whichever ledger issued the other. -/
def absorb (target source : ℕ) (grant other : BudgetGrant) : World × Option Refusal :=
  match grant.amount.combine other.amount with
  | .ok total =>
    (((w.put source none).onLedger other.ledger (·.absorbGrant grant.id other.id total)).put target
      (some (.grant { grant with amount := total })), none)
  | .error e => (w.release source other, some (.resource e))

def reserve (index : ℕ) (required : List Grade) (handle : ℕ) (grant : BudgetGrant) :
    World × Option Refusal :=
  match w.ledgers[index]?, w.ledgers[grant.ledger]? with
  | some self, some issuer =>
    if self.closed then (w.release handle grant, some (.regionClosed self.region))
    else
      match required.find? fun grade => grant.amount.get grade = 0 with
      | some grade => (w.release handle grant, some (.missingGrade grade))
      | none =>
        (((w.put handle none).onLedger grant.ledger (·.reserveGrant grant.id grant.amount)).hold
            (.obligation ⟨.reserved, issuer.freshObligation, grant.ledger⟩), none)
  | _, _ => (w, none)

/-- Settle a reservation; what is held afterwards is given. -/
def settle (handle : ℕ) (obligation : Obligation) (event : LifecycleEvent) (spent : ResourceVector)
    (after : Option Phase) : World × Option Refusal :=
  match w.ledgers[obligation.ledger]? with
  | none => (w, none)
  | some l =>
    match l.settle obligation.id event spent with
    | .ok l' => ((w.onLedger obligation.ledger fun _ => l').put handle
        (after.map fun phase => .obligation { obligation with phase }), none)
    | .error e => (w, some (.lifecycle e))

/-- The value is consumed even where the ledger refuses. -/
def abortUnused (handle : ℕ) (obligation : Obligation) : World :=
  (w.settle handle obligation .abort .zero none).1.put handle none

def advance (handle : ℕ) (obligation : Obligation) (event : LifecycleEvent) : World :=
  match obligation.phase.advance event with
  | none => w
  | some after => (w.onLedger obligation.ledger (·.mark obligation.id event)).put handle
      (after.map fun phase => .obligation { obligation with phase })

/-- The commit and the acknowledgement of an effect nobody observes. -/
def commitInternal (handle : ℕ) (obligation : Obligation) (actual : ResourceVector) :
    World × Option Refusal :=
  match w.settle handle obligation .commit actual (some .committed) with
  | (w', none) => (w'.advance handle { obligation with phase := .committed } .acknowledge, none)
  | refused => refused

/-- The receiver is the parent; the child gets what the receiver retires. -/
def child (index : ℕ) (region : RegionId) (handle : ℕ) (grant : BudgetGrant) : World :=
  match w.ledgers[index]? with
  | none => w
  | some l =>
    let (retired, l') := l.retire grant.id
    ((w.put handle none).onLedger index fun _ => l'.addDelegated retired).addLedger
      (.fresh (some index) region retired)

def close (handle index : ℕ) : World × Option RegionCloseOutcome :=
  match w.ledgers[index]? with
  | none => (w, none)
  | some l =>
    let (returned, l') := l.closeState
    let w' := (w.put handle none).onLedger index fun _ => l'
    let w' := match l'.parent with
      | some parent => w'.onLedger parent (·.settleChild l'.capacity l'.consumed)
      | none => w'
    (w', some (l'.closeOutcome (l'.closeReport returned)))

def drop (handle : ℕ) : World :=
  match w.values handle with
  | none => w
  | some value =>
    let w' := w.put handle none
    match value with
    | .ledger index => w'.onLedger index fun l =>
      l.recordLeak (.region l.region) .ledgerDroppedWithoutClose
    | .grant grant =>
      w'.onLedger grant.ledger (·.recordLeak (.grant grant.id) .budgetGrantDropped)
    | .obligation obligation =>
      match obligation.phase.leakClass with
      | some leakClass =>
        w'.onLedger obligation.ledger (·.recordLeak (.obligation obligation.id) leakClass)
      | none => w'

/-- A reservation under a handle. -/
def reservationAt (handle : ℕ) : Option Obligation :=
  (w.obligationAt handle).filter (·.phase = .reserved)

/-- One operation, with its refusal. -/
def perform : Op → World × Option Refusal
  | .root region capacity => (w.addLedger (.fresh none region capacity), none)
  | .grant ledger amount => (w.ledgerAt ledger).elim (w, none) (w.grant · amount)
  | .splitOff grant part => (w.grantAt grant).elim (w, none) (w.splitOff grant · part)
  | .absorb target source =>
    match w.grantAt target, w.grantAt source with
    | some grant, some other =>
      if target = source then (w, none) else w.absorb target source grant other
    | _, _ => (w, none)
  | .release grant => (w.grantAt grant).elim (w, none) fun g => (w.release grant g, none)
  | .reserve ledger required grant =>
    match w.ledgerAt ledger, w.grantAt grant with
    | some index, some g => w.reserve index required grant g
    | _, _ => (w, none)
  | .commit handle actual =>
    (w.reservationAt handle).elim (w, none) (w.settle handle · .commit actual (some .committed))
  | .abort handle spent =>
    (w.reservationAt handle).elim (w, none) (w.settle handle · .abort spent none)
  | .abortUnused handle =>
    (w.reservationAt handle).elim (w, none) fun o => (w.abortUnused handle o, none)
  | .commitInternal handle actual =>
    (w.reservationAt handle).elim (w, none) (w.commitInternal handle · actual)
  | .advance handle event =>
    (w.obligationAt handle).elim (w, none) fun o => (w.advance handle o event, none)
  | .child ledger region grant =>
    match w.ledgerAt ledger, w.grantAt grant with
    | some index, some g => (w.child index region grant g, none)
    | _, _ => (w, none)
  | .close ledger =>
    (w.ledgerAt ledger).elim (w, none) fun index => ((w.close ledger index).1, none)
  | .drop value => (w.drop value, none)

def step (w : World) (op : Op) : World := (w.perform op).1

end World

end Frankengit.Resource
