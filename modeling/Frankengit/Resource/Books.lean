/-
Frankengit/Resource/Books.lean

The accounts of one ledger.  `Sound` is the identity a ledger keeps: what is
available, in grants, in obligations, consumed and delegated is the capacity.
`Moved` is what an operation of a ledger on its own accounts does, and there is
one lemma for each function of `custody.rs` that says it does that and no more.
-/
import Frankengit.Resource.Custody
import Frankengit.Lib.Accounts
import Frankengit.Lib.Fallible

namespace Frankengit.Resource

open Fallible ResourceVector BTree Nat ObligationState

namespace ObligationState

variable {state next : ObligationState} {event : LifecycleEvent}

/-- Settlements are of reservations, and end them. -/
theorem apply_settles (h : state.apply event = .ok next)
    (hevent : event = .commit ∨ event = .abort) :
    state = .reserved ∧ next ≠ .reserved := by
  rcases hevent with rfl | rfl <;> cases state <;> cases h <;> exact ⟨rfl, nofun⟩

theorem apply_leak (h : state.apply .leak = .ok next) : next ≠ .reserved := by
  cases state <;> cases h <;> exact nofun

theorem apply_leak_error {error : LifecycleError} (h : state.apply .leak = .error error) :
    state ≠ .reserved := by
  rintro rfl
  cases h

end ObligationState

variable {event : LifecycleEvent}

/-- The events of the later phases are refused by a reservation and lead to none. -/
theorem Phase.advance_unreserved {phase : Phase} {after : Option Phase}
    {state next : ObligationState} (h : phase.advance event = some after)
    (happly : state.apply event = .ok next) : state ≠ .reserved ∧ next ≠ .reserved := by
  cases event <;> cases phase <;> cases h <;> cases state <;> cases happly <;> exact ⟨nofun, nofun⟩

namespace Ledger

section

variable (l : Ledger) (grade : Grade)

/-- What the grants hold. -/
def inGrants : ℕ := total (·.get grade) l.grants

/-- What the obligations hold. -/
def inObligations : ℕ := total (·.reserved.get grade) l.entries

/-- What the obligations were charged. -/
def charges : ℕ := total (·.charged.get grade) l.entries

end

/-- An obligation is charged only when its reservation ends. -/
def EntrySound (entry : LedgerEntry) : Prop :=
  (entry.state = .reserved → entry.charged = .zero) ∧
    (entry.state ≠ .reserved → entry.reserved = .zero)

structure Sound (l : Ledger) : Prop where
  balanced : ∀ grade, l.available.get grade + l.inGrants grade + l.inObligations grade
    + l.consumed.get grade + l.delegated.get grade = l.capacity.get grade
  grants_new : ∀ n, l.nextGrant < n → l.grants[(toLex (l.region, n) : GrantId)]? = none
  entries_new : ∀ n, l.nextObligation < n → l.entries[(toLex (l.region, n) : ObligationId)]? = none
  entry : ∀ (id : ObligationId) (entry : LedgerEntry), l.entries[id]? = some entry →
    EntrySound entry

/-- The ledger has moved amounts between its own accounts. -/
structure Moved (l l' : Ledger) : Prop where
  parent : l'.parent = l.parent
  capacity : l'.capacity = l.capacity
  closed : l'.closed = l.closed
  delegated : l'.delegated = l.delegated
  sound : l'.Sound
  /-- What is consumed is charged to an obligation. -/
  paid : ∀ grade, l'.charges grade + l.consumed.get grade = l.charges grade + l'.consumed.get grade
  /-- No charge is taken back. -/
  charged : ∀ grade, l.charges grade ≤ l'.charges grade
  /-- After the close nothing is taken from the pool. -/
  idle : l.closed = true → ∀ grade, l'.inGrants grade + l'.inObligations grade + l'.charges grade
    ≤ l.inGrants grade + l.inObligations grade + l.charges grade

variable {l l' l'' : Ledger} {id : GrantId} {amount part rest total : ResourceVector}

theorem Moved.refl (h : l.Sound) : Moved l l :=
  ⟨rfl, rfl, rfl, rfl, h, fun _ => rfl, fun _ => le_rfl, fun _ _ => le_rfl⟩

/-- Faults and leaks are beside the accounts. -/
theorem Moved.noted (h : Moved l l') (faults ordinal : ℕ) (leaks : List LeakRecord) :
    Moved l { l' with accountingFaults := faults, leakOrdinal := ordinal, leaks := leaks } :=
  ⟨h.parent, h.capacity, h.closed, h.delegated,
    ⟨h.sound.balanced, h.sound.grants_new, h.sound.entries_new, h.sound.entry⟩, h.paid,
    h.charged, h.idle⟩

theorem Sound.fresh (parent : Option ℕ) (region : RegionId) (capacity : ResourceVector) :
    (fresh parent region capacity).Sound where
  balanced grade := by
    simp [Ledger.fresh, inGrants, inObligations]
  grants_new n _ := by simp [Ledger.fresh]
  entries_new n _ := by simp [Ledger.fresh]
  entry id entry h := by simp [Ledger.fresh] at h

/-- What is part of the accounts fits in 64 bits. -/
theorem Sound.le_u64Max (h : l.Sound) (grade : Grade) :
    l.available.get grade + l.inGrants grade + l.inObligations grade + l.consumed.get grade
      + l.delegated.get grade ≤ u64Max := by
  rw [h.balanced grade]
  exact l.capacity.fits grade

theorem Sound.granted_get (h : l.Sound) (grade : Grade) :
    l.granted.get grade = l.inGrants grade := by
  have hsum : ∀ g, ((l.grants.toList.map Prod.snd).map (·.get g)).sum = l.inGrants g := fun g => by
    rw [List.map_map]
    rfl
  rw [granted, sumAmounts_get (fun g => ?_), hsum]
  rw [hsum]
  have := h.le_u64Max g
  omega

theorem Sound.reserved_get (h : l.Sound) (grade : Grade) :
    l.reserved.get grade = l.inObligations grade := by
  have hsum : ∀ g, ((l.entries.toList.map fun entry => entry.2.reserved).map (·.get g)).sum
      = l.inObligations g := fun g => by
    rw [List.map_map]
    rfl
  rw [reserved, sumAmounts_get (fun g => ?_), hsum]
  rw [hsum]
  have := h.le_u64Max g
  omega

/-- The snapshot of a sound ledger adds up to the capacity. -/
theorem Sound.accounted_eq (h : l.Sound) : l.accounted = .ok l.capacity := by
  refine bind_eq_ok.mpr ⟨_, combine_eq fun g => ?_, bind_eq_ok.mpr ⟨_, combine_eq fun g => ?_,
    bind_eq_ok.mpr ⟨_, combine_eq fun g => ?_, combine_of fun g => ?_⟩⟩⟩
  all_goals
    have hbal := h.balanced g
    have hfits := l.capacity.fits g
    simp only [h.granted_get, h.reserved_get]
    omega

/-! ### The accounts one by one -/

theorem addAvailable_eq (l : Ledger) (amount : ResourceVector)
    (h : ∀ grade, l.available.get grade + amount.get grade ≤ u64Max) :
    l.addAvailable amount = { l with available := ⟨_, h⟩ } := by
  rw [addAvailable, combine_eq h]

theorem addConsumed_eq (l : Ledger) (amount : ResourceVector)
    (h : ∀ grade, l.consumed.get grade + amount.get grade ≤ u64Max) :
    l.addConsumed amount = { l with consumed := ⟨_, h⟩ } := by
  rw [addConsumed, combine_eq h]

theorem addDelegated_eq (l : Ledger) (amount : ResourceVector)
    (h : ∀ grade, l.delegated.get grade + amount.get grade ≤ u64Max) :
    l.addDelegated amount = { l with delegated := ⟨_, h⟩ } := by
  rw [addDelegated, combine_eq h]

theorem dropDelegated_eq (l : Ledger) (amount : ResourceVector)
    (h : ∀ grade, amount.get grade ≤ l.delegated.get grade) :
    ∃ rest : ResourceVector, (∀ grade, amount.get grade + rest.get grade = l.delegated.get grade) ∧
      l.dropDelegated amount = { l with delegated := rest } := by
  obtain ⟨rest, hrest⟩ := exists_split h
  exact ⟨rest, (split_ok hrest).2, by rw [dropDelegated, hrest]⟩

/-- A grant is taken out of the sum. -/
theorem inGrants_erase (hid : l.grants[id]? = some amount) (grade : Grade) :
    l.inGrants grade = amount.get grade + BTree.total (·.get grade) (l.grants.erase id) :=
  total_erase (f := fun v : ResourceVector => v.get grade) hid

theorem retire_eq (h : l.grants[id]? = some amount) :
    l.retire id = (amount, { l with grants := l.grants.erase id }) := by
  rw [retire, h]

theorem retire_none (h : l.grants[id]? = none) : l.retire id = (.zero, l.noteFault) := by
  rw [retire, h]

/-! ### Numbers -/

theorem Sound.freshGrant_new (h : l.Sound) : l.grants[l.freshGrant]? = none :=
  h.grants_new _ (lt_succ_self _)

theorem Sound.freshObligation_new (h : l.Sound) : l.entries[l.freshObligation]? = none :=
  h.entries_new _ (lt_succ_self _)

/-- A number given out is not above the bound any more. -/
theorem number_ne {region k : ℕ} (n : ℕ) (hn : k < n) :
    (toLex (region, k) : GrantId) ≠ toLex (region, n) := fun heq => by
  have := congrArg (fun id : GrantId => (ofLex id).2) heq
  exact absurd this (Nat.ne_of_lt hn)

section

variable {V : Type} {m : BTreeMap GrantId V} {region bound : ℕ} {v : V}
  (h : ∀ n, bound < n → m[(toLex (region, n) : GrantId)]? = none)
include h

/-- A table without the numbers above a bound, after one is set. -/
theorem insert_new {bound' : ℕ} (hle : bound ≤ bound')
    (hid : ∀ n, bound' < n → id ≠ toLex (region, n)) (n : ℕ) (hn : bound' < n) :
    (m.insert id v)[(toLex (region, n) : GrantId)]? = none := by
  rw [get_insert, if_neg (hid n hn)]
  exact h n (hle.trans_lt hn)

theorem erase_new (id : GrantId) (n : ℕ) (hn : bound < n) :
    (m.erase id)[(toLex (region, n) : GrantId)]? = none := by
  rw [get_erase]
  split
  · rfl
  · exact h n hn

theorem registered_ne (hid : m[id]? = some v) (n : ℕ) (hn : bound < n) :
    id ≠ toLex (region, n) := fun heq => by
  rw [heq, h n hn] at hid
  cases hid

end

variable {entry : LedgerEntry}

theorem entrySound_insert {m : BTreeMap ObligationId LedgerEntry}
    (h : ∀ (id : ObligationId) (entry : LedgerEntry), m[id]? = some entry → EntrySound entry)
    (hentry : EntrySound entry) (id : ObligationId) (id' : ObligationId) (entry' : LedgerEntry)
    (hget : (m.insert id entry)[id']? = some entry') : EntrySound entry' := by
  obtain ⟨-, rfl⟩ | ⟨-, hget⟩ := get_insert_some hget
  · exact hentry
  · exact h id' entry' hget

/-! ### Grants -/

theorem carve_ok (h : l.carve amount = .ok l') :
    ∃ rest : ResourceVector, (∀ grade, amount.get grade + rest.get grade = l.available.get grade) ∧
      l' = { l with
        available := rest
        nextGrant := l.nextGrant + 1
        grants := l.grants.insert l.freshGrant amount } := by
  obtain ⟨⟨taken, rest⟩, hsplit, h⟩ := bind_eq_ok.mp h
  cases h
  exact ⟨rest, (split_ok hsplit).2, rfl⟩

variable (hl : l.Sound)
include hl

/-- What is done to the grants: what they and the pool hold together stays the same. -/
theorem grants_moved {available : ResourceVector} {nextGrant : ℕ}
    {grants : BTreeMap GrantId ResourceVector}
    (hnew : ∀ n, nextGrant < n → grants[(toLex (l.region, n) : GrantId)]? = none)
    (hsum : ∀ grade, available.get grade + BTree.total (·.get grade) grants
      = l.available.get grade + l.inGrants grade)
    (hless : l.closed = true → ∀ grade, BTree.total (·.get grade) grants ≤ l.inGrants grade) :
    Moved l { l with
      available := available
      nextGrant := nextGrant
      grants := grants } := by
  refine ⟨rfl, rfl, rfl, rfl, ⟨fun grade => ?_, hnew, hl.entries_new, hl.entry⟩, fun _ => rfl,
    fun _ => le_rfl, fun hclosed grade => ?_⟩
  · have hbal := hl.balanced grade
    rw [← hsum grade] at hbal
    exact hbal
  · exact Nat.add_le_add_right (Nat.add_le_add_right (hless hclosed grade) _) _

theorem carve_moved (hopen : l.closed = false) (h : l.carve amount = .ok l') : Moved l l' := by
  obtain ⟨rest, hrest, rfl⟩ := carve_ok h
  refine grants_moved hl (insert_new hl.grants_new (le_succ _) number_ne) (fun grade => ?_)
    fun hclosed => ?_
  · have hsplit := hrest grade
    rw [total_insert_new hl.freshGrant_new, inGrants]
    omega
  · rw [hopen] at hclosed
    cases hclosed

theorem divideGrant_moved (hid : l.grants[id]? = some amount)
    (hsplit : ∀ grade, part.get grade + rest.get grade = amount.get grade) :
    Moved l (l.divideGrant id part rest) := by
  have hne : l.freshGrant ≠ id := fun heq => by
    rw [← heq, hl.freshGrant_new] at hid
    cases hid
  have hnew : (l.grants.insert id rest)[l.freshGrant]? = none := by
    rw [get_insert, if_neg hne.symm]
    exact hl.freshGrant_new
  -- the two parts are what the one grant was
  have hgrants : ∀ grade, total (·.get grade) ((l.grants.insert id rest).insert l.freshGrant part)
      = l.inGrants grade := by
    intro grade
    have hparts := hsplit grade
    rw [inGrants, total_insert_new hnew, total_insert, total_erase hid]
    omega
  refine grants_moved hl ?_ (fun grade => by rw [hgrants grade]) fun _ grade => (hgrants grade).le
  exact insert_new (insert_new hl.grants_new le_rfl (registered_ne hl.grants_new hid)) (le_succ _)
    number_ne

omit hl in
theorem absorbGrant_eq {target source : GrantId} (hsrc : l.grants[source]? = some amount) :
    l.absorbGrant target source total
      = { l with grants := (l.grants.erase source).insert target total } := by
  rw [absorbGrant, retire_eq hsrc]

theorem absorbGrant_moved {target source : GrantId} (hne : target ≠ source)
    (htgt : l.grants[target]? = some part) (hsrc : l.grants[source]? = some amount)
    (htotal : ∀ grade, total.get grade = part.get grade + amount.get grade) :
    Moved l (l.absorbGrant target source total) := by
  rw [absorbGrant_eq hsrc]
  have hstill : (l.grants.erase source)[target]? = some part := by
    rw [get_erase, if_neg (Ne.symm hne)]
    exact htgt
  have hgrants : ∀ grade, BTree.total (·.get grade) ((l.grants.erase source).insert target total)
      = l.inGrants grade := by
    intro grade
    have hsum := htotal grade
    rw [total_insert, inGrants, total_erase hsrc, total_erase hstill]
    omega
  refine grants_moved hl ?_ (fun grade => by rw [hgrants grade]) fun _ grade => (hgrants grade).le
  exact insert_new (erase_new hl.grants_new source) le_rfl (registered_ne hl.grants_new htgt)

theorem releaseGrant_eq (hid : l.grants[id]? = some amount) :
    ∃ total : ResourceVector,
      (∀ grade, total.get grade = l.available.get grade + amount.get grade) ∧
      l.releaseGrant id = { l with grants := l.grants.erase id, available := total } := by
  rw [releaseGrant, retire_eq hid]
  refine ⟨_, fun _ => rfl,
    addAvailable_eq { l with grants := l.grants.erase id } amount fun grade => ?_⟩
  have hle := hl.le_u64Max grade
  rw [inGrants_erase hid] at hle
  show l.available.get grade + _ ≤ _
  omega

theorem releaseGrant_moved (hid : l.grants[id]? = some amount) : Moved l (l.releaseGrant id) := by
  obtain ⟨total, htotal, heq⟩ := releaseGrant_eq hl hid
  rw [heq]
  refine grants_moved hl (erase_new hl.grants_new id) (fun grade => ?_) fun _ grade => ?_
  · rw [htotal grade, inGrants_erase hid, add_assoc]
  · rw [inGrants_erase hid]
    exact le_add_left _ _

/-! ### Obligations -/

theorem reserveGrant_moved (hid : l.grants[id]? = some amount) :
    Moved l (l.reserveGrant id amount) := by
  rw [reserveGrant, retire_eq hid]
  have hresv : ∀ grade, total (·.reserved.get grade)
      (l.entries.insert l.freshObligation ⟨.reserved, amount, .zero⟩)
      = amount.get grade + l.inObligations grade := fun grade =>
    total_insert_new hl.freshObligation_new
  have hcharged : ∀ grade, total (·.charged.get grade)
      (l.entries.insert l.freshObligation ⟨.reserved, amount, .zero⟩) = l.charges grade := by
    intro grade
    rw [total_insert_new hl.freshObligation_new]
    exact zero_add _
  refine ⟨rfl, rfl, rfl, rfl, ⟨fun grade => ?_, erase_new hl.grants_new id, ?_, ?_⟩,
    fun grade => ?_, fun grade => (hcharged grade).ge, fun _ grade => ?_⟩
  · have hbal := hl.balanced grade
    rw [inGrants_erase hid] at hbal
    show l.available.get grade + total _ (l.grants.erase id)
      + total _ (l.entries.insert l.freshObligation _) + l.consumed.get grade
      + l.delegated.get grade = l.capacity.get grade
    rw [hresv grade]
    omega
  · exact insert_new hl.entries_new (le_succ _) number_ne
  · exact entrySound_insert hl.entry ⟨fun _ => rfl, fun h => absurd rfl h⟩ _
  · show total _ (l.entries.insert l.freshObligation _) + _ = _
    rw [hcharged grade]
  · show total _ (l.grants.erase id) + total _ (l.entries.insert l.freshObligation _)
      + total _ (l.entries.insert l.freshObligation _) ≤ _
    rw [hresv grade, hcharged grade, inGrants_erase hid]
    omega

/-- What is done to one obligation: what it held goes to the pool or is charged to it. -/
theorem entry_moved {entry' : LedgerEntry} {id : ObligationId} (available consumed : ResourceVector)
    (hid : l.entries[id]? = some entry) (hentry : EntrySound entry')
    (havail : ∀ grade, available.get grade + entry'.reserved.get grade + entry'.charged.get grade
      = l.available.get grade + entry.reserved.get grade + entry.charged.get grade)
    (hconsumed : ∀ grade, entry'.charged.get grade + l.consumed.get grade
      = entry.charged.get grade + consumed.get grade)
    (hcharged : ∀ grade, entry.charged.get grade ≤ entry'.charged.get grade)
    (hless : ∀ grade, l.available.get grade ≤ available.get grade) : Moved l { l with
      available := available
      consumed := consumed
      entries := l.entries.insert id entry' } := by
  have hresv : ∀ grade, l.inObligations grade
      = entry.reserved.get grade + total (·.reserved.get grade) (l.entries.erase id) :=
    fun grade => total_erase (f := fun e : LedgerEntry => e.reserved.get grade) hid
  have hcharges : ∀ grade, l.charges grade
      = entry.charged.get grade + total (·.charged.get grade) (l.entries.erase id) :=
    fun grade => total_erase (f := fun e : LedgerEntry => e.charged.get grade) hid
  refine ⟨rfl, rfl, rfl, rfl, ⟨fun grade => ?_, hl.grants_new, ?_, ?_⟩, fun grade => ?_,
    fun grade => ?_, fun _ grade => ?_⟩
  · have hbal := hl.balanced grade
    have h1 := havail grade
    have h2 := hconsumed grade
    rw [hresv grade] at hbal
    show available.get grade + l.inGrants grade + total _ (l.entries.insert id entry')
      + consumed.get grade + l.delegated.get grade = l.capacity.get grade
    rw [total_insert]
    omega
  · exact insert_new hl.entries_new le_rfl (registered_ne hl.entries_new hid)
  · exact entrySound_insert hl.entry hentry id
  · have h2 := hconsumed grade
    show total _ (l.entries.insert id entry') + _ = _ + consumed.get grade
    rw [total_insert, hcharges grade]
    omega
  · show l.charges grade ≤ total _ (l.entries.insert id entry')
    rw [total_insert, hcharges grade]
    exact Nat.add_le_add_right (hcharged grade) _
  · have h1 := havail grade
    have h3 := hless grade
    show l.inGrants grade + total _ (l.entries.insert id entry')
      + total _ (l.entries.insert id entry') ≤ _
    rw [total_insert, total_insert, hresv grade, hcharges grade]
    omega

omit hl in
/-- A settlement that is not refused. -/
theorem settle_ok {id : ObligationId} {spent : ResourceVector}
    (h : l.settle id event spent = .ok l') :
    ∃ (entry : LedgerEntry) (next : ObligationState) (charged returned : ResourceVector),
      l.entries[id]? = some entry ∧ entry.state.apply event = .ok next ∧
      (∀ grade, charged.get grade + returned.get grade = entry.reserved.get grade) ∧
      l' = { (l.addConsumed charged).addAvailable returned with
        entries := ((l.addConsumed charged).addAvailable returned).entries.insert id
          ⟨next, .zero, charged⟩ } := by
  unfold settle at h
  split at h
  · cases h
  · next entry hid =>
    obtain ⟨next, hnext, h⟩ := bind_eq_ok.mp h
    split at h
    · cases h
    · obtain ⟨⟨taken, returned⟩, hsplit, h⟩ := bind_eq_ok.mp h
      cases h
      cases hparts : entry.reserved.split (spent.mask .consumable) with
      | error e =>
        rw [hparts] at hsplit
        cases hsplit
      | ok parts =>
        rw [hparts] at hsplit
        cases hsplit
        exact ⟨entry, next, _, returned, hid, hnext, (split_ok hparts).2, rfl⟩

/-- There is room for what an obligation holds. -/
theorem Sound.entry_fits {id : ObligationId} (hid : l.entries[id]? = some entry) (grade : Grade) :
    l.available.get grade + l.consumed.get grade + entry.reserved.get grade ≤ u64Max := by
  have hle := hl.le_u64Max grade
  have hheld : entry.reserved.get grade ≤ l.inObligations grade :=
    le_total (f := fun e : LedgerEntry => e.reserved.get grade) hid
  omega

theorem settle_moved {id : ObligationId} {spent : ResourceVector}
    (hevent : event = .commit ∨ event = .abort) (h : l.settle id event spent = .ok l') :
    Moved l l' ∧ l'.grants = l.grants := by
  obtain ⟨entry, next, charged, returned, hid, hnext, hsum, rfl⟩ := settle_ok h
  obtain ⟨hstate, hended⟩ := apply_settles hnext hevent
  have huncharged := (hl.entry id entry hid).1 hstate
  have hconsumed : ∀ grade, l.consumed.get grade + charged.get grade ≤ u64Max := fun grade => by
    have := hl.entry_fits hid grade
    have := hsum grade
    omega
  have havail : ∀ grade, l.available.get grade + returned.get grade ≤ u64Max := fun grade => by
    have := hl.entry_fits hid grade
    have := hsum grade
    omega
  rw [addConsumed_eq l charged hconsumed,
    addAvailable_eq { l with consumed := ⟨_, hconsumed⟩ } returned havail]
  refine ⟨entry_moved hl _ _ hid ⟨fun h => absurd h hended, fun _ => rfl⟩
    (fun grade => ?_) (fun grade => ?_) (fun grade => ?_) fun grade => ?_, rfl⟩
  all_goals
    have hsum := hsum grade
    simp only [huncharged, zero_get]
    omega

omit hl in
theorem mark_grants (l : Ledger) (id : ObligationId) (event : LifecycleEvent) :
    (l.mark id event).grants = l.grants := by
  unfold mark
  split
  · split <;> rfl
  · rfl

theorem mark_moved {phase : Phase} {after : Option Phase} (h : phase.advance event = some after)
    (id : ObligationId) : Moved l (l.mark id event) := by
  unfold mark
  split
  · next entry hid =>
    split
    · next next hnext =>
      obtain ⟨hstate, hstate'⟩ := Phase.advance_unreserved h hnext
      refine entry_moved hl l.available l.consumed hid
        ⟨fun h => absurd h hstate', fun _ => (hl.entry id entry hid).2 hstate⟩
        (fun _ => rfl) (fun _ => rfl) (fun _ => le_rfl) fun _ => le_rfl
    · exact .refl hl
  · exact .refl hl

/-! ### Leaks -/

theorem leakGrant_grants (hid : l.grants[id]? = some amount) (leakClass : LeakClass) :
    (l.recordLeak (.grant id) leakClass).grants = l.grants.erase id := by
  obtain ⟨total, -, heq⟩ := releaseGrant_eq hl hid
  show (l.releaseGrant id).grants = _
  rw [heq]

theorem leakGrant_moved (hid : l.grants[id]? = some amount) (leakClass : LeakClass) :
    Moved l (l.recordLeak (.grant id) leakClass) :=
  (releaseGrant_moved hl hid).noted _ _ _

/-- Taking back what an obligation holds. -/
theorem reclaim_moved {id : ObligationId} {state : ObligationState}
    (hid : l.entries[id]? = some entry) (hstate : state ≠ .reserved)
    (heq : l' = { l with entries := l.entries.insert id { entry with state, reserved := .zero } }) :
    Moved l (l'.addAvailable entry.reserved) ∧
      (l'.addAvailable entry.reserved).grants = l.grants := by
  have hfits : ∀ grade, l.available.get grade + entry.reserved.get grade ≤ u64Max := fun grade => by
    have := hl.entry_fits hid grade
    omega
  subst heq
  rw [addAvailable_eq { l with entries := l.entries.insert id _ } _ hfits]
  exact ⟨entry_moved hl _ _ hid ⟨fun h => absurd h hstate, fun _ => rfl⟩
    (fun _ => rfl) (fun _ => rfl) (fun _ => le_rfl) fun _ => le_add_right _ _, rfl⟩

theorem reclaimObligation_moved (id : ObligationId) :
    Moved l (l.reclaimObligation id).2 ∧ (l.reclaimObligation id).2.grants = l.grants := by
  unfold reclaimObligation
  split
  · next entry hid =>
    split
    · next next hnext => exact reclaim_moved hl hid (apply_leak hnext) rfl
    · next error herror =>
      obtain ⟨hmoved, hgrants⟩ := reclaim_moved hl hid (apply_leak_error herror) rfl
      exact ⟨hmoved.noted _ _ _, hgrants⟩
  · rw [addAvailable_eq l .zero l.available.fits]
    exact ⟨.refl hl, rfl⟩

theorem leakObligation_moved (id : ObligationId) (leakClass : LeakClass) :
    Moved l (l.recordLeak (.obligation id) leakClass) ∧
      (l.recordLeak (.obligation id) leakClass).grants = l.grants := by
  obtain ⟨hmoved, hgrants⟩ := reclaimObligation_moved hl id
  exact ⟨hmoved.noted _ _ _, hgrants⟩

end Ledger

end Frankengit.Resource
