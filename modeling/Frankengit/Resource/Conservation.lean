/-
Frankengit/Resource/Conservation.lean

The accounts of all ledgers (`fgit-resource`).

`Change` is what an operation can do to the ledgers: a ledger moves amounts
between its own accounts, a ledger is opened, from nothing or out of a grant of
another, a ledger is closed and its parent takes back what was not spent.
`Books` (every ledger is sound, and has delegated what its open children have)
is kept by every change.
-/
import Frankengit.Resource.Books

namespace Frankengit.Resource

open List Accounts ResourceVector

/-! ### Opening and closing -/

namespace Ledger

/-- An amount has been delegated. -/
structure Lent (l l' : Ledger) (amount : ResourceVector) : Prop where
  parent : l'.parent = l.parent
  capacity : l'.capacity = l.capacity
  closed : l'.closed = l.closed
  consumed : l'.consumed = l.consumed
  entries : l'.entries = l.entries
  delegated : ∀ grade, l'.delegated.get grade = l.delegated.get grade + amount.get grade
  sound : l'.Sound

/-- The accounts of a closed child have been adopted. -/
structure Adopted (l l' : Ledger) (given spent : ResourceVector) : Prop where
  parent : l'.parent = l.parent
  capacity : l'.capacity = l.capacity
  closed : l'.closed = l.closed
  grants : l'.grants = l.grants
  entries : l'.entries = l.entries
  consumed : ∀ grade, l'.consumed.get grade = l.consumed.get grade + spent.get grade
  delegated : ∀ grade, given.get grade + l'.delegated.get grade = l.delegated.get grade
  sound : l'.Sound

/-- The ledger has been closed. -/
structure Shut (l l' : Ledger) : Prop where
  parent : l'.parent = l.parent
  capacity : l'.capacity = l.capacity
  closed : l'.closed = true
  grants : l'.grants = l.grants
  entries : l'.entries = l.entries
  consumed : l'.consumed = l.consumed
  delegated : l'.delegated = l.delegated
  sound : l'.Sound

variable {l : Ledger} {id : GrantId} {amount : ResourceVector}

/-- A grant of the ledger is delegated. -/
theorem lent_of_registered (hl : l.Sound) (hid : l.grants[id]? = some amount) :
    Lent l ((l.retire id).2.addDelegated (l.retire id).1) (l.retire id).1 := by
  have hfits : ∀ grade, l.delegated.get grade + amount.get grade ≤ u64Max := fun grade => by
    have hle := hl.le_u64Max grade
    rw [inGrants_erase hid] at hle
    omega
  rw [retire_eq hid, addDelegated_eq { l with grants := l.grants.erase id } amount hfits]
  refine ⟨rfl, rfl, rfl, rfl, rfl, fun _ => rfl,
    ⟨fun grade => ?_, erase_new hl.grants_new id, hl.entries_new, hl.entry⟩⟩
  have hbal := hl.balanced grade
  rw [inGrants_erase hid] at hbal
  show l.available.get grade + BTree.total _ (l.grants.erase id) + l.inObligations grade
    + l.consumed.get grade + (l.delegated.get grade + amount.get grade) = l.capacity.get grade
  omega

/-- A number the ledger does not know is a fault, and delegates nothing. -/
theorem lent_of_unknown (hl : l.Sound) (hid : l.grants[id]? = none) :
    Lent l ((l.retire id).2.addDelegated (l.retire id).1) (l.retire id).1 := by
  rw [retire_none hid, addDelegated_eq l.noteFault .zero l.delegated.fits]
  exact ⟨rfl, rfl, rfl, rfl, rfl, fun _ => rfl,
    ⟨hl.balanced, hl.grants_new, hl.entries_new, hl.entry⟩⟩

theorem settleChild_adopted {capacity consumed : ResourceVector} (hl : l.Sound)
    (hcapacity : ∀ grade, capacity.get grade ≤ l.delegated.get grade)
    (hconsumed : ∀ grade, consumed.get grade ≤ capacity.get grade) :
    Adopted l (l.settleChild capacity consumed) capacity consumed := by
  obtain ⟨delegated, hdeleg, heq⟩ := dropDelegated_eq l capacity hcapacity
  obtain ⟨unspent, hunspent⟩ := exists_split hconsumed
  have hsplit := (split_ok hunspent).2
  have hroom : ∀ grade, l.consumed.get grade + consumed.get grade ≤ u64Max ∧
      l.available.get grade + unspent.get grade ≤ u64Max := fun grade => by
    have hle := hl.le_u64Max grade
    have h1 := hcapacity grade
    have h2 := hsplit grade
    omega
  rw [settleChild, heq, addConsumed_eq { l with delegated } consumed fun grade => (hroom grade).1,
    hunspent]
  dsimp only
  rw [addAvailable_eq { l with delegated, consumed := _ } unspent fun grade => (hroom grade).2]
  refine ⟨rfl, rfl, rfl, rfl, rfl, fun _ => rfl, hdeleg,
    ⟨fun grade => ?_, hl.grants_new, hl.entries_new, hl.entry⟩⟩
  have h1 := hl.balanced grade
  have h2 := hsplit grade
  have h3 := hdeleg grade
  show l.available.get grade + unspent.get grade + l.inGrants grade + l.inObligations grade
    + (l.consumed.get grade + consumed.get grade) + delegated.get grade = l.capacity.get grade
  omega

theorem closeState_shut (hl : l.Sound) : Shut l l.closeState.2 := by
  unfold closeState
  split <;> exact ⟨rfl, rfl, rfl, rfl, rfl, rfl, rfl,
    ⟨hl.balanced, hl.grants_new, hl.entries_new, hl.entry⟩⟩

end Ledger

/-! ### What can happen to the ledgers -/

/-- What an open child of the ledger at `i` has from it. -/
def heldBy (i : ℕ) (grade : Grade) (child : Ledger) : ℕ :=
  if child.parent = some i ∧ child.closed = false then child.capacity.get grade else 0

/-- What the open children of the ledger at `i` have from it. -/
def lent (ledgers : List Ledger) (i : ℕ) (grade : Grade) : ℕ := (ledgers.map (heldBy i grade)).sum

/-- Every ledger is sound, and opened after its parent. -/
structure Orderly (ledgers : List Ledger) : Prop where
  sound : ∀ (i : ℕ) (l : Ledger), ledgers[i]? = some l → l.Sound
  parents : ∀ (i : ℕ) (l : Ledger) (p : ℕ), ledgers[i]? = some l → l.parent = some p → p < i

structure Books (ledgers : List Ledger) : Prop extends Orderly ledgers where
  delegated : ∀ (i : ℕ) (l : Ledger), ledgers[i]? = some l →
    ∀ grade, l.delegated.get grade = lent ledgers i grade

/-- A change of the ledgers; `ok` is what is known of a ledger with a parent that is closed, and
`grow` whether ledgers without a parent may be opened. -/
inductive Change (ok : Ledger → Prop) (grow : Prop) : List Ledger → List Ledger → Prop
  | same (ls : List Ledger) : Change ok grow ls ls
  | moved {ls : List Ledger} {i : ℕ} {l l' : Ledger} (hi : ls[i]? = some l) (h : l.Moved l') :
      Change ok grow ls (ls.set i l')
  | root (ls : List Ledger) (region : RegionId) (capacity : ResourceVector) (hgrow : grow) :
      Change ok grow ls (ls ++ [.fresh none region capacity])
  | child {ls : List Ledger} {i : ℕ} {l l' : Ledger} {amount : ResourceVector} (region : RegionId)
      (hi : ls[i]? = some l) (hopen : l.closed = false) (h : l.Lent l' amount) :
      Change ok grow ls (ls.set i l' ++ [.fresh (some i) region amount])
  | closeRoot {ls : List Ledger} {i : ℕ} {l l' : Ledger} (hi : ls[i]? = some l)
      (hopen : l.closed = false) (hroot : l.parent = none) (h : l.Shut l') :
      Change ok grow ls (ls.set i l')
  | closeChild {ls : List Ledger} {i p : ℕ} {l l' q q' : Ledger} (hi : ls[i]? = some l)
      (hopen : l.closed = false) (hpar : l.parent = some p) (hp : ls[p]? = some q)
      (hok : ok l) (h : l.Shut l') (hq : q.Adopted q' l.capacity l.consumed) :
      Change ok grow ls ((ls.set i l').set p q')
  | trans {ls ls' ls'' : List Ledger} (h : Change ok grow ls ls') (h' : Change ok grow ls' ls'') :
      Change ok grow ls ls''

section Books

variable {ls : List Ledger} {i : ℕ} {l l' : Ledger}

/-- Replacing a ledger by one its parent sees as the same. -/
theorem lent_set (hi : ls[i]? = some l) {j : ℕ} {grade : Grade}
    (h : heldBy j grade l' = heldBy j grade l) : lent (ls.set i l') j grade = lent ls j grade := by
  have hsum := sum_map_set (y := l') (heldBy j grade) hi
  rw [h] at hsum
  exact Nat.add_right_cancel hsum

theorem heldBy_congr (hpar : l'.parent = l.parent) (hcapacity : l'.capacity = l.capacity)
    (hclosed : l'.closed = l.closed) (j : ℕ) (grade : Grade) :
    heldBy j grade l' = heldBy j grade l := by
  unfold heldBy
  rw [hpar, hcapacity, hclosed]

theorem lent_append (ls : List Ledger) (l : Ledger) (j : ℕ) (grade : Grade) :
    lent (ls ++ [l]) j grade = lent ls j grade + heldBy j grade l := by
  simp [lent]

theorem Orderly.set (hb : Orderly ls) (hi : ls[i]? = some l) (hpar : l'.parent = l.parent)
    (hsound : l'.Sound) : Orderly (ls.set i l') := by
  refine ⟨fun j m hj => ?_, fun j m p hj hp => ?_⟩
  · rcases set_cases hj with ⟨-, rfl⟩ | ⟨-, hj⟩
    · exact hsound
    · exact hb.sound j m hj
  · rcases set_cases hj with ⟨rfl, rfl⟩ | ⟨-, hj⟩
    · exact hb.parents j l p hi (hpar ▸ hp)
    · exact hb.parents j m p hj hp

/-- No ledger has a parent past the end. -/
theorem Orderly.lent_length (hb : Orderly ls) (grade : Grade) : lent ls ls.length grade = 0 := by
  refine sum_eq_zero (forall_mem_map.mpr fun c hc => ?_)
  obtain ⟨j, hj⟩ := mem_iff_getElem?.mp hc
  have hlt : j < ls.length := (List.getElem?_eq_some_iff.mp hj).1
  unfold heldBy
  rw [if_neg]
  rintro ⟨hpar, -⟩
  exact absurd (hb.parents j c _ hj hpar) (by omega)

/-- A new ledger, which has delegated nothing. -/
theorem Orderly.append {m : Ledger} (hb : Orderly ls) (hm : m.Sound) (hzero : m.delegated = .zero)
    (hpar : ∀ p, m.parent = some p → p < ls.length)
    (hlent : ∀ (i : ℕ) (l : Ledger), ls[i]? = some l →
      ∀ grade, l.delegated.get grade = lent ls i grade + heldBy i grade m) : Books (ls ++ [m]) := by
  have hcases : ∀ (j : ℕ) (c : Ledger), (ls ++ [m])[j]? = some c →
      ls[j]? = some c ∨ j = ls.length ∧ c = m := by
    intro j c hj
    rw [getElem?_append] at hj
    split at hj
    · exact .inl hj
    · next hge =>
      obtain ⟨hlt, hget⟩ := List.getElem?_eq_some_iff.mp hj
      rw [getElem_singleton] at hget
      rw [length_singleton] at hlt
      exact .inr ⟨by omega, hget.symm⟩
  refine ⟨⟨fun j c hj => ?_, fun j c p hj hp => ?_⟩, fun j c hj grade => ?_⟩
  · rcases hcases j c hj with h | ⟨-, rfl⟩
    · exact hb.sound j c h
    · exact hm
  · rcases hcases j c hj with h | ⟨rfl, rfl⟩
    · exact hb.parents j c p h hp
    · exact hpar p hp
  · rw [lent_append]
    rcases hcases j c hj with h | ⟨rfl, rfl⟩
    · exact hlent j c h grade
    · have hself : heldBy ls.length grade c = 0 := by
        unfold heldBy
        rw [if_neg]
        rintro ⟨hself, -⟩
        exact absurd (hpar _ hself) (lt_irrefl _)
      rw [hb.lent_length grade, hzero, hself]
      rfl

variable (hb : Books ls)
include hb

/-- A ledger that is for its parent what it was, and has delegated what it had. -/
theorem Books.set (hi : ls[i]? = some l) (hpar : l'.parent = l.parent)
    (hdeleg : l'.delegated = l.delegated) (hsound : l'.Sound)
    (hheld : ∀ j grade, heldBy j grade l' = heldBy j grade l) : Books (ls.set i l') := by
  refine ⟨hb.toOrderly.set hi hpar hsound, fun j m hj grade => ?_⟩
  rw [lent_set hi (hheld j grade)]
  rcases set_cases hj with ⟨rfl, rfl⟩ | ⟨-, hj⟩
  · rw [hdeleg]
    exact hb.delegated j l hi grade
  · exact hb.delegated j m hj grade

theorem Books.child (hi : ls[i]? = some l) {amount : ResourceVector}
    (h : l.Lent l' amount) (region : RegionId) :
    Books (ls.set i l' ++ [.fresh (some i) region amount]) := by
  refine (hb.toOrderly.set hi h.parent h.sound).append (Ledger.Sound.fresh _ _ _) rfl ?_
    fun j m hj grade => ?_
  · rintro p ⟨⟩
    rw [length_set]
    exact (List.getElem?_eq_some_iff.mp hi).1
  · rw [lent_set hi (heldBy_congr h.parent h.capacity h.closed j grade)]
    rcases set_cases hj with ⟨rfl, rfl⟩ | ⟨hne, hj⟩
    · rw [h.delegated grade, hb.delegated j l hi grade]
      unfold heldBy
      rw [if_pos ⟨rfl, rfl⟩]
      rfl
    · rw [hb.delegated j m hj grade]
      unfold heldBy
      rw [if_neg fun hself => hne (Option.some.inj hself.1).symm]
      rfl

/-- What a ledger has delegated covers an open child. -/
theorem Books.capacity_le {p : ℕ} {q : Ledger} (hi : ls[i]? = some l)
    (hopen : l.closed = false) (hpar : l.parent = some p) (hp : ls[p]? = some q) (grade : Grade) :
    l.capacity.get grade ≤ q.delegated.get grade := by
  rw [hb.delegated p q hp grade]
  refine single_le_sum (fun _ _ => Nat.zero_le _) _ (mem_map.mpr ⟨l, ?_, ?_⟩)
  · exact mem_of_getElem? hi
  · unfold heldBy
    rw [if_pos ⟨hpar, hopen⟩]

theorem Books.closeChild {p : ℕ} {q q' : Ledger} (hi : ls[i]? = some l)
    (hopen : l.closed = false) (hpar : l.parent = some p) (hp : ls[p]? = some q)
    (h : l.Shut l') (hq : q.Adopted q' l.capacity l.consumed) : Books ((ls.set i l').set p q') := by
  have hpi : p ≠ i := (hb.parents i l p hi hpar).ne
  have hp' : (ls.set i l')[p]? = some q := by rw [getElem?_set_ne hpi.symm, hp]
  -- only the parent sees the close
  have hclosed : ∀ j grade, lent (ls.set i l') j grade + heldBy j grade l = lent ls j grade := by
    intro j grade
    have hsum := sum_map_set (y := l') (heldBy j grade) hi
    have hzero : heldBy j grade l' = 0 := by
      unfold heldBy
      rw [h.closed, if_neg fun hself => nomatch hself.2]
    rw [hzero] at hsum
    exact hsum
  refine ⟨(hb.toOrderly.set hi h.parent h.sound).set hp' hq.parent hq.sound, fun j m hj grade => ?_⟩
  rw [lent_set hp' (heldBy_congr hq.parent hq.capacity hq.closed j grade)]
  have hlent := hclosed j grade
  rcases set_cases hj with ⟨rfl, rfl⟩ | ⟨hjp, hj⟩
  · have hheld : heldBy j grade l = l.capacity.get grade := by
      unfold heldBy
      rw [if_pos ⟨hpar, hopen⟩]
    have h1 := hq.delegated grade
    have h2 := hb.delegated j q hp grade
    omega
  · have hheld : heldBy j grade l = 0 := by
      unfold heldBy
      rw [hpar, if_neg fun hself => hjp (Option.some.inj hself.1).symm]
    rw [hheld, Nat.add_zero] at hlent
    rw [hlent]
    rcases set_cases hj with ⟨rfl, rfl⟩ | ⟨-, hj⟩
    · rw [h.delegated]
      exact hb.delegated j l hi grade
    · exact hb.delegated j m hj grade

theorem Books.change {ok : Ledger → Prop} {grow : Prop} {ls' : List Ledger}
    (h : Change ok grow ls ls') :
    Books ls' := by
  induction h with
  | same ls => exact hb
  | moved hi h =>
    exact hb.set hi h.parent h.delegated h.sound (heldBy_congr h.parent h.capacity h.closed)
  | root ls region capacity _ =>
    refine hb.toOrderly.append (Ledger.Sound.fresh _ _ _) rfl nofun fun i l hi grade => ?_
    rw [hb.delegated i l hi grade]
    rfl
  | child region hi _ h => exact hb.child hi h region
  | closeRoot hi _ hroot h =>
    refine hb.set hi h.parent h.delegated h.sound fun j grade => ?_
    unfold heldBy
    rw [h.parent, hroot, if_neg nofun, if_neg nofun]
  | closeChild hi hopen hpar hp _ h hq => exact hb.closeChild hi hopen hpar hp h hq
  | trans _ _ ih ih' => exact ih' (ih hb)

end Books

end Frankengit.Resource
