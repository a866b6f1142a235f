/-
Frankengit/Resource/Operations.lean

Every operation on regions is a `Change` of their ledgers, as long as the values
the program holds agree with the ledgers (`World.Kept`): a grant is registered
with its amount, a ledger is open, and nothing is held twice.

Absorbing a grant of another ledger breaks this agreement without a fault:
`World.absorb` writes the sum into the ledger of the absorbed grant.  So may a
child funded by another ledger's grant, when the two ledgers have given out the
same number.  `World.proper` rules out these two, and along every proper run
every ledger adds up to its capacity.
-/
import Frankengit.Resource.Conservation
import Frankengit.Lib.Run
import Frankengit.Lib.Tokens

namespace Frankengit.Resource

open List Option Function World Ledger Tokens Resource BTree

namespace Value

/-- The grant a value is. -/
def token : Value → Option ((ℕ × GrantId) × ResourceVector)
  | .grant g => some ((g.ledger, g.id), g.amount)
  | _ => none

/-- The ledger a value is. -/
def region : Value → Option (ℕ × Unit)
  | .ledger index => some (index, ())
  | _ => none

end Value

section Registry

variable (ls : List Ledger) (values : ℕ → Option Value)

/-- The grants the ledgers know. -/
def registry (key : ℕ × GrantId) : Option ResourceVector :=
  ls[key.1]?.bind fun l => l.grants[key.2]?

/-- The ledgers that are open. -/
def opened (index : ℕ) : Option Unit := ls[index]?.bind fun l => if l.closed then none else some ()

def owned (handle : ℕ) : Option ((ℕ × GrantId) × ResourceVector) := (values handle).bind Value.token

def regions (handle : ℕ) : Option (ℕ × Unit) := (values handle).bind Value.region

variable {ls values} {i : ℕ} {l l' : Ledger}

theorem owned_update (h : ℕ) (v : Option Value) :
    owned (update values h v) = update (owned values) h (v.bind Value.token) :=
  comp_update (fun v : Option Value => v.bind Value.token) values h v

theorem regions_update (h : ℕ) (v : Option Value) :
    regions (update values h v) = update (regions values) h (v.bind Value.region) :=
  comp_update (fun v : Option Value => v.bind Value.region) values h v

section

variable (hi : ls[i]? = some l)
include hi

theorem getElem?_set_self' : (ls.set i l')[i]? = some l' :=
  getElem?_set_self (List.getElem?_eq_some_iff.mp hi).1

theorem registry_self (id : GrantId) : registry (ls.set i l') (i, id) = l'.grants[id]? := by
  show (ls.set i l')[i]?.bind _ = _
  rw [getElem?_set_self' hi]
  rfl

theorem registry_of (id : GrantId) : registry ls (i, id) = l.grants[id]? := by
  show ls[i]?.bind _ = _
  rw [hi]
  rfl

/-- The registry changes where the ledger's grants do. -/
theorem registry_set {key : ℕ × GrantId} (h : key.1 = i → l'.grants[key.2]? = l.grants[key.2]?) :
    registry (ls.set i l') key = registry ls key := by
  obtain ⟨j, id⟩ := key
  by_cases hj : j = i
  · subst hj
    rw [registry_self hi, registry_of hi, h rfl]
  · show (ls.set i l')[j]?.bind _ = ls[j]?.bind _
    rw [getElem?_set_ne (Ne.symm hj)]

theorem registry_same (h : l'.grants = l.grants) : registry (ls.set i l') = registry ls :=
  funext fun _ => registry_set hi fun _ => by rw [h]

theorem registry_insert {id : GrantId} {v : ResourceVector} (h : l'.grants = l.grants.insert id v) :
    registry (ls.set i l') = update (registry ls) (i, id) (some v) := by
  funext key
  by_cases hkey : key = (i, id)
  · rw [hkey, update_self, registry_self hi, h, get_insert, if_pos rfl]
  · rw [update_of_ne hkey]
    refine registry_set hi fun heq => ?_
    rw [h, get_insert, if_neg fun hid => hkey (Prod.ext heq hid.symm)]

theorem registry_erase {id : GrantId} (h : l'.grants = l.grants.erase id) :
    registry (ls.set i l') = update (registry ls) (i, id) none := by
  funext key
  by_cases hkey : key = (i, id)
  · rw [hkey, update_self, registry_self hi, h, get_erase, if_pos rfl]
  · rw [update_of_ne hkey]
    refine registry_set hi fun heq => ?_
    rw [h, get_erase, if_neg fun hid => hkey (Prod.ext heq hid.symm)]

theorem opened_set (hclosed : l'.closed = l.closed) : opened (ls.set i l') = opened ls := by
  funext j
  by_cases hj : j = i
  · subst hj
    show (ls.set j l')[j]?.bind _ = ls[j]?.bind _
    rw [getElem?_set_self' hi, hi]
    show (if l'.closed = true then none else some ()) = if l.closed = true then none else some ()
    rw [hclosed]
  · show (ls.set i l')[j]?.bind _ = ls[j]?.bind _
    rw [getElem?_set_ne (Ne.symm hj)]

end

end Registry

namespace World

/-- The ledgers that are held are the open ones, each once. -/
structure Keyed (w : World) : Prop where
  regions : Tracked (opened w.ledgers) (regions w.values)
  blank : ∀ h, w.size ≤ h → w.values h = none

/-- The values that are held and the ledgers agree. -/
structure Kept (w : World) : Prop extends Keyed w where
  grants : Tracked (registry w.ledgers) (owned w.values)

structure Inv (w : World) : Prop where
  books : Books w.ledgers
  kept : w.Kept

/-- A step that is a change of the ledgers and leaves the values in agreement. -/
structure Advance (ok : Ledger → Prop) (grow : Prop) (w w' : World) : Prop where
  change : Change ok grow w.ledgers w'.ledgers
  kept : w'.Kept

variable {ok : Ledger → Prop} {grow : Prop} {w w' w'' : World} {h i : ℕ} {l l' : Ledger}
  {g : BudgetGrant}
  {o : Obligation}

theorem Inv.advance (hw : w.Inv) (h : Advance ok grow w w') : w'.Inv :=
  ⟨hw.books.change h.change, h.kept⟩

theorem Advance.refl (hw : w.Inv) : Advance ok grow w w := ⟨.same _, hw.kept⟩

theorem Advance.trans (h : Advance ok grow w w') (h' : Advance ok grow w' w'') :
    Advance ok grow w w'' :=
  ⟨h.change.trans h'.change, h'.kept⟩

theorem Inv.empty : empty.Inv where
  books := ⟨⟨nofun, nofun⟩, nofun⟩
  kept := ⟨⟨⟨nofun, nofun⟩, fun _ _ => rfl⟩, ⟨nofun, nofun⟩⟩

theorem grantAt_eq : w.grantAt h = some g ↔ w.values h = some (.grant g) := by
  unfold grantAt
  split <;> simp_all

theorem ledgerAt_eq : w.ledgerAt h = some i ↔ w.values h = some (.ledger i) := by
  unfold ledgerAt
  split <;> simp_all

theorem obligationAt_eq : w.obligationAt h = some o ↔ w.values h = some (.obligation o) := by
  unfold obligationAt
  split <;> simp_all

theorem onLedger_eq (hi : w.ledgers[i]? = some l) (action : Ledger → Ledger) :
    w.onLedger i action = { w with ledgers := w.ledgers.set i (action l) } := by
  rw [onLedger, modify_eq_set_getElem?, hi]
  rfl

theorem put_onLedger_eq (hi : w.ledgers[i]? = some l) (h : ℕ) (v : Option Value)
    (action : Ledger → Ledger) : (w.put h v).onLedger i action =
      { w with ledgers := w.ledgers.set i (action l), values := update w.values h v } :=
  onLedger_eq (w := w.put h v) hi action

theorem onLedger_none (hi : w.ledgers[i]? = none) (action : Ledger → Ledger) :
    w.onLedger i action = w := by
  rw [onLedger, modify_eq_set_getElem?, hi]
  rfl

/-! ### What is held -/

theorem owned_of_grant (hheld : w.values h = some (.grant g)) :
    owned w.values h = some ((g.ledger, g.id), g.amount) := by
  rw [owned, hheld]
  rfl

/-- A grant that is held is registered with its amount. -/
theorem Kept.registered (hk : w.Kept) (hheld : w.values h = some (.grant g)) :
    ∃ l, w.ledgers[g.ledger]? = some l ∧ l.grants[g.id]? = some g.amount :=
  bind_eq_some_iff.mp (hk.grants.registered _ _ _ (owned_of_grant hheld))

/-- A ledger that is held is open. -/
theorem Kept.isOpen (hk : w.Kept) (hheld : w.values h = some (.ledger i)) :
    ∃ l, w.ledgers[i]? = some l ∧ l.closed = false := by
  have hopened := hk.regions.registered h i () (by rw [regions, hheld]; rfl)
  obtain ⟨l, hl, hclosed⟩ := bind_eq_some_iff.mp hopened
  exact ⟨l, hl, by simpa using hclosed⟩

theorem Keyed.lt_size (hk : w.Keyed) {v : Value} (hheld : w.values h = some v) : h < w.size := by
  by_contra hge
  rw [hk.blank h (not_lt.mp hge)] at hheld
  cases hheld

variable {ls : List Ledger} {v : Option Value}

theorem Keyed.blank_update (hk : w.Keyed) (h' : ℕ) (hlt : h < h') (hle : w.size ≤ h') :
    update w.values h v h' = none := by
  rw [update_of_ne hlt.ne']
  exact hk.blank h' hle

/-- A value is replaced by one that is no ledger, while no ledger is opened or closed. -/
theorem Keyed.put (hk : w.Keyed) (hlt : h < w.size) (hv : v.bind Value.region = none)
    (hopened : opened ls = opened w.ledgers) :
    Keyed { w with ledgers := ls, values := update w.values h v } := by
  refine ⟨?_, fun h' hle => ?_⟩
  · show Tracked (opened ls) (Resource.regions (update _ _ _))
    rw [regions_update, hv, hopened]
    exact hk.regions.discard h
  · exact hk.blank_update h' (hlt.trans_le hle) hle

/-- A value that is no ledger is added. -/
theorem Keyed.hold (hk : w.Keyed) {v : Value} (hv : v.region = none)
    (hopened : opened ls = opened w.ledgers) : (hold { w with ledgers := ls } v).Keyed := by
  refine ⟨?_, fun h' hle => ?_⟩
  · show Tracked (opened ls) (Resource.regions (update _ _ _))
    rw [regions_update, hopened]
    show Tracked _ (update _ _ v.region)
    rw [hv]
    exact hk.regions.discard _
  · exact hk.blank_update h' hle (Nat.le_of_succ_le hle)

/-- A grant is used up: its ledger may say anything about its number. -/
theorem Kept.consume (hk : w.Kept) (hheld : w.values h = some (.grant g))
    (hl : w.ledgers[g.ledger]? = some l) (hclosed : l'.closed = l.closed)
    (hgrants : l'.grants = l.grants.erase g.id) :
    Kept { w with ledgers := w.ledgers.set g.ledger l', values := update w.values h none } := by
  refine ⟨hk.toKeyed.put (hk.lt_size hheld) rfl (opened_set hl hclosed), ?_⟩
  rw [owned_update, registry_erase hl hgrants]
  exact hk.grants.consume (owned_of_grant hheld)

/-- What is no grant is replaced by what is none, and the grants are as they were. -/
theorem Kept.replace (hk : w.Kept) (hlt : h < w.size) (hv : v.bind Value.region = none)
    (hv' : v.bind Value.token = none) (hopened : opened ls = opened w.ledgers)
    (hgrants : registry ls = registry w.ledgers) :
    Kept { w with ledgers := ls, values := update w.values h v } := by
  refine ⟨hk.toKeyed.put hlt hv hopened, ?_⟩
  rw [owned_update, hv', hgrants]
  exact hk.grants.discard h

/-- A value is thrown away. -/
theorem Kept.discard (hk : w.Kept) (h : ℕ) : (w.put h none).Kept := by
  refine ⟨⟨?_, fun h' hle => ?_⟩, ?_⟩
  · show Tracked _ (regions (update _ _ _))
    rw [regions_update]
    exact hk.regions.discard h
  · show update w.values h none h' = none
    rw [update_apply]
    split
    · rfl
    · exact hk.blank h' hle
  · show Tracked _ (owned (update _ _ _))
    rw [owned_update]
    exact hk.grants.discard h

/-! ### Grants -/

section

variable (hw : w.Inv)
include hw

theorem Inv.grant (hheld : w.values h = some (.ledger i)) (amount : ResourceVector) :
    Advance ok grow w (w.grant i amount).1 := by
  obtain ⟨l, hl, hopen⟩ := hw.kept.isOpen hheld
  have hsound := hw.books.sound i l hl
  rw [World.grant, hl]
  dsimp only
  split
  · next l' hcarve =>
    have hmoved := carve_moved hsound hopen hcarve
    obtain ⟨rest, -, heq⟩ := carve_ok hcarve
    rw [onLedger_eq hl]
    refine ⟨.moved hl hmoved, hw.kept.toKeyed.hold rfl (opened_set hl hmoved.closed), ?_⟩
    show Tracked (registry (w.ledgers.set i l')) (owned (update _ _ _))
    have hgrants : l'.grants = l.grants.insert l.freshGrant amount := by rw [heq]
    rw [owned_update, registry_insert hl hgrants]
    refine hw.kept.grants.issue ?_ _ _
    rw [registry_of hl]
    exact hsound.freshGrant_new
  · exact .refl hw

theorem Inv.splitOff (hheld : w.values h = some (.grant g)) (part : ResourceVector) :
    Advance ok grow w (w.splitOff h g part).1 := by
  obtain ⟨l, hl, hid⟩ := hw.kept.registered hheld
  have hsound := hw.books.sound _ l hl
  cases hsplit : g.amount.split part with
  | error e =>
    rw [World.splitOff, hsplit]
    exact .refl hw
  | ok parts =>
    obtain ⟨taken, rest⟩ := parts
    obtain ⟨rfl, hsum⟩ := ResourceVector.split_ok hsplit
    have hmoved := divideGrant_moved hsound hid hsum
    have hne : (g.ledger, l.freshGrant) ≠ (g.ledger, g.id) := fun heq => by
      have hfresh : l.freshGrant = g.id := (Prod.ext_iff.mp heq).2
      rw [← hfresh, hsound.freshGrant_new] at hid
      cases hid
    rw [World.splitOff, hsplit, hl]
    dsimp only
    rw [onLedger_eq hl]
    refine ⟨.moved hl hmoved, (hw.kept.toKeyed.put (v := some (.grant { g with amount := rest }))
      (hw.kept.lt_size hheld) rfl (opened_set hl hmoved.closed)).hold rfl rfl, ?_⟩
    show Tracked (registry (w.ledgers.set g.ledger _)) (owned (update (update _ _ _) _ _))
    -- the grant is rewritten first, then the new one is issued
    have hrest := hw.kept.grants.revalue (owned_of_grant hheld) rest
    rw [← set_set { l with grants := l.grants.insert g.id rest },
      registry_insert (getElem?_set_self' hl)
        (rfl : _ = Std.ExtTreeMap.insert _ l.freshGrant taken),
      registry_insert hl (rfl : _ = Std.ExtTreeMap.insert _ g.id rest), owned_update, owned_update]
    refine hrest.issue ?_ _ _
    rw [update_of_ne hne, registry_of hl]
    exact hsound.freshGrant_new

theorem Inv.release (hheld : w.values h = some (.grant g)) : Advance ok grow w (w.release h g) := by
  obtain ⟨l, hl, hid⟩ := hw.kept.registered hheld
  have hsound := hw.books.sound _ l hl
  have hmoved := releaseGrant_moved hsound hid
  obtain ⟨total, -, heq⟩ := releaseGrant_eq hsound hid
  rw [World.release, put_onLedger_eq hl]
  exact ⟨.moved hl hmoved, hw.kept.consume hheld hl hmoved.closed (by rw [heq])⟩

/-- Two grants of one ledger become one. -/
theorem Inv.absorb {target source : ℕ} {other : BudgetGrant} (hne : target ≠ source)
    (htgt : w.values target = some (.grant g)) (hsrc : w.values source = some (.grant other))
    (hsame : g.ledger = other.ledger) : Advance ok grow w (w.absorb target source g other).1 := by
  unfold World.absorb
  split
  · next total htotal =>
    obtain ⟨l, hl, hid⟩ := hw.kept.registered hsrc
    obtain ⟨l₁, hl₁, hid₁⟩ := hw.kept.registered htgt
    rw [hsame, hl] at hl₁
    cases hl₁
    have hsound := hw.books.sound _ l hl
    have hids : g.id ≠ other.id := fun heq => by
      have hkey : (g.ledger, g.id) = (other.ledger, other.id) := Prod.ext hsame heq
      exact hne (hw.kept.grants.apart _ _ _ _ _ (owned_of_grant htgt) (hkey ▸ owned_of_grant hsrc))
    have hmoved := absorbGrant_moved hsound hids hid₁ hid (ResourceVector.combine_ok htotal)
    rw [put_onLedger_eq hl]
    refine ⟨.moved hl hmoved, (hw.kept.toKeyed.put (v := none) (hw.kept.lt_size hsrc) rfl
      (opened_set hl hmoved.closed)).put (v := some (.grant { g with amount := total }))
      (hw.kept.lt_size htgt) rfl rfl, ?_⟩
    show Tracked (registry (w.ledgers.set other.ledger _)) (owned (update (update _ _ _) _ _))
    have hgone := hw.kept.grants.consume (x := none) (owned_of_grant hsrc)
    rw [absorbGrant_eq hid, ← set_set { l with grants := l.grants.erase other.id },
      registry_insert (getElem?_set_self' hl) (rfl : _ = Std.ExtTreeMap.insert _ g.id total),
      registry_erase hl (rfl : _ = Std.ExtTreeMap.erase _ other.id), owned_update,
        owned_update, ← hsame]
    refine (hsame ▸ hgone).revalue (v := g.amount) ?_ total
    rw [update_of_ne hne]
    exact owned_of_grant htgt
  · exact hw.release hsrc

/-! ### Obligations -/

theorem Inv.reserve (hledger : w.values i = some (.ledger j)) (required : List Grade)
    (hheld : w.values h = some (.grant g)) : Advance ok grow w (w.reserve j required h g).1 := by
  obtain ⟨self, hself, -⟩ := hw.kept.isOpen hledger
  obtain ⟨l, hl, hid⟩ := hw.kept.registered hheld
  have hsound := hw.books.sound _ l hl
  rw [World.reserve, hself, hl]
  dsimp only
  split
  · exact hw.release hheld
  · split
    · exact hw.release hheld
    · have hmoved := reserveGrant_moved hsound hid
      rw [put_onLedger_eq hl]
      have hkept := hw.kept.consume hheld hl hmoved.closed (by rw [reserveGrant, retire_eq hid])
      refine ⟨.moved hl hmoved, hkept.toKeyed.hold rfl rfl, ?_⟩
      show Tracked _ (owned (update _ _ _))
      rw [owned_update]
      exact hkept.grants.discard _

theorem Inv.settle (hheld : w.values h = some (.obligation o)) {event : LifecycleEvent}
    (hevent : event = .commit ∨ event = .abort) (spent : ResourceVector) (after : Option Phase) :
    Advance ok grow w (w.settle h o event spent after).1 := by
  unfold World.settle
  split
  · exact .refl hw
  · next l hl =>
    split
    · next l' hsettle =>
      obtain ⟨hmoved, hgrants⟩ := settle_moved (hw.books.sound _ l hl) hevent hsettle
      rw [onLedger_eq hl]
      refine ⟨.moved hl hmoved, hw.kept.replace (hw.kept.lt_size hheld) ?_ ?_
        (opened_set hl hmoved.closed) (registry_same hl hgrants)⟩
      · cases after <;> rfl
      · cases after <;> rfl
    · exact .refl hw

omit hw in
theorem settle_size (event : LifecycleEvent) (spent : ResourceVector) (after : Option Phase) :
    (w.settle h o event spent after).1.size = w.size := by
  unfold settle
  split
  · rfl
  · split <;> rfl

theorem Inv.advancePhase (hlt : h < w.size) (o : Obligation) (event : LifecycleEvent) :
    Advance ok grow w (w.advance h o event) := by
  unfold World.advance
  split
  · exact .refl hw
  · next after hafter =>
    have hregion : (after.map fun phase => .obligation { o with phase }).bind Value.region
        = none := by
      cases after <;> rfl
    have htoken : (after.map fun phase => .obligation { o with phase }).bind Value.token
        = none := by
      cases after <;> rfl
    cases hl : w.ledgers[o.ledger]? with
    | none =>
      rw [onLedger_none hl]
      exact ⟨.same _, hw.kept.replace hlt hregion htoken rfl rfl⟩
    | some l =>
      have hmoved := mark_moved (hw.books.sound _ l hl) hafter o.id
      rw [onLedger_eq hl]
      exact ⟨.moved hl hmoved, hw.kept.replace hlt hregion htoken (opened_set hl hmoved.closed)
        (registry_same hl (mark_grants l o.id event))⟩

theorem Inv.abortUnused (hheld : w.values h = some (.obligation o)) :
    Advance ok grow w (w.abortUnused h o) := by
  have hsettle : Advance ok grow w _ := hw.settle hheld (.inr rfl) .zero none
  exact ⟨hsettle.change, hsettle.kept.discard h⟩

theorem Inv.commitInternal (hheld : w.values h = some (.obligation o))
    (actual : ResourceVector) : Advance ok grow w (w.commitInternal h o actual).1 := by
  have hsettle : Advance ok grow w _ := hw.settle hheld (.inl rfl) actual (some .committed)
  have hsize := settle_size (w := w) (h := h) (o := o) .commit actual (some .committed)
  unfold World.commitInternal
  split
  · next w' heq =>
    rw [heq] at hsettle hsize
    have hlt : h < w'.size := hsize ▸ hw.kept.lt_size hheld
    have hcommit : Advance ok grow w w' := hsettle
    exact hcommit.trans
      ((hw.advance hcommit).advancePhase hlt { o with phase := .committed } .acknowledge)
  · exact hsettle

theorem Inv.dropObligation (hheld : w.values h = some (.obligation o))
    (leakClass : LeakClass) : Advance ok grow w
      ((w.put h none).onLedger o.ledger (·.recordLeak (.obligation o.id) leakClass)) := by
  cases hl : w.ledgers[o.ledger]? with
  | none =>
    have hl' : (w.put h none).ledgers[o.ledger]? = none := hl
    rw [onLedger_none hl']
    exact ⟨.same _, hw.kept.discard h⟩
  | some l =>
    obtain ⟨hmoved, hgrants⟩ := leakObligation_moved (hw.books.sound _ l hl) o.id leakClass
    rw [put_onLedger_eq hl]
    exact ⟨.moved hl hmoved, hw.kept.replace (hw.kept.lt_size hheld) rfl rfl
      (opened_set hl hmoved.closed) (registry_same hl hgrants)⟩

/-! ### Regions -/

theorem Inv.drop (h : ℕ) : Advance ok grow w (w.drop h) := by
  unfold World.drop
  split
  · exact .refl hw
  · next value hheld =>
    cases value with
    | ledger index =>
      obtain ⟨l, hl, -⟩ := hw.kept.isOpen hheld
      have hmoved := (Ledger.Moved.refl (hw.books.sound _ l hl)).noted l.accountingFaults
        (l.leakOrdinal + 1) (l.leaks ++
          [⟨.region l.region, .ledgerDroppedWithoutClose, .zero, l.leakOrdinal + 1⟩])
      dsimp only
      rw [put_onLedger_eq hl]
      exact ⟨.moved hl hmoved, hw.kept.replace (hw.kept.lt_size hheld) rfl rfl
        (opened_set hl rfl) (registry_same hl rfl)⟩
    | grant g =>
      obtain ⟨l, hl, hid⟩ := hw.kept.registered hheld
      have hsound := hw.books.sound _ l hl
      have hmoved := leakGrant_moved hsound hid .budgetGrantDropped
      dsimp only
      rw [put_onLedger_eq hl]
      exact ⟨.moved hl hmoved, hw.kept.consume hheld hl hmoved.closed
        (leakGrant_grants hsound hid _)⟩
    | obligation o =>
      dsimp only
      split
      · next leakClass _ => exact hw.dropObligation hheld leakClass
      · exact ⟨.same _, hw.kept.discard h⟩

omit hw in
/-- A ledger is opened. -/
theorem Kept.addLedger (hk : w.Kept) (parent : Option ℕ) (region : RegionId)
    (capacity : ResourceVector) :
    (w.addLedger (.fresh parent region capacity)).Kept := by
  have hget : ∀ j, j ≠ w.ledgers.length →
      (w.ledgers ++ [fresh parent region capacity])[j]? = w.ledgers[j]? := fun j hne => by
    rw [getElem?_append]
    split
    · rfl
    · next hge =>
      rw [getElem?_eq_none (by simp; omega), getElem?_eq_none (by omega)]
  have hnew : (w.ledgers ++ [fresh parent region capacity])[w.ledgers.length]?
      = some (.fresh parent region capacity) := getElem?_concat_length
  refine ⟨⟨?_, fun h' hle => ?_⟩, ?_⟩
  · show Tracked (opened (w.ledgers ++ [_])) (regions (update _ _ _))
    have hopened : opened (w.ledgers ++ [fresh parent region capacity])
        = update (opened w.ledgers) w.ledgers.length (some ()) := by
      refine eq_update_iff.mpr ⟨?_, fun j hne => ?_⟩
      · rw [opened, hnew]
        rfl
      · rw [opened, opened, hget j hne]
    rw [regions_update, hopened]
    refine hk.regions.issue ?_ () _
    rw [opened, getElem?_eq_none le_rfl]
    rfl
  · exact hk.blank_update h' hle (Nat.le_of_succ_le hle)
  · show Tracked (registry (w.ledgers ++ [_])) (owned (update _ _ _))
    have hreg : registry (w.ledgers ++ [fresh parent region capacity]) = registry w.ledgers := by
      funext key
      by_cases hkey : key.1 = w.ledgers.length
      · rw [registry, registry, hkey, hnew, getElem?_eq_none le_rfl]
        exact Std.ExtTreeMap.getElem?_empty
      · rw [registry, registry, hget _ hkey]
    rw [owned_update, hreg]
    exact hk.grants.discard _

omit hw in
theorem addDelegated_grants (l : Ledger) (amount : ResourceVector) :
    (l.addDelegated amount).grants = l.grants := by
  unfold addDelegated
  split <;> rfl

/-- The grant is the receiver's own, or of a number the receiver does not know. -/
theorem Inv.child (hledger : w.values j = some (.ledger i)) (region : RegionId)
    (hheld : w.values h = some (.grant g))
    (hproper : ∀ l, w.ledgers[i]? = some l → g.ledger ≠ i → l.grants[g.id]? = none) :
    Advance ok grow w (w.child i region h g) := by
  obtain ⟨l, hl, hopen⟩ := hw.kept.isOpen hledger
  have hsound := hw.books.sound i l hl
  rw [World.child, hl]
  dsimp only
  rw [put_onLedger_eq hl]
  have hlent : l.Lent ((l.retire g.id).2.addDelegated (l.retire g.id).1) (l.retire g.id).1 := by
    cases hid : l.grants[g.id]? with
    | none => exact lent_of_unknown hsound hid
    | some amount => exact lent_of_registered hsound hid
  refine ⟨.child region hl hopen hlent, .addLedger ?_ _ _ _⟩
  by_cases hown : g.ledger = i
  · subst hown
    obtain ⟨l₁, hl₁, hid⟩ := hw.kept.registered hheld
    rw [hl] at hl₁
    cases hl₁
    refine hw.kept.consume hheld hl hlent.closed ?_
    rw [addDelegated_grants, retire_eq hid]
  · refine hw.kept.replace (hw.kept.lt_size hheld) rfl rfl (opened_set hl hlent.closed)
      (registry_same hl ?_)
    rw [addDelegated_grants, retire_none (hproper l hl hown)]
    rfl

omit hw in
/-- A ledger is closed. -/
theorem Kept.close (hk : w.Kept) (hheld : w.values h = some (.ledger i))
    (hopened : ∀ j, j ≠ i → opened ls j = opened w.ledgers j)
    (hgrants : registry ls = registry w.ledgers) :
    Kept { w with ledgers := ls, values := update w.values h none } := by
  refine ⟨⟨?_, fun h' hle => ?_⟩, ?_⟩
  · show Tracked (opened ls) (regions (update _ _ _))
    rw [regions_update, eq_update_iff.mpr ⟨rfl, hopened⟩]
    refine hk.regions.consume (v := ()) ?_
    rw [regions, hheld]
    rfl
  · exact hk.blank_update h' ((hk.lt_size hheld).trans_le hle) hle
  · show Tracked (registry ls) (owned (update _ _ _))
    rw [owned_update, hgrants]
    exact hk.grants.discard h

theorem Inv.close (hheld : w.values h = some (.ledger i))
    (hok : ∀ l, w.ledgers[i]? = some l → l.parent ≠ none → ok l) :
    Advance ok grow w (w.close h i).1 := by
  obtain ⟨l, hl, hopen⟩ := hw.kept.isOpen hheld
  have hsound := hw.books.sound i l hl
  have hshut := closeState_shut hsound
  have hopened : ∀ j, j ≠ i → opened (w.ledgers.set i l.closeState.2) j = opened w.ledgers j :=
    fun j hne => by rw [opened, opened, getElem?_set_ne hne.symm]
  have hreg : registry (w.ledgers.set i l.closeState.2) = registry w.ledgers :=
    registry_same hl hshut.grants
  rw [World.close, hl]
  dsimp only
  rw [put_onLedger_eq hl, hshut.parent]
  cases hpar : l.parent with
  | none => exact ⟨.closeRoot hl hopen hpar hshut, hw.kept.close hheld hopened hreg⟩
  | some p =>
    have hlt := hw.books.parents i l p hl hpar
    obtain ⟨q, hq⟩ : ∃ q, w.ledgers[p]? = some q :=
      ⟨_, getElem?_eq_getElem (hlt.trans (List.getElem?_eq_some_iff.mp hl).1)⟩
    have hq' : (w.ledgers.set i l.closeState.2)[p]? = some q := by
      rw [getElem?_set_ne hlt.ne', hq]
    have hadopted : q.Adopted (q.settleChild l.capacity l.consumed) l.capacity l.consumed := by
      refine settleChild_adopted (hw.books.sound p q hq)
        (hw.books.capacity_le hl hopen hpar hq) fun grade => ?_
      have := hsound.balanced grade
      omega
    rw [hshut.capacity, hshut.consumed]
    show Advance ok grow w
      (onLedger ⟨w.ledgers.set i l.closeState.2, update w.values h none, w.size⟩ p _)
    rw [onLedger_eq (w := ⟨w.ledgers.set i l.closeState.2, update w.values h none, w.size⟩) hq']
    refine ⟨.closeChild hl hopen hpar hq (hok l hl (by rw [hpar]; exact nofun)) hshut hadopted,
      hw.kept.close hheld (fun j hne => ?_) ?_⟩
    · rw [opened_set hq' hadopted.closed, hopened j hne]
    · rw [registry_same hq' hadopted.grants, hreg]

end

/-! ### Runs -/

/-- Grants are absorbed into grants of the same ledger, and a child is funded by a grant of its
parent, or by one whose number the parent does not know. -/
def proper (w : World) : Op → Bool
  | .absorb target source =>
    match w.grantAt target, w.grantAt source with
    | some g, some other => g.ledger = other.ledger
    | _, _ => true
  | .child ledger _ grant =>
    match w.ledgerAt ledger, w.grantAt grant with
    | some i, some g => g.ledger = i || (registry w.ledgers (i, g.id)).isNone
    | _, _ => true
  | _ => true

theorem reservationAt_eq (h' : w.reservationAt h = some o) : w.values h = some (.obligation o) :=
  obligationAt_eq.mp (filter_eq_some_iff.mp h').1

/-- An operation on what a handle holds does nothing when it holds nothing. -/
theorem Inv.elim (hw : w.Inv) {held : Option α} {f : α → World × Option Refusal}
    (h : ∀ a, held = some a → Advance ok grow w (f a).1) :
    Advance ok grow w (held.elim (w, none) f).1 := by
  cases held with
  | none => exact .refl hw
  | some a => exact h a rfl

/-- Every proper operation is a change of the ledgers and leaves the values in agreement. -/
theorem Inv.step (hw : w.Inv) {op : Op} (hproper : w.proper op)
    (hok : ∀ handle i l, op = .close handle → w.ledgerAt handle = some i → w.ledgers[i]? = some l →
      l.parent ≠ none → ok l) (hgrow : ∀ region capacity, op = .root region capacity → grow) :
    Advance ok grow w (w.step op) := by
  unfold World.step
  cases op with
  | root region capacity =>
    exact ⟨.root _ region capacity (hgrow _ _ rfl), hw.kept.addLedger none region capacity⟩
  | grant ledger amount =>
    exact hw.elim fun i hi => hw.grant (ledgerAt_eq.mp hi) amount
  | splitOff grant part =>
    exact hw.elim fun g hg => hw.splitOff (grantAt_eq.mp hg) part
  | absorb target source =>
    unfold perform
    dsimp only
    split
    · next g other hg hother =>
      split
      · exact .refl hw
      · next hne =>
        have hsame : g.ledger = other.ledger := by simpa [proper, hg, hother] using hproper
        exact hw.absorb hne (grantAt_eq.mp hg) (grantAt_eq.mp hother) hsame
    · exact .refl hw
  | release grant =>
    exact hw.elim fun g hg => hw.release (grantAt_eq.mp hg)
  | reserve ledger required grant =>
    unfold perform
    dsimp only
    split
    · next i g hi hg => exact hw.reserve (ledgerAt_eq.mp hi) required (grantAt_eq.mp hg)
    · exact .refl hw
  | commit handle actual =>
    exact hw.elim fun o ho => hw.settle (reservationAt_eq ho) (.inl rfl) actual _
  | abort handle spent =>
    exact hw.elim fun o ho => hw.settle (reservationAt_eq ho) (.inr rfl) spent _
  | abortUnused handle =>
    exact hw.elim fun o ho => hw.abortUnused (reservationAt_eq ho)
  | commitInternal handle actual =>
    exact hw.elim fun o ho => hw.commitInternal (reservationAt_eq ho) actual
  | advance handle event =>
    exact hw.elim fun o ho => hw.advancePhase (hw.kept.lt_size (obligationAt_eq.mp ho)) o event
  | child ledger region grant =>
    unfold perform
    dsimp only
    split
    · next i g hi hg =>
      refine hw.child (ledgerAt_eq.mp hi) region (grantAt_eq.mp hg) fun l hl hne => ?_
      have hunknown : (registry w.ledgers (i, g.id)).isNone := by
        simpa [proper, hi, hg, hne] using hproper
      rw [registry_of hl] at hunknown
      exact isNone_iff_eq_none.mp hunknown
    · exact .refl hw
  | close ledger =>
    exact hw.elim fun i hi => hw.close (ledgerAt_eq.mp hi) fun l hl => hok ledger i l rfl hi hl
  | drop value => exact hw.drop value

/-- The agreement holds along every proper run. -/
theorem Inv.run {ops : List Op}
    (h : Run.Meets World.step (fun w op => w.proper op) World.empty ops) :
    (Run.exec World.step World.empty ops).Inv :=
  Run.exec_invariant_of_meets (P := fun _ w => w.Inv) Inv.empty (fun _ _ hw hproper =>
    have hstep : Advance (fun _ => True) True _ _ :=
      hw.step hproper (fun _ _ _ _ _ _ _ => trivial) fun _ _ _ => trivial
    hw.advance hstep) h

/-! ### Refusals -/

variable {r : Refusal}

theorem grant_refused {amount : ResourceVector} (hr : (w.grant i amount).2 = some r) :
    (w.grant i amount).1 = w := by
  unfold grant at hr ⊢
  split at hr
  · rfl
  · split at hr
    · cases hr
    · rfl

theorem splitOff_refused {part : ResourceVector} (hr : (w.splitOff h g part).2 = some r) :
    (w.splitOff h g part).1 = w := by
  unfold splitOff at hr ⊢
  split at hr
  · cases hr
  · rfl
  · rfl

theorem settle_refused {event : LifecycleEvent} {spent : ResourceVector} {after : Option Phase}
    (hr : (w.settle h o event spent after).2 = some r) :
    (w.settle h o event spent after).1 = w := by
  unfold settle at hr ⊢
  split at hr
  · rfl
  · split at hr
    · cases hr
    · rfl

theorem commitInternal_refused {actual : ResourceVector}
    (hr : (w.commitInternal h o actual).2 = some r) : (w.commitInternal h o actual).1 = w := by
  unfold commitInternal at hr ⊢
  split at hr
  · cases hr
  · exact settle_refused hr

theorem absorb_refused {target source : ℕ} {other : BudgetGrant}
    (hr : (w.absorb target source g other).2 = some r) :
    (w.absorb target source g other).1 = w.release source other := by
  unfold absorb at hr ⊢
  split at hr
  · cases hr
  · rfl

theorem reserve_refused {required : List Grade} (hr : (w.reserve i required h g).2 = some r) :
    (w.reserve i required h g).1 = w.release h g := by
  unfold reserve at hr ⊢
  split at hr
  · split at hr
    · next hclosed => rw [if_pos hclosed]
    · next hopen =>
      rw [if_neg hopen]
      split at hr
      · rfl
      · cases hr
  · cases hr

theorem elim_refused {held : Option α} {f : α → World × Option Refusal}
    (h : ∀ a, (f a).2 = some r → (f a).1 = w) (hr : (held.elim (w, none) f).2 = some r) :
    (held.elim (w, none) f).1 = w := by
  cases held with
  | none => rfl
  | some a => exact h a hr

/-- A refusal changes nothing, or gives a grant back. -/
theorem perform_refused {op : Op} (hr : (w.perform op).2 = some r) :
    (w.perform op).1 = w ∨ ∃ h g, w.values h = some (.grant g) ∧
      (w.perform op).1 = w.release h g := by
  cases op with
  | root region capacity => cases hr
  | grant ledger amount =>
    exact .inl (elim_refused (fun _ => grant_refused) hr)
  | splitOff grant part =>
    exact .inl (elim_refused (fun _ => splitOff_refused) hr)
  | absorb target source =>
    unfold perform at hr ⊢
    dsimp only at hr ⊢
    split at hr
    · next g other hg hother =>
      split at hr
      · cases hr
      · next hne =>
        rw [if_neg hne]
        exact .inr ⟨source, other, grantAt_eq.mp hother, absorb_refused hr⟩
    · cases hr
  | reserve ledger required grant =>
    unfold perform at hr ⊢
    dsimp only at hr ⊢
    split at hr
    · next i g hi hg => exact .inr ⟨grant, g, grantAt_eq.mp hg, reserve_refused hr⟩
    · cases hr
  | commit handle actual | abort handle actual =>
    exact .inl (elim_refused (fun _ => settle_refused) hr)
  | commitInternal handle actual =>
    exact .inl (elim_refused (fun _ => commitInternal_refused) hr)
  | release handle | abortUnused handle | advance handle event | close handle =>
    unfold perform at hr
    dsimp only at hr
    rw [Option.elim.eq_def] at hr
    split at hr <;> cases hr
  | child ledger region grant =>
    unfold perform at hr
    dsimp only at hr
    split at hr <;> cases hr
  | drop value => cases hr

end World

/-- Along every proper run every ledger adds up to its capacity, and a refused operation leaves
every sum as it was. -/
theorem accounted_along_run {ops : List Op}
    (h : Run.Meets World.step (fun w op => w.proper op) World.empty ops) :
    (∀ (i : ℕ) (l : Ledger), (Run.exec World.step World.empty ops).ledgers[i]? = some l →
      l.accounted = .ok l.capacity) ∧
    ∀ op refusal, ((Run.exec World.step World.empty ops).perform op).2 = some refusal → ∀ i : ℕ,
      ((Run.exec World.step World.empty ops).perform op).1.ledgers[i]?.map Ledger.accounted
        = (Run.exec World.step World.empty ops).ledgers[i]?.map Ledger.accounted := by
  have hw := World.Inv.run h
  generalize Run.exec World.step World.empty ops = w at hw ⊢
  refine ⟨fun i l hi => (hw.books.sound i l hi).accounted_eq, fun op refusal hr i => ?_⟩
  rcases perform_refused hr with heq | ⟨handle, g, hheld, heq⟩
  · rw [heq]
  · obtain ⟨l, hl, hid⟩ := hw.kept.registered hheld
    have hsound := hw.books.sound _ l hl
    have hmoved := releaseGrant_moved hsound hid
    rw [heq, release, put_onLedger_eq hl]
    by_cases hi : i = g.ledger
    · subst hi
      rw [getElem?_set_self' hl, hl, map_some, map_some, hmoved.sound.accounted_eq,
        hsound.accounted_eq, hmoved.capacity]
    · rw [getElem?_set_ne (Ne.symm hi)]

/-- A few bytes. -/
def fewBytes (amount : UInt8) : ResourceVector :=
  .single .bytes amount.toNat (toNat_le_u64Max amount)

/-- A run with a grant split and joined again, a child, a commit and a leak. -/
def mixedRun : List Op :=
  [.root 1 (fewBytes 10), .grant 0 (fewBytes 6),
    .splitOff 1 (fewBytes 2), .absorb 1 2, .splitOff 1 (fewBytes 2),
    .child 0 2 3, .reserve 0 [.bytes] 1, .commit 5 (fewBytes 3), .drop 5, .close 4]

theorem accounted_along_mixedRun :
    Run.Meets World.step (fun w op => w.proper op) World.empty mixedRun ∧
      ∀ (i : ℕ) (l : Ledger), (Run.exec World.step World.empty mixedRun).ledgers[i]? = some l →
        l.accounted = .ok l.capacity :=
  have hproper : Run.Meets step (fun w op => w.proper op) empty mixedRun := by
    decide +kernel
  ⟨hproper, (accounted_along_run hproper).1⟩

/-- A grant of one root is absorbed into a grant of another: the ledger of the absorbed grant
has more than its capacity, and no fault. -/
theorem absorb_across_roots : ∃ l : Ledger,
    (Run.exec World.step World.empty
      [.root 1 (.single .bytes 10 (by decide)), .root 2 (.single .bytes 10 (by decide)),
        .grant 0 (.single .bytes 4 (by decide)), .grant 1 (.single .bytes 3 (by decide)),
        .absorb 2 3]).ledgers[1]? = some l ∧
      l.accountingFaults = 0 ∧ l.accounted ≠ .ok l.capacity := by
  refine ⟨_, rfl, ?_, fun h => ?_⟩
  · decide +kernel
  · have hget := congrArg (fun r => r.toOption.map fun v => v.get .bytes) h
    revert hget
    decide +kernel

end Frankengit.Resource
