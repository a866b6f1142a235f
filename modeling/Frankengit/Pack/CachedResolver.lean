/-
Frankengit/Pack/CachedResolver.lean

The cached resolver (crate `fgit-pack`, module `delta`): the scalar
resolver's expansion with a cache of results by offset.

The scalar resolver inside never changes.  What calls change is the `Cache`:
its entries, the bytes they occupy, the spill that keeps entries past the
resident budget and, under the resident-recency policy, the links that order
entries by their last use.  A failed call keeps every change it made, so the
operations are `Stateful.Fallibly` computations over the cache.
-/
import Frankengit.Lib.Stateful
import Frankengit.Pack.Resolver

namespace Frankengit.Pack

open Fallible Stateful Std.ExtTreeMap ScalarResolver

/-! ### The cache -/

/-- The location of one spilled entry. -/
structure SpillHandle where
  offset : ℕ
  length : ℕ
deriving DecidableEq

/-- Where entries past the resident budget go: operations on a state `S`. -/
structure CacheSpill (S : Type) where
  spill : Bytes → S → Except PackError SpillHandle × S
  read : SpillHandle → S → Except PackError Bytes × S

/-- Nothing is ever spilled. -/
def residentCache : CacheSpill Unit where
  spill bytes s := (.error (.allocationFailed bytes.length), s)
  read handle s := (.error (.allocationFailed handle.length), s)

inductive StoredBytes where
  | resident (bytes : Bytes)
  | spilled (handle : SpillHandle)

def StoredBytes.length : StoredBytes → ℕ
  | resident bytes => bytes.length
  | spilled handle => handle.length

structure CacheEntry where
  stored : StoredBytes
  objectType : Option ObjectType
  older : Option ℕ
  newer : Option ℕ

/-- The ends of the chain of entries, by last use. -/
structure ResidentRecency where
  oldest : Option ℕ
  newest : Option ℕ

/-- What the calls of a cached resolver change. -/
structure Cache (S : Type) where
  entries : BTreeMap ℕ CacheEntry
  cachedBytes : ℕ
  residentBudget : ℕ
  residentBytes : ℕ
  spill : S
  recency : Option ResidentRecency

/-- A computation over the cache. -/
abbrev Caching (S : Type) := Fallibly PackError (Cache S)

structure CachedResolver (S : Type) where
  scalar : ScalarResolver
  spillOps : CacheSpill S
  cache : Cache S

namespace CachedResolver

variable {S : Type}

def withSpill (objects : List PackObject) (externalBases : ExternalBaseLookup)
    (limits : PackLimits) (spillOps : CacheSpill S) (spill : S) (residentBudget : ℕ) :
    Except PackError (CachedResolver S) := do
  let scalar ← new objects externalBases limits
  return ⟨scalar, spillOps, ∅, 0, residentBudget, 0, spill, none⟩

def withResidentRecency (objects : List PackObject) (externalBases : ExternalBaseLookup)
    (limits : PackLimits) (spillOps : CacheSpill S) (spill : S) (residentBudget : ℕ) :
    Except PackError (CachedResolver S) := do
  let resolver ← withSpill objects externalBases limits spillOps spill
    (min residentBudget limits.maxCachedBytes)
  return { resolver with cache.recency := some ⟨none, none⟩ }

def new (objects : List PackObject) (externalBases : ExternalBaseLookup) (limits : PackLimits) :
    Except PackError (CachedResolver Unit) :=
  withSpill objects externalBases limits residentCache () u64Max

end CachedResolver

namespace Cache

variable {S : Type}

/-! ### Entries and their links -/

/-- Change an entry that must be there. -/
def updateEntry (offset : ℕ) (f : CacheEntry → CacheEntry) : Caching S Unit := do
  match (← get).entries[offset]? with
  | none => throw .missingDeltaBase
  | some entry => modify fun c => { c with entries := c.entries.insert offset (f entry) }

/-- Change the ends of the chain. -/
def setRecency (recency : ResidentRecency) : Caching S Unit :=
  modify fun c => { c with recency := some recency }

/-- Say what comes after an entry.  Where there is no entry, it comes first. -/
def linkNewer (entry : Option ℕ) (newer : Option ℕ) (recency : ResidentRecency) :
    Caching S ResidentRecency :=
  match entry with
  | some offset => do
    updateEntry offset fun entry => { entry with newer := newer }
    return recency
  | none => do
    setRecency { recency with oldest := newer }
    return { recency with oldest := newer }

/-- Say what comes before an entry, if there is one. -/
def linkOlder (entry : Option ℕ) (older : Option ℕ) : Caching S Unit :=
  match entry with
  | some offset => updateEntry offset fun entry => { entry with older := older }
  | none => return ()

/-- Move an entry to the end of the chain. -/
def moveToEnd (offset : ℕ) (entry : CacheEntry) (recency : ResidentRecency) : Caching S Unit := do
  let recency ← linkNewer entry.older entry.newer recency
  linkOlder entry.newer entry.older
  let recency ← linkNewer recency.newest (some offset) recency
  updateEntry offset fun entry => { entry with older := recency.newest, newer := none }
  setRecency { recency with newest := some offset }

def touchRecent (offset : ℕ) : Caching S Unit := do
  let c ← get
  match c.recency with
  | none => return ()
  | some recency =>
    if recency.newest = some offset then return ()
    match c.entries[offset]? with
    | none => throw .missingDeltaBase
    | some entry => moveToEnd offset entry recency

/-- Take the oldest entry out.  Recency entries are all resident, and both
byte counts include them. -/
def removeOldest (c : Cache S) (recency : ResidentRecency) (offset : ℕ) (entry : CacheEntry) :
    Cache S :=
  { c with
    entries := c.entries.erase offset
    cachedBytes := c.cachedBytes - entry.stored.length
    residentBytes := c.residentBytes - entry.stored.length
    recency := some { recency with oldest := entry.newer } }

def evictOldestRecent (c : Cache S) : Except PackError Unit × Cache S :=
  match c.recency with
  | none => (.error .missingDeltaBase, c)
  | some recency =>
    match recency.oldest with
    | none => (.error .missingDeltaBase, c)
    | some offset =>
      match c.entries[offset]? with
      | none => (.error .missingDeltaBase, c)
      | some entry =>
        match entry.newer with
        | some newer =>
          exec (updateEntry newer fun entry => { entry with older := none })
            (c.removeOldest recency offset entry)
        | none =>
          (.ok (), { c.removeOldest recency offset entry with recency := some ⟨none, none⟩ })

theorem exec_updateEntry (offset : ℕ) (f : CacheEntry → CacheEntry) (c : Cache S) :
    exec (updateEntry offset f) c = match c.entries[offset]? with
      | none => (.error .missingDeltaBase, c)
      | some entry => (.ok (), { c with entries := c.entries.insert offset (f entry) }) := by
  show exec (match c.entries[offset]? with | none => _ | some entry => _) c = _
  cases c.entries[offset]? with
  | none | some entry => rfl

theorem size_updateEntry (offset : ℕ) (f : CacheEntry → CacheEntry) (c : Cache S) :
    (exec (updateEntry offset f) c).2.entries.size = c.entries.size := by
  rw [exec_updateEntry]
  cases h : c.entries[offset]? with
  | none => rfl
  | some entry =>
    have hmem : offset ∈ c.entries := mem_iff_isSome_getElem?.mpr (by rw [h]; rfl)
    rw [size_insert, if_pos (mem_iff_contains.mp hmem)]

theorem size_removeOldest (c : Cache S) (recency : ResidentRecency) {offset : ℕ}
    {entry : CacheEntry} (h : c.entries[offset]? = some entry) :
    (c.removeOldest recency offset entry).entries.size < c.entries.size := by
  have hmem : offset ∈ c.entries := mem_iff_isSome_getElem?.mpr (by rw [h]; rfl)
  have hpos : c.entries.size ≠ 0 := by
    intro hzero
    rw [eq_empty_iff_size_eq_zero.mpr hzero] at hmem
    exact not_mem_empty hmem
  show (c.entries.erase offset).size < _
  rw [size_erase, if_pos (mem_iff_contains.mp hmem)]
  omega

/-- Each eviction leaves fewer entries. -/
theorem size_evictOldestRecent {c c' : Cache S} (h : evictOldestRecent c = (.ok (), c')) :
    c'.entries.size < c.entries.size := by
  revert h
  fun_cases evictOldestRecent c with
  | case1 | case2 | case3 => nofun
  | case4 recency _ offset _ entry hentry newer =>
    intro h
    have hkept := size_updateEntry newer (fun entry => { entry with older := none })
      (c.removeOldest recency offset entry)
    rw [h] at hkept
    exact hkept ▸ size_removeOldest c recency hentry
  | case5 recency _ offset _ entry hentry =>
    intro h
    cases h
    exact size_removeOldest c recency hentry

/-- Make room, oldest entries first. -/
def evictTo (available : ℕ) (c : Cache S) : Except PackError Unit × Cache S :=
  if available < c.cachedBytes then
    match h : evictOldestRecent c with
    | (.error error, c') => (.error error, c')
    | (.ok (), c') =>
      have := size_evictOldestRecent h
      evictTo available c'
  else (.ok (), c)
termination_by c.entries.size

def cacheRecent (offset : ℕ) (bytes : Bytes) (objectType : Option ObjectType) : Caching S Unit := do
  let c ← get
  if c.residentBudget = 0 ∨ c.residentBudget < bytes.length then return ()
  if c.entries.contains offset then
    updateEntry offset fun entry =>
      { entry with objectType := entry.objectType.or objectType }
    touchRecent offset
  else
    ofExec (evictTo (c.residentBudget - bytes.length))
    match (← get).recency with
    | none => throw .missingDeltaBase
    | some recency =>
      let recency ← linkNewer recency.newest (some offset) recency
      modify fun c => { c with
        entries := c.entries.insert offset
          ⟨.resident bytes, objectType, recency.newest, none⟩
        recency := some { recency with newest := some offset }
        cachedBytes := c.cachedBytes + bytes.length
        residentBytes := c.residentBytes + bytes.length }

/-! ### Storing and reading -/

variable (spillOps : CacheSpill S)

/-- Keep a result in the spill. -/
def spillBytes (bytes : Bytes) : Caching S SpillHandle :=
  ofExec fun c =>
    let (answer, spill) := spillOps.spill bytes c.spill
    (answer, { c with spill := spill })

/-- Read a spilled result back. -/
def readSpilled (handle : SpillHandle) : Caching S Bytes :=
  ofExec fun c =>
    let (answer, spill) := spillOps.read handle c.spill
    (answer, { c with spill := spill })

/-- Decide where the bytes of a new entry go. -/
def place (bytes : Bytes) : Caching S StoredBytes := do
  let c ← get
  if c.residentBytes + bytes.length ≤ min u64Max c.residentBudget then
    modify fun c => { c with residentBytes := c.residentBytes + bytes.length }
    return .resident bytes
  else
    return .spilled (← spillBytes spillOps bytes)

/-- The length and type of a cached result. -/
def cached (offset : ℕ) : Caching S (Option (ℕ × Option ObjectType)) := do
  return (← get).entries[offset]?.map fun entry => (entry.stored.length, entry.objectType)

def cachedCopy (offset : ℕ) : Caching S Bytes := do
  touchRecent offset
  match (← get).entries[offset]? with
  | none => throw .missingDeltaBase
  | some entry =>
    match entry.stored with
    | .resident bytes => return bytes
    | .spilled handle =>
      let bytes ← readSpilled spillOps handle
      liftM (refuseIf (bytes.length ≠ handle.length) (.allocationFailed handle.length) :
        Except PackError Unit)
      return bytes

def store (limits : PackLimits) (offset : ℕ) (bytes : Bytes) (objectType : Option ObjectType) :
    Caching S Unit := do
  let c ← get
  if c.recency.isSome then cacheRecent offset bytes objectType
  else
    let required ← liftM (checkedAdd "delta cache bytes" c.cachedBytes bytes.length)
    if limits.maxCachedBytes < required then return ()
    if c.entries.contains offset then
      updateEntry offset fun entry =>
        { entry with objectType := entry.objectType.or objectType }
    else
      let stored ← place spillOps bytes
      modify fun c => { c with
        entries := c.entries.insert offset ⟨stored, objectType, none, none⟩
        cachedBytes := required }

end Cache

/-! ### Resolution -/

namespace Cache

variable {S τ : Type} (spillOps : CacheSpill S) (r : ScalarResolver) (P : Provenance τ)

/-- The entry that answers for an offset, if one does. -/
def answering (offset : ℕ) : Caching S (Option (ℕ × τ)) := do
  match ← cached offset with
  | none => return none
  | some (length, objectType) => return (P.hit objectType).map (length, ·)

def resolveObjectWith (object : PackObject) (depth : ℕ) (stack : List ℕ) (acc : Accounting) :
    Caching S (Resolved τ) := do
  match ← answering P object.offset with
  | some (length, t) =>
    let acc ← liftM (acc.addWork r.limits length)
    let bytes ← cachedCopy spillOps object.offset
    return ((t, bytes), acc)
  | none =>
    if object.offset ∈ stack then throw .deltaCycle
    else
      let resolved ← r.expandWith P depth
        (fun _ base acc => resolveObjectWith base (depth + 1) (object.offset :: stack) acc)
        object acc
      store spillOps r.limits object.offset resolved.1.2 (P.stored resolved.1.1)
      return resolved
termination_by r.limits.maxDeltaDepth - depth

def resolveObject : PackObject → ℕ → List ℕ → Accounting → Caching S (Resolved Unit) :=
  resolveObjectWith spillOps r .bytesOnly

def resolveObjectTyped : PackObject → ℕ → List ℕ → Accounting → Caching S (Resolved ObjectType) :=
  resolveObjectWith spillOps r .typed

def resolveOffset (offset : ℕ) : Caching S Bytes :=
  (fun resolved => resolved.1.2) <$>
    resolveFound (resolveObject spillOps r) (r.findByOffset offset .fresh)

def resolveOffsetTyped (offset : ℕ) : Caching S (ObjectType × Bytes) :=
  Prod.fst <$> resolveFound (resolveObjectTyped spillOps r) (r.findByOffset offset .fresh)

def resolveIdTyped (id : GitOid) : Caching S (ObjectType × Bytes) :=
  Prod.fst <$> resolveFound (resolveObjectTyped spillOps r) (r.findById id .fresh)

end Cache

end Frankengit.Pack
