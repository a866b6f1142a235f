/-
Frankengit/Pack/ResolverAgreement.lean

Cached resolution gives what scalar resolution gives.

A cached entry belongs to the object that lookups reach at its offset, and
holds the bytes that object stands for; if it has a type, it is the type of
that object's base.  Every operation on the cache keeps this (`Sound`),
whether it succeeds or fails, so it holds along every run of calls, and an
answer is what the object of the call stands for.

Two conditions are needed.  Entries are found by offset, so identified
objects at one offset have to be the same object (`OffsetsIdentify`).
Byte-only and typed results share entries, so a typed external base has to
have the bytes of the untyped one (`TypesAgree`).  `cached_differs` shows
runs on which the answer is another one without them.
-/
import Frankengit.Pack.CachedResolver
import Frankengit.Pack.Chain

namespace Frankengit.Pack

open Fallible Stateful ScalarResolver Keeps Provenance Accounting Nat List Option Prod BTree

/-! ### Calls -/

inductive ResolveCall where
  | offset (offset : ℕ)
  | offsetTyped (offset : ℕ)
  | idTyped (id : GitOid)

inductive ResolveAnswer where
  | bytes (bytes : Bytes)
  | typed (resolved : ObjectType × Bytes)
deriving DecidableEq

def ScalarResolver.answer (r : ScalarResolver) : ResolveCall → Except PackError ResolveAnswer
  | .offset offset => .bytes <$> r.resolveOffset offset
  | .offsetTyped offset => .typed <$> r.resolveOffsetTyped offset
  | .idTyped id => .typed <$> r.resolveIdTyped id

def Cache.answer {S : Type} (spillOps : CacheSpill S) (r : ScalarResolver) :
    ResolveCall → Caching S ResolveAnswer
  | .offset offset => .bytes <$> Cache.resolveOffset spillOps r offset
  | .offsetTyped offset => .typed <$> Cache.resolveOffsetTyped spillOps r offset
  | .idTyped id => .typed <$> Cache.resolveIdTyped spillOps r id

namespace CachedResolver

variable {S : Type} (c : CachedResolver S)

/-- One call: its answer and the resolver it leaves. -/
def call (call : ResolveCall) : Except PackError ResolveAnswer × CachedResolver S :=
  let (answer, cache) := exec (Cache.answer c.spillOps c.scalar call) c.cache
  (answer, { c with cache := cache })

/-- The resolver after a run of calls. -/
def afterCalls (calls : List ResolveCall) : CachedResolver S :=
  calls.foldl (fun c call => (c.call call).2) c

end CachedResolver

/-! ### What the cache may hold -/

/-- The spill reads back what it retains.  `holds` says which bytes it
retains for a handle. -/
structure CacheSpill.Retains {S : Type} (ops : CacheSpill S)
    (holds : S → SpillHandle → Bytes → Prop) : Prop where
  spill_keeps : ∀ bytes s handle kept, holds s handle kept → holds (ops.spill bytes s).2 handle kept
  read_keeps : ∀ other s handle kept, holds s handle kept → holds (ops.read other s).2 handle kept
  read : ∀ handle s kept bytes, holds s handle kept → (ops.read handle s).1 = .ok bytes →
    bytes = kept

/-- It retains what it is given. -/
def CacheSpill.Spills {S : Type} (ops : CacheSpill S)
    (holds : S → SpillHandle → Bytes → Prop) : Prop :=
  ∀ bytes s handle, (ops.spill bytes s).1 = .ok handle → holds (ops.spill bytes s).2 handle bytes

/-- A spill that returns exactly the bytes it was given. -/
def CacheSpill.Faithful {S : Type} (ops : CacheSpill S) : Prop :=
  ∃ holds, ops.Retains holds ∧ ops.Spills holds

/-- A typed external base is the external base. -/
def ExternalBaseLookup.TypesAgree (bases : ExternalBaseLookup) : Prop :=
  ∀ id t bytes, bases.lookupTyped id = some (t, bytes) → bases.lookup id = some bytes

variable {object : PackObject} {bytes : Bytes} {r : ScalarResolver}

section

variable {S : Type}

/-- What an entry with this type may answer for an object. -/
structure Served (r : ScalarResolver) (object : PackObject) (bytes : Bytes)
    (objectType : Option ObjectType) : Prop where
  bytesOnly : ∃ n, Yields r .bytesOnly n object () bytes
  typed : ∀ t, objectType = some t → ∃ n, Yields r .typed n object t bytes

def StoredBytes.Holds (holds : S → SpillHandle → Bytes → Prop) (s : S) (bytes : Bytes) :
    StoredBytes → Prop
  | resident kept => kept = bytes
  | spilled handle => holds s handle bytes

/-- The entry holds what the object at its offset stands for. -/
def Backed (r : ScalarResolver) (holds : S → SpillHandle → Bytes → Prop) (s : S) (offset : ℕ)
    (entry : CacheEntry) : Prop :=
  ∃ object bytes, r.Reachable object ∧ object.offset = offset ∧
    entry.stored.Holds holds s bytes ∧ Served r object bytes entry.objectType

/-- Every entry is backed, and what is spilled can be read back.  The
resident-recency policy never spills. -/
structure Cache.Sound (ops : CacheSpill S) (r : ScalarResolver)
    (holds : S → SpillHandle → Bytes → Prop) (c : Cache S) : Prop where
  backed : ∀ (offset : ℕ) entry, c.entries[offset]? = some entry →
    Backed r holds c.spill offset entry
  spills : c.recency = none → ops.Spills holds

/-- Cached answers and recorded types fit what objects stand for. -/
structure Provenance.Fits {τ : Type} (r : ScalarResolver) (P : Provenance τ) : Prop where
  hit : ∀ {object bytes objectType t}, Served r object bytes objectType →
    P.hit objectType = some t → ∃ n, Yields r P n object t bytes
  stored : ∀ {n object t bytes}, Yields r P n object t bytes → Served r object bytes (P.stored t)

theorem fits_bytesOnly (r : ScalarResolver) : bytesOnly.Fits r where
  hit hserved _ := hserved.bytesOnly
  stored h := ⟨⟨_, h⟩, nofun⟩

/-- Typed answers are byte-only answers with a type. -/
theorem ScalarResolver.Yields.bytesOnly (hagree : r.externalBases.TypesAgree) {n : ℕ}
    {t : ObjectType} (h : Yields r .typed n object t bytes) :
    Yields r .bytesOnly n object () bytes := by
  induction h with
  | base hroot hsize => exact .base rfl hsize
  | typedBase hroot hsize => exact .typedBase rfl hsize
  | external hfanout hsite hbase hsize happlies =>
    refine .external hfanout hsite ?_ hsize happlies
    simp only [Provenance.typed] at hbase
    split at hbase
    · next found hlookup =>
      cases hbase
      simp only [Provenance.bytesOnly, hagree _ _ _ hlookup]
    · split at hbase <;> cases hbase
  | inPack hfanout hsite _ happlies ih => exact .inPack hfanout hsite ih happlies

theorem fits_typed (hagree : r.externalBases.TypesAgree) : typed.Fits r where
  hit hserved ht := hserved.typed _ ht
  stored h := ⟨⟨_, h.bytesOnly hagree⟩, fun _ ht => ⟨_, some.inj ht ▸ h⟩⟩

end

/-! ### Every operation keeps it -/

section Keeps

variable {S : Type} {ops : CacheSpill S} {holds : S → SpillHandle → Bytes → Prop}
  {r : ScalarResolver}

theorem keeps_updateEntry {offset : ℕ} {f : CacheEntry → CacheEntry}
    (hf : ∀ s entry, Backed r holds s offset entry → Backed r holds s offset (f entry)) :
    Keeps (Cache.Sound ops r holds) (Cache.updateEntry offset f) := by
  intro c hc
  rw [Cache.exec_updateEntry]
  cases hentry : c.entries[offset]? with
  | none => exact hc
  | some entry =>
    refine ⟨fun other found hfound => ?_, hc.spills⟩
    obtain ⟨rfl, rfl⟩ | ⟨-, hfound⟩ := get_insert_some hfound
    · exact hf _ _ (hc.backed _ _ hentry)
    · exact hc.backed _ _ hfound

/-- Links do not matter. -/
theorem keeps_relink {offset : ℕ} {f : CacheEntry → CacheEntry}
    (hstored : ∀ entry, (f entry).stored = entry.stored)
    (htype : ∀ entry, (f entry).objectType = entry.objectType) :
    Keeps (Cache.Sound ops r holds) (Cache.updateEntry offset f) := by
  apply keeps_updateEntry
  intro s entry
  rw [Backed, Backed, hstored, htype]
  exact id

theorem keeps_setRecency (recency : ResidentRecency) :
    Keeps (Cache.Sound ops r holds) (Cache.setRecency recency) :=
  modify fun _ hc => ⟨hc.backed, nofun⟩

theorem keeps_linkNewer (entry newer : Option ℕ) (recency : ResidentRecency) :
    Keeps (Cache.Sound ops r holds) (Cache.linkNewer entry newer recency) := by
  cases entry with
  | none => exact (keeps_setRecency _).bind fun _ => .pure _
  | some offset => exact bind (keeps_relink (fun _ => rfl) fun _ => rfl) fun _ => .pure _

theorem keeps_linkOlder (entry older : Option ℕ) :
    Keeps (Cache.Sound ops r holds) (Cache.linkOlder entry older) := by
  cases entry with
  | none => exact .pure _
  | some offset => exact keeps_relink (fun _ => rfl) fun _ => rfl

theorem keeps_moveToEnd (offset : ℕ) (entry : CacheEntry) (recency : ResidentRecency) :
    Keeps (Cache.Sound ops r holds) (Cache.moveToEnd offset entry recency) := by
  refine (keeps_linkNewer _ _ _).bind fun recency => ?_
  refine (keeps_linkOlder _ _).bind fun _ => ?_
  refine (keeps_linkNewer _ _ _).bind fun recency => ?_
  exact bind (keeps_relink (fun _ => rfl) fun _ => rfl) fun _ => keeps_setRecency _

theorem keeps_touchRecent (offset : ℕ) :
    Keeps (Cache.Sound ops r holds) (Cache.touchRecent offset) := by
  refine get_bind fun c _ => ?_
  cases c.recency with
  | none => exact .pure _
  | some recency =>
    dsimp only
    split
    · exact .pure _
    · cases c.entries[offset]? with
      | none => exact .throw _
      | some entry => exact keeps_moveToEnd _ _ _

variable {c : Cache S}

/-- Entries that go are no concern. -/
theorem sound_removeOldest (hc : c.Sound ops r holds) (recency : ResidentRecency) (offset : ℕ)
    (entry : CacheEntry) : (c.removeOldest recency offset entry).Sound ops r holds := by
  refine ⟨fun other found hfound => ?_, nofun⟩
  exact hc.backed _ _ (get_erase_some hfound).2

theorem sound_evictOldestRecent (hc : c.Sound ops r holds) :
    (Cache.evictOldestRecent c).2.Sound ops r holds := by
  fun_cases Cache.evictOldestRecent c with
  | case1 | case2 | case3 => exact hc
  | case4 recency _ offset _ entry _ newer =>
    have hkeeps : Keeps (Cache.Sound ops r holds) (Cache.updateEntry newer fun entry =>
        { entry with older := none }) := keeps_relink (fun _ => rfl) fun _ => rfl
    exact hkeeps.exec_snd (sound_removeOldest hc recency offset entry)
  | case5 recency _ offset _ entry =>
    exact ⟨(sound_removeOldest hc recency offset entry).backed, by simp⟩

theorem sound_evictTo {available : ℕ} (hc : c.Sound ops r holds) :
    (Cache.evictTo available c).2.Sound ops r holds := by
  fun_induction Cache.evictTo available c with
  | case1 c _ error c' h =>
    have hstep := sound_evictOldestRecent hc
    rw [h] at hstep
    exact hstep
  | case2 c _ c' h _ ih =>
    have hstep := sound_evictOldestRecent hc
    rw [h] at hstep
    exact ih hstep
  | case3 c _ => exact hc

theorem sound_spill (hc : c.Sound ops r holds) {spill : S}
    (hspill : ∀ handle kept, holds c.spill handle kept → holds spill handle kept) :
    Cache.Sound ops r holds { c with spill := spill } := by
  refine ⟨fun offset entry hentry => ?_, hc.spills⟩
  obtain ⟨object, bytes, hreach, hoff, hholds, hserved⟩ := hc.backed offset entry hentry
  refine ⟨object, bytes, hreach, hoff, ?_, hserved⟩
  cases hstored : entry.stored with
  | resident kept =>
    rw [hstored] at hholds
    exact hholds
  | spilled handle =>
    rw [hstored] at hholds
    exact hspill handle bytes hholds

/-- A new entry for an object. -/
theorem sound_insert {c' : Cache S} (hc : c.Sound ops r holds) {entry : CacheEntry}
    (hspill : c'.spill = c.spill) (hentr : c'.entries = c.entries.insert object.offset entry)
    (hreach : r.Reachable object) (hholds : entry.stored.Holds holds c.spill bytes)
    (hserved : Served r object bytes entry.objectType)
    (hrecency : c'.recency = none → c.recency = none) : c'.Sound ops r holds := by
  refine ⟨fun offset found hfound => ?_, fun hnone => hc.spills (hrecency hnone)⟩
  rw [hspill]
  rw [hentr] at hfound
  obtain ⟨heq, rfl⟩ | ⟨-, hfound⟩ := get_insert_some hfound
  · exact ⟨object, bytes, hreach, heq, hholds, hserved⟩
  · exact hc.backed _ _ hfound

section Spill

variable (hretains : ops.Retains holds)
include hretains

theorem spillBytes_holds (hspills : ops.Spills holds) (bytes : Bytes) :
    Ensures (Cache.Sound ops r holds) (Cache.spillBytes ops bytes)
      fun handle c => holds c.spill handle bytes := by
  intro c hc
  have hkept := sound_spill hc (hretains.spill_keeps bytes c.spill)
  have hspilled := hspills bytes c.spill
  rw [Cache.spillBytes, exec_ofExec]
  rcases hanswer : ops.spill bytes c.spill with ⟨_ | handle, spill⟩
  · rw [hanswer] at hkept
    exact hkept
  · rw [hanswer] at hkept hspilled
    exact ⟨hkept, hspilled handle rfl⟩

theorem readSpilled_holds (handle : SpillHandle) (kept : Bytes) :
    Triple (fun c => c.Sound ops r holds ∧ holds c.spill handle kept) (Cache.readSpilled ops handle)
      (fun bytes c => c.Sound ops r holds ∧ bytes = kept) (Cache.Sound ops r holds) := by
  rintro c ⟨hc, hholds⟩
  have hkept := sound_spill hc (hretains.read_keeps handle c.spill)
  have hread := hretains.read handle c.spill kept
  rw [Cache.readSpilled, exec_ofExec]
  rcases hanswer : ops.read handle c.spill with ⟨_ | bytes, spill⟩
  · rw [hanswer] at hkept
    exact hkept
  · rw [hanswer] at hkept hread
    exact ⟨hkept, hread bytes hholds rfl⟩

theorem place_holds (hspills : ops.Spills holds) (bytes : Bytes) :
    Ensures (Cache.Sound ops r holds) (Cache.place ops bytes)
      fun stored c => stored.Holds holds c.spill bytes := by
  refine Triple.bind (Triple.get fun _ hc => hc) fun c => ?_
  split
  · exact .bind (.modify fun _ hc => ⟨hc.backed, hc.spills⟩) fun _ =>
      Triple.pure fun c hc => ⟨hc, rfl⟩
  · exact .bind (spillBytes_holds hretains hspills bytes) fun handle => .pure fun c hc => hc

end Spill

section Owner

variable {objects : List PackObject} (hr : r.Addresses objects) {object : PackObject}
  (hreach : r.Reachable object)
include hr hreach

/-- An entry at the offset of an object is an entry of that object. -/
theorem Backed.owner {s : S} {entry : CacheEntry} (h : Backed r holds s object.offset entry) :
    ∃ bytes, entry.stored.Holds holds s bytes ∧ Served r object bytes entry.objectType := by
  obtain ⟨owner, bytes, howner, hoff, hholds, hserved⟩ := h
  cases hr.unique howner hreach hoff
  exact ⟨bytes, hholds, hserved⟩

variable {objectType : Option ObjectType}

/-- An entry without a type takes the type of a new result. -/
theorem keeps_retype (hserved : Served r object bytes objectType) :
    Keeps (Cache.Sound ops r holds) (Cache.updateEntry object.offset fun entry =>
      { entry with objectType := entry.objectType.or objectType }) := by
  apply keeps_updateEntry
  intro s entry hentry
  obtain ⟨bytes', hholds, hserved'⟩ := hentry.owner hr hreach
  -- both results are what the object stands for
  obtain ⟨n, hn⟩ := hserved.bytesOnly
  obtain ⟨n', hn'⟩ := hserved'.bytesOnly
  obtain ⟨-, -, rfl⟩ := hn.unique hn'
  refine ⟨object, bytes, hreach, rfl, hholds, hserved.bytesOnly, ?_⟩
  intro t ht
  cases hold : entry.objectType with
  | none =>
    rw [hold] at ht
    exact hserved.typed t ht
  | some t' =>
    rw [hold] at ht
    exact hserved'.typed t (hold.trans ht)

theorem keeps_cacheRecent (hserved : Served r object bytes objectType) :
    Keeps (Cache.Sound ops r holds) (Cache.cacheRecent object.offset bytes objectType) := by
  refine get_bind fun c _ => ?_
  split
  · exact .pure _
  · split
    · exact (keeps_retype hr hreach hserved).bind fun _ => keeps_touchRecent _
    · refine (ofExec fun _ hc => sound_evictTo hc).bind fun _ => ?_
      refine get_bind fun c _ => ?_
      cases c.recency with
      | none => exact .throw _
      | some recency =>
        refine (keeps_linkNewer _ _ _).bind fun recency => modify fun c hc => ?_
        exact sound_insert hc rfl rfl hreach rfl hserved nofun

variable (hretains : ops.Retains holds)
include hretains

theorem keeps_store (hserved : Served r object bytes objectType) :
    Keeps (Cache.Sound ops r holds) (Cache.store ops r.limits object.offset bytes objectType) := by
  refine get_bind fun c hc => ?_
  split
  · exact keeps_cacheRecent hr hreach hserved
  · next hrecency =>
    have hspills : ops.Spills holds := hc.spills (by simpa using hrecency)
    refine (lift _).bind fun required => ?_
    split
    · exact .pure _
    · split
      · exact keeps_retype hr hreach hserved
      · refine Triple.bind (place_holds hretains hspills bytes) fun stored =>
          Triple.modify fun c hc => ?_
        exact sound_insert hc.1 rfl rfl hreach hc.2 hserved id

/-- A copy from the cache is what the object stands for. -/
theorem cachedCopy_yields : Ensures (Cache.Sound ops r holds) (Cache.cachedCopy ops object.offset)
    fun bytes _ => ∃ n, Yields r .bytesOnly n object () bytes := by
  refine Triple.bind (keeps_touchRecent _) fun _ => ?_
  refine .get_bind fun c hc => ?_
  cases hentry : c.entries[object.offset]? with
  | none => exact .throw fun _ heq => heq ▸ hc
  | some entry =>
    obtain ⟨kept, hholds, hserved⟩ := (hc.backed _ _ hentry).owner hr hreach
    dsimp only
    cases hstored : entry.stored with
    | resident bytes =>
      rw [hstored] at hholds
      refine .pure fun c' heq => ⟨heq ▸ hc, ?_⟩
      rw [show bytes = kept from hholds]
      exact hserved.bytesOnly
    | spilled handle =>
      rw [hstored] at hholds
      refine .bind ((readSpilled_holds hretains handle kept).mono
        (fun c' heq => heq ▸ ⟨hc, hholds⟩) fun _ _ h => h) fun bytes => ?_
      refine .bind (.lift (fun _ _ _ h => h) fun _ h => h.1) fun _ => ?_
      refine .pure fun c' h => ⟨h.1, ?_⟩
      rw [h.2]
      exact hserved.bytesOnly

omit hretains in
theorem cached_served : Ensures (Cache.Sound ops r holds) (Cache.cached object.offset)
    fun answer _ => ∀ length objectType, answer = some (length, objectType) →
      ∃ bytes, Served r object bytes objectType := by
  refine Triple.get_bind fun c hc => Triple.pure fun c' heq => ⟨heq ▸ hc, ?_⟩
  intro length objectType hanswer
  obtain ⟨entry, hentry, hpair⟩ := map_eq_some_iff.mp hanswer
  obtain ⟨-, rfl⟩ := mk.inj hpair
  obtain ⟨bytes, -, hserved⟩ := (hc.backed _ _ hentry).owner hr hreach
  exact ⟨bytes, hserved⟩

omit hretains in
/-- The type of a cached answer is the type of the object's base. -/
theorem answering_yields {τ : Type} {P : Provenance τ} (hfits : P.Fits r) :
    Ensures (Cache.Sound ops r holds) (Cache.answering P object.offset)
      fun answer _ => ∀ length t, answer = some (length, t) →
        ∃ n bytes, Yields r P n object t bytes := by
  refine Triple.bind (cached_served hr hreach) fun answer => ?_
  match answer with
  | none => exact .pure fun c hc => ⟨hc.1, nofun⟩
  | some (length, objectType) =>
    refine .pure fun c hc => ⟨hc.1, fun length' t ht => ?_⟩
    obtain ⟨bytes, hserved⟩ := hc.2 length objectType rfl
    obtain ⟨t', ht', hpair⟩ := map_eq_some_iff.mp ht
    obtain ⟨-, rfl⟩ := mk.inj hpair
    obtain ⟨n, hn⟩ := hfits.hit hserved ht'
    exact ⟨n, bytes, hn⟩

end Owner

/-! ### Resolution gives what the object stands for -/

section Resolve

variable {τ : Type} {P : Provenance τ}

/-- The computation keeps the cache sound and answers what an object stands
for. -/
abbrev Gives (ops : CacheSpill S) (r : ScalarResolver) (holds : S → SpillHandle → Bytes → Prop)
    (P : Provenance τ)
    (object : PackObject) (x : Caching S (Resolved τ)) : Prop :=
  Ensures (Cache.Sound ops r holds) x
    fun resolved _ => ∃ n, Yields r P n object resolved.1.1 resolved.1.2

theorem gives_admitBytes {found : Except PackError (τ × Bytes)} {acc : Accounting}
    (h : ∀ t bytes, found = .ok (t, bytes) → bytes.length ≤ r.limits.maxObjectBytes →
      ∃ n, Yields r P n object t bytes) :
    Gives ops r holds P object (liftM (r.admitBytes found acc)) := by
  refine .lift (fun resolved c hresolved hc => ⟨hc, ?_⟩) fun c hc => hc
  obtain ⟨hfound, hsize, -⟩ := admitBytes_eq_ok.mp hresolved
  exact h _ _ hfound hsize

variable {objects : List PackObject} (hr : r.Addresses objects)

/-- These are the bytes that deltas on a base are built on. -/
def Grounds (r : ScalarResolver) (P : Provenance τ) (base : DeltaBase) (t : τ) (bytes : Bytes) :
    Prop :=
  ∀ (d : DeltaObject) (result : Bytes), d.base = base →
    r.fanout base ≤ r.limits.maxDeltaFanout → Applies r.limits bytes d.program result →
    ∃ n, Yields r P n (.delta d) t result

include hr

theorem grounds_resolveBaseWith {resolve : PackObject → Accounting → Caching S (Resolved τ)}
    (hres : ∀ object acc, r.Reachable object → Gives ops r holds P object (resolve object acc))
    (base : DeltaBase) (acc : Accounting) :
    Ensures (Cache.Sound ops r holds) (r.resolveBaseWith P resolve base acc)
      fun resolved _ => Grounds r P base resolved.1.1 resolved.1.2 := by
  refine .lift_bind (fun located hlocated => ?_) fun _ hc => hc
  obtain ⟨site, acc₁⟩ := located
  obtain ⟨-, hsite⟩ := locateBase_eq_ok.mp hlocated
  cases site with
  | inPack object =>
    refine (hres object acc₁ (hr.below hsite)).mono (fun _ hc => hc) ?_
    rintro resolved c ⟨hc, n, hyields⟩
    refine ⟨hc, fun d result hbase hfanout happlies => ⟨n + 1, ?_⟩⟩
    subst hbase
    exact .inPack hfanout hsite hyields happlies
  | external id =>
    refine .lift (fun resolved c hresolved hc => ⟨hc, ?_⟩) fun _ hc => hc
    obtain ⟨hfound, hsize, -⟩ := admitBytes_eq_ok.mp hresolved
    intro d result hbase hfanout happlies
    subst hbase
    exact ⟨0, .external hfanout hsite hfound hsize happlies⟩

/-- Expansion gives what an object stands for if it is given what the object
below stands for. -/
theorem gives_expandWith {depth : ℕ} {acc : Accounting}
    {resolve : depth < r.limits.maxDeltaDepth → PackObject → Accounting → Caching S (Resolved τ)}
    (hres : ∀ h object acc, r.Reachable object →
      Gives ops r holds P object (resolve h object acc)) :
    Gives ops r holds P object (r.expandWith P depth resolve object acc) := by
  cases object with
  | base | typedBase =>
    refine gives_admitBytes fun t bytes hfound hsize => ?_
    obtain ⟨t', hroot, hpair⟩ := map_eq_ok.mp hfound
    obtain ⟨rfl, rfl⟩ := mk.inj hpair
    exact ⟨0, by constructor <;> assumption⟩
  | delta d =>
    refine .lift_bind (fun acc₁ hacc => ?_) fun _ hc => hc
    refine .lift_bind (fun nextDepth _ => ?_) fun _ hc => hc
    have hfanout := (validateFanout_eq_ok.mp hacc).2
    by_cases hdepth : depth < r.limits.maxDeltaDepth
    · rw [dif_pos hdepth]
      refine .bind (grounds_resolveBaseWith hr (hres hdepth) d.base acc₁)
        fun base => .lift (fun resolved c happly hc => ⟨hc.1, ?_⟩) fun _ hc => hc.1
      obtain ⟨acc₂, happlies, -, ht⟩ := applyTo_eq_ok.mp happly
      rw [← ht]
      exact hc.2 d _ rfl hfanout ⟨_, _, happlies⟩
    · rw [dif_neg hdepth]
      exact .lift (fun _ _ herror _ => nomatch herror) fun _ hc => hc

/-- Cached resolution gives what the object stands for. -/
theorem gives_resolveObjectWith (hfits : P.Fits r) (hretains : ops.Retains holds)
    (hreach : r.Reachable object) (depth : ℕ) (stack : List ℕ) (acc : Accounting) :
    Gives ops r holds P object (Cache.resolveObjectWith ops r P object depth stack acc) := by
  -- induction on the levels the depth limit leaves
  induction hlevels : r.limits.maxDeltaDepth - depth using Nat.strongRecOn
    generalizing object depth stack acc with
  | ind levels ih =>
    rw [Cache.resolveObjectWith]
    refine Triple.bind (answering_yields hr hreach hfits) fun answer => ?_
    match answer with
    | some (length, t) =>
      intro c hc
      obtain ⟨n, bytes, hyields⟩ := hc.2 length t rfl
      have hcopy : Gives ops r holds P object (do
          let acc ← liftM (acc.addWork r.limits length)
          let bytes ← Cache.cachedCopy ops object.offset
          return ((t, bytes), acc)) := by
        refine .lift_bind (fun acc₁ _ => ?_) fun _ hc => hc
        refine .bind (cachedCopy_yields hr hreach hretains) fun copied => ?_
        refine .pure fun c' hc' => ⟨hc'.1, n, ?_⟩
        -- the copy and the answer's own bytes are one object's bytes
        obtain ⟨m, hm⟩ := (hfits.stored hyields).bytesOnly
        obtain ⟨m', hm'⟩ := hc'.2
        obtain ⟨-, -, rfl⟩ := hm.unique hm'
        exact hyields
      exact hcopy c hc.1
    | none =>
      refine Triple.mono (P := Cache.Sound ops r holds) ?_ (fun _ hc => hc.1) fun _ _ h => h
      dsimp only
      split
      · exact .throw fun _ hc => hc
      · refine .bind (gives_expandWith hr fun hdepth base acc hbase => ?_) fun resolved => ?_
        · exact ih _ (by omega) hbase (depth + 1) _ acc rfl
        · intro c hc
          obtain ⟨n, hyields⟩ := hc.2
          have hstore : Gives ops r holds P object (do
              Cache.store ops r.limits object.offset resolved.1.2 (P.stored resolved.1.1)
              return resolved) :=
            Triple.bind (keeps_store hr hreach hretains (hfits.stored hyields))
              fun _ => .pure fun c' hc' => ⟨hc', n, hyields⟩
          exact hstore c hc.1

end Resolve

end Keeps

/-! ### Calls -/

/-- The answer to a call is what the object of the call stands for. -/
inductive StandsFor (r : ScalarResolver) : ResolveCall → ResolveAnswer → Prop
  | offset {offset n : ℕ} {object : PackObject} {bytes : Bytes}
      (hfound : r.atOffset offset = .ok (some object))
      (hyields : Yields r .bytesOnly n object () bytes) :
      StandsFor r (.offset offset) (.bytes bytes)
  | offsetTyped {offset n : ℕ} {object : PackObject} {t : ObjectType} {bytes : Bytes}
      (hfound : r.atOffset offset = .ok (some object))
      (hyields : Yields r .typed n object t bytes) :
      StandsFor r (.offsetTyped offset) (.typed (t, bytes))
  | idTyped {id : GitOid} {n : ℕ} {object : PackObject} {t : ObjectType} {bytes : Bytes}
      (hfound : r.atId id = .ok (some object)) (hyields : Yields r .typed n object t bytes) :
      StandsFor r (.idTyped id) (.typed (t, bytes))

section Cached

variable {S : Type} {objects : List PackObject} {holds : S → SpillHandle → Bytes → Prop}
  {ops : CacheSpill S} (hr : r.Addresses objects) (hretains : ops.Retains holds)
include hr hretains

theorem gives_resolveFound {τ : Type} {P : Provenance τ} (hfits : P.Fits r)
    {lookup : Except PackError (Option PackObject)}
    (hlookup : ∀ object, lookup = .ok (some object) → r.Reachable object)
    {found : Except PackError (Option PackObject × Accounting)}
    (hfound : ∀ object acc, found = .ok (object, acc) → lookup = .ok object)
    {Q : τ → Bytes → Prop} (hQ : ∀ {n object t bytes}, lookup = .ok (some object) →
      Yields r P n object t bytes → Q t bytes) :
    Ensures (Cache.Sound ops r holds) (resolveFound (Cache.resolveObjectWith ops r P) found)
      fun resolved _ => Q resolved.1.1 resolved.1.2 := by
  refine .lift_bind (fun answer hanswer => ?_) fun _ hc => hc
  obtain ⟨object | object, acc⟩ := answer
  · exact .lift (fun _ _ herror _ => nomatch herror) fun _ hc => hc
  · have hlook := hfound _ _ hanswer
    refine (gives_resolveObjectWith hr hfits hretains (hlookup object hlook) 0 [] acc).mono
      (fun _ hc => hc) ?_
    rintro resolved c ⟨hc, n, hyields⟩
    exact ⟨hc, hQ hlook hyields⟩

theorem cached_standsFor (hagree : r.externalBases.TypesAgree) (call : ResolveCall) :
    Ensures (Cache.Sound ops r holds) (Cache.answer ops r call)
      fun answer _ => StandsFor r call answer := by
  cases call with
  | offset offset =>
    exact .map (.map (gives_resolveFound (Q := fun _ b => StandsFor r _ (.bytes b)) hr hretains
      (fits_bytesOnly _) (fun _ => hr.atOffset) (fun _ _ h => (findByOffset_eq_ok.mp h).2) .offset))
  | offsetTyped offset =>
    exact .map (.map (gives_resolveFound (Q := fun t b => StandsFor r _ (.typed (t, b))) hr hretains
      (fits_typed hagree) (fun _ => hr.atOffset) (fun _ _ h => (findByOffset_eq_ok.mp h).2)
      .offsetTyped))
  | idTyped id =>
    exact .map (.map (gives_resolveFound (Q := fun t b => StandsFor r _ (.typed (t, b))) hr hretains
      (fits_typed hagree) (fun _ h => .inr ⟨id, h⟩)
        (fun _ _ h => (findById_eq_ok.mp h).2) .idTyped))

end Cached

/-! ### Runs -/

namespace CachedResolver

variable {S : Type}

/-- A resolver that one of the constructors built. -/
inductive Built (objects : List PackObject) (externalBases : ExternalBaseLookup)
    (limits : PackLimits) : {S : Type} → CachedResolver S → Prop
  | default {c : CachedResolver Unit} (h : new objects externalBases limits = .ok c) :
      Built objects externalBases limits c
  | spilling {S : Type} {ops : CacheSpill S} (hfaithful : ops.Faithful) {spill : S} {budget : ℕ}
      {c : CachedResolver S} (h : withSpill objects externalBases limits ops spill budget = .ok c) :
      Built objects externalBases limits c
  | recency {S : Type} {ops : CacheSpill S} {spill : S} {budget : ℕ} {c : CachedResolver S}
      (h : withResidentRecency objects externalBases limits ops spill budget = .ok c) :
      Built objects externalBases limits c

end CachedResolver

variable {externalBases : ExternalBaseLookup} {limits : PackLimits} {objects : List PackObject}

theorem ScalarResolver.new_eq_ok : new objects externalBases limits = .ok r ↔
      objects.length ≤ u32Max ∧ objects.length ≤ limits.maxEntries ∧
        (∀ object ∈ objects, checkObject limits object = .ok ()) ∧
        r = index objects externalBases limits := by
  simp only [new, bind_eq_ok, refuseIf_eq_ok, pure_eq_ok, not_lt]
  constructor
  · rintro ⟨-, hcount, -, hentr, ⟨⟩, hobjs, rfl⟩
    exact ⟨hcount, hentr, (forM_eq_ok _).mp hobjs, rfl⟩
  · rintro ⟨hcount, hentr, hobjs, rfl⟩
    exact ⟨(), hcount, (), hentr, (), (forM_eq_ok _).mpr hobjs, rfl⟩

/-- A resolver in the middle of a run. -/
structure CachedResolver.Ready {S : Type} (r : ScalarResolver)
    (holds : S → SpillHandle → Bytes → Prop) (c : CachedResolver S) : Prop where
  scalar : c.scalar = r
  retains : c.spillOps.Retains holds
  sound : c.cache.Sound c.spillOps r holds

theorem CachedResolver.Built.ready {S : Type} {c : CachedResolver S}
    (h : Built objects externalBases limits c) :
    (∃ r, ScalarResolver.new objects externalBases limits = .ok r) ∧
      ∃ holds, c.Ready (index objects externalBases limits) holds := by
  have hempty : ∀ (S : Type) (holds : S → SpillHandle → Bytes → Prop) (spill : S) (offset : ℕ)
      (entry : CacheEntry), (∅ : BTreeMap ℕ CacheEntry)[offset]? = some entry →
      Backed (index objects externalBases limits) holds spill offset entry := by
    intro S holds spill offset entry hentry
    rw [Std.ExtTreeMap.getElem?_empty] at hentry
    cases hentry
  cases h with
  | default h =>
    obtain ⟨r, hr, hc⟩ := bind_eq_ok.mp h
    cases hc
    obtain ⟨-, -, -, rfl⟩ := new_eq_ok.mp hr
    refine ⟨⟨_, hr⟩, fun _ _ _ => False, rfl, ⟨nofun, nofun, nofun⟩, hempty _ _ _, ?_⟩
    intro _ bytes s handle hspilled
    cases hspilled
  | spilling hfaithful h =>
    obtain ⟨r, hr, hc⟩ := bind_eq_ok.mp h
    cases hc
    obtain ⟨-, -, -, rfl⟩ := new_eq_ok.mp hr
    obtain ⟨holds, hretains, hspills⟩ := hfaithful
    exact ⟨⟨_, hr⟩, holds, rfl, hretains, hempty _ _ _, fun _ => hspills⟩
  | recency h =>
    obtain ⟨c, hc, hrecency⟩ := bind_eq_ok.mp h
    obtain ⟨r, hr, hc⟩ := bind_eq_ok.mp hc
    cases hc
    cases hrecency
    obtain ⟨-, -, -, rfl⟩ := new_eq_ok.mp hr
    exact ⟨⟨_, hr⟩, fun _ _ _ => False, rfl, ⟨nofun, nofun, nofun⟩, hempty _ _ _, nofun⟩

section Run

variable {S : Type} {objects : List PackObject} {holds : S → SpillHandle → Bytes → Prop}
  (hr : r.Addresses objects) (hagree : r.externalBases.TypesAgree) {c : CachedResolver S}
include hr hagree

/-- One call leaves the resolver ready, whatever it answers. -/
theorem ready_call (hc : c.Ready r holds) (call : ResolveCall) : (c.call call).2.Ready r holds := by
  obtain ⟨scalar, ops, cache⟩ := c
  obtain ⟨rfl, hretains, hsound⟩ := hc
  have hkeeps : Keeps (Cache.Sound ops scalar holds) (Cache.answer ops scalar call) :=
    (cached_standsFor hr hretains hagree call).mono (fun _ h => h) fun _ _ h => h.1
  exact ⟨rfl, hretains, hkeeps.exec_snd hsound⟩

theorem ready_afterCalls (hc : c.Ready r holds) (calls : List ResolveCall) :
    (c.afterCalls calls).Ready r holds := by
  induction calls generalizing c with
  | nil => exact hc
  | cons call calls ih => exact ih (ready_call hr hagree hc call)

theorem standsFor_call (hc : c.Ready r holds) {call : ResolveCall} {answer : ResolveAnswer}
    (h : (c.call call).1 = .ok answer) : StandsFor r call answer := by
  obtain ⟨scalar, ops, cache⟩ := c
  obtain ⟨rfl, hretains, hsound⟩ := hc
  exact ((cached_standsFor hr hretains hagree call).answer hsound h).2

end Run

/-- The budgets that a chain over every object takes, and everything else the
same. -/
structure PackLimits.Ample (limits : PackLimits) (objects : List PackObject)
    (limits' : PackLimits) : Prop where
  shape : limits.SameShape limits'
  depth : objects.length ≤ limits'.maxDeltaDepth
  expanded : (objects.length + 1) * limits.maxObjectBytes ≤ limits'.maxTotalExpandedBytes
  work : max 1 objects.length.size
    + (objects.length + 1) * (limits.maxObjectBytes + 2 * max 1 objects.length.size)
      ≤ limits'.maxDeltaWork

section Scalar

variable {objects : List PackObject} {externalBases : ExternalBaseLookup}
  {limits limits' : PackLimits} (hids : OffsetsIdentify objects)
  (hcount : objects.length ≤ u32Max) (hample : limits.Ample objects limits')
include hids hcount hample

theorem resolveFound_of_yields {τ : Type} {P : Provenance τ} {n : ℕ} {t : τ}
    {found : Except PackError (Option PackObject × Accounting)}
    (hreach : (index objects externalBases limits).Reachable object)
    (hyields : Yields (index objects externalBases limits) P n object t bytes)
    (hfound : found = .ok (some object, ⟨0, 0 + max 1 objects.length.size⟩)) :
    ∃ acc, resolveFound ((index objects externalBases limits').resolveObjectWith P) found
      = .ok ((t, bytes), acc) := by
  have hroom : Room objects limits limits' (objects.length - ([] : List ℕ).length + 1)
      ⟨0, 0 + max 1 objects.length.size⟩ := by
    refine ⟨?_, ?_⟩
    · rw [length_nil, Nat.sub_zero, Nat.zero_add]
      exact hample.expanded
    · rw [length_nil, Nat.sub_zero, Nat.zero_add]
      exact hample.work
  obtain ⟨acc, hres, -⟩ :=
    resolveObjectWith_of_yields (addresses_index hids) hcount hample.shape hample.depth
    hyields hreach ⟨nodup_nil, nofun⟩ hroom
  exact ⟨acc, bind_eq_ok.mpr ⟨_, hfound, hres⟩⟩

/-- With ample limits, the scalar resolver answers what the object of a call
stands for. -/
theorem answer_of_standsFor {call : ResolveCall} {answer : ResolveAnswer}
    (h : StandsFor (index objects externalBases limits) call answer) :
    (index objects externalBases limits').answer call = .ok answer := by
  have hcost : (fresh).addWork limits' (max 1 objects.length.size)
      = .ok ⟨0, 0 + max 1 objects.length.size⟩ := by
    refine addWork_eq_ok.mpr ⟨?_, rfl⟩
    rw [fresh, zero_add]
    exact (le_add_right _ _).trans hample.work
  cases h with
  | offset hfound hyields | offsetTyped hfound hyields =>
    obtain ⟨acc, h⟩ :=
      resolveFound_of_yields hids hcount hample ((addresses_index hids).atOffset hfound)
      hyields (findByOffset_eq_ok (r := index objects externalBases limits').mpr ⟨hcost, hfound⟩)
    exact map_eq_ok.mpr ⟨_, map_eq_ok.mpr ⟨_, h, rfl⟩, rfl⟩
  | idTyped hfound hyields =>
    obtain ⟨acc, h⟩ := resolveFound_of_yields hids hcount hample (.inr ⟨_, hfound⟩) hyields
      (findById_eq_ok (r := index objects externalBases limits').mpr ⟨hcost, hfound⟩)
    exact map_eq_ok.mpr ⟨_, map_eq_ok.mpr ⟨_, h, rfl⟩, rfl⟩

end Scalar

/-! ### Agreement -/

/-- The budgets of resolution do not matter to the constructor. -/
theorem new_shape {limits' : PackLimits} (h : limits.SameShape limits')
    (hnew : new objects externalBases limits = .ok r) :
    new objects externalBases limits' = .ok (index objects externalBases limits') := by
  obtain ⟨hcount, hentr, hobjs, -⟩ := new_eq_ok.mp hnew
  refine new_eq_ok.mpr ⟨hcount, h.entries ▸ hentr, fun object hmem => ?_, rfl⟩
  have hobj := hobjs object hmem
  cases object <;>
    simp only [checkObject, PackLimits.objectSize, PackLimits.input, refuseIf_eq_ok, h.object,
      h.input] at hobj ⊢ <;> exact hobj

/-- **Cached resolution is scalar resolution.**  Whatever calls were made
before, and whether they failed or not, an answer of the cached resolver is
the answer of a fresh scalar resolver with budgets for a whole chain. -/
theorem cached_answers_scalar {S : Type} {objects : List PackObject}
    {externalBases : ExternalBaseLookup} {limits limits' : PackLimits} {c : CachedResolver S}
    (hbuilt : c.Built objects externalBases limits) (hids : OffsetsIdentify objects)
    (hagree : externalBases.TypesAgree) (calls : List ResolveCall) {call : ResolveCall}
    {answer : ResolveAnswer} (hanswer : ((c.afterCalls calls).call call).1 = .ok answer)
    (hample : limits.Ample objects limits') :
    ∃ r, ScalarResolver.new objects externalBases limits' = .ok r ∧ r.answer call = .ok answer := by
  obtain ⟨⟨r, hnew⟩, holds, hready⟩ := hbuilt.ready
  have hr : (index objects externalBases limits).Addresses objects := addresses_index hids
  have hstands := standsFor_call hr hagree (ready_afterCalls hr hagree hready calls) hanswer
  exact ⟨_, new_shape hample.shape hnew,
    answer_of_standsFor hids (new_eq_ok.mp hnew).1 hample hstands⟩

/-- Limits far above what the packs below use. -/
def smallPackLimits : PackLimits where
  maxInputBytes := 1000
  maxEntries := 10
  maxObjectBytes := 100
  maxDeltaDepth := 8
  maxDeltaFanout := 8
  maxTotalExpandedBytes := 10000
  maxDeltaWork := 10000
  maxCachedBytes := 1000
  maxIndexEntries := 10
  maxTotalExpandedBytes_fits := by decide
  maxDeltaWork_fits := by decide

/-- No external bases. -/
def noBases : ExternalBaseLookup := ⟨fun _ => none, fun _ => none⟩

/-- A blob and a delta that appends one byte to it. -/
def blobAndDelta : List PackObject :=
  [.typedBase 1 (some ⟨.sha1, 1⟩) .blob [97, 98],
    .delta ⟨2, some ⟨.sha1, 2⟩, .ofs 1, [2, 3, 0x90, 2, 1, 99]⟩]

/-- The resolver that the default constructor builds. -/
def freshResolver (objects : List PackObject) (externalBases : ExternalBaseLookup)
    (limits : PackLimits) : CachedResolver Unit :=
  ⟨index objects externalBases limits, residentCache, ∅, 0, u64Max, 0, (), none⟩

theorem cached_answers_scalar_delta :
    ∃ r, ScalarResolver.new blobAndDelta noBases smallPackLimits = .ok r ∧
      r.answer (.offsetTyped 2) = .ok (.typed (.blob, [97, 98, 99])) := by
  have hnew : new blobAndDelta noBases smallPackLimits
      = .ok (index blobAndDelta noBases smallPackLimits) :=
    new_eq_ok.mpr ⟨by decide, by decide, by decide, rfl⟩
  have hids : OffsetsIdentify blobAndDelta := by
    unfold OffsetsIdentify
    decide
  have hample : smallPackLimits.Ample blobAndDelta smallPackLimits :=
    ⟨⟨rfl, rfl, rfl, rfl⟩, by decide, by decide, by decide⟩
  have hbuilt : (freshResolver blobAndDelta noBases smallPackLimits).Built _ _ _ :=
    .default (bind_eq_ok.mpr ⟨_, hnew, rfl⟩)
  exact cached_answers_scalar hbuilt hids (fun _ _ _ h => nomatch h)
    [.offset 2, .idTyped ⟨.sha1, 1⟩] (by decide +kernel) hample

/-- Two blobs at one offset. -/
def twins : List PackObject :=
  [.typedBase 1 (some ⟨.sha1, 1⟩) .blob [97], .typedBase 1 (some ⟨.sha1, 2⟩) .blob [98]]

/-- A delta that copies an external base of one byte. -/
def thinDelta : List PackObject := [.delta ⟨1, none, .ref ⟨.sha1, 1⟩, [1, 1, 0x90, 1]⟩]

/-- A lookup whose typed answer has other bytes. -/
def twoFaced : ExternalBaseLookup := ⟨fun _ => some [97], fun _ => some (.blob, [98])⟩

/-- Without the conditions the cache answers something else: the second of
two blobs at one offset comes out as the first, and a byte-only call is
answered with the bytes of a typed one. -/
theorem cached_differs :
    (((freshResolver twins noBases smallPackLimits).afterCalls [.idTyped ⟨.sha1, 1⟩]).call
        (.idTyped ⟨.sha1, 2⟩)).1 = .ok (.typed (.blob, [97])) ∧
      smallPackLimits.Ample twins smallPackLimits ∧
      (∀ limits', smallPackLimits.Ample twins limits' →
        ∃ r, ScalarResolver.new twins noBases limits' = .ok r ∧
          r.answer (.idTyped ⟨.sha1, 2⟩) = .ok (.typed (.blob, [98]))) ∧
    (((freshResolver thinDelta twoFaced smallPackLimits).afterCalls [.offsetTyped 1]).call
        (.offset 1)).1 = .ok (.bytes [98]) ∧
      smallPackLimits.Ample thinDelta smallPackLimits ∧
      (∀ limits', smallPackLimits.Ample thinDelta limits' →
        ∃ r, ScalarResolver.new thinDelta twoFaced limits' = .ok r ∧
          r.answer (.offset 1) = .ok (.bytes [97])) := by
  have hnew : new twins noBases smallPackLimits = .ok _ :=
    new_eq_ok.mpr ⟨by decide, by decide, by decide, rfl⟩
  have hnew' : new thinDelta twoFaced smallPackLimits = .ok _ :=
    new_eq_ok.mpr ⟨by decide, by decide, by decide, rfl⟩
  refine ⟨by decide +kernel, ⟨⟨rfl, rfl, rfl, rfl⟩, by decide, by decide, by decide⟩, ?_,
    by decide +kernel, ⟨⟨rfl, rfl, rfl, rfl⟩, by decide, by decide, by decide⟩, ?_⟩
  · intro limits' hample
    refine ⟨_, new_shape hample.shape hnew, ?_⟩
    have hcost : max 1 twins.length.size = 2 := by decide
    have hwork := hample.work
    rw [hcost] at hwork
    have hfind : (index twins noBases limits').findById ⟨.sha1, 2⟩ .fresh
        = .ok (some (.typedBase 1 (some ⟨.sha1, 2⟩) .blob [98]), ⟨0, 2⟩) := by
      refine findById_eq_ok.mpr ⟨addWork_eq_ok.mpr ⟨?_, by rw [← hcost]; rfl⟩, ?_⟩
      · show 0 + max 1 twins.length.size ≤ limits'.maxDeltaWork
        omega
      · show (index twins noBases smallPackLimits).atId ⟨.sha1, 2⟩ = _
        decide +kernel
    have hroom : Room twins smallPackLimits limits' (2 + 1) ⟨0, 2⟩ := by
      refine ⟨?_, ?_⟩
      · rw [zero_add]
        exact hample.expanded
      · rw [hcost]
        exact hwork
    obtain ⟨acc, hadmits, -⟩ : ∃ acc, (index twins noBases limits').admitBytes
        (.ok (ObjectType.blob, [98])) ⟨0, 2⟩ = .ok ((.blob, [98]), acc) ∧ _ :=
      admitBytes_of_room hample.shape rfl (by decide) hroom
    have hres : (index twins noBases limits').resolveObjectTyped
        (.typedBase 1 (some ⟨.sha1, 2⟩) .blob [98]) 0 [] ⟨0, 2⟩ = .ok ((.blob, [98]), acc) := by
      rw [resolveObjectTyped, resolveObjectWith, if_neg not_mem_nil]
      exact hadmits
    exact map_eq_ok.mpr ⟨_, map_eq_ok.mpr ⟨_, bind_eq_ok.mpr ⟨_, hfind, hres⟩, rfl⟩, rfl⟩
  · intro limits' hample
    refine ⟨_, new_shape hample.shape hnew', ?_⟩
    have hids : OffsetsIdentify thinDelta := by
      unfold OffsetsIdentify
      decide
    have happlies : Applies smallPackLimits [97] [1, 1, 0x90, 1] [97] :=
      ⟨.fresh, ⟨0, 1⟩, by decide +kernel⟩
    have hsite : (index thinDelta twoFaced smallPackLimits).siteOf (.ref ⟨.sha1, 1⟩)
        = .ok (.external ⟨.sha1, 1⟩) := by decide +kernel
    have hyields : Yields (index thinDelta twoFaced smallPackLimits) .bytesOnly 0
        (.delta ⟨1, none, .ref ⟨.sha1, 1⟩, [1, 1, 0x90, 1]⟩) () [97] :=
      .external (by decide +kernel) hsite rfl (by decide) happlies
    exact answer_of_standsFor hids (by decide) hample (.offset (by decide +kernel) hyields)

end Frankengit.Pack
