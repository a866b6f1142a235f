/-
Frankengit/TreeFs/Capability.lean

Workspace capabilities (`fgit-treefs`, `capability.rs`).  A capability names
what may be read and written, until when, and how much may be fetched; the
fetched totals are kept once for a whole delegation tree.

`Within` compares two capabilities field by field.  A capability within another
gives no grant that the other does not (`Within.admits`), and it charges the
shared totals only below the other's ceilings.  Attenuating, copying, charging
and revoking stay within; the setters replace a field by any value, so they
stay within only if the new value is no wider (`Delegation.narrowing`).  The
totals saturate, and a charge that saturates is not counted in full.
-/
import Frankengit.Lib.Fallible
import Frankengit.Lib.Run
import Frankengit.TreeFs.Path

namespace Frankengit.TreeFs

open Fallible List TreePath Except

/-- The number that the bytes of the identity spell. -/
abbrev WorkspaceId := ℕ

inductive SymlinkPolicy where
  | dataOnly | refuse
deriving DecidableEq

inductive CapabilityRefusal where
  | readOutsideScope (path : TreePath)
  | writeOutsideScope (path : TreePath)
  | expired (expiresAt observed : ℕ)
  | revoked
  | symlinkRefused (path : TreePath)
  | fetchBudgetExceeded (consumed requested budget : ℕ)
  | fileBudgetExceeded (consumed budget : ℕ)
  | attenuationWouldWiden (path : TreePath)
deriving DecidableEq

inductive GrantScope where
  | root
  | path (path : TreePath)
  | directoryTraversal (path : TreePath)
deriving DecidableEq

structure ReadGrant where
  workspaceId : WorkspaceId
  scope : GrantScope
deriving DecidableEq

/-- A grant that another one covers: the same, or the passage through a
directory that the other may read. -/
def ReadGrant.CoveredBy (grant wider : ReadGrant) : Prop :=
  grant = wider ∨
    ∃ path, grant.scope = .directoryTraversal path ∧ wider = ⟨grant.workspaceId, .path path⟩

structure WriteGrant where
  workspaceId : WorkspaceId
  path : TreePath
deriving DecidableEq

def saturatingAdd (a b : ℕ) : ℕ := min (a + b) u64Max

/-- What a delegation tree has charged. -/
structure FetchCounters where
  bytes : ℕ
  files : ℕ
deriving DecidableEq

/-- Charge the totals if both ceilings admit the charge; a refusal returns them
as they are. -/
def FetchCounters.charge (counters : FetchCounters) (bytes maxBytes maxFiles : ℕ) :
    Except FetchCounters FetchCounters :=
  if maxFiles < saturatingAdd counters.files 1 then .error counters
  else if maxBytes < saturatingAdd counters.bytes bytes then .error counters
  else .ok ⟨saturatingAdd counters.bytes bytes, saturatingAdd counters.files 1⟩

/-- A capability without the cell of the shared totals, which is passed along
beside it. -/
structure TreeCapability where
  workspaceId : WorkspaceId
  repositoryId : RepositoryId
  readPrefixes : List TreePath
  writePrefixes : List TreePath
  symlinkPolicy : SymlinkPolicy
  maxFetchBytes : ℕ
  maxFileCount : ℕ
  expiresAt : Option ℕ
  revoked : Bool
  fetchedBytes : ℕ
  fetchedFiles : ℕ

variable {ledger : FetchCounters}

namespace TreeCapability

def new (workspaceId : WorkspaceId) (repositoryId : RepositoryId)
    (readPrefixes writePrefixes : List TreePath) : TreeCapability where
  workspaceId := workspaceId
  repositoryId := repositoryId
  readPrefixes := readPrefixes
  writePrefixes := writePrefixes
  symlinkPolicy := .dataOnly
  maxFetchBytes := u64Max
  maxFileCount := u64Max
  expiresAt := none
  revoked := false
  fetchedBytes := 0
  fetchedFiles := 0

def withSymlinkPolicy (c : TreeCapability) (policy : SymlinkPolicy) : TreeCapability :=
  { c with symlinkPolicy := policy }

def withFetchBudget (c : TreeCapability) (budget : ℕ) : TreeCapability :=
  { c with maxFetchBytes := budget }

def withFileBudget (c : TreeCapability) (budget : ℕ) : TreeCapability :=
  { c with maxFileCount := budget }

def withExpiry (c : TreeCapability) (expiresAt : ℕ) : TreeCapability :=
  { c with expiresAt := some expiresAt }

def revoke (c : TreeCapability) : TreeCapability := { c with revoked := true }

def checkLive (c : TreeCapability) (now : ℕ) : Except CapabilityRefusal Unit :=
  if c.revoked then .error .revoked
  else
    match c.expiresAt with
    | some expiresAt => if expiresAt ≤ now then .error (.expired expiresAt now) else .ok ()
    | none => .ok ()

def authorizeRead (c : TreeCapability) (path : TreePath) (now : ℕ) :
    Except CapabilityRefusal ReadGrant := do
  c.checkLive now
  if c.readPrefixes.any path.startsWith then return ⟨c.workspaceId, .path path⟩
  else throw (.readOutsideScope path)

def authorizeDirectory (c : TreeCapability) (path : TreePath) (now : ℕ) :
    Except CapabilityRefusal ReadGrant := do
  c.checkLive now
  if c.readPrefixes.any path.startsWith then return ⟨c.workspaceId, .path path⟩
  else if c.readPrefixes.any (·.startsWith path) then
    return ⟨c.workspaceId, .directoryTraversal path⟩
  else throw (.readOutsideScope path)

/-- The path that a refusal of the root names. -/
def rootLabel : TreePath := ⟨[ascii "<root>"], by decide, by decide⟩

def authorizeRoot (c : TreeCapability) (now : ℕ) : Except CapabilityRefusal ReadGrant := do
  c.checkLive now
  if c.readPrefixes.isEmpty then throw (.readOutsideScope rootLabel)
  else return ⟨c.workspaceId, .root⟩

def authorizeWrite (c : TreeCapability) (path : TreePath) (now : ℕ) :
    Except CapabilityRefusal WriteGrant := do
  c.checkLive now
  if c.readPrefixes.any path.startsWith then
    if c.writePrefixes.any path.startsWith then return ⟨c.workspaceId, path⟩
    else throw (.writeOutsideScope path)
  else throw (.readOutsideScope path)

def checkSymlink (c : TreeCapability) (path : TreePath) : Except CapabilityRefusal Unit :=
  match c.symlinkPolicy with
  | .dataOnly => .ok ()
  | .refuse => .error (.symlinkRefused path)

/-- Charge a served object.  The totals of the tree decide; a refusal reports
what this capability has charged. -/
def chargeFetch (c : TreeCapability) (ledger : FetchCounters) (bytes : ℕ) :
    Except CapabilityRefusal (TreeCapability × FetchCounters) :=
  match ledger.charge bytes c.maxFetchBytes c.maxFileCount with
  | .ok ledger =>
    .ok ({ c with
      fetchedFiles := saturatingAdd c.fetchedFiles 1
      fetchedBytes := saturatingAdd c.fetchedBytes bytes }, ledger)
  | .error totals =>
    if c.maxFileCount < saturatingAdd totals.files 1 then
      .error (.fileBudgetExceeded c.fetchedFiles c.maxFileCount)
    else .error (.fetchBudgetExceeded c.fetchedBytes bytes c.maxFetchBytes)

/-- The first of the requested prefixes that no held one contains. -/
def widening (held requested : List TreePath) : Option TreePath :=
  requested.find? fun p => !held.any p.startsWith

def attenuate (c : TreeCapability) (readPrefixes writePrefixes : List TreePath) :
    Except CapabilityRefusal TreeCapability :=
  match widening c.readPrefixes readPrefixes with
  | some path => .error (.attenuationWouldWiden path)
  | none =>
    match widening c.writePrefixes writePrefixes with
    | some path => .error (.attenuationWouldWiden path)
    | none => .ok { c with readPrefixes, writePrefixes }

/-! ### When a grant is given -/

variable {c d e : TreeCapability} {path : TreePath} {now bytes : ℕ}

theorem checkLive_ok :
    c.checkLive now = .ok () ↔ c.revoked = false ∧ ∀ e ∈ c.expiresAt, now < e := by
  unfold checkLive
  cases c.revoked with
  | true => simp
  | false => cases c.expiresAt <;> simp

theorem live_then {α : Type} {k : Except CapabilityRefusal α} {a : α} :
    (do c.checkLive now; k) = .ok a ↔ c.checkLive now = .ok () ∧ k = .ok a := by
  cases c.checkLive now with
  | error refusal | ok u => simp

variable {grant : ReadGrant}

theorem authorizeRead_ok : c.authorizeRead path now = .ok grant ↔
    c.checkLive now = .ok () ∧ c.readPrefixes.any path.startsWith ∧
      ⟨c.workspaceId, .path path⟩ = grant := by
  rw [authorizeRead, live_then]
  split_ifs with h <;> simp [h]

theorem authorizeDirectory_ok : c.authorizeDirectory path now = .ok grant ↔
    c.checkLive now = .ok () ∧ ((c.readPrefixes.any path.startsWith ∧
        ⟨c.workspaceId, .path path⟩ = grant) ∨
      (¬ c.readPrefixes.any path.startsWith ∧ c.readPrefixes.any (·.startsWith path) ∧
        ⟨c.workspaceId, .directoryTraversal path⟩ = grant)) := by
  rw [authorizeDirectory, live_then]
  split_ifs with h h' <;> simp [*]

theorem authorizeRoot_ok : c.authorizeRoot now = .ok grant ↔
    c.checkLive now = .ok () ∧ c.readPrefixes ≠ [] ∧ ⟨c.workspaceId, .root⟩ = grant := by
  rw [authorizeRoot, live_then]
  cases c.readPrefixes <;> simp

theorem authorizeWrite_ok {grant : WriteGrant} : c.authorizeWrite path now = .ok grant ↔
    c.checkLive now = .ok () ∧ c.readPrefixes.any path.startsWith ∧
      c.writePrefixes.any path.startsWith ∧ ⟨c.workspaceId, path⟩ = grant := by
  rw [authorizeWrite, live_then]
  split_ifs with h h' <;> simp [*]

theorem checkSymlink_ok : c.checkSymlink path = .ok () ↔ c.symlinkPolicy ≠ .refuse := by
  unfold checkSymlink
  cases c.symlinkPolicy <;> simp

/-- A charge that is admitted ends below both ceilings. -/
theorem chargeFetch_ok {ledger' : FetchCounters}
    (h : c.chargeFetch ledger bytes = .ok (d, ledger')) :
    (saturatingAdd ledger.files 1 ≤ c.maxFileCount ∧
      saturatingAdd ledger.bytes bytes ≤ c.maxFetchBytes) ∧
    ledger' = ⟨saturatingAdd ledger.bytes bytes, saturatingAdd ledger.files 1⟩ ∧ d = { c with
      fetchedFiles := saturatingAdd c.fetchedFiles 1
      fetchedBytes := saturatingAdd c.fetchedBytes bytes } := by
  unfold chargeFetch FetchCounters.charge at h
  by_cases hfiles : c.maxFileCount < saturatingAdd ledger.files 1
  · simp [hfiles] at h
  · by_cases hbytes : c.maxFetchBytes < saturatingAdd ledger.bytes bytes
    · simp [hfiles, hbytes] at h
    · simp only [hfiles, hbytes, if_false, ok.injEq, Prod.mk.injEq] at h
      exact ⟨⟨not_lt.mp hfiles, not_lt.mp hbytes⟩, h.2.symm, h.1.symm⟩

theorem widening_eq_none {held requested : List TreePath} (h : widening held requested = none)
    (p : TreePath) (hp : p ∈ requested) : ∃ q ∈ held, p.startsWith q := by
  have := find?_eq_none.mp h p hp
  simpa using this

theorem attenuate_ok {readPrefixes writePrefixes : List TreePath}
    (h : c.attenuate readPrefixes writePrefixes = .ok d) :
    widening c.readPrefixes readPrefixes = none ∧ widening c.writePrefixes writePrefixes = none ∧
      d = { c with readPrefixes, writePrefixes } := by
  unfold attenuate at h
  split at h
  · cases h
  · split at h
    · cases h
    · exact ⟨‹_›, ‹_›, (ok.inj h).symm⟩

/-! ### Narrower capabilities -/

/-- `d` is nowhere wider than `c`. -/
structure Within (d c : TreeCapability) : Prop where
  workspace : d.workspaceId = c.workspaceId
  read : ∀ p ∈ d.readPrefixes, ∃ q ∈ c.readPrefixes, p.startsWith q
  write : ∀ p ∈ d.writePrefixes, ∃ q ∈ c.writePrefixes, p.startsWith q
  symlinks : c.symlinkPolicy = .refuse → d.symlinkPolicy = .refuse
  expiry : ∀ e ∈ c.expiresAt, ∃ e' ∈ d.expiresAt, e' ≤ e
  revoked : c.revoked = true → d.revoked = true
  bytes : d.maxFetchBytes ≤ c.maxFetchBytes
  files : d.maxFileCount ≤ c.maxFileCount

theorem Within.refl (c : TreeCapability) : Within c c where
  workspace := rfl
  read p hp := ⟨p, hp, p.startsWith_refl⟩
  write p hp := ⟨p, hp, p.startsWith_refl⟩
  symlinks h := h
  expiry e he := ⟨e, he, le_rfl⟩
  revoked h := h
  bytes := le_rfl
  files := le_rfl

theorem Within.trans (h : Within e d) (h' : Within d c) : Within e c where
  workspace := h.workspace.trans h'.workspace
  read p hp := by
    obtain ⟨q, hq, hpq⟩ := h.read p hp
    obtain ⟨r, hr, hqr⟩ := h'.read q hq
    exact ⟨r, hr, startsWith_trans hpq hqr⟩
  write p hp := by
    obtain ⟨q, hq, hpq⟩ := h.write p hp
    obtain ⟨r, hr, hqr⟩ := h'.write q hq
    exact ⟨r, hr, startsWith_trans hpq hqr⟩
  symlinks hc := h.symlinks (h'.symlinks hc)
  expiry t ht := by
    obtain ⟨t', ht', hle⟩ := h'.expiry t ht
    obtain ⟨t'', ht'', hle'⟩ := h.expiry t' ht'
    exact ⟨t'', ht'', hle'.trans hle⟩
  revoked hc := h.revoked (h'.revoked hc)
  bytes := h.bytes.trans h'.bytes
  files := h.files.trans h'.files

/-- What lies beneath one of the narrower prefixes lies beneath a wider one. -/
theorem any_startsWith {narrow wide : List TreePath}
    (h : ∀ p ∈ narrow, ∃ q ∈ wide, p.startsWith q) (hpath : narrow.any path.startsWith) :
    wide.any path.startsWith := by
  rw [any_eq_true] at hpath ⊢
  obtain ⟨p, hp, hbelow⟩ := hpath
  obtain ⟨q, hq, hpq⟩ := h p hp
  exact ⟨q, hq, startsWith_trans hbelow hpq⟩

/-- Every grant that `d` gives, `c` gives. -/
structure Admits (c d : TreeCapability) : Prop where
  read : ∀ path now grant, d.authorizeRead path now = .ok grant →
    c.authorizeRead path now = .ok grant
  root : ∀ now grant, d.authorizeRoot now = .ok grant → c.authorizeRoot now = .ok grant
  directory : ∀ path now grant, d.authorizeDirectory path now = .ok grant →
    ∃ wider, c.authorizeDirectory path now = .ok wider ∧ grant.CoveredBy wider
  write : ∀ path now grant, d.authorizeWrite path now = .ok grant →
    c.authorizeWrite path now = .ok grant
  symlink : ∀ path, d.checkSymlink path = .ok () → c.checkSymlink path = .ok ()
  live : ∀ now, d.checkLive now = .ok () → c.checkLive now = .ok ()

theorem Within.admits (h : Within d c) : Admits c d := by
  have hlive : ∀ now, d.checkLive now = .ok () → c.checkLive now = .ok () := by
    intro now hd
    rw [checkLive_ok] at hd ⊢
    refine ⟨?_, fun t ht => ?_⟩
    · by_contra hrevoked
      exact absurd (h.revoked (Bool.not_eq_false _ ▸ hrevoked)) (by simp [hd.1])
    · obtain ⟨t', ht', hle⟩ := h.expiry t ht
      exact (hd.2 t' ht').trans_le hle
  refine ⟨fun path now grant hd => ?_, fun now grant hd => ?_, fun path now grant hd => ?_,
    fun path now grant hd => ?_, fun path hd => ?_, hlive⟩
  · obtain ⟨hnow, hread, rfl⟩ := authorizeRead_ok.mp hd
    exact authorizeRead_ok.mpr ⟨hlive now hnow, any_startsWith h.read hread, by rw [h.workspace]⟩
  · obtain ⟨hnow, hne, rfl⟩ := authorizeRoot_ok.mp hd
    refine authorizeRoot_ok.mpr ⟨hlive now hnow, fun hnil => ?_, by rw [h.workspace]⟩
    obtain ⟨p, hp⟩ := exists_mem_of_ne_nil _ hne
    obtain ⟨q, hq, -⟩ := h.read p hp
    rw [hnil] at hq
    cases hq
  · obtain ⟨hnow, ⟨hread, rfl⟩ | ⟨-, hthrough, rfl⟩⟩ := authorizeDirectory_ok.mp hd
    · exact ⟨_, authorizeDirectory_ok.mpr ⟨hlive now hnow, .inl ⟨any_startsWith h.read hread, rfl⟩⟩,
        .inl (by rw [h.workspace])⟩
    · obtain ⟨p, hp, hpath⟩ := any_eq_true.mp hthrough
      obtain ⟨q, hq, hpq⟩ := h.read p hp
      -- the directory and the wider prefix are both above the narrower one
      by_cases hread : c.readPrefixes.any path.startsWith
      · exact ⟨_, authorizeDirectory_ok.mpr ⟨hlive now hnow, .inl ⟨hread, rfl⟩⟩,
          .inr ⟨path, rfl, by rw [h.workspace]⟩⟩
      · have hqpath : q.startsWith path := by
          rcases startsWith_total hpath hpq with hbelow | habove
          · exact absurd (any_eq_true.mpr ⟨q, hq, hbelow⟩) hread
          · exact habove
        exact ⟨_, authorizeDirectory_ok.mpr ⟨hlive now hnow,
          .inr ⟨hread, any_eq_true.mpr ⟨q, hq, hqpath⟩, rfl⟩⟩, .inl (by rw [h.workspace])⟩
  · obtain ⟨hnow, hread, hwrite, rfl⟩ := authorizeWrite_ok.mp hd
    exact authorizeWrite_ok.mpr ⟨hlive now hnow, any_startsWith h.read hread,
      any_startsWith h.write hwrite, by rw [h.workspace]⟩
  · rw [checkSymlink_ok] at hd ⊢
    exact fun hc => hd (h.symlinks hc)

theorem within_attenuate {readPrefixes writePrefixes : List TreePath}
    (h : c.attenuate readPrefixes writePrefixes = .ok d) : Within d c := by
  obtain ⟨hread, hwrite, rfl⟩ := attenuate_ok h
  exact { Within.refl c with
    read := widening_eq_none hread
    write := widening_eq_none hwrite }

end TreeCapability

/-! ### Delegation -/

/-- The shared totals and the capabilities that are held. -/
structure Delegation where
  ledger : FetchCounters
  held : List TreeCapability

/-- An operation on the capability at a position.  A setter takes the capability
and gives another in its place; whoever keeps the old one has copied it. -/
inductive Op where
  | clone (i : ℕ)
  | attenuate (i : ℕ) (readPrefixes writePrefixes : List TreePath)
  | withSymlinkPolicy (i : ℕ) (policy : SymlinkPolicy)
  | withFetchBudget (i budget : ℕ)
  | withFileBudget (i budget : ℕ)
  | withExpiry (i expiresAt : ℕ)
  | chargeFetch (i bytes : ℕ)
  | revoke (i : ℕ)
  /-- Capabilities that are not held here charge the totals. -/
  | elsewhere (totals : FetchCounters)

namespace Delegation

/-- Add what is derived from the capability at a position, if something is. -/
def derive (w : Delegation) (i : ℕ) (f : TreeCapability → Option TreeCapability) : Delegation :=
  { w with held := w.held ++ (w.held[i]?.bind f).toList }

def modify (w : Delegation) (i : ℕ) (f : TreeCapability → TreeCapability) : Delegation :=
  { w with held := w.held.modify i f }

/-- What charging at a position gives. -/
def charge (w : Delegation) (i bytes : ℕ) : Option (TreeCapability × FetchCounters) :=
  w.held[i]?.bind fun c => (c.chargeFetch w.ledger bytes).toOption

/-- One operation.  A refused one changes nothing. -/
def step (w : Delegation) : Op → Delegation
  | .clone i => w.derive i some
  | .attenuate i readPrefixes writePrefixes =>
    w.derive i fun c => (c.attenuate readPrefixes writePrefixes).toOption
  | .withSymlinkPolicy i policy => w.modify i (·.withSymlinkPolicy policy)
  | .withFetchBudget i budget => w.modify i (·.withFetchBudget budget)
  | .withFileBudget i budget => w.modify i (·.withFileBudget budget)
  | .withExpiry i expiresAt => w.modify i (·.withExpiry expiresAt)
  | .chargeFetch i bytes =>
    ((w.charge i bytes).map fun r => ⟨r.2, w.held.set i r.1⟩).getD w
  | .revoke i => w.modify i (·.revoke)
  | .elsewhere totals =>
    if w.ledger.bytes ≤ totals.bytes ∧ w.ledger.files ≤ totals.files then
      { w with ledger := totals }
    else w

/-- What an operation charges to a capability that is held. -/
def charged (w : Delegation) : Op → FetchCounters
  | .chargeFetch i bytes => if (w.charge i bytes).isSome then ⟨bytes, 1⟩ else ⟨0, 0⟩
  | _ => ⟨0, 0⟩

/-- What a run charges in all. -/
def spent (w : Delegation) : List Op → FetchCounters
  | [] => ⟨0, 0⟩
  | op :: ops =>
    ⟨(w.charged op).bytes + ((w.step op).spent ops).bytes,
      (w.charged op).files + ((w.step op).spent ops).files⟩

/-- The setters do not widen, and no admitted charge saturates the totals. -/
def narrowing (w : Delegation) : Op → Bool
  | .withSymlinkPolicy i policy =>
    w.held[i]?.all fun c => c.symlinkPolicy = .refuse → policy = .refuse
  | .withFetchBudget i budget => w.held[i]?.all fun c => budget ≤ c.maxFetchBytes
  | .withFileBudget i budget => w.held[i]?.all fun c => budget ≤ c.maxFileCount
  | .withExpiry i expiresAt => w.held[i]?.all fun c => c.expiresAt.all (expiresAt ≤ ·)
  | .chargeFetch i bytes => w.held[i]?.all fun c =>
    c.maxFileCount < saturatingAdd w.ledger.files 1 ∨
      c.maxFetchBytes < saturatingAdd w.ledger.bytes bytes ∨
      w.ledger.bytes + bytes ≤ u64Max ∧ w.ledger.files + 1 ≤ u64Max
  | _ => true

/-! ### Every operation stays within -/

variable {w : Delegation} {c d : TreeCapability}

theorem within_modify {i : ℕ} {f : TreeCapability → TreeCapability}
    (hheld : ∀ d ∈ w.held, d.Within c) (hf : ∀ e, w.held[i]? = some e → (f e).Within e) :
    ∀ d ∈ (w.modify i f).held, d.Within c := by
  intro d hd
  obtain ⟨j, hj⟩ := mem_iff_getElem?.mp hd
  change (w.held.modify i f)[j]? = some d at hj
  rw [getElem?_modify] at hj
  obtain ⟨e, he, heq⟩ := Option.map_eq_some_iff.mp hj
  have hwithin := hheld e (mem_of_getElem? he)
  split at heq
  · next hij => exact heq ▸ (hf e (hij ▸ he)).trans hwithin
  · exact heq ▸ hwithin

theorem within_derive {i : ℕ} {f : TreeCapability → Option TreeCapability}
    (hheld : ∀ d ∈ w.held, d.Within c) (hf : ∀ e d, f e = some d → d.Within e) :
    ∀ d ∈ (w.derive i f).held, d.Within c := by
  refine forall_mem_append.mpr ⟨hheld, fun d hd => ?_⟩
  obtain ⟨e, he, hed⟩ := Option.bind_eq_some_iff.mp (Option.mem_toList.mp hd)
  exact (hf e d hed).trans (hheld e (mem_of_getElem? he))

theorem eq_ok_of_toOption {α : Type} {x : Except CapabilityRefusal α} {a : α}
    (h : x.toOption = some a) : x = .ok a := by
  cases x with
  | error refusal => cases h
  | ok a' => exact congrArg ok (Option.some.inj h)

theorem charge_eq_some {i bytes : ℕ} {r : TreeCapability × FetchCounters}
    (h : w.charge i bytes = some r) :
    ∃ e, w.held[i]? = some e ∧ e.chargeFetch w.ledger bytes = .ok r := by
  obtain ⟨e, he, hr⟩ := Option.bind_eq_some_iff.mp h
  exact ⟨e, he, eq_ok_of_toOption hr⟩

open TreeCapability in
/-- After a narrowing operation whoever is held is within what all were within
before: it was held, or comes from the capability the operation is given. -/
theorem within_step {op : Op} (hop : w.narrowing op) (hheld : ∀ d ∈ w.held, d.Within c) :
    ∀ d ∈ (w.step op).held, d.Within c := by
  cases op with
  | clone i => exact within_derive hheld fun e d hd => Option.some.inj hd ▸ .refl e
  | attenuate i readPrefixes writePrefixes =>
    exact within_derive hheld fun e d hd => within_attenuate (eq_ok_of_toOption hd)
  | withSymlinkPolicy i policy =>
    refine within_modify hheld fun e he => { Within.refl e with symlinks := fun hrefuse => ?_ }
    simpa [narrowing, withSymlinkPolicy, he, hrefuse] using hop
  | withFetchBudget i budget =>
    refine within_modify hheld fun e he => { Within.refl e with bytes := ?_ }
    simpa [narrowing, withFetchBudget, he] using hop
  | withFileBudget i budget =>
    refine within_modify hheld fun e he => { Within.refl e with files := ?_ }
    simpa [narrowing, withFileBudget, he] using hop
  | withExpiry i expiresAt =>
    refine within_modify hheld fun e he =>
      { Within.refl e with expiry := fun t ht => ⟨expiresAt, rfl, ?_⟩ }
    simpa [narrowing, he, Option.mem_def.mp ht] using hop
  | chargeFetch i bytes =>
    simp only [step]
    cases hcharge : w.charge i bytes with
    | none => exact hheld
    | some r =>
      obtain ⟨e, he, hr⟩ := charge_eq_some hcharge
      intro d hd
      rcases mem_or_eq_of_mem_set hd with hold | rfl
      · exact hheld d hold
      · obtain ⟨-, -, hd⟩ := chargeFetch_ok hr
        have hwithin : r.1.Within e := hd ▸ { Within.refl e with }
        exact hwithin.trans (hheld e (mem_of_getElem? he))
  | revoke i =>
    exact within_modify hheld fun e he => { Within.refl e with revoked := fun _ => rfl }
  | elsewhere totals =>
    simp only [step]
    split
    · exact hheld
    · exact hheld

theorem within_run {ops : List Op}
    (h : Run.Meets step (fun w op => w.narrowing op) ⟨ledger, [c]⟩ ops) :
    ∀ d ∈ (Run.exec step ⟨ledger, [c]⟩ ops).held, d.Within c := by
  refine Run.exec_invariant_of_meets (P := fun _ w => ∀ d ∈ w.held, d.Within c) ?_ ?_ h
  · exact forall_mem_singleton.mpr (.refl c)
  · exact fun done op ih hop => within_step hop ih

/-! ### Totals -/

/-- An admitted charge that does not saturate is in the totals, which are then
below the ceilings; any other operation leaves them or lets them grow. -/
theorem charged_step {op : Op} (hop : w.narrowing op) (hheld : ∀ d ∈ w.held, d.Within c) :
    (w.charged op = ⟨0, 0⟩ ∧ w.ledger.bytes ≤ (w.step op).ledger.bytes ∧
      w.ledger.files ≤ (w.step op).ledger.files) ∨
    ((w.step op).ledger.bytes = w.ledger.bytes + (w.charged op).bytes ∧
      (w.step op).ledger.files = w.ledger.files + (w.charged op).files ∧
      (w.step op).ledger.bytes ≤ c.maxFetchBytes ∧ (w.step op).ledger.files ≤ c.maxFileCount) := by
  cases op with
  | chargeFetch i bytes =>
    cases hcharge : w.charge i bytes with
    | none =>
      exact .inl ⟨by simp [charged, hcharge], by simp [step, hcharge], by simp [step, hcharge]⟩
    | some r =>
      obtain ⟨e, he, hr⟩ := charge_eq_some hcharge
      obtain ⟨⟨hfiles, hbytes⟩, hledger, -⟩ := TreeCapability.chargeFetch_ok hr
      have hwithin := hheld e (mem_of_getElem? he)
      have hfit : w.ledger.bytes + bytes ≤ u64Max ∧ w.ledger.files + 1 ≤ u64Max := by
        simpa [narrowing, he, not_lt.mpr hfiles, not_lt.mpr hbytes] using hop
      rw [saturatingAdd, min_eq_left hfit.1] at hbytes hledger
      rw [saturatingAdd, min_eq_left hfit.2] at hfiles hledger
      have hstep : (w.step (.chargeFetch i bytes)).ledger
          = ⟨w.ledger.bytes + bytes, w.ledger.files + 1⟩ := by
        rw [← hledger]
        simp [step, hcharge]
      have hcharged : w.charged (.chargeFetch i bytes) = ⟨bytes, 1⟩ := by simp [charged, hcharge]
      rw [hstep, hcharged]
      exact .inr ⟨rfl, rfl, hbytes.trans hwithin.bytes, hfiles.trans hwithin.files⟩
  | elsewhere totals =>
    refine .inl ⟨rfl, ?_⟩
    simp only [step]
    split
    · next h => exact h
    · exact ⟨le_rfl, le_rfl⟩
  | clone | attenuate | withSymlinkPolicy | withFetchBudget | withFileBudget
    | withExpiry | revoke =>
    exact .inl ⟨rfl, le_rfl, le_rfl⟩

/-- What a run charges was free below the ceilings when it began. -/
theorem spent_le {ops : List Op} (hheld : ∀ d ∈ w.held, d.Within c)
    (h : Run.Meets step (fun w op => w.narrowing op) w ops) :
    ((w.spent ops).bytes = 0 ∨ w.ledger.bytes + (w.spent ops).bytes ≤ c.maxFetchBytes) ∧
    ((w.spent ops).files = 0 ∨ w.ledger.files + (w.spent ops).files ≤ c.maxFileCount) := by
  induction ops generalizing w with
  | nil => exact ⟨.inl rfl, .inl rfl⟩
  | cons op ops ih =>
    obtain ⟨hop, hrest⟩ := Run.Meets.cons_iff.mp h
    have hlater := ih (within_step hop hheld) hrest
    simp only [spent]
    rcases charged_step hop hheld with ⟨hnone, hgrow⟩ | hcharged
    · rw [hnone]
      dsimp only
      constructor <;> omega
    · constructor <;> omega

end Delegation

/-- Along every narrowing run from a capability, whoever is held gives no grant that the capability
did not give, and what is charged in all stays below its ceilings. -/
theorem delegation_narrows (c : TreeCapability) (ledger : FetchCounters) {ops : List Op}
    (h : Run.Meets Delegation.step (fun w op => w.narrowing op) ⟨ledger, [c]⟩ ops) :
    (∀ d ∈ (Run.exec Delegation.step ⟨ledger, [c]⟩ ops).held, c.Admits d) ∧
    (Delegation.spent ⟨ledger, [c]⟩ ops).bytes ≤ c.maxFetchBytes ∧
    (Delegation.spent ⟨ledger, [c]⟩ ops).files ≤ c.maxFileCount := by
  refine ⟨fun d hd => (Delegation.within_run h d hd).admits, ?_⟩
  have hstart : ∀ d ∈ [c], d.Within c := fun d hd => mem_singleton.mp hd ▸ .refl c
  obtain ⟨hbytes, hfiles⟩ := Delegation.spent_le hstart h
  constructor <;> omega

def docs : TreePath := ⟨[ascii "docs"], by decide, by decide⟩

def notes : TreePath := ⟨[ascii "docs", ascii "notes"], by decide, by decide⟩

/-- A capability for a directory, with ten bytes to fetch before tick 100. -/
def docsCapability : TreeCapability :=
  ((TreeCapability.new 1 ⟨1⟩ [docs] [notes]).withFetchBudget 10).withExpiry 100

/-- A copy with a smaller budget and a delegate for one subdirectory charge by turns. -/
def sharedBudget : List Op :=
  [.clone 0, .attenuate 0 [notes] [notes], .chargeFetch 2 4, .withFetchBudget 1 6, .chargeFetch 1 3,
    .chargeFetch 0 6, .revoke 2, .chargeFetch 2 1]

theorem delegation_narrows_docs :
    Run.Meets Delegation.step (fun w op => w.narrowing op) ⟨⟨0, 0⟩, [docsCapability]⟩ sharedBudget ∧
    (∀ d ∈ (Run.exec Delegation.step ⟨⟨0, 0⟩, [docsCapability]⟩ sharedBudget).held,
      docsCapability.Admits d) ∧
    (Delegation.spent ⟨⟨0, 0⟩, [docsCapability]⟩ sharedBudget).bytes ≤ 10 ∧
    (Delegation.spent ⟨⟨0, 0⟩, [docsCapability]⟩ sharedBudget).files ≤ u64Max :=
  have hmeets : Run.Meets Delegation.step (fun w op => w.narrowing op)
      ⟨⟨0, 0⟩, [docsCapability]⟩ sharedBudget := by
    decide +kernel
  ⟨hmeets, delegation_narrows docsCapability ⟨0, 0⟩ hmeets⟩

/-- A setter puts off the expiry, another raises the ceiling, and without a ceiling the totals
saturate. -/
theorem setters_widen :
    ¬ (∀ d ∈ (Run.exec Delegation.step ⟨⟨0, 0⟩, [docsCapability]⟩ [.withExpiry 0 200]).held,
      docsCapability.Admits d) ∧
    ¬ (Delegation.spent ⟨⟨0, 0⟩, [docsCapability]⟩ [.withFetchBudget 0 20, .chargeFetch 0 15]).bytes
      ≤ docsCapability.maxFetchBytes ∧
    ¬ (Delegation.spent ⟨⟨0, 0⟩, [.new 1 ⟨1⟩ [docs] []]⟩
      [.chargeFetch 0 u64Max, .chargeFetch 0 1]).bytes ≤ u64Max := by
  refine ⟨fun h => ?_, by decide +kernel, by decide +kernel⟩
  have hlive := (h _ (mem_singleton_self _)).live 150 (by decide +kernel)
  exact absurd hlive (by decide +kernel)

end Frankengit.TreeFs
