/-
Frankengit/Pack/Chain.lean

What an object of a pack stands for, apart from any accounting.

`Yields r P n object t bytes` says that the delta chain of `object`, `n`
deltas above its base in the pack, gives these bytes with type information
`t`.  Chains are deterministic, so an object stands for one answer and its
chain has one length; along a chain the lengths fall, so no object comes
back to itself.  `resolveObjectWith_of_yields` is then the scalar resolver's
completeness: with the depth, work and expansion that a chain over every
object would take, it gives the answer its object stands for.
-/
import Frankengit.Pack.Resolver

namespace Frankengit.Pack

open Fallible List Accounting Nat Prod Index Except

/-! ### Applications do not depend on the accounting -/

theorem checkedAdd_eq_ok {context : String} {a b c : ℕ} :
    checkedAdd context a b = .ok c ↔ a + b ≤ u64Max ∧ c = a + b := by
  unfold checkedAdd
  split
  · next h => simp [h, eq_comm]
  · next h => simp [h]

/-- A value that is known is put where it is used. -/
theorem exists_and_eq {α : Type} {p : Prop} {q : α → Prop} {a : α} :
    (∃ x, (p ∧ x = a) ∧ q x) ↔ p ∧ q a := by
  simp

variable {limits : PackLimits} {acc acc' : Accounting}

theorem Accounting.addWork_eq_ok {n : ℕ} : acc.addWork limits n = .ok acc' ↔
      acc.work + n ≤ limits.maxDeltaWork ∧ acc' = { acc with work := acc.work + n } := by
  simp only [addWork, bind_eq_ok, checkedAdd_eq_ok, refuseIf_eq_ok, pure_eq_ok, not_lt,
    exists_const, exists_and_eq, eq_comm (a := acc')]
  exact and_iff_right_of_imp fun h => h.1.trans limits.maxDeltaWork_fits

theorem Accounting.ensureExpanded_eq_ok {n : ℕ} {u : Unit} :
    acc.ensureExpanded limits n = .ok u ↔ acc.expanded + n ≤ limits.maxTotalExpandedBytes := by
  simp only [ensureExpanded, bind_eq_ok, checkedAdd_eq_ok, refuseIf_eq_ok, not_lt, exists_and_eq]
  exact and_iff_right_of_imp fun h => h.trans limits.maxTotalExpandedBytes_fits

theorem Accounting.addExpanded_eq_ok {n : ℕ} : acc.addExpanded limits n = .ok acc' ↔
      acc.expanded + n ≤ limits.maxTotalExpandedBytes ∧
        acc' = { acc with expanded := acc.expanded + n } := by
  simp only [addExpanded, bind_eq_ok, ensureExpanded_eq_ok, checkedAdd_eq_ok, pure_eq_ok,
    exists_const, exists_and_eq, eq_comm (a := acc')]
  exact and_congr_right fun h => and_iff_right (h.trans limits.maxTotalExpandedBytes_fits)

variable {result : Bytes} {declaredResult : ℕ} {out : Bytes × Accounting}

theorem appendCopy_eq_ok {bytes : Bytes} :
    appendCopy limits declaredResult bytes result acc = .ok out ↔
      result.length + bytes.length ≤ u64Max ∧ result.length + bytes.length ≤ declaredResult ∧
        acc.work + bytes.length ≤ limits.maxDeltaWork ∧
        out = (result ++ bytes, { acc with work := acc.work + bytes.length }) := by
  simp only [appendCopy, bind_eq_ok, checkedAdd_eq_ok, refuseIf_eq_ok, addWork_eq_ok,
    pure_eq_ok, not_lt, exists_const, exists_and_eq, eq_comm (a := out)]

/-- Two limits that differ in their budgets only. -/
structure PackLimits.SameShape (limits limits' : PackLimits) : Prop where
  input : limits'.maxInputBytes = limits.maxInputBytes
  entries : limits'.maxEntries = limits.maxEntries
  object : limits'.maxObjectBytes = limits.maxObjectBytes
  fanout : limits'.maxDeltaFanout = limits.maxDeltaFanout

variable {base : Bytes}

/-- One instruction appends some bytes and leaves a shorter program. -/
theorem applyInstructions_cons {rest : Bytes} {instruction : UInt8}
    (h : applyInstructions limits base declaredResult (instruction :: rest) result acc = .ok out) :
    ∃ (bytes left : Bytes) (acc₁ : Accounting), left.length ≤ rest.length ∧
      applyInstructions limits base declaredResult left (result ++ bytes) acc₁ = .ok out ∧
      ∀ (limits' : PackLimits) (acc' : Accounting),
        acc'.work + bytes.length ≤ limits'.maxDeltaWork →
        applyInstructions limits' base declaredResult (instruction :: rest) result acc'
          = applyInstructions limits' base declaredResult left (result ++ bytes)
              { acc' with work := acc'.work + bytes.length } := by
  rw [applyInstructions] at h
  split at h
  · cases h
  · next hzero =>
    split at h
    · next hins =>
      split at h
      · cases h
      · next hlong =>
        split at h
        · cases h
        · next result₁ acc₁ happ =>
          obtain ⟨hword, hle, -, heq⟩ := appendCopy_eq_ok.mp happ
          obtain ⟨rfl, rfl⟩ := mk.inj heq
          refine ⟨_, _, _, ?_, h, fun limits' acc' hwork => ?_⟩
          · rw [length_drop]
            exact sub_le _ _
          · rw [applyInstructions, if_neg hzero, if_pos hins, if_neg hlong,
              appendCopy_eq_ok.mpr ⟨hword, hle, hwork, rfl⟩]
    · next hcopy =>
      split at h
      · cases h
      · next offset length left hdecode =>
        split at h
        · cases h
        · next result₁ acc₁ happ =>
          obtain ⟨bytes, hrange, happ⟩ := bind_eq_ok.mp happ
          obtain ⟨hword, hle, -, heq⟩ := appendCopy_eq_ok.mp happ
          obtain ⟨rfl, rfl⟩ := mk.inj heq
          refine ⟨bytes, left, _, decodeCopyInstruction_length hdecode, h,
            fun limits' acc' hwork => ?_⟩
          exact applyInstructions_copy hcopy hdecode
            (bind_eq_ok.mpr ⟨bytes, hrange, appendCopy_eq_ok.mpr ⟨hword, hle, hwork, rfl⟩⟩)

/-- What instructions append, they append under any limits with room for it. -/
theorem applyInstructions_elsewhere {input : Bytes}
    (h : applyInstructions limits base declaredResult input result acc = .ok out) :
    ∃ piece, out.1 = result ++ piece ∧ ∀ (limits' : PackLimits) (acc' : Accounting),
      acc'.work + piece.length ≤ limits'.maxDeltaWork →
      applyInstructions limits' base declaredResult input result acc'
        = .ok (out.1, { acc' with work := acc'.work + piece.length }) := by
  induction hn : input.length using Nat.strongRecOn generalizing input result acc with
  | ind n ih =>
    cases input with
    | nil =>
      rw [applyInstructions] at h
      cases h
      refine ⟨[], by simp, fun limits' acc' _ => ?_⟩
      rw [applyInstructions]
      simp
    | cons instruction rest =>
      obtain ⟨bytes, left, acc₁, hshort, hrest, helse⟩ := applyInstructions_cons h
      have hn' : left.length < n := by
        rw [length_cons] at hn
        omega
      obtain ⟨piece, hpiece, hall⟩ := ih left.length hn' hrest rfl
      refine ⟨bytes ++ piece, by rw [hpiece, append_assoc], fun limits' acc' hwork => ?_⟩
      rw [length_append] at hwork
      rw [helse limits' acc' (by omega), hall limits' _ (by simp only; omega)]
      simp only [length_append, add_assoc]

/-- The delta turns the base into the result, under some accounting. -/
def Applies (limits : PackLimits) (base program result : Bytes) : Prop :=
  ∃ acc acc', applyDeltaWithAccounting limits base program acc = .ok (result, acc')

variable {program : Bytes}

section

variable (h : Applies limits base program result)
include h

theorem Applies.elsewhere {limits' : PackLimits} (hshape : limits.SameShape limits')
    (hexp : acc.expanded + result.length ≤ limits'.maxTotalExpandedBytes)
    (hwork : acc.work + result.length ≤ limits'.maxDeltaWork) :
    applyDeltaWithAccounting limits' base program acc
      = .ok (result, { acc with work := acc.work + result.length }) := by
  obtain ⟨acc₀, acc₁, h⟩ := h
  simp only [applyDeltaWithAccounting, PackLimits.input, PackLimits.objectSize, bind_eq_ok,
    refuseIf_eq_ok, pure_eq_ok, ensureExpanded_eq_ok, not_not] at h ⊢
  obtain ⟨-, hinput, -, hbase, declaredBase, hdeclBase, -, hbaseLen, declared, hdecl, -,
    hobj, -, -, out, hrun, -, hlen, heq⟩ := h
  obtain ⟨rfl, -⟩ := mk.inj heq
  obtain ⟨piece, hpiece, hall⟩ := applyInstructions_elsewhere hrun
  rw [nil_append] at hpiece
  refine ⟨(), hshape.input ▸ hinput, (), hshape.object ▸ hbase, declaredBase, hdeclBase, (),
    hbaseLen, declared, hdecl, (), hshape.object ▸ hobj, (), hlen ▸ hexp, _,
    hall limits' acc (hpiece ▸ hwork), (), hlen, ?_⟩
  rw [hpiece]

theorem Applies.length_le : result.length ≤ limits.maxObjectBytes ∧ result.length ≤ u64Max := by
  obtain ⟨acc₀, acc₁, h⟩ := h
  simp only [applyDeltaWithAccounting, bind_eq_ok, refuseIf_eq_ok, pure_eq_ok, not_not,
    ensureExpanded_eq_ok] at h
  obtain ⟨-, -, -, -, -, -, -, -, declared, -, -, hobj, -, hexp, out, -, -, hlen, heq⟩ := h
  obtain ⟨rfl, -⟩ := mk.inj heq
  have hfits := limits.maxTotalExpandedBytes_fits
  exact ⟨hlen ▸ not_lt.mp hobj, by omega⟩

/-- The limits with the largest budgets. -/
def PackLimits.widest (limits : PackLimits) : PackLimits :=
  { limits with
    maxTotalExpandedBytes := u64Max
    maxDeltaWork := u64Max
    maxTotalExpandedBytes_fits := le_rfl
    maxDeltaWork_fits := le_rfl }

theorem Applies.widest :
    ∃ acc, applyDeltaWithAccounting limits.widest base program .fresh = .ok (result, acc) := by
  have hshape : limits.SameShape limits.widest := ⟨rfl, rfl, rfl, rfl⟩
  have hfits : 0 + result.length ≤ u64Max := by
    rw [zero_add]
    exact h.length_le.2
  exact ⟨_, h.elsewhere hshape hfits hfits⟩

theorem Applies.unique {result' : Bytes}
    (h' : Applies limits base program result') : result = result' := by
  obtain ⟨acc, hrun⟩ := h.widest
  obtain ⟨acc', hrun'⟩ := h'.widest
  rw [hrun] at hrun'
  exact (mk.inj (ok.inj hrun')).1

end

/-! ### Lookups -/

namespace ScalarResolver

theorem single_eq_some {α : Type} {error : PackError} {l : List α} {a : α} :
    single error l = .ok (some a) ↔ l = [a] := by
  match l with
  | [] => simp [single]
  | [b] => simp [single]
  | _ :: _ :: _ => simp [single]

/-- An object a lookup can give. -/
def Reachable (r : ScalarResolver) (object : PackObject) : Prop :=
  r.atOffset object.offset = .ok (some object) ∨ ∃ id, r.atId id = .ok (some object)

variable {object : PackObject}

section Indexed

variable {objects : List PackObject} {externalBases : ExternalBaseLookup} {limits : PackLimits}

/-- The object found at an offset is the only one there. -/
theorem atOffset_index {offset : ℕ}
    (h : (index objects externalBases limits).atOffset offset = .ok (some object)) :
    object ∈ objects ∧ object.offset = offset ∧
      ∀ other ∈ objects, other.offset = offset → other = object := by
  rw [atOffset, single_eq_some, index, probe_eq_filter (sorted_sortByKey _)] at h
  have hmem : ∀ other, other ∈ objects ∧ other.offset = offset ↔ other = object := by
    intro other
    rw [← mem_singleton (a := other), ← h, mem_filter, mem_sortByKey, decide_eq_true_eq]
  obtain ⟨hobj, hoff⟩ := (hmem object).mpr rfl
  exact ⟨hobj, hoff, fun other hother ho => (hmem other).mp ⟨hother, ho⟩⟩

theorem atId_index {id : GitOid}
    (h : (index objects externalBases limits).atId id = .ok (some object)) :
    object ∈ objects ∧ object.id = some id := by
  rw [atId, single_eq_some, index, probe_eq_filter (sorted_sortByKey _)] at h
  have hmem : object ∈ [object] := mem_singleton.mpr rfl
  rw [← h, mem_filter, mem_sortByKey, mem_filter, decide_eq_true_eq] at hmem
  exact ⟨hmem.1.1, hmem.2⟩

theorem Reachable.mem (h : (index objects externalBases limits).Reachable object) :
    object ∈ objects := by
  rcases h with h | ⟨id, h⟩
  · exact (atOffset_index h).1
  · exact (atId_index h).1

/-- Identified objects at one offset are the same object. -/
def OffsetsIdentify (objects : List PackObject) : Prop :=
  ∀ x ∈ objects, ∀ y ∈ objects, x.id.isSome → y.id.isSome → x.offset = y.offset → x = y

/-- Lookups reach the objects of a list, one at an offset. -/
structure Addresses (r : ScalarResolver) (objects : List PackObject) : Prop where
  mem : ∀ {object}, r.Reachable object → object ∈ objects
  atOffset : ∀ {offset object}, r.atOffset offset = .ok (some object) → r.Reachable object
  unique : ∀ {x y}, r.Reachable x → r.Reachable y → x.offset = y.offset → x = y

theorem addresses_index (hids : OffsetsIdentify objects) :
    (index objects externalBases limits).Addresses objects where
  mem := Reachable.mem
  atOffset h := .inl ((atOffset_index h).2.1 ▸ h)
  unique {x y} hx hy h := by
    rcases hx with hx | ⟨i, hx⟩
    · exact ((atOffset_index hx).2.2 y hy.mem h.symm).symm
    · rcases hy with hy | ⟨j, hy⟩
      · exact (atOffset_index hy).2.2 x (atId_index hx).1 h
      · obtain ⟨hxmem, hxid⟩ := atId_index hx
        obtain ⟨hymem, hyid⟩ := atId_index hy
        exact hids x hxmem y hymem (by rw [hxid]; rfl) (by rw [hyid]; rfl) h

end Indexed

variable (r : ScalarResolver)

/-- Where a base is, apart from the accounting. -/
def siteOf : DeltaBase → Except PackError BaseSite
  | .ofs offset => do
    match ← r.atOffset offset with
    | some object => return .inPack object
    | none => throw .missingDeltaBase
  | .ref id => do
    match ← r.atId id with
    | some object => return .inPack object
    | none => return .external id

variable {r} {found : Option PackObject}

/-- A search charges its work first. -/
theorem search_eq_ok {lookup : Except PackError (Option PackObject)} : (do
      let acc ← acc.addWork r.limits r.probeCost let found ← lookup
      return (found, acc)) = .ok (found, acc') ↔
      acc.addWork r.limits r.probeCost = .ok acc' ∧ lookup = .ok found := by
  simp [and_comm]

theorem findByOffset_eq_ok {offset : ℕ} : r.findByOffset offset acc = .ok (found, acc') ↔
    acc.addWork r.limits r.probeCost = .ok acc' ∧ r.atOffset offset = .ok found :=
  search_eq_ok

theorem findById_eq_ok {id : GitOid} : r.findById id acc = .ok (found, acc') ↔
    acc.addWork r.limits r.probeCost = .ok acc' ∧ r.atId id = .ok found :=
  search_eq_ok

theorem locateBase_eq_ok {base : DeltaBase} {site : BaseSite} :
    r.locateBase base acc = .ok (site, acc') ↔
      acc.addWork r.limits r.probeCost = .ok acc' ∧ r.siteOf base = .ok site := by
  cases base with
  | ofs offset =>
    simp only [locateBase, siteOf, bind_eq_ok, Prod.exists, findByOffset_eq_ok]
    constructor
    · rintro ⟨found, acc₁, ⟨hwork, hfound⟩, h⟩
      cases found with
      | none => cases h
      | some object =>
        cases h
        exact ⟨hwork, _, hfound, rfl⟩
    · rintro ⟨hwork, found, hfound, h⟩
      refine ⟨found, acc', ⟨hwork, hfound⟩, ?_⟩
      cases found with
      | none => cases h
      | some object =>
        cases h
        rfl
  | ref id =>
    simp only [locateBase, siteOf, bind_eq_ok, Prod.exists, findById_eq_ok]
    constructor
    · rintro ⟨found, acc₁, ⟨hwork, hfound⟩, h⟩
      cases found <;> cases h <;> exact ⟨hwork, _, hfound, rfl⟩
    · rintro ⟨hwork, found, hfound, h⟩
      refine ⟨found, acc', ⟨hwork, hfound⟩, ?_⟩
      cases found <;> cases h <;> rfl

theorem Addresses.below {objects : List PackObject} (hr : r.Addresses objects) {base : DeltaBase}
    (h : r.siteOf base = .ok (.inPack object)) : r.Reachable object := by
  cases base with
  | ofs offset =>
    obtain ⟨found, hfound, h⟩ := bind_eq_ok.mp h
    cases found with
    | none => cases h
    | some found =>
      cases h
      exact hr.atOffset hfound
  | ref id =>
    obtain ⟨found, hfound, h⟩ := bind_eq_ok.mp h
    cases found with
    | none => cases h
    | some found =>
      cases h
      exact .inr ⟨id, hfound⟩

/-! ### What an object stands for -/

variable {τ : Type}

/-- The chain of an object, `n` deltas above its base in the pack, gives these
bytes. -/
inductive Yields (r : ScalarResolver) (P : Provenance τ) : ℕ → PackObject → τ → Bytes → Prop
  | base {offset : ℕ} {id : Option GitOid} {data : Bytes} {t : τ} (hroot : P.root none = .ok t)
      (hsize : data.length ≤ r.limits.maxObjectBytes) : Yields r P 0 (.base offset id data) t data
  | typedBase {offset : ℕ} {id : Option GitOid} {kind : EntryKind} {data : Bytes} {t : τ}
      (hroot : P.root (some kind) = .ok t) (hsize : data.length ≤ r.limits.maxObjectBytes) :
      Yields r P 0 (.typedBase offset id kind data) t data
  | external {d : DeltaObject} {id : GitOid} {t : τ} {base result : Bytes}
      (hfanout : r.fanout d.base ≤ r.limits.maxDeltaFanout)
      (hsite : r.siteOf d.base = .ok (.external id))
      (hbase : P.external r.externalBases id = .ok (t, base))
      (hsize : base.length ≤ r.limits.maxObjectBytes)
      (happlies : Applies r.limits base d.program result) : Yields r P 0 (.delta d) t result
  | inPack {n : ℕ} {d : DeltaObject} {object : PackObject} {t : τ} {base result : Bytes}
      (hfanout : r.fanout d.base ≤ r.limits.maxDeltaFanout)
      (hsite : r.siteOf d.base = .ok (.inPack object)) (hbase : Yields r P n object t base)
      (happlies : Applies r.limits base d.program result) : Yields r P (n + 1) (.delta d) t result

/-- An object stands for one answer, at one chain length. -/
theorem Yields.unique {P : Provenance τ} {n n' : ℕ} {t t' : τ} {bytes bytes' : Bytes}
    (h : Yields r P n object t bytes) (h' : Yields r P n' object t' bytes') :
    n = n' ∧ t = t' ∧ bytes = bytes' := by
  induction h generalizing n' t' bytes' with
  | base hroot =>
    cases h' with
    | base hroot' =>
      rw [hroot] at hroot'
      exact ⟨rfl, ok.inj hroot', rfl⟩
  | typedBase hroot =>
    cases h' with
    | typedBase hroot' =>
      rw [hroot] at hroot'
      exact ⟨rfl, ok.inj hroot', rfl⟩
  | external hfanout hsite hbase hsize happlies =>
    cases h' with
    | external _ hsite' hbase' _ happlies' =>
      cases hsite.symm.trans hsite'
      cases hbase.symm.trans hbase'
      exact ⟨rfl, rfl, happlies.unique happlies'⟩
    | inPack _ hsite' => cases hsite.symm.trans hsite'
  | inPack hfanout hsite hbase happlies ih =>
    cases h' with
    | external _ hsite' => cases hsite.symm.trans hsite'
    | inPack _ hsite' hbase' happlies' =>
      cases hsite.symm.trans hsite'
      obtain ⟨rfl, rfl, rfl⟩ := ih hbase'
      exact ⟨rfl, rfl, happlies.unique happlies'⟩

/-! ### The scalar resolver gives it -/

theorem admitBytes_eq_ok {found : Except PackError (τ × Bytes)} {t : τ} {bytes : Bytes} :
    r.admitBytes found acc = .ok ((t, bytes), acc') ↔
      found = .ok (t, bytes) ∧ bytes.length ≤ r.limits.maxObjectBytes ∧
        acc.addExpanded r.limits bytes.length = .ok acc' := by
  simp [admitBytes, PackLimits.objectSize]

theorem validateFanout_eq_ok {base : DeltaBase} : r.validateFanout base acc = .ok acc' ↔
      acc.addWork r.limits r.probeCost = .ok acc' ∧ r.fanout base ≤ r.limits.maxDeltaFanout := by
  simp only [validateFanout, bind_eq_ok]
  split
  · next hgt => simp [hgt]
  · next hle => simp [not_lt.mp hle]

theorem applyTo_eq_ok {base : Resolved τ} {t : τ} :
    r.applyTo program base = .ok ((t, result), acc') ↔ ∃ acc,
      applyDeltaWithAccounting r.limits base.1.2 program base.2 = .ok (result, acc) ∧
        acc.addExpanded r.limits result.length = .ok acc' ∧ base.1.1 = t := by
  simp [applyTo]

/-- The offsets a resolution stands on, above an object whose chain has
length `n`: they belong to objects with longer chains, so none comes twice. -/
structure Climb (r : ScalarResolver) (P : Provenance τ) (n : ℕ) (stack : List ℕ) : Prop where
  nodup : stack.Nodup
  owner : ∀ offset ∈ stack, ∃ m object t bytes,
    n < m ∧ r.Reachable object ∧ object.offset = offset ∧ Yields r P m object t bytes

section Complete

variable {objects : List PackObject} {externalBases : ExternalBaseLookup}
  {limits limits' : PackLimits} {P : Provenance τ} {n : ℕ} {object : PackObject} {t : τ}
  {bytes : Bytes} {stack : List ℕ}

theorem Climb.not_mem (hclimb : Climb r P n stack) (hr : r.Addresses objects)
    (hreach : r.Reachable object) (h : Yields r P n object t bytes) : object.offset ∉ stack := by
  intro hmem
  obtain ⟨m, owner, t', bytes', hlt, howner, hoff, hyields⟩ := hclimb.owner _ hmem
  cases hr.unique howner hreach hoff
  exact hlt.ne (h.unique hyields).1

/-- The stack has an object of its own for every offset. -/
theorem Climb.length_lt (hclimb : Climb r P n stack) (hr : r.Addresses objects)
    (hreach : r.Reachable object) (h : Yields r P n object t bytes) :
    stack.length < objects.length := by
  have hnodup : (object.offset :: stack).Nodup :=
    nodup_cons.mpr ⟨hclimb.not_mem hr hreach h, hclimb.nodup⟩
  have hsubset : object.offset :: stack ⊆ objects.map PackObject.offset := by
    intro offset hmem
    rcases mem_cons.mp hmem with rfl | hmem
    · exact mem_map_of_mem (hr.mem hreach)
    · obtain ⟨_, owner, _, _, _, howner, rfl, _⟩ := hclimb.owner _ hmem
      exact mem_map_of_mem (hr.mem howner)
  have hle := (hnodup.subperm hsubset).length_le
  rwa [length_cons, length_map] at hle

theorem Climb.push (hclimb : Climb r P (n + 1) stack) (hr : r.Addresses objects)
    (hreach : r.Reachable object) (h : Yields r P (n + 1) object t bytes) :
    Climb r P n (object.offset :: stack) where
  nodup := nodup_cons.mpr ⟨hclimb.not_mem hr hreach h, hclimb.nodup⟩
  owner offset hmem := by
    rcases mem_cons.mp hmem with rfl | hmem
    · exact ⟨n + 1, object, t, bytes, lt_succ_self n, hreach, rfl, h⟩
    · obtain ⟨m, owner, t', bytes', hlt, hrest⟩ := hclimb.owner _ hmem
      exact ⟨m, owner, t', bytes', (lt_succ_self n).trans hlt, hrest⟩

/-- There is room for `levels` more levels of a chain. -/
structure Room (objects : List PackObject) (limits limits' : PackLimits) (levels : ℕ)
    (acc : Accounting) : Prop where
  expanded : acc.expanded + levels * limits.maxObjectBytes ≤ limits'.maxTotalExpandedBytes
  work : acc.work + levels * (limits.maxObjectBytes + 2 * max 1 objects.length.size)
    ≤ limits'.maxDeltaWork

/-- At most `levels` levels of a chain have been used. -/
structure Used (objects : List PackObject) (limits : PackLimits) (levels : ℕ)
    (acc acc' : Accounting) : Prop where
  expanded : acc'.expanded ≤ acc.expanded + levels * limits.maxObjectBytes
  work : acc'.work ≤ acc.work + levels * (limits.maxObjectBytes + 2 * max 1 objects.length.size)

/-- A delta takes one level more than its base: two searches, and the bytes
of its result once as work and once as expansion. -/
theorem resolveObjectWith_delta {d : DeltaObject} {depth levels : ℕ}
    (hshape : limits.SameShape limits') (hnot : d.offset ∉ stack)
    (hdepth : depth < limits'.maxDeltaDepth) (hword : depth + 1 ≤ u64Max)
    (hfanout : (index objects externalBases limits).fanout d.base ≤ limits.maxDeltaFanout)
    (happlies : Applies limits base d.program result)
    (hroom : Room objects limits limits' (levels + 1) acc)
    (hbase : ∀ acc₁, Room objects limits limits' levels
        { acc₁ with work := acc₁.work + max 1 objects.length.size } →
      ∃ acc₂, (index objects externalBases limits').resolveBaseWith P
          (fun object acc => (index objects externalBases limits').resolveObjectWith P object
            (depth + 1) (d.offset :: stack) acc) d.base acc₁ = .ok ((t, base), acc₂) ∧
        Used objects limits levels
          { acc₁ with work := acc₁.work + max 1 objects.length.size } acc₂) :
    ∃ acc', (index objects externalBases limits').resolveObjectWith P (.delta d) depth stack acc
        = .ok ((t, result), acc') ∧ Used objects limits (levels + 1) acc acc' := by
  obtain ⟨hexp, hwork⟩ := hroom
  have hlength := happlies.length_le
  rw [succ_mul] at hexp hwork
  -- the two searches
  obtain ⟨acc₂, hres, husedExp, husedWork⟩ :=
    hbase { acc with work := acc.work + max 1 objects.length.size }
      ⟨by simp only; omega, by simp only; omega⟩
  simp only at husedExp husedWork
  have hcheck : (index objects externalBases limits').validateFanout d.base acc
      = .ok { acc with work := acc.work + max 1 objects.length.size } :=
    validateFanout_eq_ok.mpr ⟨addWork_eq_ok.mpr
      ⟨by show acc.work + max 1 objects.length.size ≤ limits'.maxDeltaWork; omega, rfl⟩,
      hshape.fanout ▸ hfanout⟩
  -- the delta
  have happly : applyDeltaWithAccounting limits' base d.program acc₂
      = .ok (result, { acc₂ with work := acc₂.work + result.length }) :=
    happlies.elsewhere hshape (by omega) (by omega)
  have hans : (index objects externalBases limits').applyTo d.program ((t, base), acc₂)
      = .ok ((t, result), ⟨acc₂.expanded + result.length, acc₂.work + result.length⟩) :=
    applyTo_eq_ok.mpr ⟨_, happly, addExpanded_eq_ok.mpr
      ⟨by show acc₂.expanded + result.length ≤ limits'.maxTotalExpandedBytes; omega, rfl⟩, rfl⟩
  refine ⟨⟨acc₂.expanded + result.length, acc₂.work + result.length⟩, ?_, ?_, ?_⟩
  · rw [resolveObjectWith, if_neg (show (PackObject.delta d).offset ∉ stack from hnot)]
    refine bind_eq_ok.mpr ⟨_, hcheck, bind_eq_ok.mpr ⟨_, checkedAdd_ok _ hword, ?_⟩⟩
    rw [dif_pos (show depth < (index objects externalBases limits').limits.maxDeltaDepth
      from hdepth)]
    exact bind_eq_ok.mpr ⟨_, hres, hans⟩
  · rw [succ_mul]
    show acc₂.expanded + result.length ≤ _
    omega
  · rw [succ_mul]
    show acc₂.work + result.length ≤ _
    omega

/-- Bytes that are stored whole take one level. -/
theorem admitBytes_of_room {found : Except PackError (τ × Bytes)} {levels : ℕ}
    (hshape : limits.SameShape limits') (hfound : found = .ok (t, bytes))
    (hsize : bytes.length ≤ limits.maxObjectBytes)
    (hroom : Room objects limits limits' (levels + 1) acc) :
    ∃ acc', (index objects externalBases limits').admitBytes found acc = .ok ((t, bytes), acc') ∧
      Used objects limits (levels + 1) acc acc' := by
  obtain ⟨hexp, hwork⟩ := hroom
  rw [succ_mul] at hexp
  refine ⟨{ acc with expanded := acc.expanded + bytes.length },
    admitBytes_eq_ok.mpr ⟨hfound, hshape.object ▸ hsize, ?_⟩, ?_, le_add_right _ _⟩
  · refine addExpanded_eq_ok.mpr ⟨?_, rfl⟩
    show acc.expanded + bytes.length ≤ limits'.maxTotalExpandedBytes
    omega
  · rw [succ_mul]
    show acc.expanded + bytes.length ≤ _
    omega

theorem locateBase_of_room {base : DeltaBase} {site : BaseSite} {levels : ℕ}
    (hsite : (index objects externalBases limits).siteOf base = .ok site)
    (hroom : Room objects limits limits' levels
      { acc with work := acc.work + max 1 objects.length.size }) :
    (index objects externalBases limits').locateBase base acc
      = .ok (site, { acc with work := acc.work + max 1 objects.length.size }) :=
  locateBase_eq_ok.mpr ⟨addWork_eq_ok.mpr
    ⟨(le_add_right _ _).trans hroom.work, rfl⟩, hsite⟩

/-- The resolver gives what an object stands for, with room for a level for
every object that is not on the stack. -/
theorem resolveObjectWith_of_yields (hr : (index objects externalBases limits).Addresses objects)
    (hcount : objects.length ≤ u32Max) (hshape : limits.SameShape limits')
    (hdepth : objects.length ≤ limits'.maxDeltaDepth)
    (h : Yields (index objects externalBases limits) P n object t bytes)
    (hreach : (index objects externalBases limits).Reachable object)
    (hclimb : Climb (index objects externalBases limits) P n stack)
    (hroom : Room objects limits limits' (objects.length - stack.length + 1) acc) :
    ∃ acc', (index objects externalBases limits').resolveObjectWith P object stack.length stack acc
        = .ok ((t, bytes), acc') ∧
      Used objects limits (objects.length - stack.length + 1) acc acc' := by
  have hmax : u32Max < u64Max := by decide
  induction h generalizing stack acc with
  | base hroot hsize =>
    rw [resolveObjectWith, if_neg (hclimb.not_mem hr hreach (.base hroot hsize))]
    exact admitBytes_of_room hshape (by rw [hroot]; rfl) hsize hroom
  | typedBase hroot hsize =>
    rw [resolveObjectWith, if_neg (hclimb.not_mem hr hreach (.typedBase hroot hsize))]
    exact admitBytes_of_room hshape (by rw [hroot]; rfl) hsize hroom
  | @external d id t base result hfanout hsite hbase hsize happlies =>
    have hyields := Yields.external hfanout hsite hbase hsize happlies
    have hnot := hclimb.not_mem hr hreach hyields
    have hlt := hclimb.length_lt hr hreach hyields
    refine resolveObjectWith_delta hshape hnot (by omega) (by omega) hfanout happlies hroom ?_
    intro acc₁ hroom₁
    obtain ⟨levels, hlevels⟩ : ∃ levels, objects.length - stack.length = levels + 1 :=
      ⟨objects.length - stack.length - 1, by omega⟩
    rw [hlevels] at hroom₁ ⊢
    obtain ⟨acc₂, hadmits, hused⟩ := admitBytes_of_room hshape hbase hsize hroom₁
    exact ⟨acc₂, bind_eq_ok.mpr ⟨_, locateBase_of_room hsite hroom₁, hadmits⟩, hused⟩
  | @inPack n d below t base result hfanout hsite hbase happlies ih =>
    have hyields := Yields.inPack hfanout hsite hbase happlies
    have hnot := hclimb.not_mem hr hreach hyields
    have hlt := hclimb.length_lt hr hreach hyields
    -- the object below stands on one offset more
    have hbelow := hr.below hsite
    have hclimb' : Climb _ P n (d.offset :: stack) := hclimb.push hr hreach hyields
    have hlevels : objects.length - (d.offset :: stack).length + 1
        = objects.length - stack.length := by
      rw [length_cons]
      omega
    refine resolveObjectWith_delta hshape hnot (by omega) (by omega) hfanout happlies hroom ?_
    intro acc₁ hroom₁
    obtain ⟨acc₂, hres, hused⟩ := ih hbelow hclimb' (hlevels.symm ▸ hroom₁)
    rw [hlevels] at hused
    exact ⟨acc₂, bind_eq_ok.mpr ⟨_, locateBase_of_room hsite hroom₁, hres⟩, hused⟩

end Complete

end ScalarResolver

end Frankengit.Pack
