/-
Frankengit/Wire/ClosureObjects.lean

The walk over the objects of a closure.  `Reaches` is a path from a root, with
the parent it arrives from and the depth in trees; the walk keeps for each
object the path that is least by depth and then by parent (`Recorded`).

The walk is a label-correcting search: `WalkInv` is its invariant, kept by each
arrival (`follow_keeps`), and with enough room the walk ends (`exists_walk`).
-/
import Frankengit.Wire.Closure

namespace Frankengit.Wire.Closure

open Fallible List Option Std.ExtTreeMap Walk Closure.Label Relax Nat Function BTree
open GitObject (ObjectType)

/-! ### Filters -/

/-- The filter leaves the object out at the depth. -/
inductive Excludes : ObjectFilter → ClosureObject → ℕ → Prop
  | blobNone {size depth : ℕ} : Excludes .blobNone (.blob size) depth
  | blobLimit {limit size depth : ℕ} (h : limit ≤ size) :
    Excludes (.blobLimit limit) (.blob size) depth
  | treeDepth {limit depth : ℕ} {object : ClosureObject}
      (hkind : object.objectType = .tree ∨ object.objectType = .blob) (h : limit ≤ depth) :
      Excludes (.treeDepth limit) object depth
  | combine {parts : List ObjectFilter} {part : ObjectFilter} {object : ClosureObject} {depth : ℕ}
      (hmem : part ∈ parts) (h : Excludes part object depth) :
        Excludes (.combine parts) object depth

section Filters

variable {filter : ObjectFilter} {object : ClosureObject} {depth size : ℕ}

theorem treeDepthPermitsAll_iff {parts : List ObjectFilter} :
    treeDepthPermitsAll parts depth = true ↔
      ∀ part ∈ parts, treeDepthPermits part depth = true := by
  induction parts with
  | nil => simp [treeDepthPermitsAll]
  | cons part parts ih => rw [treeDepthPermitsAll, Bool.and_eq_true, ih, forall_mem_cons]

theorem blobPermitsAll_iff {parts : List ObjectFilter} :
    blobPermitsAll parts size = true ↔ ∀ part ∈ parts, blobPermits part size = true := by
  induction parts with
  | nil => simp [blobPermitsAll]
  | cons part parts ih => rw [blobPermitsAll, Bool.and_eq_true, ih, forall_mem_cons]

theorem Excludes.of_depth (hkind : object.objectType = .tree ∨ object.objectType = .blob) :
    ∀ filter : ObjectFilter, ¬ treeDepthPermits filter depth → Excludes filter object depth
  | .treeDepth limit, h => by
    rw [treeDepthPermits, decide_eq_true_eq, not_lt] at h
    exact .treeDepth hkind h
  | .combine parts, h => by
    rw [treeDepthPermits, treeDepthPermitsAll_iff] at h
    push Not at h
    obtain ⟨part, hmem, hpart⟩ := h
    have hsize := sizeOf_lt_of_mem hmem
    exact .combine hmem (.of_depth hkind part hpart)
  | .blobNone, h | .blobLimit _, h | .sparsePath _, h | .sparseObject _, h
    | .sparseObjectName _, h =>
    absurd (by simp [treeDepthPermits]) h
termination_by filter => sizeOf filter

theorem Excludes.of_size : ∀ filter : ObjectFilter,
    ¬ blobPermits filter size → Excludes filter (.blob size) depth
  | .blobNone, _ => .blobNone
  | .blobLimit limit, h => by
    rw [blobPermits, decide_eq_true_eq, not_lt] at h
    exact .blobLimit h
  | .combine parts, h => by
    rw [blobPermits, blobPermitsAll_iff] at h
    push Not at h
    obtain ⟨part, hmem, hpart⟩ := h
    have hsize := sizeOf_lt_of_mem hmem
    exact .combine hmem (.of_size part hpart)
  | .treeDepth _, h | .sparsePath _, h | .sparseObject _, h | .sparseObjectName _, h =>
    absurd (by simp [blobPermits]) h
termination_by filter => sizeOf filter

/-- An object is left out for its depth or, if it is a blob, for its size. -/
theorem Excludes.cases (h : Excludes filter object depth) :
    (object.objectType = .tree ∨ object.objectType = .blob) ∧ ¬ treeDepthPermits filter depth
      ∨ ∃ size, object = .blob size ∧ ¬ blobPermits filter size := by
  induction h with
  | blobNone => exact .inr ⟨_, rfl, by simp [blobPermits]⟩
  | blobLimit h => exact .inr ⟨_, rfl, by simp [blobPermits, h]⟩
  | treeDepth hkind h => exact .inl ⟨hkind, by simp [treeDepthPermits, h]⟩
  | combine hmem h ih =>
    rcases ih with ⟨hkind, hdepth⟩ | ⟨size, rfl, hsize⟩
    · refine .inl ⟨hkind, ?_⟩
      rw [treeDepthPermits, treeDepthPermitsAll_iff]
      exact fun hall => hdepth (hall _ hmem)
    · refine .inr ⟨size, rfl, ?_⟩
      rw [blobPermits, blobPermitsAll_iff]
      exact fun hall => hsize (hall _ hmem)

/-- The code leaves out what the filter excludes. -/
theorem omissionReason_isSome {filter : Option ObjectFilter} :
    (omissionReason filter object depth).isSome ↔ ∃ f, filter = some f ∧
      Excludes f object depth := by
  cases filter with
  | none => simp [omissionReason]
  | some f =>
    simp only [some.injEq, exists_eq_left']
    constructor
    · intro h
      cases object with
      | tree entries =>
        refine .of_depth (.inl rfl) f fun hpermits => ?_
        simp [omissionReason, hpermits] at h
      | blob size =>
        by_cases hdepth : treeDepthPermits f depth
        · refine .of_size f fun hpermits => ?_
          simp [omissionReason, hpermits, hdepth] at h
        · exact .of_depth (.inr rfl) f hdepth
      | commit node | tag target => simp [omissionReason] at h
    · intro h
      rcases h.cases with ⟨hkind, hdepth⟩ | ⟨size, rfl, hsize⟩
      · cases object with
        | tree entries | blob size => simp [omissionReason, hdepth]
        | commit node | tag target => simp [ClosureObject.objectType] at hkind
      · by_cases hdepth : treeDepthPermits f depth
        · simp [omissionReason, hdepth, hsize]
        · simp [omissionReason, hdepth]

end Filters

/-! ### Paths -/

/-- A path from a root to an object: where it comes from at last, and how deep
in trees it ends.  Gitlinks are no part of a path. -/
inductive Reaches (repository : ObjectClosureRepository)
    (roots : List (AnyGitOid × Option AnyGitOid)) :
    AnyGitOid → Option AnyGitOid → ℕ → Prop
  | root {oid : AnyGitOid} {parent : Option AnyGitOid} (h : (oid, parent) ∈ roots) :
      Reaches repository roots oid parent 0
  | tree {oid : AnyGitOid} {parent : Option AnyGitOid} {depth : ℕ} {node : CommitNode}
      (h : Reaches repository roots oid parent depth)
        (hobj : repository.object oid = .ok (.commit node)) :
      Reaches repository roots node.tree (some oid) 0
  | parent {oid : AnyGitOid} {parent : Option AnyGitOid} {depth : ℕ} {node : CommitNode}
    {older : AnyGitOid}
      (h : Reaches repository roots oid parent depth)
        (hobj : repository.object oid = .ok (.commit node))
      (hmem : older ∈ node.parents) : Reaches repository roots older (some oid) 0
  | entry {oid : AnyGitOid} {parent : Option AnyGitOid} {depth : ℕ}
    {entries : List ClosureTreeEntry}
      {entry : ClosureTreeEntry} (h : Reaches repository roots oid parent depth)
      (hobj : repository.object oid = .ok (.tree entries)) (hmem : entry ∈ entries)
      (hlocal : entry.isGitlink = false) : Reaches repository roots entry.oid (some oid) (depth + 1)
  | target {oid : AnyGitOid} {parent : Option AnyGitOid} {depth : ℕ} {target : AnyGitOid}
      (h : Reaches repository roots oid parent depth)
        (hobj : repository.object oid = .ok (.tag target)) :
      Reaches repository roots target (some oid) depth

section Paths

variable (repository : ObjectClosureRepository) (roots : List (AnyGitOid × Option AnyGitOid))

/-- Some path leads to the object. -/
def Reachable (oid : AnyGitOid) : Prop := ∃ parent depth, Reaches repository roots oid parent depth

/-- The depth is the least of all paths, and the parent the least at that depth. -/
def Recorded (oid : AnyGitOid) (parent : Option AnyGitOid) (depth : ℕ) : Prop :=
  Reaches repository roots oid parent depth
    ∧ ∀ parent' depth', Reaches repository roots oid parent' depth' →
      depth < depth' ∨ depth = depth' ∧ parentKey parent ≤ parentKey parent'

/-- Everything on the paths can be read. -/
def Readable : Prop :=
  ∀ oid, Reachable repository roots oid →
    oid.algorithm = repository.objectFormat ∧ ∃ object, repository.object oid = .ok object

/-- Depths fit in 32 bits: no path is that deep, or there are not that many objects. -/
def DepthsFit : Prop :=
  (∀ oid parent depth, Reaches repository roots oid parent depth → depth + 1 < 2 ^ 32) ∨
    {oid | Reachable repository roots oid}.ncard < 2 ^ 32

/-- One object leads to another, as the walk sees it. -/
def Leads (oid : AnyGitOid) (label : Label) (child : AnyGitOid) (childLabel : Label) : Prop :=
  ∃ object, repository.object oid = .ok object ∧ (child, childLabel) ∈ children oid label.2 object

/-- The labels that roots start with. -/
def RootLabel (oid : AnyGitOid) (label : Label) : Prop := (oid, label.1) ∈ roots ∧ label.2 = 0

variable {repository roots} {oid : AnyGitOid} {label : Label}

theorem arrives_iff : Arrives (Leads repository) (RootLabel roots) oid label ↔
    Reaches repository roots oid label.1 label.2 := by
  constructor
  · intro h
    induction h with
    | root h =>
      obtain ⟨hmem, hzero⟩ := h
      rw [hzero]
      exact .root hmem
    | step _ h ih =>
      obtain ⟨object, hobj, hchild⟩ := h
      cases object with
      | commit node =>
        rcases mem_append.mp hchild with hchild | hchild
        · obtain ⟨older, hmem, heq⟩ := mem_map.mp hchild
          cases heq
          exact .parent ih hobj hmem
        · cases mem_singleton.mp hchild
          exact .tree ih hobj
      | tree entries =>
        obtain ⟨entry, hmem, heq⟩ := mem_map.mp hchild
        obtain ⟨hmem, hlocal⟩ := mem_filter.mp hmem
        cases heq
        exact .entry ih hobj hmem (by simpa using hlocal)
      | blob size => cases hchild
      | tag target =>
        cases mem_singleton.mp hchild
        exact .target ih hobj
  · obtain ⟨parent, depth⟩ := label
    intro h
    dsimp only at h
    induction h with
    | root h => exact .root ⟨h, rfl⟩
    | tree _ hobj ih =>
      exact .step ih ⟨_, hobj, mem_append_right _ (mem_singleton_self _)⟩
    | parent _ hobj hmem ih =>
      exact .step ih ⟨_, hobj, mem_append_left _ (mem_map_of_mem hmem)⟩
    | entry _ hobj hmem hlocal ih =>
      refine .step ih ⟨_, hobj, mem_map.mpr ⟨_, mem_filter.mpr ⟨hmem, ?_⟩, rfl⟩⟩
      simpa using hlocal
    | target _ hobj ih => exact .step ih ⟨_, hobj, mem_singleton_self _⟩

theorem Label.key_le_iff {label label' : Label} : label.key ≤ label'.key ↔
    label.2 < label'.2 ∨ label.2 = label'.2 ∧ parentKey label.1 ≤ parentKey label'.1 := by
  rw [key, key, Prod.Lex.toLex_le_toLex]

theorem Label.depth_le_of_key_le {label label' : Label} (h : label.key ≤ label'.key) :
    label.2 ≤ label'.2 := by
  rcases key_le_iff.mp h with h | h
  · exact h.le
  · exact h.1.le

/-- A lower path gives lower paths to the children. -/
theorem leads_improving : Improving (Leads repository) key := by
  rintro oid label label' child childLabel hle ⟨object, hobj, hchild⟩
  have hdepth := depth_le_of_key_le hle
  cases object with
  | commit node => exact ⟨childLabel, ⟨_, hobj, hchild⟩, le_rfl⟩
  | tree entries =>
    obtain ⟨entry, hmem, heq⟩ := mem_map.mp hchild
    cases heq
    refine ⟨(some oid, label.2 + 1), ⟨_, hobj, mem_map.mpr ⟨entry, hmem, rfl⟩⟩, ?_⟩
    rw [key_le_iff]
    rcases hdepth.eq_or_lt with heq | hlt
    · exact .inr ⟨by omega, le_rfl⟩
    · exact .inl (by omega)
  | blob size => cases hchild
  | tag target =>
    cases mem_singleton.mp hchild
    refine ⟨(some oid, label.2), ⟨_, hobj, mem_singleton_self _⟩, ?_⟩
    rw [key_le_iff]
    rcases hdepth.eq_or_lt with heq | hlt
    · exact .inr ⟨heq, le_rfl⟩
    · exact .inl hlt

theorem depth_of_mem_children {object : ClosureObject} {depth : ℕ} {child : AnyGitOid × Label}
    (h : child ∈ children oid depth object) : child.2.2 ≤ depth + 1 := by
  cases object with
  | commit node =>
    rcases mem_append.mp h with h | h
    · obtain ⟨older, -, rfl⟩ := mem_map.mp h
      exact zero_le _
    · rw [mem_singleton.mp h]
      exact zero_le _
  | tree entries =>
    obtain ⟨entry, -, rfl⟩ := mem_map.mp h
    exact le_rfl
  | blob size => cases h
  | tag target =>
    rw [mem_singleton.mp h]
    exact le_succ _

end Paths

/-! ### The walk -/

/-- The walk so far: its paths are real and cover what they lead to, no path is
deeper than there are paths, and each has the object that it is for. -/
structure WalkInv (repository : ObjectClosureRepository)
    (roots : List (AnyGitOid × Option AnyGitOid))
    (s : Walk) (frontier : List (AnyGitOid × Label)) : Prop where
  relaxing : Relaxing (Leads repository) (RootLabel roots) key s.labels
    fun oid label => (oid, label) ∈ frontier
  narrow : Narrow Prod.snd s.paths.size s.labels fun oid label => (oid, label) ∈ frontier
  facts : ∀ {oid path}, s.paths[oid]? = some path → repository.object oid = .ok path.object

/-- The walk after an arrival is taken. -/
def Walk.take (s : Walk) (oid : AnyGitOid) (label : Label) (object : ClosureObject) : Walk :=
  ⟨s.paths.insert oid ⟨object, label.1, label.2⟩, s.edges + treeEdges object⟩

section WalkInv

variable {repository : ObjectClosureRepository} {roots : List (AnyGitOid × Option AnyGitOid)}
  {limits : ClosureLimits} {s s' : Walk} {oid : AnyGitOid} {label existing : Label}
  {object : ClosureObject} {rest frontier : List (AnyGitOid × Label)}

theorem Walk.labels_take :
    (s.take oid label object).labels = update s.labels oid (some label) :=
  labels_insert

theorem Walk.labels_eq_none : s.labels oid = none ↔ s.paths[oid]? = none := by
  rw [labels, map_eq_none_iff]

theorem Walk.size_take : s.paths.size ≤ (s.take oid label object).paths.size
    ∧ (s.labels oid = none → s.paths.size < (s.take oid label object).paths.size) := by
  have hsize : (s.take oid label object).paths.size
      = if oid ∈ s.paths then s.paths.size else s.paths.size + 1 :=
    size_insert
  rw [hsize]
  constructor
  · split_ifs
    · exact le_rfl
    · exact le_succ _
  · intro hnone
    rw [if_neg]
    · exact lt_succ_self _
    · simp [BTree.mem_iff_get, labels_eq_none.mp hnone]

namespace WalkInv

theorem start (hroots : ∀ oid label, (oid, label) ∈ frontier ↔ RootLabel roots oid label) :
    WalkInv repository roots {} frontier where
  relaxing := by
    refine Relax.Relaxing.start (fun oid => ?_) hroots
    rw [labels_eq_none]
    exact getElem?_empty
  narrow := by
    constructor
    · intro oid label h
      cases h
    · intro oid label h
      rw [((hroots oid label).mp h).2]
      exact zero_le _
  facts := by
    intro oid path h
    cases h

theorem skip (h : WalkInv repository roots s ((oid, label) :: rest))
    (hlabel : s.labels oid = some existing) (hle : existing.key ≤ label.key) :
    WalkInv repository roots s rest where
  relaxing := by
    refine h.relaxing.skip hlabel hle (fun hmem => mem_cons_of_mem _ hmem) fun hmem => ?_
    rcases mem_cons.mp hmem with heq | hmem
    · exact .inl (Prod.mk.inj heq)
    · exact .inr hmem
  narrow := h.narrow.skip fun hmem => mem_cons_of_mem _ hmem
  facts := h.facts

theorem take (h : WalkInv repository roots s ((oid, label) :: rest))
    (hbetter : ∀ existing, s.labels oid = some existing → label.key < existing.key)
    (hobj : repository.object oid = .ok object) :
    WalkInv repository roots (s.take oid label object) (children oid label.2 object ++ rest) where
  relaxing := by
    rw [labels_take]
    refine h.relaxing.visit mem_cons_self (fun hold => (hbetter _ hold).le)
      fun child childLabel => ?_
    have hleads : Leads repository oid label child childLabel ↔
        (child, childLabel) ∈ children oid label.2 object := by simp [Leads, hobj]
    rw [hleads, mem_append, mem_cons, Prod.mk.injEq child childLabel]
    tauto
  narrow := by
    rw [labels_take]
    refine h.narrow.visit mem_cons_self (fun hold => depth_le_of_key_le (hbetter _ hold).le)
      size_take.1 size_take.2 fun hmem => ?_
    rcases mem_append.mp hmem with hmem | hmem
    · exact .inl (depth_of_mem_children hmem)
    · exact .inr (mem_cons_of_mem _ hmem)
  facts := by
    intro other path hpath
    rw [Walk.take, get_insert] at hpath
    split_ifs at hpath with heq
    · cases hpath
      exact heq ▸ hobj
    · exact h.facts hpath

/-- What has a path is reachable, so there are not more paths than reachable
objects. -/
theorem size_le (h : WalkInv repository roots s frontier) :
    s.paths.size ≤ {oid | Reachable repository roots oid}.ncard := by
  refine size_le_ncard fun oid path hpath => ?_
  have hlabel : s.labels oid = some path.label := by rw [labels, hpath, map_some]
  exact ⟨_, _, arrives_iff.mp (h.relaxing.labelled hlabel)⟩

end WalkInv

/-- **Each arrival keeps the invariant.** -/
theorem follow_keeps {stack : List (AnyGitOid × Label)} {arrival : AnyGitOid × Label}
    (h : WalkInv repository roots s (arrival :: rest))
    (hfollow : follow repository limits s arrival rest = .ok (s', stack)) :
    WalkInv repository roots s' stack := by
  obtain ⟨-, ⟨existing, hlabel, hle, hnext⟩
      | ⟨hbetter, -, object, hobj, expanded, hexpand, hnext⟩⟩ :=
    follow_eq_ok.mp hfollow
  · cases hnext
    exact h.skip hlabel hle
  · obtain ⟨-, -, -, rfl⟩ := expandObject_eq_ok.mp hexpand
    cases hnext
    exact h.take hbetter hobj

/-- With room for one more object and for its children, an arrival is taken. -/
theorem follow_take (hfmt : oid.algorithm = repository.objectFormat)
    (hbetter : ∀ existing, s.labels oid = some existing → label.key < existing.key)
    (hobj : repository.object oid = .ok object)
    (hfmts : ∀ child ∈ children oid label.2 object, child.1.algorithm = repository.objectFormat)
    (hdepth : label.2 + 1 < 2 ^ 32) (hsize : s.paths.size < limits.maxObjects)
    (hedges : s.edges + treeEdges object ≤ limits.maxEdges)
    (hroom : rest.length + (children oid label.2 object).length ≤ limits.maxEdges) :
    follow repository limits s (oid, label) rest
      = .ok (s.take oid label object, children oid label.2 object ++ rest) := by
  refine follow_eq_ok.mpr ⟨hfmt, .inr ⟨hbetter, fun hfull => ?_, object, hobj,
    (s.edges + treeEdges object, children oid label.2 object ++ rest), ?_, rfl⟩⟩
  · omega
  · exact expandObject_eq_ok.mpr ⟨fun _ => ⟨hedges, hdepth⟩, hfmts, fun _ => hroom, rfl⟩

/-- Room for some more objects, edges and pending arrivals. -/
def WalkRoom (limits : ClosureLimits) (s : Walk) (frontier : List (AnyGitOid × Label))
    (room : ℕ) : Prop :=
  s.paths.size + room ≤ limits.maxObjects ∧ s.edges + room ≤ limits.maxEdges
    ∧ frontier.length + room ≤ limits.maxEdges

/-- **With enough room the walk ends.** -/
theorem exists_walk (hreadable : Readable repository roots)
    (hfit : DepthsFit repository roots) (h : WalkInv repository roots s frontier) :
    ∃ bound, ∀ limits, WalkRoom limits s frontier bound →
      ∃ s', Drain.drain (follow_lowers repository limits) s frontier = .ok s' := by
  refine exists_drain key (follow_lowers repository) labels ?_ h
  rintro s ⟨oid, label⟩ rest h
  have hreach : Reaches repository roots oid label.1 label.2 :=
    arrives_iff.mp (h.relaxing.queued mem_cons_self)
  obtain ⟨hfmt, object, hobj⟩ := hreadable oid ⟨_, _, hreach⟩
  by_cases hskip : ∃ existing, s.labels oid = some existing ∧ existing.key ≤ label.key
  · obtain ⟨existing, hlabel, hle⟩ := hskip
    refine ⟨s, rest, 0, h.skip hlabel hle, .inr ⟨rfl, le_rfl⟩, fun limits bound hroom => ?_⟩
    refine ⟨follow_eq_ok.mpr ⟨hfmt, .inl ⟨existing, hlabel, hle, rfl⟩⟩, hroom.1, hroom.2.1, ?_⟩
    have hfront := hroom.2.2
    rw [length_cons] at hfront
    omega
  · have hbetter : ∀ existing, s.labels oid = some existing → label.key < existing.key :=
      fun existing hlabel => not_le.mp fun hle => hskip ⟨existing, hlabel, hle⟩
    have htake := h.take hbetter hobj
    have hself : (s.take oid label object).labels oid = some label := by
      rw [labels_take, update_self]
    have hdepth : label.2 + 1 < 2 ^ 32 := by
      rcases hfit with hshallow | hfew
      · exact hshallow _ _ _ hreach
      · exact (succ_le_of_lt (htake.narrow.labelled hself)).trans_lt (htake.size_le.trans_lt hfew)
    have hfmts : ∀ child ∈ children oid label.2 object,
        child.1.algorithm = repository.objectFormat := by
      intro child hmem
      have harrives := htake.relaxing.queued (mem_append_left rest hmem)
      exact (hreadable child.1 ⟨_, _, arrives_iff.mp harrives⟩).1
    refine ⟨_, _, 1 + treeEdges object + (children oid label.2 object).length, htake,
      .inl (labels_take ▸ rank_lt key hbetter), ?_⟩
    rintro limits bound ⟨hobjs, hedges, hfront⟩
    have hsize : (s.take oid label object).paths.size ≤ s.paths.size + 1 :=
      size_insert_le
    rw [length_cons] at hfront
    refine ⟨follow_take hfmt hbetter hobj hfmts hdepth ?_ ?_ ?_, ?_, ?_, ?_⟩
    · omega
    · omega
    · omega
    · omega
    · show s.edges + treeEdges object + bound ≤ limits.maxEdges
      omega
    · rw [length_append]
      omega

end WalkInv

end Frankengit.Wire.Closure
