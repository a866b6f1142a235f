/-
Frankengit/Wire/Closure.lean

The closure that a pack is written from (crate `fgit-wire`, `closure.rs`): the
commits that a request selects, with the shallow boundary, and the objects
under them, split by a partial-clone filter into those to send and those to
promise.

Stacks are lists with the top first.  Both walks are loops of `Drain`: the walk
over commits charges every parent it pushes against the limit of edges, and
the walk over objects looks at an object again only on a better path.
-/
import Frankengit.GitObject.Syntax
import Frankengit.Lib.Bisect
import Frankengit.Lib.Relax
import Frankengit.Wire.Request

namespace Frankengit.Wire.Closure

open Fallible List Bytewise Drain Option Function Except
open GitObject (ObjectType)

structure ClosureLimits where
  maxCommits : ℕ := 1000000
  maxObjects : ℕ := 4000000
  maxEdges : ℕ := 16000000

structure CommitNode where
  tree : AnyGitOid
  parents : List AnyGitOid
  committerTime : ℤ

structure ClosureTreeEntry where
  oid : AnyGitOid
  objectType : ObjectType

/-- A commit in a tree belongs to another repository. -/
def ClosureTreeEntry.isGitlink (entry : ClosureTreeEntry) : Bool := entry.objectType = .commit

inductive ClosureObject where
  | commit (node : CommitNode)
  | tree (entries : List ClosureTreeEntry)
  | blob (size : ℕ)
  | tag (target : AnyGitOid)

def ClosureObject.objectType : ClosureObject → ObjectType
  | commit _ => .commit
  | tree _ => .tree
  | blob _ => .blob
  | tag _ => .tag

inductive ClosureError where
  | invalidLimit
  | invalidDeepenDepth
  | unsupportedRelativeDeepening
  | objectFormatMismatch (expected observed : GitObjectFormat)
  | expectedCommit (oid : AnyGitOid) (observed : ObjectType)
  | inconsistentGraph (oid : AnyGitOid)
  | resourceLimit (field : String) (limit : ℕ)
  | filteredObjectLeak (oid : AnyGitOid) (objectType : ObjectType)
  | unauthenticatedPromisorManifest
  | unexpectedLazyFetchWant (oid : AnyGitOid)

def ClosureLimits.validate (limits : ClosureLimits) : Except ClosureError Unit :=
  refuseIf (limits.maxCommits = 0 ∨ limits.maxObjects = 0 ∨ limits.maxEdges = 0) .invalidLimit

structure ObjectClosureRepository where
  objectFormat : GitObjectFormat
  object : AnyGitOid → Except ClosureError ClosureObject

structure ShallowRequest where
  clientShallows : List AnyGitOid
  deepen : Option UInt32
  deepenSince : Option ℤ
  deepenNot : List AnyGitOid

def ShallowRequest.fromPackRequest (request : PackRequest) : ShallowRequest :=
  ⟨request.shallows, request.deepen, request.deepenSince, request.deepenNot⟩

variable (repository : ObjectClosureRepository)

def ensureFormat (oid : AnyGitOid) : Except ClosureError Unit :=
  refuseIf (oid.algorithm ≠ repository.objectFormat)
    (.objectFormatMismatch repository.objectFormat oid.algorithm)

/-- Children are pushed from the last to the first. -/
def ensureFormats (oids : List AnyGitOid) : Except ClosureError Unit :=
  oids.reverse.forM (ensureFormat repository)

/-- The commit of that identity. -/
def commitAt (oid : AnyGitOid) : Except ClosureError CommitNode := do
  match ← repository.object oid with
  | .commit node => return node
  | object => throw (.expectedCommit oid object.objectType)

/-- Edges are charged as they are read. -/
def chargeEdges (field : String) (count edges : ℕ) (limits : ClosureLimits) :
    Except ClosureError ℕ :=
  if limits.maxEdges < edges + count then .error (.resourceLimit field limits.maxEdges)
  else .ok (edges + count)

/-- Depths are 32 bits wide. -/
def nextDepth (oid : AnyGitOid) (depth : ℕ) : Except ClosureError ℕ :=
  if depth + 1 < 2 ^ 32 then .ok (depth + 1) else .error (.inconsistentGraph oid)

variable {repository} {oid : AnyGitOid}

@[simp] theorem ensureFormat_eq_ok {u : Unit} :
    ensureFormat repository oid = .ok u ↔ oid.algorithm = repository.objectFormat := by
  rw [ensureFormat, refuseIf_eq_ok, not_not]

@[simp] theorem ensureFormats_eq_ok {oids : List AnyGitOid} {u : Unit} :
    ensureFormats repository oids = .ok u ↔
      ∀ oid ∈ oids, oid.algorithm = repository.objectFormat := by
  cases u
  simp only [ensureFormats, forM_eq_ok, mem_reverse, ensureFormat_eq_ok]

@[simp] theorem commitAt_eq_ok {node : CommitNode} :
    commitAt repository oid = .ok node ↔ repository.object oid = .ok (.commit node) := by
  rw [commitAt, bind_eq_ok]
  constructor
  · rintro ⟨object, hobj, h⟩
    cases object with
    | commit found => rw [hobj, pure_eq_ok.mp h]
    | tree _ | blob _ | tag _ => cases h
  · exact fun h => ⟨_, h, rfl⟩

@[simp] theorem chargeEdges_eq_ok {field : String} {count edges charged : ℕ}
    {limits : ClosureLimits} :
    chargeEdges field count edges limits = .ok charged ↔
      edges + count ≤ limits.maxEdges ∧ edges + count = charged := by
  unfold chargeEdges
  split_ifs with h
  · refine ⟨fun herror => ?_, fun hfits => ?_⟩
    · cases herror
    · omega
  · rw [ok.injEq]
    omega

@[simp] theorem nextDepth_eq_ok {depth next : ℕ} :
    nextDepth oid depth = .ok next ↔ depth + 1 < 2 ^ 32 ∧ depth + 1 = next := by
  unfold nextDepth
  split_ifs with h
  · rw [ok.injEq, and_iff_right h]
  · exact ⟨nofun, fun hnext => absurd hnext.1 h⟩

variable (repository)

/-! ### Excluded history -/

/-- The excluded commits and the edges read so far. -/
structure Exclusion where
  excluded : BTreeSet AnyGitOid := ∅
  edges : ℕ := 0

def exclude (limits : ClosureLimits) (s : Exclusion) (oid : AnyGitOid) (rest : List AnyGitOid) :
    Except ClosureError (Exclusion × List AnyGitOid) := do
  ensureFormat repository oid
  if oid ∈ s.excluded then return (s, rest)
  else
    refuseIf (s.excluded.size = limits.maxCommits)
      (.resourceLimit "excluded commits" limits.maxCommits)
    let node ← commitAt repository oid
    let edges ← chargeEdges "excluded graph edges" node.parents.length s.edges limits
    ensureFormats repository node.parents
    return (⟨s.excluded.insert oid, edges⟩, node.parents ++ rest)

variable {repository} in
theorem exclude_eq_ok {limits : ClosureLimits} {s : Exclusion} {rest : List AnyGitOid}
    {next : Exclusion × List AnyGitOid} :
    exclude repository limits s oid rest = .ok next ↔ oid.algorithm = repository.objectFormat
        ∧ (oid ∈ s.excluded ∧ (s, rest) = next
          ∨ oid ∉ s.excluded ∧ s.excluded.size ≠ limits.maxCommits
            ∧ ∃ node, repository.object oid = .ok (.commit node)
              ∧ s.edges + node.parents.length ≤ limits.maxEdges
              ∧ (∀ parent ∈ node.parents, parent.algorithm = repository.objectFormat)
              ∧ (⟨s.excluded.insert oid, s.edges + node.parents.length⟩, node.parents ++ rest)
                = next) := by
  unfold exclude
  by_cases hmem : oid ∈ s.excluded
  · simp [hmem]
  · simp [hmem]

theorem exclude_lowers (limits : ClosureLimits) :
    Lowers (exclude repository limits) fun s => limits.maxEdges - s.edges := by
  intro s oid rest s' stack h
  obtain ⟨-, ⟨-, hnext⟩ | ⟨-, -, node, -, hedges, -, hnext⟩⟩ := exclude_eq_ok.mp h
  · cases hnext
    exact .inr ⟨rfl, le_rfl⟩
  · cases hnext
    dsimp only
    rw [length_append]
    omega

/-- The excluded commits: what the given ones lead to. -/
def collectExcluded (request : ShallowRequest) (limits : ClosureLimits) :
    Except ClosureError (BTreeSet AnyGitOid) := do
  let s ← drain (exclude_lowers repository limits) {} request.deepenNot.reverse
  return s.excluded

/-! ### Selected commits -/

/-- What the walk over commits has recorded. -/
structure Selection where
  commits : BTreeMap AnyGitOid CommitNode := ∅
  depths : BTreeMap AnyGitOid ℕ := ∅
  boundaries : BTreeSet AnyGitOid := ∅
  edges : ℕ := 0

section Commits

variable (shallow : ShallowRequest) (excluded : BTreeSet AnyGitOid) (limits : ClosureLimits)

/-- Where history is cut: too old, next to excluded history, or deep enough. -/
def isBoundary (node : CommitNode) (depth : ℕ) : Bool :=
  shallow.deepenSince.any (fun minimum => node.committerTime < minimum)
    || node.parents.any (fun parent => parent ∈ excluded)
    || shallow.deepen.any (fun maximum => maximum.toNat ≤ depth)

/-- The first arrival at a commit. -/
def visit (s : Selection) (oid : AnyGitOid) (depth : ℕ) (rest : List (AnyGitOid × ℕ)) :
    Except ClosureError (Selection × List (AnyGitOid × ℕ)) := do
  refuseIf (s.commits.size = limits.maxCommits) (.resourceLimit "commits" limits.maxCommits)
  let node ← commitAt repository oid
  ensureFormat repository node.tree
  let edges ← chargeEdges "graph edges" node.parents.length s.edges limits
  let commits := s.commits.insert oid node
  let depths := s.depths.insert oid depth
  if isBoundary shallow excluded node depth then
    return (⟨commits, depths, s.boundaries.insert oid, edges⟩, rest)
  else
    let next ← nextDepth oid depth
    ensureFormats repository node.parents
    return (⟨commits, depths, s.boundaries, edges⟩, node.parents.map (·, next) ++ rest)

/-- An arrival on a shorter path. -/
def revisit (s : Selection) (oid : AnyGitOid) (depth : ℕ) (rest : List (AnyGitOid × ℕ)) :
    Except ClosureError (Selection × List (AnyGitOid × ℕ)) := do
  let node ← commitAt repository oid
  ensureFormat repository node.tree
  let depths := s.depths.insert oid depth
  if isBoundary shallow excluded node depth then
    return (⟨s.commits, depths, s.boundaries.insert oid, s.edges⟩, rest)
  else
    let next ← nextDepth oid depth
    let edges ← chargeEdges "graph edges" node.parents.length s.edges limits
    ensureFormats repository node.parents
    return (⟨s.commits, depths, s.boundaries.erase oid, edges⟩, node.parents.map (·, next) ++ rest)

def arrive (s : Selection) (arrival : AnyGitOid × ℕ) (rest : List (AnyGitOid × ℕ)) :
    Except ClosureError (Selection × List (AnyGitOid × ℕ)) := do
  ensureFormat repository arrival.1
  if arrival.1 ∈ excluded then return (s, rest)
  else
    match s.depths[arrival.1]? with
    | none => visit repository shallow excluded limits s arrival.1 arrival.2 rest
    | some previous =>
      -- without a depth no arrival can improve on another
      if previous ≤ arrival.2 ∨ shallow.deepen = none then return (s, rest)
      else revisit repository shallow excluded limits s arrival.1 arrival.2 rest

/-- What an arrival that is taken pushes. -/
def pushed (node : CommitNode) (depth : ℕ) : List (AnyGitOid × ℕ) :=
  if isBoundary shallow excluded node depth then [] else node.parents.map (·, depth + 1)

/-- The commit is cut off here, or its parents can be pushed. -/
def Expandable (node : CommitNode) (depth : ℕ) : Prop :=
  isBoundary shallow excluded node depth = true
    ∨ depth + 1 < 2 ^ 32 ∧ ∀ parent ∈ node.parents, parent.algorithm = repository.objectFormat

variable {repository shallow excluded limits} {s : Selection} {oid : AnyGitOid} {depth : ℕ}
  {rest : List (AnyGitOid × ℕ)} {next : Selection × List (AnyGitOid × ℕ)}

theorem visit_eq_ok : visit repository shallow excluded limits s oid depth rest = .ok next ↔
    s.commits.size ≠ limits.maxCommits ∧ ∃ node, repository.object oid = .ok (.commit node)
        ∧ node.tree.algorithm = repository.objectFormat
        ∧ s.edges + node.parents.length ≤ limits.maxEdges
        ∧ Expandable repository shallow excluded node depth
        ∧ (⟨s.commits.insert oid node, s.depths.insert oid depth,
            if isBoundary shallow excluded node depth then s.boundaries.insert oid
              else s.boundaries,
            s.edges + node.parents.length⟩, pushed shallow excluded node depth ++ rest) = next := by
  simp only [visit, bind_eq_ok, refuseIf_eq_ok, commitAt_eq_ok, ensureFormat_eq_ok,
    chargeEdges_eq_ok, exists_const, and_assoc, exists_and_left]
  refine and_congr_right fun _ => exists_congr fun node => and_congr_right fun _ =>
    and_congr_right fun _ => and_congr_right fun _ => ?_
  by_cases hbdry : isBoundary shallow excluded node depth
  · simp [hbdry, Expandable, pushed]
  · simp [hbdry, Expandable, pushed, nextDepth_eq_ok, and_assoc]

theorem revisit_eq_ok : revisit repository shallow excluded limits s oid depth rest = .ok next ↔
    ∃ node, repository.object oid = .ok (.commit node)
      ∧ node.tree.algorithm = repository.objectFormat
      ∧ Expandable repository shallow excluded node depth
      ∧ (¬ isBoundary shallow excluded node depth → s.edges + node.parents.length ≤ limits.maxEdges)
      ∧ (⟨s.commits, s.depths.insert oid depth,
          if isBoundary shallow excluded node depth then s.boundaries.insert oid
            else s.boundaries.erase oid, s.edges + (pushed shallow excluded node depth).length⟩,
          pushed shallow excluded node depth ++ rest) = next := by
  simp only [revisit, bind_eq_ok, commitAt_eq_ok, ensureFormat_eq_ok, exists_const]
  refine exists_congr fun node => and_congr_right fun _ => and_congr_right fun _ => ?_
  by_cases hbdry : isBoundary shallow excluded node depth
  · simp [hbdry, Expandable, pushed]
  · simp [hbdry, Expandable, pushed, nextDepth_eq_ok, chargeEdges_eq_ok, and_assoc, and_left_comm]

/-- An arrival is passed over, or taken for the first time, or taken again on a
shorter path. -/
theorem arrive_eq_ok {arrival : AnyGitOid × ℕ} :
    arrive repository shallow excluded limits s arrival rest = .ok next ↔
      arrival.1.algorithm = repository.objectFormat ∧ (arrival.1 ∈ excluded ∧ (s, rest) = next
          ∨ arrival.1 ∉ excluded ∧ ((∃ previous, s.depths[arrival.1]? = some previous
                  ∧ (previous ≤ arrival.2 ∨ shallow.deepen = none) ∧ (s, rest) = next)
              ∨ s.depths[arrival.1]? = none
                ∧ visit repository shallow excluded limits s arrival.1 arrival.2 rest = .ok next
              ∨ ∃ previous, s.depths[arrival.1]? = some previous ∧ arrival.2 < previous
                ∧ shallow.deepen ≠ none
                ∧ revisit repository shallow excluded limits s arrival.1 arrival.2 rest
                  = .ok next)) := by
  rw [arrive, bind_eq_ok]
  simp only [ensureFormat_eq_ok, exists_const]
  refine and_congr_right fun _ => ?_
  by_cases hexcl : arrival.1 ∈ excluded
  · simp [hexcl]
  · simp only [hexcl, if_false, false_and, false_or, not_false_eq_true, true_and]
    cases hdepth : s.depths[arrival.1]? with
    | none => simp
    | some previous =>
      simp only [some.injEq, exists_eq_left', reduceCtorEq, false_and, false_or, ← not_le]
      split_ifs with hskip
      · rw [pure_eq_ok]
        tauto
      · tauto

theorem length_pushed_le (node : CommitNode) (depth : ℕ) :
    (pushed shallow excluded node depth).length ≤ node.parents.length := by
  unfold pushed
  split_ifs
  · exact Nat.zero_le _
  · rw [length_map]

variable (repository shallow excluded limits)

theorem arrive_lowers :
    Lowers (arrive repository shallow excluded limits) fun s => limits.maxEdges - s.edges := by
  intro s arrival rest s' stack h
  obtain ⟨-, ⟨-, hnext⟩ | ⟨-, ⟨-, -, -, hnext⟩ | ⟨-, hvisit⟩ | ⟨-, -, -, -, hrevisit⟩⟩⟩ :=
    arrive_eq_ok.mp h
  · cases hnext
    exact .inr ⟨rfl, le_rfl⟩
  · cases hnext
    exact .inr ⟨rfl, le_rfl⟩
  · obtain ⟨-, node, -, -, hedges, -, hnext⟩ := visit_eq_ok.mp hvisit
    cases hnext
    have hlen := @length_pushed_le shallow excluded node arrival.2
    dsimp only
    rw [length_append]
    omega
  · obtain ⟨node, -, -, -, hedges, hnext⟩ := revisit_eq_ok.mp hrevisit
    cases hnext
    have hlen := @length_pushed_le shallow excluded node arrival.2
    dsimp only
    rw [length_append]
    by_cases hbdry : isBoundary shallow excluded node arrival.2
    · rw [pushed, if_pos hbdry, length_nil]
      omega
    · have hfits := hedges hbdry
      omega

/-- The selected commits and those where history is cut. -/
def collectCommits (wants : List AnyGitOid) :
    Except ClosureError (BTreeMap AnyGitOid CommitNode × BTreeSet AnyGitOid) := do
  let s ← drain (arrive_lowers repository shallow excluded limits) {} (wants.map (·, 1))
  return (s.commits, s.boundaries)

end Commits

/-- Boundaries that the client learns of, and old ones that it forgets. -/
def shallowUpdate (request : ShallowRequest) (commits : BTreeMap AnyGitOid CommitNode)
    (boundaries : BTreeSet AnyGitOid) : ShallowUpdate where
  shallow := boundaries.toList
  unshallow := (Std.ExtTreeSet.ofList request.clientShallows compare).toList.filter
    fun oid => oid ∈ commits && oid ∉ boundaries

/-- The commits of a request. -/
def selectCommits (request : PackRequest) (limits : ClosureLimits) :
    Except ClosureError (BTreeMap AnyGitOid CommitNode × BTreeSet AnyGitOid) := do
  let shallow := ShallowRequest.fromPackRequest request
  refuseIf (shallow.deepen = some 0) .invalidDeepenDepth
  let excluded ← collectExcluded repository shallow limits
  collectCommits repository shallow excluded limits request.wants

/-! ### Filters -/

inductive OmissionReason where
  | blobFilter | treeDepth
deriving DecidableEq

mutual

def treeDepthPermits : ObjectFilter → ℕ → Bool
  | .treeDepth exclusiveDepth, depth => depth < exclusiveDepth
  | .combine parts, depth => treeDepthPermitsAll parts depth
  | _, _ => true

def treeDepthPermitsAll : List ObjectFilter → ℕ → Bool
  | [], _ => true
  | part :: parts, depth => treeDepthPermits part depth && treeDepthPermitsAll parts depth

end

mutual

def blobPermits : ObjectFilter → ℕ → Bool
  | .blobNone, _ => false
  | .blobLimit limit, size => size < limit
  | .combine parts, size => blobPermitsAll parts size
  | _, _ => true

def blobPermitsAll : List ObjectFilter → ℕ → Bool
  | [], _ => true
  | part :: parts, size => blobPermits part size && blobPermitsAll parts size

end

/-- Why the filter leaves an object out at a depth.  The depth is looked at
first. -/
def omissionReason (filter : Option ObjectFilter) (object : ClosureObject) (depth : ℕ) :
    Option OmissionReason :=
  match filter, object with
  | some filter, .tree _ => if treeDepthPermits filter depth then none else some .treeDepth
  | some filter, .blob size =>
    if !treeDepthPermits filter depth then some .treeDepth
    else if !blobPermits filter size then some .blobFilter
    else none
  | _, _ => none

/-! ### The walk over objects -/

/-- The path on which an object was met: its parent there, and its depth. -/
abbrev Label := Option AnyGitOid × ℕ

/-- Parents in their order, with none first. -/
def parentKey (parent : Option AnyGitOid) : WithBot AnyGitOid := parent

/-- Paths are compared by depth, then by parent. -/
def Label.key (label : Label) : ℕ ×ₗ WithBot AnyGitOid := toLex (label.2, parentKey label.1)

theorem Label.key_injective : Function.Injective Label.key := by
  rintro ⟨parent, depth⟩ ⟨parent', depth'⟩ h
  obtain ⟨rfl, rfl⟩ := Prod.mk.inj (toLex.injective h)
  rfl

structure ObjectPath where
  object : ClosureObject
  parent : Option AnyGitOid
  depth : ℕ

def ObjectPath.label (path : ObjectPath) : Label := (path.parent, path.depth)

def isPreferredPath (depth : ℕ) (parent : Option AnyGitOid) (existing : ObjectPath) : Bool :=
  depth < existing.depth
    || depth = existing.depth && decide (parentKey parent < parentKey existing.parent)

theorem isPreferredPath_iff {label : Label} {existing : ObjectPath} :
    isPreferredPath label.2 label.1 existing = true ↔ label.key < existing.label.key := by
  rw [isPreferredPath, Label.key, Label.key, Prod.Lex.toLex_lt_toLex]
  simp [ObjectPath.label]

/-- What the walk over objects has recorded. -/
structure Walk where
  paths : BTreeMap AnyGitOid ObjectPath := ∅
  edges : ℕ := 0

def Walk.labels (s : Walk) (oid : AnyGitOid) : Option Label := s.paths[oid]?.map ObjectPath.label

section Objects

variable (limits : ClosureLimits)

def pushFrontier (frontier : List (AnyGitOid × Label)) (value : AnyGitOid × Label) :
    Except ClosureError (List (AnyGitOid × Label)) :=
  if limits.maxEdges ≤ frontier.length then
    .error (.resourceLimit "object frontier" limits.maxEdges)
  else .ok (value :: frontier)

def pushChild (frontier : List (AnyGitOid × Label)) (child : AnyGitOid × Label) :
    Except ClosureError (List (AnyGitOid × Label)) := do
  ensureFormat repository child.1
  pushFrontier limits frontier child

/-- Children are pushed from the last to the first. -/
def pushAll (children frontier : List (AnyGitOid × Label)) :
    Except ClosureError (List (AnyGitOid × Label)) :=
  children.reverse.foldlM (pushChild repository limits) frontier

/-- Push what the object refers to.  A gitlink is data of its tree and leads
nowhere. -/
def expandObject (oid : AnyGitOid) (depth : ℕ) (object : ClosureObject) (edges : ℕ)
    (frontier : List (AnyGitOid × Label)) : Except ClosureError (ℕ × List (AnyGitOid × Label)) :=
  match object with
  | .commit node => do
    let frontier ← pushAll repository limits
      (node.parents.map (·, (some oid, 0)) ++ [(node.tree, (some oid, 0))]) frontier
    return (edges, frontier)
  | .tree entries => do
    let edges ← chargeEdges "tree edges" entries.length edges limits
    let next ← nextDepth oid depth
    let here := entries.filter fun entry => !entry.isGitlink
    let frontier ← pushAll repository limits (here.map (·.oid, (some oid, next))) frontier
    return (edges, frontier)
  | .blob _ => return (edges, frontier)
  | .tag target => do
    let frontier ← pushAll repository limits [(target, (some oid, depth))] frontier
    return (edges, frontier)

def follow (s : Walk) (arrival : AnyGitOid × Label) (rest : List (AnyGitOid × Label)) :
    Except ClosureError (Walk × List (AnyGitOid × Label)) := do
  let (oid, parent, depth) := arrival
  ensureFormat repository oid
  if s.paths[oid]?.any fun path => !isPreferredPath depth parent path then return (s, rest)
  else
    refuseIf (s.paths[oid]? = none ∧ s.paths.size = limits.maxObjects)
      (.resourceLimit "objects" limits.maxObjects)
    let object ← repository.object oid
    let (edges, frontier) ← expandObject repository limits oid depth object s.edges rest
    return (⟨s.paths.insert oid ⟨object, parent, depth⟩, edges⟩, frontier)

/-- What an object refers to, with the labels it gives. -/
def children (oid : AnyGitOid) (depth : ℕ) : ClosureObject → List (AnyGitOid × Label)
  | .commit node => node.parents.map (·, (some oid, 0)) ++ [(node.tree, (some oid, 0))]
  | .tree entries =>
    (entries.filter fun entry => !entry.isGitlink).map (·.oid, (some oid, depth + 1))
  | .blob _ => []
  | .tag target => [(target, (some oid, depth))]

/-- The edges that are charged for an object. -/
def treeEdges : ClosureObject → ℕ
  | .tree entries => entries.length
  | _ => 0

variable {repository limits} {frontier : List (AnyGitOid × Label)}

theorem pushChild_eq_ok {next : List (AnyGitOid × Label)} {child : AnyGitOid × Label} :
    pushChild repository limits frontier child = .ok next ↔
      child.1.algorithm = repository.objectFormat ∧ frontier.length < limits.maxEdges
        ∧ child :: frontier = next := by
  rw [pushChild, bind_eq_ok]
  simp only [ensureFormat_eq_ok, exists_const, pushFrontier]
  refine and_congr_right fun _ => ?_
  split_ifs with hfull
  · exact ⟨nofun, fun h => absurd h.1 (not_lt.mpr hfull)⟩
  · rw [ok.injEq, and_iff_right (not_le.mp hfull)]

theorem pushAll_eq_ok {children next : List (AnyGitOid × Label)} :
    pushAll repository limits children frontier = .ok next ↔
      (∀ child ∈ children, child.1.algorithm = repository.objectFormat)
        ∧ (children ≠ [] → frontier.length + children.length ≤ limits.maxEdges)
        ∧ children ++ frontier = next := by
  unfold pushAll
  induction children using List.reverseRecOn generalizing frontier with
  | nil => simp
  | append_singleton children child ih =>
    rw [reverse_append, reverse_singleton, singleton_append, foldlM_cons_ok]
    simp only [pushChild_eq_ok, ih, length_append, length_singleton, append_assoc,
      singleton_append, forall_mem_append, forall_mem_singleton]
    constructor
    · rintro ⟨_, ⟨hchild, hroom, rfl⟩, hfmts, hfits, hnext⟩
      refine ⟨⟨hfmts, hchild⟩, fun _ => ?_, hnext⟩
      rcases eq_or_ne children [] with rfl | hne
      · exact hroom
      · have hlen := hfits hne
        rw [length_cons] at hlen
        omega
    · rintro ⟨⟨hfmts, hchild⟩, hfits, hnext⟩
      have hlen := hfits (append_ne_nil_of_right_ne_nil _ (cons_ne_nil _ _))
      refine ⟨_, ⟨hchild, by omega, rfl⟩, hfmts, fun _ => ?_, hnext⟩
      rw [length_cons]
      omega

theorem pushAll_then {children : List (AnyGitOid × Label)} {edges : ℕ}
    {next : ℕ × List (AnyGitOid × Label)} :
    (do let frontier ← pushAll repository limits children frontier; return (edges, frontier))
        = .ok next ↔ (∀ child ∈ children, child.1.algorithm = repository.objectFormat)
        ∧ (children ≠ [] → frontier.length + children.length ≤ limits.maxEdges)
        ∧ (edges, children ++ frontier) = next := by
  simp only [bind_eq_ok, pushAll_eq_ok, pure_eq_ok, and_assoc, exists_and_left, exists_eq_left']

theorem expandObject_eq_ok {depth : ℕ} {object : ClosureObject} {edges : ℕ}
    {next : ℕ × List (AnyGitOid × Label)} :
    expandObject repository limits oid depth object edges frontier = .ok next ↔
      (object.objectType = .tree → edges + treeEdges object ≤ limits.maxEdges ∧ depth + 1 < 2 ^ 32)
        ∧ (∀ child ∈ children oid depth object, child.1.algorithm = repository.objectFormat)
        ∧ (children oid depth object ≠ [] →
            frontier.length + (children oid depth object).length ≤ limits.maxEdges)
        ∧ (edges + treeEdges object, children oid depth object ++ frontier) = next := by
  cases object with
  | commit node | tag target =>
    rw [expandObject, pushAll_then]
    exact (and_iff_right nofun).symm
  | tree entries =>
    simp only [expandObject, bind_eq_ok (x := chargeEdges _ _ _ _), chargeEdges_eq_ok,
      bind_eq_ok (x := nextDepth _ _), nextDepth_eq_ok, pushAll_then]
    constructor
    · rintro ⟨_, ⟨hedges, rfl⟩, _, ⟨hdepth, rfl⟩, hpush⟩
      exact ⟨fun _ => ⟨hedges, hdepth⟩, hpush⟩
    · rintro ⟨htree, hpush⟩
      obtain ⟨hedges, hdepth⟩ := htree rfl
      exact ⟨_, ⟨hedges, rfl⟩, _, ⟨hdepth, rfl⟩, hpush⟩
  | blob size => simp [expandObject, children, treeEdges, ClosureObject.objectType]

/-- An arrival that is no better than the path is passed over; any other
becomes the path. -/
theorem follow_eq_ok {s : Walk} {label : Label} {rest : List (AnyGitOid × Label)}
    {next : Walk × List (AnyGitOid × Label)} :
    follow repository limits s (oid, label) rest = .ok next ↔
      oid.algorithm = repository.objectFormat
        ∧ ((∃ existing, s.labels oid = some existing ∧ existing.key ≤ label.key ∧ (s, rest) = next)
          ∨ (∀ existing, s.labels oid = some existing → label.key < existing.key)
            ∧ ¬ (s.paths[oid]? = none ∧ s.paths.size = limits.maxObjects)
            ∧ ∃ object, repository.object oid = .ok object
              ∧ ∃ expanded, expandObject repository limits oid label.2 object s.edges rest
                = .ok expanded
                ∧ (⟨s.paths.insert oid ⟨object, label.1, label.2⟩, expanded.1⟩, expanded.2)
                  = next) := by
  obtain ⟨parent, depth⟩ := label
  unfold follow
  rw [bind_eq_ok]
  simp only [ensureFormat_eq_ok, exists_const]
  refine and_congr_right fun _ => ?_
  cases hpath : s.paths[oid]? with
  | none =>
    simp [Walk.labels, hpath]
  | some path =>
    have hlabel : s.labels oid = some path.label := by rw [Walk.labels, hpath, map_some]
    have hpreferred : isPreferredPath depth parent path = true ↔ _ :=
      @isPreferredPath_iff (parent, depth) path
    by_cases hbetter : Label.key (parent, depth) < path.label.key
    · simp [hpreferred.mpr hbetter, hlabel, hbetter]
    · have hskip : isPreferredPath depth parent path = false := by
        rw [← Bool.not_eq_true, hpreferred]
        exact hbetter
      simp [hskip, hlabel, hbetter, not_lt.mp hbetter]

variable (repository limits)

theorem Walk.labels_insert {s : Walk} {oid : AnyGitOid} {path : ObjectPath} {edges : ℕ} :
    Walk.labels ⟨s.paths.insert oid path, edges⟩ = update s.labels oid (some path.label) := by
  show Option.map _ ∘ (fun a : AnyGitOid => (s.paths.insert oid path)[a]?) = _
  rw [BTree.get_insert_fun, comp_update]
  rfl

theorem follow_lowers :
    Lowers (follow repository limits) fun s => Relax.rank Label.key s.labels := by
  rintro s ⟨oid, label⟩ rest s' stack h
  obtain ⟨-, ⟨_, -, -, hnext⟩ | ⟨hbetter, -, object, -, expanded, -, hnext⟩⟩ := follow_eq_ok.mp h
  · cases hnext
    exact .inr ⟨rfl, le_rfl⟩
  · cases hnext
    refine .inl ?_
    dsimp only
    rw [Walk.labels_insert]
    exact Relax.rank_lt Label.key hbetter

end Objects

/-! ### The lists -/

/-- One object of a pack. -/
structure ClosureObjectId where
  oid : AnyGitOid
  objectType : ObjectType
deriving DecidableEq

structure PromisorOmission where
  oid : AnyGitOid
  objectType : ObjectType
  parent : Option AnyGitOid
  depth : ℕ
  reason : OmissionReason
deriving DecidableEq

def objectTypeCode : ObjectType → ℕ
  | .blob => 1
  | .tree => 2
  | .commit => 3
  | .tag => 4

def omissionReasonCode : OmissionReason → ℕ
  | .blobFilter => 1
  | .treeDepth => 2

def compareObjectIds (left right : ClosureObjectId) : Ordering :=
  (compare left.oid right.oid).then
    (compare (objectTypeCode left.objectType) (objectTypeCode right.objectType))

def compareOmissions (left right : PromisorOmission) : Ordering :=
  (compare left.oid right.oid).then <|
    (compare (objectTypeCode left.objectType) (objectTypeCode right.objectType)).then <|
      (compare (parentKey left.parent) (parentKey right.parent)).then <|
        (compare left.depth right.depth).then <|
          compare (omissionReasonCode left.reason) (omissionReasonCode right.reason)

def sortObjects (objects : List ClosureObjectId) : List ClosureObjectId :=
  objects.insertionSort fun left right => (compareObjectIds left right).isLE

def sortOmissions (omissions : List PromisorOmission) : List PromisorOmission :=
  omissions.insertionSort fun left right => (compareOmissions left right).isLE

section Lists

variable (filter : Option ObjectFilter) (limits : ClosureLimits)

def selectedObject (oid : AnyGitOid) (path : ObjectPath) : Option ClosureObjectId :=
  match omissionReason filter path.object path.depth with
  | some _ => none
  | none => some ⟨oid, path.object.objectType⟩

def omittedObject (oid : AnyGitOid) (path : ObjectPath) : Option PromisorOmission :=
  (omissionReason filter path.object path.depth).map fun reason =>
    ⟨oid, path.object.objectType, path.parent, path.depth, reason⟩

/-- Every object that the frontier leads to, sent or promised. -/
def collectObjectFrontier (frontier : List (AnyGitOid × Label)) :
    Except ClosureError (List ClosureObjectId × List PromisorOmission) := do
  let s ← drain (follow_lowers repository limits) {} frontier
  let objects := s.paths.toList.filterMap fun entry => selectedObject filter entry.1 entry.2
  let omissions := s.paths.toList.filterMap fun entry => omittedObject filter entry.1 entry.2
  return (sortObjects objects, sortOmissions omissions)

/-- The commits, and what their trees lead to. -/
def collectObjects (commits : BTreeMap AnyGitOid CommitNode) :
    Except ClosureError (List ClosureObjectId × List PromisorOmission) := do
  refuseIf (limits.maxObjects < commits.size) (.resourceLimit "objects" limits.maxObjects)
  let objects := commits.toList.map fun entry => .mk entry.1 .commit
  -- the last commit's tree is on top of the stack
  let rootTrees := (commits.toList.map fun entry => (entry.2.tree, (some entry.1, 0))).reverse
  let (treeObjects, omissions) ← collectObjectFrontier repository filter limits rootTrees
  return (sortObjects (objects ++ treeObjects), omissions)

end Lists

/-! ### Closures -/

section Manifest

variable (sha256 : Bytes → Bytes)

/-- One omission in the canonical sequence. -/
def omissionBytes (omission : PromisorOmission) : Bytes :=
  bigEndian 2 (Crypto.codePoint omission.oid.algorithm) ++ omission.oid.bytes
    ++ bigEndian 1 (objectTypeCode omission.objectType)
    ++ (match omission.parent with
      | some parent =>
        bigEndian 1 1 ++ bigEndian 2 (Crypto.codePoint parent.algorithm) ++ parent.bytes
      | none => bigEndian 1 0)
    ++ bigEndian 4 omission.depth
    ++ bigEndian 1 (omissionReasonCode omission.reason)

def omissionCommitment (omissions : List PromisorOmission) : Bytes :=
  sha256 (ascii "fgit-promisor-omissions-v1" ++ [0] ++ omissions.flatMap omissionBytes)

/-- The promised objects, with a digest of their canonical sequence. -/
structure PromisorManifest where
  omissions : List PromisorOmission
  commitment : Bytes

def PromisorManifest.new (omissions : List PromisorOmission) : PromisorManifest :=
  ⟨sortOmissions omissions, omissionCommitment sha256 (sortOmissions omissions)⟩

structure PackClosure where
  objects : List ClosureObjectId
  shallowUpdate : ShallowUpdate
  promisor : PromisorManifest

namespace PackClosure

variable (closure : PackClosure)

/-- Refuse an emitted object that was not selected. -/
def verifyPackObjects (emitted : List ClosureObjectId) : Except ClosureError Unit :=
  emitted.forM fun object =>
    refuseIf ((Bisect.search closure.objects fun candidate =>
      compareObjectIds candidate object) = none)
      (.filteredObjectLeak object.oid object.objectType)

end PackClosure

def computePackClosure (request : PackRequest) (limits : ClosureLimits) :
    Except ClosureError PackClosure := do
  limits.validate
  refuseIf (request.options.deepenRelative = true) .unsupportedRelativeDeepening
  let (commits, boundaries) ← selectCommits repository request limits
  let (objects, omissions) ← collectObjects repository request.filter limits commits
  return ⟨objects, shallowUpdate (.fromPackRequest request) commits boundaries,
    .new sha256 omissions⟩

end Manifest

end Frankengit.Wire.Closure
