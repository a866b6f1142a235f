/-
Frankengit/Wire/ClosureHistory.lean

The commits of a pack are exactly the selected ones, cut at exactly the
boundaries, in whatever order the request and the objects name them.

`SelectionInv` is read off at the end of the walk; `Reordered` and `Rearranged`
carry paths from one repository and request to another.
-/
import Frankengit.Wire.ClosureCommits

namespace Frankengit.Wire.Closure

open Fallible Relation List Drain Prod BTree
open GitObject (ObjectType)

/-! ### The end of the walk -/

variable {depth : ℕ}

section Results

variable {repository : ObjectClosureRepository} {request : PackRequest}
  {excluded : BTreeSet AnyGitOid}
  {limits : ClosureLimits} {s : Selection} {oid : AnyGitOid} {node : CommitNode}

variable (hhistory : History repository (request.wants ++ request.deepenNot))

include hhistory in
theorem History.exists_node (h : Selected repository request oid) :
    ∃ node, repository.object oid = .ok (.commit node) := by
  obtain ⟨length, hpath, -⟩ := h
  obtain ⟨-, node, hnode, -⟩ := hhistory oid hpath.ancestor
  exact ⟨node, hnode⟩

/-- The parents of a selected commit that is no boundary are selected. -/
theorem Selected.parent {parent : AnyGitOid} (h : Selected repository request oid)
    (hinside : ¬ Boundary repository request oid)
    (hnode : repository.object oid = .ok (.commit node))
    (hmem : parent ∈ node.parents) : Selected repository request parent := by
  obtain ⟨length, hpath, hwithin⟩ := h
  obtain ⟨hkept, hshallow⟩ := not_or.mp hinside
  have hyoung : ¬ Older request node := fun hold => hkept ⟨node, hnode, .inl hold⟩
  have hapart : ¬ NextToExcluded repository request node :=
    fun hnext => hkept ⟨node, hnode, .inr hnext⟩
  cases hdeepen : request.deepen with
  | none =>
    refine ⟨length + 1, .parent hpath hnode hyoung hapart hmem, fun maximum hmax => ?_⟩
    rw [hdeepen] at hmax
    cases hmax
  | some maximum =>
    -- a path of the greatest length is not the shortest one
    obtain ⟨shorter, hshorter, hlt⟩ : ∃ shorter, ParentPath repository request oid shorter
        ∧ shorter < maximum.toNat := by
      rcases (hwithin maximum hdeepen).lt_or_eq with hlt | rfl
      · exact ⟨length, hpath, hlt⟩
      · by_contra hnone
        refine hshallow ⟨maximum, hdeepen, hpath, fun other hother => not_lt.mp fun hlt => ?_⟩
        exact hnone ⟨other, hother, hlt⟩
    refine ⟨shorter + 1, .parent hshorter hnode hyoung hapart hmem, fun other hother => ?_⟩
    rw [hdeepen] at hother
    cases hother
    exact hlt

namespace SelectionInv

variable (hexcl : Excluding repository request excluded)
  (h : SelectionInv repository request excluded s [])
include hexcl h

include hhistory in
theorem mem_commits : oid ∈ s.commits ↔ Selected repository request oid := by
  rw [BTree.mem_iff_get]
  constructor
  · rintro ⟨node, hnode⟩
    obtain ⟨⟨depth, hdepth⟩, -⟩ := h.commits.mp hnode
    exact ⟨depth, (arrives_commit_iff hexcl).mp (h.relaxing.labelled hdepth)⟩
  · intro hselected
    obtain ⟨node, hnode⟩ := hhistory.exists_node hselected
    obtain ⟨length, hlen⟩ := hselected
    obtain ⟨depth, hdepth, -⟩ := h.relaxing.finished (fun hmem => not_mem_nil hmem.1)
      leadsTo_improving ((arrives_commit_iff hexcl).mpr hlen)
    exact ⟨node, h.commits.mpr ⟨⟨depth, hdepth⟩, hnode⟩⟩

/-- At the end the depth of a commit is the length of a shortest path. -/
theorem boundary_iff (hdepth : s.depths[oid]? = some depth)
    (hnode : repository.object oid = .ok (.commit node)) :
    isBoundary (.fromPackRequest request) excluded node depth = true ↔
      Boundary repository request oid := by
  obtain ⟨hpath, hwithin⟩ := (arrives_commit_iff hexcl).mp (h.relaxing.labelled hdepth)
  rw [isBoundary_iff hexcl, ← or_assoc]
  refine or_congr ?_ (exists_congr fun maximum => and_congr_right fun hmax => ?_)
  · constructor
    · exact fun hcut => ⟨node, hnode, hcut⟩
    · rintro ⟨node', hnode', hcut⟩
      rw [hnode] at hnode'
      cases hnode'
      exact hcut
  · constructor
    · intro hle
      have heq : maximum.toNat = depth := le_antisymm hle (hwithin maximum hmax)
      refine ⟨heq ▸ hpath, fun length hlen => not_lt.mp fun hlt => ?_⟩
      have hshort : Within request length := by
        intro other hother
        rw [hmax] at hother
        cases hother
        exact hlt.le
      obtain ⟨depth', hdepth', hkey⟩ := h.relaxing.finished (fun hmem => not_mem_nil hmem.1)
        leadsTo_improving ((arrives_commit_iff hexcl).mpr ⟨hlen, hshort⟩)
      rw [hdepth] at hdepth'
      cases hdepth'
      rw [depthKey, depthKey, hmax, if_neg (Option.some_ne_none _), if_neg (Option.some_ne_none _)]
        at hkey
      omega
    · rintro ⟨-, hleast⟩
      exact hleast depth hpath

include hhistory in
theorem mem_boundaries :
    oid ∈ s.boundaries ↔ Selected repository request oid ∧ Boundary repository request oid := by
  rw [h.boundaries]
  constructor
  · rintro ⟨depth, node, hdepth, hnode, hbdry⟩
    exact ⟨⟨depth, (arrives_commit_iff hexcl).mp (h.relaxing.labelled hdepth)⟩,
      (h.boundary_iff hexcl hdepth hnode).mp hbdry⟩
  · rintro ⟨hselected, hbdry⟩
    obtain ⟨node, hcommit⟩ := mem_iff_get.mp ((h.mem_commits hhistory hexcl).mpr hselected)
    obtain ⟨⟨depth, hdepth⟩, hnode⟩ := h.commits.mp hcommit
    exact ⟨depth, node, hdepth, hnode, (h.boundary_iff hexcl hdepth hnode).mpr hbdry⟩

end SelectionInv

theorem mem_wantStack :
    (oid, depth) ∈ request.wants.map (fun want => (want, 1)) ↔ oid ∈ request.wants ∧ depth = 1 := by
  simp [eq_comm]

variable {commits : BTreeMap AnyGitOid CommitNode} {boundaries : BTreeSet AnyGitOid}

/-- The walks that a selection made. -/
theorem selectCommits_eq_ok : selectCommits repository request limits = .ok (commits, boundaries) ↔
      request.deepen ≠ some 0
        ∧ ∃ excluded, collectExcluded repository (.fromPackRequest request) limits = .ok excluded
          ∧ ∃ s, drain (arrive_lowers repository (.fromPackRequest request) excluded limits) {}
              (request.wants.map fun want => (want, 1)) = .ok s
            ∧ s.commits = commits ∧ s.boundaries = boundaries := by
  simp only [selectCommits, bind_eq_ok, refuseIf_eq_ok, exists_const, collectCommits, pure_eq_ok,
    mk.injEq]
  rfl

section

variable (h : selectCommits repository request limits = .ok (commits, boundaries))
include h

/-- The state that the walk ends in. -/
theorem exists_selectionInv :
    ∃ excluded s, Excluding repository request excluded ∧
      SelectionInv repository request excluded s []
      ∧ s.commits = commits ∧ s.boundaries = boundaries := by
  obtain ⟨hpositive, excluded, hexcluded, s, hdrain, hcoms, hbdries⟩ := selectCommits_eq_ok.mp h
  refine ⟨excluded, s, ⟨fun oid => mem_collectExcluded hexcluded, hpositive⟩, ?_, hcoms, hbdries⟩
  exact drain_keeps (arrive_lowers repository (.fromPackRequest request) excluded limits)
    arrive_keeps hdrain (.start fun _ _ => mem_wantStack)

include hhistory in
/-- **The commits and the boundaries are the specified ones.** -/
theorem mem_selectCommits : (∀ oid, oid ∈ commits ↔ Selected repository request oid)
      ∧ ∀ oid, oid ∈ boundaries ↔ Selected repository request oid ∧
        Boundary repository request oid := by
  obtain ⟨excluded, s, hexcl, hinv, rfl, rfl⟩ := exists_selectionInv h
  exact ⟨fun _ => hinv.mem_commits hhistory hexcl, fun _ => hinv.mem_boundaries hhistory hexcl⟩

theorem selectCommits_node (hnode : commits[oid]? = some node) :
    repository.object oid = .ok (.commit node) := by
  obtain ⟨excluded, s, -, hinv, rfl, -⟩ := exists_selectionInv h
  exact (hinv.commits.mp hnode).2

include hhistory in
theorem getElem_selectCommits : commits[oid]? = some node ↔
      Selected repository request oid ∧ repository.object oid = .ok (.commit node) := by
  have hmem := (mem_selectCommits hhistory h).1 oid
  rw [BTree.mem_iff_get] at hmem
  constructor
  · exact fun hnode => ⟨hmem.mp ⟨node, hnode⟩, selectCommits_node h hnode⟩
  · rintro ⟨hselected, hobj⟩
    obtain ⟨node', hnode'⟩ := hmem.mpr hselected
    have hobj' := selectCommits_node h hnode'
    rw [hobj] at hobj'
    cases hobj'
    exact hnode'

end

include hhistory in
/-- With enough room the selection succeeds. -/
theorem exists_selectCommits (hpositive : request.deepen ≠ some 0)
    (hfit : LengthsFit repository request) :
    ∃ bound, ∀ limits : ClosureLimits, bound ≤ limits.maxCommits → bound ≤ limits.maxEdges →
      ∃ commits boundaries, selectCommits repository request limits
        = .ok (commits, boundaries) := by
  have hnot : History repository (ShallowRequest.fromPackRequest request).deepenNot := by
    rintro commit ⟨tip, htip, htrail⟩
    exact hhistory commit ⟨tip, mem_append_right _ htip, htrail⟩
  obtain ⟨bound, hbound⟩ := exists_collectExcluded hnot
  -- the excluded commits are the same under all limits
  obtain ⟨excluded, hexcluded⟩ := hbound ⟨bound, 0, bound⟩ le_rfl le_rfl
  have hexcl : Excluding repository request excluded :=
    ⟨fun oid => mem_collectExcluded hexcluded, hpositive⟩
  have hstart : StackInv repository request excluded {}
      (request.wants.map fun want => (want, 1)) := by
    refine ⟨.start fun _ _ => mem_wantStack, forall_mem_map.mpr fun want hwant => ?_⟩
    exact (hhistory want ⟨want, mem_append_left _ hwant, .refl⟩).1
  obtain ⟨bound', hbound'⟩ := exists_selection hexcl hhistory hfit hstart
  refine ⟨max bound bound', fun limits hcoms hedges => ?_⟩
  obtain ⟨excluded', hexcluded'⟩ := hbound limits (by omega) (by omega)
  have hsame : excluded' = excluded := by
    refine Std.ExtTreeSet.ext_mem fun oid => ?_
    rw [mem_collectExcluded hexcluded', mem_collectExcluded hexcluded]
  have hempty : (Selection.commits {}).size = 0 := Std.ExtTreeMap.size_empty
  obtain ⟨s, hdrain⟩ := hbound' limits ⟨by omega, by dsimp only; omega⟩
  exact ⟨_, _,
    selectCommits_eq_ok.mpr ⟨hpositive, excluded', hexcluded', s, hsame ▸ hdrain, rfl, rfl⟩⟩

end Results

/-! ### The order of wants and parents -/

/-- The same request with its identities in another order. -/
structure Rearranged (request request' : PackRequest) : Prop where
  wants : ∀ oid, oid ∈ request.wants ↔ oid ∈ request'.wants
  deepenNot : ∀ oid, oid ∈ request.deepenNot ↔ oid ∈ request'.deepenNot
  shallows : ∀ oid, oid ∈ request.shallows ↔ oid ∈ request'.shallows
  deepen : request.deepen = request'.deepen
  deepenSince : request.deepenSince = request'.deepenSince
  filter : request.filter = request'.filter

theorem Rearranged.symm {request request' : PackRequest} (h : Rearranged request request') :
    Rearranged request' request :=
  ⟨fun oid => (h.wants oid).symm, fun oid => (h.deepenNot oid).symm,
    fun oid => (h.shallows oid).symm, h.deepen.symm, h.deepenSince.symm, h.filter.symm⟩

variable {commits : BTreeMap AnyGitOid CommitNode} {boundaries : BTreeSet AnyGitOid}
  {node : CommitNode} {limits : ClosureLimits}

section Order

variable {repository repository' : ObjectClosureRepository} {request request' : PackRequest}
  {oid : AnyGitOid}

theorem Ancestor.transport {tips tips' : List AnyGitOid} (hholds : Holds repository repository')
    (htips : ∀ tip ∈ tips, tip ∈ tips') (h : Ancestor repository tips oid) :
    Ancestor repository' tips' oid := by
  obtain ⟨tip, htip, htrail⟩ := h
  refine ⟨tip, htips tip htip, ReflTransGen.mono ?_ _ _ htrail⟩
  rintro commit parent ⟨node, hnode, hmem⟩
  obtain ⟨_, hnode', hshuf⟩ := hholds _ _ hnode
  cases hshuf with
  | commit htree htime hpars => exact ⟨_, hnode', hpars.mem_iff.mp hmem⟩

variable (hreord : Reordered repository repository') (hrearr : Rearranged request request')
include hreord hrearr

theorem excluded_iff :
    Ancestor repository request.deepenNot oid ↔ Ancestor repository' request'.deepenNot oid :=
  ⟨.transport hreord.holds fun tip => (hrearr.deepenNot tip).mp,
    Ancestor.transport hreord.held fun tip => (hrearr.deepenNot tip).mpr⟩

omit hreord in
theorem older_iff {node' : CommitNode} (htime : node.committerTime = node'.committerTime) :
    Older request node ↔ Older request' node' := by
  rw [Older, Older, htime, hrearr.deepenSince]

theorem nextToExcluded_iff {node' : CommitNode} (hpars : node.parents.Perm node'.parents) :
    NextToExcluded repository request node ↔ NextToExcluded repository' request' node' :=
  exists_congr fun _ => and_congr hpars.mem_iff (excluded_iff hreord hrearr)

theorem ParentPath.transport {length : ℕ} (h : ParentPath repository request oid length) :
    ParentPath repository' request' oid length := by
  induction h with
  | want hwant hkept =>
    exact .want ((hrearr.wants _).mp hwant)
      fun hanc => hkept ((excluded_iff hreord hrearr).mpr hanc)
  | parent _ hnode hyoung hapart hmem ih =>
    obtain ⟨_, hnode', hshuf⟩ := hreord.holds _ _ hnode
    cases hshuf with
    | commit htree htime hpars =>
      refine .parent ih hnode' ?_ ?_ (hpars.mem_iff.mp hmem)
      · exact fun hold => hyoung ((older_iff hrearr htime).mpr hold)
      · exact fun hnext => hapart ((nextToExcluded_iff hreord hrearr hpars).mpr hnext)

theorem parentPath_iff {length : ℕ} :
    ParentPath repository request oid length ↔ ParentPath repository' request' oid length :=
  ⟨.transport hreord hrearr, .transport hreord.symm hrearr.symm⟩

theorem selected_iff : Selected repository request oid ↔ Selected repository' request' oid := by
  unfold Selected Within
  rw [hrearr.deepen]
  exact exists_congr fun length => and_congr_left fun _ => parentPath_iff hreord hrearr

theorem Boundary.transport (h : Boundary repository request oid) :
    Boundary repository' request' oid := by
  rcases h with ⟨node, hnode, hcut⟩ | ⟨maximum, hmax, hpath, hleast⟩
  · obtain ⟨_, hnode', hshuf⟩ := hreord.holds _ _ hnode
    cases hshuf with
    | commit htree htime hpars =>
      exact .inl ⟨_, hnode', hcut.imp (older_iff hrearr htime).mp
        (nextToExcluded_iff hreord hrearr hpars).mp⟩
  · refine .inr ⟨maximum, hrearr.deepen ▸ hmax, hpath.transport hreord hrearr, ?_⟩
    exact fun length hlen => hleast length ((parentPath_iff hreord hrearr).mpr hlen)

theorem boundary_iff : Boundary repository request oid ↔ Boundary repository' request' oid :=
  ⟨.transport hreord hrearr, .transport hreord.symm hrearr.symm⟩

theorem History.transport (h : History repository (request.wants ++ request.deepenNot)) :
    History repository' (request'.wants ++ request'.deepenNot) := by
  intro commit hanc
  have htips : ∀ tip ∈ request'.wants ++ request'.deepenNot, tip ∈ request.wants
      ++ request.deepenNot := by
    intro tip hmem
    exact mem_append.mpr ((mem_append.mp hmem).imp (hrearr.wants tip).mpr
      (hrearr.deepenNot tip).mpr)
  obtain ⟨hfmt, node, hnode, htree⟩ := h commit (hanc.transport hreord.held htips)
  obtain ⟨_, hnode', hshuf⟩ := hreord.holds _ _ hnode
  cases hshuf with
  | commit heq htime hpars =>
    rw [← hreord.format]
    exact ⟨hfmt, _, hnode', heq ▸ htree⟩

omit hrearr in
/-- Selections with the same commits have the same trees. -/
theorem mem_treeRoots_of_mem {limits' : ClosureLimits} {commits' : BTreeMap AnyGitOid CommitNode}
    {boundaries' : BTreeSet AnyGitOid}
    (h : selectCommits repository request limits = .ok (commits, boundaries))
    (h' : selectCommits repository' request' limits' = .ok (commits', boundaries'))
    (hcoms : ∀ oid ∈ commits, oid ∈ commits') {root : AnyGitOid × Option AnyGitOid}
    (hroot : root ∈ treeRoots commits) : root ∈ treeRoots commits' := by
  obtain ⟨oid, node, hnode, rfl⟩ := mem_treeRoots.mp hroot
  obtain ⟨node', hnode'⟩ := mem_iff_get.mp (hcoms oid (mem_iff_get.mpr ⟨node, hnode⟩))
  obtain ⟨_, hobj, hshuf⟩ := hreord.holds _ _ (selectCommits_node h hnode)
  rw [selectCommits_node h' hnode'] at hobj
  cases hobj
  cases hshuf with
  | commit htree htime hpars => exact mem_treeRoots.mpr ⟨oid, node', hnode', by rw [htree]⟩

end Order

theorem commitIds_rising : (commitIds commits).Pairwise fun left right => left.oid < right.oid :=
  pairwise_map.mpr (Std.ExtTreeMap.ordered_keys_toList.imp compare_lt_iff_lt.mp)

/-! ### Whole closures -/

variable {oid : AnyGitOid}

section Closures

variable {repository repository' : ObjectClosureRepository} {request request' : PackRequest}
  {sha256 : Bytes → Bytes} {limits limits' : ClosureLimits} {closure closure' : PackClosure}

theorem computePackClosure_eq_ok :
    computePackClosure repository sha256 request limits = .ok closure ↔
      limits.validate = .ok () ∧ request.options.deepenRelative = false
        ∧ ∃ commits boundaries, selectCommits repository request limits = .ok (commits, boundaries)
          ∧ ∃ objects omissions,
            collectObjects repository request.filter limits commits = .ok (objects, omissions)
              ∧ PackClosure.mk objects (shallowUpdate (.fromPackRequest request) commits boundaries)
                (.new sha256 omissions) = closure := by
  simp only [computePackClosure, bind_eq_ok, refuseIf_eq_ok, pure_eq_ok, Prod.exists,
    Bool.not_eq_true, Unique.exists_iff]

/-- The tree of a selected commit, with the commit. -/
def SelectedTree (repository : ObjectClosureRepository) (request : PackRequest)
    (root : AnyGitOid × Option AnyGitOid) : Prop :=
  ∃ commit node, Selected repository request commit ∧ repository.object commit = .ok (.commit node)
    ∧ (node.tree, some commit) = root

/-- What the tree of a selected commit leads to. -/
def InTree (repository : ObjectClosureRepository) (request : PackRequest)
    (oid : AnyGitOid) : Prop :=
  ∃ root, SelectedTree repository request root ∧ Reachable repository [root] oid

/-- What the trees of selected commits lead to can be read, and its depths fit. -/
def TreesReadable (repository : ObjectClosureRepository) (request : PackRequest) : Prop :=
  ∀ roots, (∀ root ∈ roots, SelectedTree repository request root) →
    Readable repository roots ∧ DepthsFit repository roots

variable (hhistory : History repository (request.wants ++ request.deepenNot))

include hhistory in
theorem selectedTree_of_mem
    (h : selectCommits repository request limits = .ok (commits, boundaries))
    (root : AnyGitOid × Option AnyGitOid) (hroot : root ∈ treeRoots commits) :
    SelectedTree repository request root := by
  obtain ⟨commit, node, hnode, heq⟩ := mem_treeRoots.mp hroot
  obtain ⟨hselected, hobj⟩ := (getElem_selectCommits hhistory h).mp hnode
  exact ⟨commit, node, hselected, hobj, heq⟩

/-- An object is reached from one of the roots. -/
theorem Reaches.of_root {roots : List (AnyGitOid × Option AnyGitOid)} {parent : Option AnyGitOid}
    (h : Reaches repository roots oid parent depth) :
    ∃ root ∈ roots, Reaches repository [root] oid parent depth := by
  induction h with
  | root h => exact ⟨_, h, .root (mem_singleton_self _)⟩
  | tree _ hobj ih =>
    obtain ⟨root, hroot, hreach⟩ := ih
    exact ⟨root, hroot, .tree hreach hobj⟩
  | parent _ hobj hmem ih =>
    obtain ⟨root, hroot, hreach⟩ := ih
    exact ⟨root, hroot, .parent hreach hobj hmem⟩
  | entry _ hobj hmem hlocal ih =>
    obtain ⟨root, hroot, hreach⟩ := ih
    exact ⟨root, hroot, .entry hreach hobj hmem hlocal⟩
  | target _ hobj ih =>
    obtain ⟨root, hroot, hreach⟩ := ih
    exact ⟨root, hroot, .target hreach hobj⟩

/-- The commits of a closure and its boundaries. -/
structure Closes (repository : ObjectClosureRepository) (request : PackRequest)
    (closure : PackClosure) :
    Prop where
  selected : ∀ oid, Selected repository request oid → ⟨oid, .commit⟩ ∈ closure.objects
  only : ∀ oid, ⟨oid, .commit⟩ ∈ closure.objects →
    Selected repository request oid ∨ InTree repository request oid
  shallow : ∀ oid, oid ∈ closure.shallowUpdate.shallow ↔
    Selected repository request oid ∧ Boundary repository request oid
  unshallow : ∀ oid, oid ∈ closure.shallowUpdate.unshallow ↔
    oid ∈ request.shallows ∧ Selected repository request oid ∧ ¬ Boundary repository request oid
  sorted : closure.shallowUpdate.shallow.Pairwise (· < ·)
    ∧ closure.shallowUpdate.unshallow.Pairwise (· < ·)

theorem toList_lt (set : BTreeSet AnyGitOid) : set.toList.Pairwise (· < ·) :=
  Std.ExtTreeSet.ordered_toList.imp compare_lt_iff_lt.mp

include hhistory

theorem closes_of_compute (h : computePackClosure repository sha256 request limits = .ok closure) :
    Closes repository request closure := by
  obtain ⟨-, -, commits, boundaries, hselect, objects, omissions, hobjs, rfl⟩ :=
    computePackClosure_eq_ok.mp h
  obtain ⟨hcoms, hbdries⟩ := mem_selectCommits hhistory hselect
  obtain ⟨-, trees, hlists, rfl⟩ := collectObjects_eq_ok.mp hobjs
  refine ⟨fun oid hselected => ?_, fun oid hmem => ?_, fun oid => ?_, fun oid => ?_,
    toList_lt _, ?_⟩
  · refine mem_sortObjects.mpr (mem_append_left _ (mem_commitIds.mpr ⟨?_, rfl⟩))
    exact (hcoms oid).mpr hselected
  · rcases mem_append.mp (mem_sortObjects.mp hmem) with hmem | hmem
    · exact .inl ((hcoms oid).mp (mem_commitIds.mp hmem).1)
    · -- the roots are the trees of the selected commits
      obtain ⟨parent, depth, hreach⟩ := ((collectObjectFrontier_exact hlists).complete oid).mpr
        (mem_append_left _ (mem_map_of_mem (f := ClosureObjectId.oid) hmem))
      obtain ⟨root, hroot, hreach⟩ := hreach.of_root
      exact .inr ⟨root, selectedTree_of_mem hhistory hselect root hroot, _, _, hreach⟩
  · rw [← hbdries]
    exact Std.ExtTreeSet.mem_toList
  · simp only [shallowUpdate, mem_filter, Std.ExtTreeSet.mem_toList, Bool.and_eq_true,
      decide_eq_true_eq, hcoms, hbdries, ShallowRequest.fromPackRequest]
    rw [Std.ExtTreeSet.mem_ofList, contains_iff_mem]
    tauto
  · exact (toList_lt _).filter _

/-- **The closure does not depend on any order.** -/
theorem closure_eq (hreord : Reordered repository repository')
    (hrearr : Rearranged request request')
    (h : computePackClosure repository sha256 request limits = .ok closure)
    (h' : computePackClosure repository' sha256 request' limits' = .ok closure') :
    closure = closure' := by
  have hhistory' := hhistory.transport hreord hrearr
  have hcloses := closes_of_compute hhistory h
  have hcloses' := closes_of_compute hhistory' h'
  have hsame : ∀ oid, Selected repository request oid ↔ Selected repository' request' oid :=
    fun _ => selected_iff hreord hrearr
  obtain ⟨-, -, commits, boundaries, hselect, objects, omissions, hobjs, rfl⟩ :=
    computePackClosure_eq_ok.mp h
  obtain ⟨-, -, commits', boundaries', hselect', objects', omissions', hobjs', rfl⟩ :=
    computePackClosure_eq_ok.mp h'
  obtain ⟨-, trees, hlists, rfl⟩ := collectObjects_eq_ok.mp hobjs
  obtain ⟨-, trees', hlists', rfl⟩ := collectObjects_eq_ok.mp hobjs'
  have hcoms : ∀ oid, oid ∈ commits ↔ oid ∈ commits' := by
    intro oid
    rw [(mem_selectCommits hhistory hselect).1, (mem_selectCommits hhistory' hselect').1, hsame]
  have hids : commitIds commits = commitIds commits' := by
    refine commitIds_rising.eq_of_mem_iff commitIds_rising fun object => ?_
    rw [mem_commitIds, mem_commitIds, hcoms]
  have hroots : ∀ root, root ∈ treeRoots commits ↔ root ∈ treeRoots commits' := fun root =>
    ⟨mem_treeRoots_of_mem hreord hselect hselect' fun oid => (hcoms oid).mp,
      mem_treeRoots_of_mem hreord.symm hselect' hselect fun oid => (hcoms oid).mpr⟩
  rw [← hrearr.filter] at hlists'
  obtain ⟨rfl, rfl⟩ := mk.inj (hreord.lists_eq hroots hlists hlists')
  have hshallow : shallowUpdate (.fromPackRequest request) commits boundaries
      = shallowUpdate (.fromPackRequest request') commits' boundaries' := by
    rw [ShallowUpdate.mk.injEq]
    constructor
    · refine hcloses.sorted.1.eq_of_mem_iff hcloses'.sorted.1 fun oid => ?_
      rw [hcloses.shallow, hcloses'.shallow, hsame, boundary_iff hreord hrearr]
    · refine hcloses.sorted.2.eq_of_mem_iff hcloses'.sorted.2 fun oid => ?_
      rw [hcloses.unshallow, hcloses'.unshallow, hsame, boundary_iff hreord hrearr, hrearr.shallows]
  rw [hids, hshallow]

/-- With enough room the closure is computed, if the trees can be read. -/
theorem exists_computePackClosure (hpositive : request.deepen ≠ some 0)
    (hfit : LengthsFit repository request)
    (hrelative : request.options.deepenRelative = false) (htrees : TreesReadable repository request)
    (sha256 : Bytes → Bytes) :
    ∃ bound, ∀ limits : ClosureLimits, bound ≤ limits.maxCommits → bound ≤ limits.maxObjects →
      bound ≤ limits.maxEdges →
      ∃ closure, computePackClosure repository sha256 request limits = .ok closure := by
  obtain ⟨bound, hbound⟩ := exists_selectCommits hhistory hpositive hfit
  obtain ⟨commits, boundaries, hselect⟩ := hbound ⟨bound, 0, bound⟩ le_rfl le_rfl
  obtain ⟨hreadable, hfew⟩ := htrees _ (selectedTree_of_mem hhistory hselect)
  obtain ⟨bound', hbound'⟩ := exists_collectObjectFrontier hreadable hfew request.filter
  refine ⟨1 + bound + bound' + commits.size, fun limits hcoms hobjs hedges => ?_⟩
  have hvalid : limits.validate = .ok () := refuseIf_eq_ok.mpr (by omega)
  -- the selected commits are the same under all limits
  obtain ⟨commits', boundaries', hselect'⟩ := hbound limits (by omega) (by omega)
  have hsame : commits' = commits := by
    refine Std.ExtTreeMap.ext_getElem? fun oid => Option.ext fun node => ?_
    rw [getElem_selectCommits hhistory hselect', getElem_selectCommits hhistory hselect]
  subst hsame
  obtain ⟨trees, omissions, hlists⟩ := hbound' limits (by omega) (by omega)
  have hcollect := collectObjects_eq_ok.mpr ⟨show commits'.size ≤ limits.maxObjects by omega, trees,
    hlists, rfl⟩
  exact ⟨_, computePackClosure_eq_ok.mpr
    ⟨hvalid, hrelative, commits', boundaries', hselect', _, _, hcollect, rfl⟩⟩

end Closures

/-! ### Histories that are too long -/

variable {repository : ObjectClosureRepository}

section Chain

/-- The commit with a number, whose parent has the number below. -/
def chainCommit (n : ℕ) : CommitNode :=
  ⟨numbered (2 ^ 32), match n with
    | 0 => []
    | n + 1 => [numbered n], 0⟩

/-- A history without merges: commits by number, all with the empty tree. -/
def commitChain : ObjectClosureRepository where
  objectFormat := .sha1
  object := fun oid =>
    if number oid < 2 ^ 32 then .ok (.commit (chainCommit (number oid))) else .ok (.tree [])

/-- A request without limits on the history. -/
def plainRequest (wants : List AnyGitOid) : PackRequest :=
  ⟨.v2, wants, [], [], none, none, [], none, {}⟩

variable {top length : ℕ} {oid : AnyGitOid} {node : CommitNode}

theorem commitChain_object {n : ℕ} (h : n < 2 ^ 32) :
    commitChain.object (numbered n) = .ok (.commit (chainCommit n)) := by
  have hnumber : number (numbered n) = n := number_numbered (h.trans (by norm_num))
  show (if number (numbered n) < 2 ^ 32 then _ else _) = _
  rw [hnumber, if_pos h]

theorem not_ancestor_nil : ¬ Ancestor repository [] oid := by
  rintro ⟨tip, hmem, -⟩
  cases hmem

theorem not_older_plain {wants : List AnyGitOid} : ¬ Older (plainRequest wants) node := by
  rintro ⟨minimum, hminimum, -⟩
  cases hminimum

theorem not_nextToExcluded_plain {wants : List AnyGitOid} :
    ¬ NextToExcluded repository (plainRequest wants) node := by
  rintro ⟨parent, -, hexcluded⟩
  exact not_ancestor_nil hexcluded

variable (htop : top < 2 ^ 32)
include htop

theorem chain_ancestor (h : Ancestor commitChain [numbered top] oid) :
    ∃ n ≤ top, oid = numbered n := by
  obtain ⟨tip, htip, htrail⟩ := h
  obtain rfl := mem_singleton.mp htip
  induction htrail with
  | refl => exact ⟨top, le_rfl, rfl⟩
  | tail _ hpar ih =>
    obtain ⟨n, hle, rfl⟩ := ih
    obtain ⟨node, hnode, hmem⟩ := hpar
    rw [commitChain_object (by omega)] at hnode
    cases hnode
    cases n with
    | zero => cases hmem
    | succ n => exact ⟨n, by omega, mem_singleton.mp hmem⟩

theorem chain_history : History commitChain [numbered top] := by
  intro oid hanc
  obtain ⟨n, hle, rfl⟩ := chain_ancestor htop hanc
  have halg : ∀ n, (numbered n).algorithm = .sha1 := by
    intro n
    unfold numbered
    rfl
  exact ⟨halg n, _, commitChain_object (by omega), halg _⟩

/-- A commit of the chain is the end of one path. -/
theorem chain_path (h : ParentPath commitChain (plainRequest [numbered top]) oid length) :
    ∃ n, n + length = top + 1 ∧ oid = numbered n := by
  induction h with
  | want hwant _ => exact ⟨top, rfl, mem_singleton.mp hwant⟩
  | parent hpath hnode _ _ hmem ih =>
    obtain ⟨n, hsum, rfl⟩ := ih
    have hpos := hpath.pos
    rw [commitChain_object (by omega)] at hnode
    cases hnode
    cases n with
    | zero => cases hmem
    | succ n => exact ⟨n, by omega, mem_singleton.mp hmem⟩

theorem exists_chain_path {n : ℕ} (hle : n ≤ top) :
    ParentPath commitChain (plainRequest [numbered top]) (numbered (top - n)) (n + 1) := by
  induction n with
  | zero => exact .want (mem_singleton_self _) not_ancestor_nil
  | succ n ih =>
    have hmem : numbered (top - (n + 1)) ∈ (chainCommit (top - n)).parents := by
      rw [show top - n = top - (n + 1) + 1 by omega]
      exact mem_singleton_self _
    exact .parent (ih (by omega))
      (commitChain_object (by omega)) not_older_plain not_nextToExcluded_plain hmem

end Chain

/-- Every commit that was taken could be expanded. -/
def Descended (repository : ObjectClosureRepository) (shallow : ShallowRequest)
    (excluded : BTreeSet AnyGitOid) (s : Selection) : Prop :=
  ∀ (oid : AnyGitOid) (depth : ℕ) (node : CommitNode), s.depths[oid]? = some depth →
    repository.object oid = .ok (.commit node) → Expandable repository shallow excluded node depth

theorem Descended.insert {shallow : ShallowRequest} {excluded : BTreeSet AnyGitOid}
    {s s' : Selection} (h : Descended repository shallow excluded s)
    (hnode : repository.object oid = .ok (.commit node))
    (hexpd : Expandable repository shallow excluded node depth)
    (hdepths : s'.depths = s.depths.insert oid depth) :
    Descended repository shallow excluded s' := by
  intro other depth' node' hdepth' hnode'
  rw [hdepths, get_insert] at hdepth'
  split_ifs at hdepth' with heq
  · cases hdepth'
    subst heq
    rw [hnode] at hnode'
    cases hnode'
    exact hexpd
  · exact h other depth' node' hdepth' hnode'

theorem descended_of_drain {shallow : ShallowRequest} {excluded : BTreeSet AnyGitOid}
    {stack : List (AnyGitOid × ℕ)} {s : Selection}
    (h : drain (arrive_lowers repository shallow excluded limits) {} stack = .ok s) :
    Descended repository shallow excluded s := by
  refine drain_keeps (arrive_lowers repository shallow excluded limits)
    (P := fun s _ => Descended repository shallow excluded s) ?_ h ?_
  · rintro s ⟨oid, depth⟩ rest s' stack hdescended harrive
    obtain ⟨-, ⟨-, hnext⟩ | ⟨-, ⟨_, -, -, hnext⟩ | ⟨-, hvisit⟩ | ⟨_, -, -, -, hrevisit⟩⟩⟩ :=
      arrive_eq_ok.mp harrive
    · cases hnext
      exact hdescended
    · cases hnext
      exact hdescended
    · obtain ⟨-, node, hnode, -, -, hexpd, hnext⟩ := visit_eq_ok.mp hvisit
      cases hnext
      exact hdescended.insert hnode hexpd rfl
    · obtain ⟨node, hnode, -, hexpd, -, hnext⟩ := revisit_eq_ok.mp hrevisit
      cases hnext
      exact hdescended.insert hnode hexpd rfl
  · intro oid depth node hdepth
    cases hdepth

/-- A chain of as many commits as a depth can count is refused under any
limits. -/
theorem commitChain_refused :
    selectCommits commitChain
      (plainRequest [numbered (2 ^ 32 - 2)]) limits ≠ .ok (commits, boundaries) := by
  intro hok
  have htop : 2 ^ 32 - 2 < 2 ^ 32 := by norm_num
  obtain ⟨hpositive, excluded, hexcluded, s, hdrain, -, -⟩ := selectCommits_eq_ok.mp hok
  have hexcl : Excluding commitChain (plainRequest [numbered (2 ^ 32 - 2)]) excluded :=
    ⟨fun oid => mem_collectExcluded hexcluded, hpositive⟩
  have hinv := drain_keeps (arrive_lowers commitChain _ excluded limits) arrive_keeps hdrain
    (.start fun _ _ => mem_wantStack)
  -- the walk arrived at the first commit, at the end of the only path
  have hfirst := exists_chain_path htop (le_refl (2 ^ 32 - 2))
  obtain ⟨depth, hdepth, -⟩ := hinv.relaxing.finished (fun hmem => not_mem_nil hmem.1)
    leadsTo_improving ((arrives_commit_iff hexcl).mpr ⟨hfirst, fun _ hnone => nomatch hnone⟩)
  obtain ⟨hpath, -⟩ := (arrives_commit_iff hexcl).mp (hinv.relaxing.labelled hdepth)
  obtain ⟨n, hsum, heq⟩ := chain_path htop hpath
  have hzero := congrArg number heq
  rw [number_numbered (by norm_num), number_numbered (by omega)] at hzero
  have hnode : commitChain.object (numbered 0) = .ok (.commit (chainCommit 0)) :=
    commitChain_object (by norm_num)
  rcases descended_of_drain hdrain _ depth _ hdepth hnode with hbdry | ⟨hfits, -⟩
  · rcases (isBoundary_iff hexcl).mp hbdry with hold | hnext | ⟨maximum, hnone, -⟩
    · exact not_older_plain hold
    · exact not_nextToExcluded_plain hnext
    · cases hnone
  · omega

section Pair

def parentOid : AnyGitOid := .filled .sha1 4

/-- A commit, its parent and their empty tree. -/
def twoCommits : List (AnyGitOid × ClosureObject) :=
  [(commitOid, .commit ⟨treeOid, [parentOid], 5⟩), (parentOid, .commit rootCommit),
    (treeOid, .tree [])]

/-- A request for the commit alone. -/
def deepenOne : PackRequest := { plainRequest [commitOid] with deepen := some 1 }

theorem twoCommits_history :
    History (listed twoCommits) (deepenOne.wants ++ deepenOne.deepenNot) := by
  rintro oid ⟨tip, htip, htrail⟩
  obtain rfl := mem_singleton.mp htip
  -- parents of the two commits are among them
  have hmem : oid = commitOid ∨ oid = parentOid := by
    induction htrail with
    | refl => exact .inl rfl
    | tail _ hpar ih =>
      obtain ⟨node, hnode, hmem⟩ := hpar
      rcases ih with rfl | rfl
      · cases hnode
        exact .inr (mem_singleton.mp hmem)
      · cases hnode
        cases hmem
  rcases hmem with rfl | rfl
  · exact ⟨rfl, _, rfl, rfl⟩
  · exact ⟨rfl, _, rfl, rfl⟩

end Pair

/-! ### Main result -/

/-- **The commits of a closure are exact.**  With enough room the selection
succeeds.  Whenever it does, its commits are the ends of parent paths that the
request allows and its boundaries are the commits where a rule cuts; and parents
of the other commits are selected.  The closure holds these commits and tells
these boundaries, and depends on no order of wants and parents. -/
theorem commit_selection_exact (repository : ObjectClosureRepository) (request : PackRequest)
    (hhistory : History repository (request.wants ++ request.deepenNot))
    (hpositive : request.deepen ≠ some 0)
    (hfit : LengthsFit repository request) :
    (∃ bound, ∀ limits : ClosureLimits, bound ≤ limits.maxCommits → bound ≤ limits.maxEdges →
      ∃ commits boundaries, selectCommits repository request limits = .ok (commits, boundaries))
      ∧ (∀ limits commits boundaries,
        selectCommits repository request limits = .ok (commits, boundaries) →
        (∀ oid, oid ∈ commits ↔ Selected repository request oid)
          ∧ ∀ oid, oid ∈ boundaries ↔ Selected repository request oid ∧
            Boundary repository request oid)
      ∧ (∀ oid node parent, Selected repository request oid → ¬ Boundary repository request oid →
        repository.object oid = .ok (.commit node) → parent ∈ node.parents →
        Selected repository request parent)
      ∧ (request.options.deepenRelative = false → TreesReadable repository request → ∀ sha256,
        ∃ bound, ∀ limits : ClosureLimits, bound ≤ limits.maxCommits → bound ≤ limits.maxObjects →
          bound ≤ limits.maxEdges →
          ∃ closure, computePackClosure repository sha256 request limits = .ok closure)
      ∧ ∀ sha256 limits closure, computePackClosure repository sha256 request limits = .ok closure →
        Closes repository request closure
          ∧ ∀ repository' request' limits' closure', Reordered repository repository' →
            Rearranged request request' →
            computePackClosure repository' sha256 request' limits' = .ok closure' →
              closure' = closure := by
  refine ⟨exists_selectCommits hhistory hpositive hfit, ?_, ?_, ?_, ?_⟩
  · exact fun limits commits boundaries hok => mem_selectCommits hhistory hok
  · exact fun oid node parent hselected hinside hnode hmem => hselected.parent hinside hnode hmem
  · exact exists_computePackClosure hhistory hpositive hfit
  · intro sha256 limits closure hok
    refine ⟨closes_of_compute hhistory hok, ?_⟩
    intro repository' request' limits' closure' hreord hrearr hok'
    exact (closure_eq hhistory hreord hrearr hok hok').symm

/-- A commit at depth one is the boundary, and its parent is not selected. -/
theorem commit_selection_exact_twoCommits :
    ∃ bound, ∀ limits : ClosureLimits, bound ≤ limits.maxCommits → bound ≤ limits.maxEdges →
      ∃ commits boundaries, selectCommits (listed twoCommits) deepenOne limits
        = .ok (commits, boundaries)
        ∧ commitOid ∈ boundaries ∧ parentOid ∉ commits := by
  obtain ⟨⟨bound, hbound⟩, hexact, -⟩ := commit_selection_exact (listed twoCommits) deepenOne
    twoCommits_history (by decide) (fun hnone => nomatch hnone)
  refine ⟨bound, fun limits hcoms hedges => ?_⟩
  obtain ⟨commits, boundaries, hok⟩ := hbound limits hcoms hedges
  obtain ⟨hselected, hbdry⟩ := hexact limits commits boundaries hok
  have hpath : ParentPath (listed twoCommits) deepenOne commitOid 1 :=
    .want (mem_singleton_self _) not_ancestor_nil
  refine ⟨commits, boundaries, hok, (hbdry _).mpr ⟨⟨1, hpath, ?_⟩, .inr ⟨1, rfl, hpath, ?_⟩⟩, ?_⟩
  · rintro maximum hmax
    cases hmax
    decide
  · exact fun length hlen => hlen.pos
  · rw [hselected]
    rintro ⟨length, hlen, hwithin⟩
    have hone := hwithin 1 rfl
    cases hlen with
    | want hwant _ => exact absurd (mem_singleton.mp hwant) (by decide)
    | parent hpath _ _ _ _ =>
      have hpos := hpath.pos
      have hword : (1 : UInt32).toNat = 1 := rfl
      omega

/-- A history whose paths are longer than a depth can count is refused whatever
the limits, and so is the depth zero, which selects nothing. -/
theorem long_history_refused :
    History commitChain [numbered (2 ^ 32 - 2)]
      ∧ Selected commitChain (plainRequest [numbered (2 ^ 32 - 2)]) (numbered 0)
      ∧ (∀ sha256 limits closure,
        computePackClosure commitChain sha256
          (plainRequest [numbered (2 ^ 32 - 2)]) limits ≠ .ok closure)
      ∧ ∀ sha256 limits closure,
        computePackClosure commitChain sha256
          { plainRequest [numbered 0] with deepen := some 0 } limits
          ≠ .ok closure := by
  have htop : 2 ^ 32 - 2 < 2 ^ 32 := by norm_num
  refine ⟨chain_history htop, ?_, fun sha256 limits closure hok => ?_,
    fun sha256 limits closure hok => ?_⟩
  · have hfirst := exists_chain_path htop (le_refl (2 ^ 32 - 2))
    exact ⟨_, hfirst, fun _ hnone => nomatch hnone⟩
  · obtain ⟨-, -, commits, boundaries, hselect, -⟩ := computePackClosure_eq_ok.mp hok
    exact commitChain_refused hselect
  · obtain ⟨-, -, commits, boundaries, hselect, -⟩ := computePackClosure_eq_ok.mp hok
    exact (selectCommits_eq_ok.mp hselect).1 rfl

end Frankengit.Wire.Closure
