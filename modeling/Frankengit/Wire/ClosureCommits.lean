/-
Frankengit/Wire/ClosureCommits.lean

The commits of a closure are those on short and young enough parent paths from a
want (`ParentPath`), outside the excluded history.

The walk first meets a commit on any path and comes back to it on shorter ones.
`SelectionInv` is its invariant: the depths are those of a label-correcting
search, and the boundaries are right for the depths so far.
-/
import Frankengit.Wire.ClosureSplit

namespace Frankengit.Wire.Closure

open Fallible Relation List Std.ExtTreeMap Exclusion BTree Relax Nat Function Drain
open GitObject (ObjectType)

/-! ### Histories -/

section Histories

variable (repository : ObjectClosureRepository)

/-- The second is a parent of the first. -/
def Parent (commit parent : AnyGitOid) : Prop :=
  ∃ node, repository.object commit = .ok (.commit node) ∧ parent ∈ node.parents

/-- The commit is one of the tips or an ancestor of one. -/
def Ancestor (tips : List AnyGitOid) (commit : AnyGitOid) : Prop :=
  ∃ tip ∈ tips, ReflTransGen (Parent repository) tip commit

/-- What the tips lead to are commits that can be read. -/
def History (tips : List AnyGitOid) : Prop :=
  ∀ commit, Ancestor repository tips commit → commit.algorithm = repository.objectFormat
      ∧ ∃ node, repository.object commit = .ok (.commit node)
        ∧ node.tree.algorithm = repository.objectFormat

variable {repository} {tips : List AnyGitOid} {commit older : AnyGitOid} {node : CommitNode}

theorem Ancestor.parent (h : Ancestor repository tips commit)
    (hnode : repository.object commit = .ok (.commit node)) (hmem : older ∈ node.parents) :
    Ancestor repository tips older := by
  obtain ⟨tip, htip, hpath⟩ := h
  exact ⟨tip, htip, hpath.tail ⟨node, hnode, hmem⟩⟩

end Histories

/-! ### Excluded commits -/

section Exclusion

variable {repository : ObjectClosureRepository} {tips : List AnyGitOid} {limits : ClosureLimits}
  {s s' : Exclusion} {oid : AnyGitOid} {node : CommitNode} {rest stack : List AnyGitOid}

/-- Membership as a label. -/
def Exclusion.labels (s : Exclusion) (oid : AnyGitOid) : Option Unit :=
  if oid ∈ s.excluded then some () else none

theorem Exclusion.labels_eq_some : s.labels oid = some () ↔ oid ∈ s.excluded := by
  unfold labels
  split_ifs with h <;> simp [h]

/-- The excluded commits and the pending ones cover what they lead to. -/
def ExclusionInv (repository : ObjectClosureRepository) (tips : List AnyGitOid) (s : Exclusion)
    (pending : List AnyGitOid) : Prop :=
  Relaxing (fun commit _ parent _ => Parent repository commit parent) (fun tip _ => tip ∈ tips)
    (fun _ : Unit => ()) s.labels fun oid _ => oid ∈ pending

theorem arrives_parent_iff :
    Arrives (fun commit _ parent _ => Parent repository commit parent)
      (fun tip _ => tip ∈ tips) oid ()
      ↔ Ancestor repository tips oid := by
  constructor
  · intro h
    generalize () = u at h
    induction h with
    | root h => exact ⟨_, h, .refl⟩
    | step _ hpar ih =>
      obtain ⟨tip, htip, hpath⟩ := ih
      exact ⟨tip, htip, hpath.tail hpar⟩
  · rintro ⟨tip, htip, hpath⟩
    induction hpath with
    | refl => exact .root htip
    | tail _ hpar ih => exact .step ih hpar

/-- The state after a commit is excluded. -/
def Exclusion.take (s : Exclusion) (oid : AnyGitOid) (node : CommitNode) : Exclusion :=
  ⟨s.excluded.insert oid, s.edges + node.parents.length⟩

theorem Exclusion.labels_take :
    (s.take oid node).labels = update s.labels oid (some ()) := by
  funext other
  by_cases h : oid = other
  · simp [labels, take, ← h]
  · simp [labels, take, h, Ne.symm h]

section

variable (h : ExclusionInv repository tips s (oid :: rest))
include h

theorem ExclusionInv.skip (hmem : oid ∈ s.excluded) : ExclusionInv repository tips s rest := by
  refine Relax.Relaxing.skip (l := ()) h (labels_eq_some.mpr hmem) le_rfl
    (fun hrest => mem_cons_of_mem _ hrest) fun hpend => ?_
  rcases mem_cons.mp hpend with heq | hrest
  · exact .inl ⟨heq, rfl⟩
  · exact .inr hrest

theorem ExclusionInv.take (hnode : repository.object oid = .ok (.commit node)) :
    ExclusionInv repository tips (s.take oid node) (node.parents ++ rest) := by
  rw [ExclusionInv, labels_take]
  refine Relax.Relaxing.visit (l := ()) h mem_cons_self (fun _ => le_rfl) fun parent () => ?_
  have hpar : Parent repository oid parent ↔ parent ∈ node.parents := by simp [Parent, hnode]
  rw [hpar, mem_append, mem_cons]
  tauto

theorem exclude_keeps (hexclude : exclude repository limits s oid rest = .ok (s', stack)) :
    ExclusionInv repository tips s' stack := by
  obtain ⟨-, ⟨hmem, hnext⟩ | ⟨-, -, node, hnode, -, -, hnext⟩⟩ := exclude_eq_ok.mp hexclude
  · cases hnext
    exact h.skip hmem
  · cases hnext
    exact h.take hnode

end

theorem ExclusionInv.start {pending : List AnyGitOid} (hpend : ∀ oid, oid ∈ pending ↔ oid ∈ tips) :
    ExclusionInv repository tips {} pending := by
  refine Relax.Relaxing.start (fun oid => ?_) fun oid _ => hpend oid
  exact if_neg (by simp)

/-- **The excluded commits are the ancestors of the given ones.** -/
theorem mem_collectExcluded {request : ShallowRequest} {excluded : BTreeSet AnyGitOid}
    (h : collectExcluded repository request limits = .ok excluded) :
    oid ∈ excluded ↔ Ancestor repository request.deepenNot oid := by
  obtain ⟨s, hdrain, hreturn⟩ := bind_eq_ok.mp h
  obtain rfl := pure_eq_ok.mp hreturn
  have hinv := drain_keeps (exclude_lowers repository limits) exclude_keeps hdrain
    (.start fun oid => mem_reverse)
  constructor
  · intro hmem
    exact arrives_parent_iff.mp (hinv.labelled (labels_eq_some.mpr hmem))
  · intro hanc
    obtain ⟨u, hlabel, -⟩ := hinv.finished not_mem_nil
      (fun _ hpar => ⟨(), hpar, le_rfl⟩) (arrives_parent_iff.mpr hanc)
    exact labels_eq_some.mp hlabel

/-- Room for some more commits and edges. -/
def ExclusionRoom (limits : ClosureLimits) (s : Exclusion) (_ : List AnyGitOid) (room : ℕ) : Prop :=
  s.excluded.size + room ≤ limits.maxCommits ∧ s.edges + room ≤ limits.maxEdges

/-- With enough room the ancestors are found. -/
theorem exists_exclusion (hhist : History repository tips)
    (h : ExclusionInv repository tips s stack) :
    ∃ bound, ∀ limits, ExclusionRoom limits s stack bound →
      ∃ s', drain (exclude_lowers repository limits) s stack = .ok s' := by
  refine exists_drain (fun _ : Unit => ()) (exclude_lowers repository) labels ?_ h
  rintro s oid rest h
  obtain ⟨hfmt, node, hnode, -⟩ :=
    hhist oid (arrives_parent_iff.mp (h.queued (l := ()) mem_cons_self))
  by_cases hmem : oid ∈ s.excluded
  · refine ⟨s, rest, 0, h.skip hmem, .inr ⟨rfl, le_rfl⟩, fun limits bound hroom => ?_⟩
    exact ⟨exclude_eq_ok.mpr ⟨hfmt, .inl ⟨hmem, rfl⟩⟩, hroom⟩
  · have htake := h.take hnode
    have hfmts : ∀ parent ∈ node.parents, parent.algorithm = repository.objectFormat := by
      intro parent hpar
      have hqueued := htake.queued (l := ()) (mem_append_left rest hpar)
      exact (hhist parent (arrives_parent_iff.mp hqueued)).1
    have hlower : rank (fun _ : Unit => ()) (s.take oid node).labels
        < rank (fun _ : Unit => ()) s.labels :=
      labels_take ▸ rank_lt _ fun _ hlabel => absurd (labels_eq_some.mp hlabel) hmem
    refine ⟨_, _, 1 + node.parents.length, htake, .inl hlower, ?_⟩
    rintro limits bound ⟨hcoms, hedges⟩
    have hsize : (s.take oid node).excluded.size ≤ s.excluded.size + 1 :=
      Std.ExtTreeSet.size_insert_le
    refine ⟨exclude_eq_ok.mpr ⟨hfmt, .inr ⟨hmem, ?_, node, hnode, ?_, hfmts, rfl⟩⟩, ?_, ?_⟩
    · omega
    · omega
    · omega
    · show s.edges + node.parents.length + bound ≤ limits.maxEdges
      omega

theorem exists_collectExcluded {request : ShallowRequest}
    (hhist : History repository request.deepenNot) :
    ∃ bound, ∀ limits : ClosureLimits, bound ≤ limits.maxCommits → bound ≤ limits.maxEdges →
      ∃ excluded, collectExcluded repository request limits = .ok excluded := by
  have hstart : ExclusionInv repository request.deepenNot {} request.deepenNot.reverse :=
    ExclusionInv.start fun oid => mem_reverse
  obtain ⟨bound, hbound⟩ := exists_exclusion hhist hstart
  refine ⟨bound, fun limits hcoms hedges => ?_⟩
  have hempty : (excluded {}).size = 0 := Std.ExtTreeSet.size_empty
  obtain ⟨s, hdrain⟩ := hbound limits ⟨by omega, by dsimp only; omega⟩
  exact ⟨s.excluded, bind_eq_ok.mpr ⟨s, hdrain, rfl⟩⟩

end Exclusion

/-! ### Parent paths -/

section Paths

variable (repository : ObjectClosureRepository) (request : PackRequest)

/-- The commit is older than the request asks for. -/
def Older (node : CommitNode) : Prop :=
  ∃ minimum, request.deepenSince = some minimum ∧ node.committerTime < minimum

/-- A parent of the commit is excluded. -/
def NextToExcluded (node : CommitNode) : Prop :=
  ∃ parent ∈ node.parents, Ancestor repository request.deepenNot parent

/-- A path over parents from a want, by its end and its number of commits.  It
goes on from commits that are young enough and have no excluded parent, so it
holds no excluded commit. -/
inductive ParentPath : AnyGitOid → ℕ → Prop
  | want {commit : AnyGitOid} (hwant : commit ∈ request.wants)
      (hkept : ¬ Ancestor repository request.deepenNot commit) : ParentPath commit 1
  | parent {commit parent : AnyGitOid} {length : ℕ} {node : CommitNode}
      (h : ParentPath commit length) (hnode : repository.object commit = .ok (.commit node))
      (hyoung : ¬ Older request node) (hapart : ¬ NextToExcluded repository request node)
      (hmem : parent ∈ node.parents) : ParentPath parent (length + 1)

/-- The path is no longer than the request asks for. -/
def Within (length : ℕ) : Prop := ∀ maximum, request.deepen = some maximum → length ≤ maximum.toNat

/-- The commit is the end of such a path. -/
def Selected (commit : AnyGitOid) : Prop :=
  ∃ length, ParentPath repository request commit length ∧ Within request length

/-- Lengths fit in 32 bits where the request does not cut the paths: no path is that
long, or there are not that many commits. -/
def LengthsFit : Prop :=
  request.deepen = none →
    (∀ commit length, ParentPath repository request commit length → length < 2 ^ 32 - 1) ∨
      {commit | Selected repository request commit}.ncard < 2 ^ 32 - 1

/-- History is cut at the commit. -/
def Boundary (commit : AnyGitOid) : Prop :=
  (∃ node, repository.object commit = .ok (.commit node)
      ∧ (Older request node ∨ NextToExcluded repository request node))
    ∨ ∃ maximum, request.deepen = some maximum ∧ ParentPath repository request commit maximum.toNat
      ∧ ∀ length, ParentPath repository request commit length → maximum.toNat ≤ length

variable {repository request}

theorem ParentPath.ancestor {commit : AnyGitOid} {length : ℕ}
    (h : ParentPath repository request commit length) :
    Ancestor repository (request.wants ++ request.deepenNot) commit := by
  induction h with
  | want hwant _ => exact ⟨_, mem_append_left _ hwant, .refl⟩
  | parent _ hnode _ _ hmem ih => exact ih.parent hnode hmem

theorem ParentPath.pos {commit : AnyGitOid} {length : ℕ}
    (h : ParentPath repository request commit length) : 0 < length := by
  cases h <;> omega

end Paths

/-! ### The walk over commits -/

/-- The request, its excluded commits and what the code reads of them. -/
structure Excluding (repository : ObjectClosureRepository) (request : PackRequest)
    (excluded : BTreeSet AnyGitOid) : Prop where
  mem : ∀ oid, oid ∈ excluded ↔ Ancestor repository request.deepenNot oid
  positive : request.deepen ≠ some 0

/-- Depths are compared only if the request has one. -/
def depthKey (request : PackRequest) (depth : ℕ) : ℕ := if request.deepen = none then 0 else depth

section Walk

variable (repository : ObjectClosureRepository) (request : PackRequest)
  (excluded : BTreeSet AnyGitOid)

/-- One commit leads to another, as the walk sees it. -/
def LeadsTo (commit : AnyGitOid) (depth : ℕ) (parent : AnyGitOid) (next : ℕ) : Prop :=
  ∃ node, repository.object commit = .ok (.commit node)
    ∧ (parent, next) ∈ pushed (.fromPackRequest request) excluded node depth ∧ parent ∉ excluded

/-- The wants that the walk starts from. -/
def WantLabel (commit : AnyGitOid) (depth : ℕ) : Prop :=
  commit ∈ request.wants ∧ commit ∉ excluded ∧ depth = 1

variable {repository request excluded} {node : CommitNode} {depth next : ℕ} {commit : AnyGitOid}

theorem isBoundary_iff (h : Excluding repository request excluded) :
    isBoundary (.fromPackRequest request) excluded node depth = true ↔
      Older request node ∨ NextToExcluded repository request node
        ∨ ∃ maximum, request.deepen = some maximum ∧ maximum.toNat ≤ depth := by
  simp only [isBoundary, ShallowRequest.fromPackRequest, Bool.or_eq_true, Option.any_eq_true,
    decide_eq_true_eq, List.any_eq_true, h.mem, Older, NextToExcluded, or_assoc]

theorem mem_pushed {parent : AnyGitOid} :
    (parent, next) ∈ pushed (.fromPackRequest request) excluded node depth ↔
      isBoundary (.fromPackRequest request) excluded node depth = false
        ∧ parent ∈ node.parents ∧ next = depth + 1 := by
  unfold pushed
  split_ifs with hbdry
  · simp [hbdry]
  · simp [hbdry, eq_comm (a := next)]

/-- **What the walk can arrive at are the ends of short enough paths.** -/
theorem arrives_commit_iff (h : Excluding repository request excluded) :
    Arrives (LeadsTo repository request excluded) (WantLabel request excluded) commit depth ↔
      ParentPath repository request commit depth ∧ Within request depth := by
  constructor
  · intro harrives
    induction harrives with
    | root hroot =>
      obtain ⟨hwant, hkept, rfl⟩ := hroot
      refine ⟨.want hwant fun hanc => hkept ((h.mem _).mpr hanc), fun maximum hmax => ?_⟩
      by_contra hzero
      refine h.positive (hmax.trans (congrArg some (UInt32.toNat_inj.mp ?_)))
      exact lt_one_iff.mp (not_le.mp hzero)
    | step _ hleads ih =>
      obtain ⟨hpath, -⟩ := ih
      obtain ⟨node, hnode, hpushed, -⟩ := hleads
      obtain ⟨hinside, hmem, rfl⟩ := mem_pushed.mp hpushed
      rw [← Bool.not_eq_true, isBoundary_iff h] at hinside
      obtain ⟨hyoung, hapart, hshallow⟩ : _ ∧ _ ∧ _ := by
        rw [not_or, not_or] at hinside
        exact hinside
      refine ⟨.parent hpath hnode hyoung hapart hmem, fun maximum hmax => ?_⟩
      by_contra hdeep
      exact hshallow ⟨maximum, hmax, by omega⟩
  · rintro ⟨hpath, hwithin⟩
    induction hpath with
    | want hwant hkept => exact .root ⟨hwant, fun hmem => hkept ((h.mem _).mp hmem), rfl⟩
    | @parent commit parent length node hpath hnode hyoung hapart hmem ih =>
      have hinside : isBoundary (.fromPackRequest request) excluded node length = false := by
        rw [← Bool.not_eq_true, isBoundary_iff h]
        rintro (hold | hnext | ⟨maximum, hmax, hle⟩)
        · exact hyoung hold
        · exact hapart hnext
        · have hlen := hwithin maximum hmax
          omega
      refine .step (ih fun maximum hmax => ?_)
        ⟨node, hnode, mem_pushed.mpr ⟨hinside, hmem, rfl⟩, ?_⟩
      · have hlen := hwithin maximum hmax
        omega
      · exact fun hexcl => hapart ⟨parent, hmem, (h.mem _).mp hexcl⟩

/-- A commit that is cut off at a depth is cut off at any greater one. -/
theorem isBoundary_mono {depth' : ℕ} (hle : depthKey request depth ≤ depthKey request depth')
    (hbdry : isBoundary (.fromPackRequest request) excluded node depth = true) :
    isBoundary (.fromPackRequest request) excluded node depth' = true := by
  simp only [isBoundary, ShallowRequest.fromPackRequest, Bool.or_eq_true, Option.any_eq_true,
    decide_eq_true_eq] at hbdry ⊢
  refine hbdry.imp_right ?_
  rintro ⟨maximum, hmax, hdepth⟩
  rw [depthKey, depthKey, hmax, if_neg (Option.some_ne_none _),
    if_neg (Option.some_ne_none _)] at hle
  exact ⟨maximum, hmax, hdepth.trans hle⟩

theorem leadsTo_improving : Improving (LeadsTo repository request excluded) (depthKey request) := by
  rintro commit depth depth' parent next hle ⟨node, hnode, hpushed, hkept⟩
  obtain ⟨hinside, hmem, rfl⟩ := mem_pushed.mp hpushed
  have hinside' : isBoundary (.fromPackRequest request) excluded node depth = false := by
    rw [← Bool.not_eq_true] at hinside ⊢
    exact fun hbdry => hinside (isBoundary_mono hle hbdry)
  refine ⟨depth + 1, ⟨node, hnode, mem_pushed.mpr ⟨hinside', hmem, rfl⟩, hkept⟩, ?_⟩
  unfold depthKey at hle ⊢
  split_ifs at hle ⊢ <;> omega

end Walk

/-- The walk so far: the depths are those of the search, every commit with a
depth is recorded, and the boundaries are right for the depths. -/
structure SelectionInv (repository : ObjectClosureRepository) (request : PackRequest)
    (excluded : BTreeSet AnyGitOid) (s : Selection) (stack : List (AnyGitOid × ℕ)) : Prop where
  relaxing : Relaxing (LeadsTo repository request excluded) (WantLabel request excluded)
    (depthKey request) (fun oid => s.depths[oid]?) fun oid depth => (oid, depth) ∈ stack ∧
      oid ∉ excluded
  narrow : Narrow (fun depth => depth - 1) s.depths.size (fun oid => s.depths[oid]?)
    fun oid depth => (oid, depth) ∈ stack ∧ oid ∉ excluded
  commits : ∀ {oid node}, s.commits[oid]? = some node ↔
    (∃ depth, s.depths[oid]? = some depth) ∧ repository.object oid = .ok (.commit node)
  boundaries : ∀ {oid}, oid ∈ s.boundaries ↔ ∃ depth node, s.depths[oid]? = some depth
    ∧ repository.object oid = .ok (.commit node)
    ∧ isBoundary (.fromPackRequest request) excluded node depth = true

section Run

variable {repository : ObjectClosureRepository} {request : PackRequest}
  {excluded : BTreeSet AnyGitOid}
  {limits : ClosureLimits} {s s' : Selection} {oid : AnyGitOid} {depth : ℕ} {node : CommitNode}
  {rest stack : List (AnyGitOid × ℕ)}

namespace SelectionInv

theorem start {stack : List (AnyGitOid × ℕ)}
    (hstack : ∀ oid depth, (oid, depth) ∈ stack ↔ oid ∈ request.wants ∧ depth = 1) :
    SelectionInv repository request excluded {} stack where
  relaxing := by
    refine Relax.Relaxing.start (fun oid => getElem?_empty) fun oid depth => ?_
    rw [hstack, WantLabel]
    tauto
  narrow := by
    constructor
    · intro oid depth h
      cases h
    · rintro oid depth ⟨hmem, -⟩
      rw [((hstack oid depth).mp hmem).2]
      exact zero_le _
  commits := by simp
  boundaries := by simp

section Arrival

variable (h : SelectionInv repository request excluded s ((oid, depth) :: rest))

include h

/-- An arrival at an excluded commit is dropped. -/
theorem pass (hexcl : oid ∈ excluded) : SelectionInv repository request excluded s rest := by
  have hsame : ∀ other next, (other, next) ∈ (oid, depth) :: rest ∧ other ∉ excluded ↔
      (other, next) ∈ rest ∧ other ∉ excluded := by
    intro other next
    refine and_congr_left fun hkept => ?_
    rw [mem_cons, Prod.mk.injEq]
    exact or_iff_right fun heq => hkept (heq.1 ▸ hexcl)
  have hrelaxing := h.relaxing
  have hnarrow := h.narrow
  simp only [hsame] at hrelaxing hnarrow
  exact ⟨hrelaxing, hnarrow, h.commits, h.boundaries⟩

theorem skip {previous : ℕ} (hdepth : s.depths[oid]? = some previous)
    (hle : depthKey request previous ≤ depthKey request depth) :
    SelectionInv repository request excluded s rest where
  relaxing := by
    refine h.relaxing.skip hdepth hle (fun hmem => ⟨mem_cons_of_mem _ hmem.1, hmem.2⟩) ?_
    rintro other next ⟨hmem, hkept⟩
    rcases mem_cons.mp hmem with heq | hmem
    · exact .inl (Prod.mk.inj heq)
    · exact .inr ⟨hmem, hkept⟩
  narrow := h.narrow.skip fun hmem => ⟨mem_cons_of_mem _ hmem.1, hmem.2⟩
  commits := h.commits
  boundaries := h.boundaries

/-- An arrival that is taken, for the first time or again: it is a boundary, or no longer one. -/
theorem settle {others : BTreeSet AnyGitOid} (hkept : oid ∉ excluded)
    (hbetter : ∀ previous, s.depths[oid]? = some previous →
      depthKey request depth < depthKey request previous)
    (hnode : repository.object oid = .ok (.commit node))
    (hdepths : s'.depths = s.depths.insert oid depth)
    (hcoms : ∀ other, s'.commits[other]? = if oid = other then some node else s.commits[other]?)
    (hothers : ∀ other, other ∈ others ↔ oid ≠ other ∧ other ∈ s.boundaries)
    (hbdries : s'.boundaries = if isBoundary (.fromPackRequest request) excluded node depth
      then s.boundaries.insert oid else others) : SelectionInv repository request excluded s'
      (pushed (.fromPackRequest request) excluded node depth ++ rest) := by
  have hself : s'.depths[oid]? = some depth := by
    rw [hdepths, get_insert, if_pos rfl]
  have hframe : ∀ other, other ≠ oid → s'.depths[other]? = s.depths[other]? := by
    intro other hother
    rw [hdepths, get_insert, if_neg (Ne.symm hother)]
  have hlabels : (fun other : AnyGitOid => s'.depths[other]?)
      = update (fun other => s.depths[other]?) oid (some depth) := by
    rw [hdepths, get_insert_fun]
  constructor
  · rw [hlabels]
    refine h.relaxing.visit ⟨mem_cons_self, hkept⟩ (fun hold => (hbetter _ hold).le)
      fun parent next => ?_
    have hleads : LeadsTo repository request excluded oid depth parent next ↔ (parent, next)
        ∈ pushed (.fromPackRequest request) excluded node depth ∧ parent ∉ excluded := by
      simp [LeadsTo, hnode]
    have hown : parent = oid → parent ∉ excluded := fun heq => heq ▸ hkept
    rw [hleads, mem_append, mem_cons, Prod.mk.injEq]
    tauto
  · have hsize : s'.depths.size = if oid ∈ s.depths then s.depths.size else s.depths.size + 1 := by
      rw [hdepths]
      exact size_insert
    rw [hlabels]
    refine h.narrow.visit ⟨mem_cons_self, hkept⟩ ?_ ?_ ?_ ?_
    · intro previous hprev
      have hlt := hbetter previous hprev
      unfold depthKey at hlt
      split_ifs at hlt <;> omega
    · rw [hsize]
      split_ifs <;> omega
    · intro hnone
      have hfresh : oid ∉ s.depths := by simp [BTree.mem_iff_get, hnone]
      rw [hsize, if_neg hfresh]
      exact lt_succ_self _
    · rintro parent next ⟨hmem, hpar⟩
      rcases mem_append.mp hmem with hmem | hmem
      · obtain ⟨-, -, rfl⟩ := mem_pushed.mp hmem
        exact .inl (by omega)
      · exact .inr ⟨mem_cons_of_mem _ hmem, hpar⟩
  · intro other node'
    rw [hcoms]
    split_ifs with heq
    · subst heq
      rw [hself, hnode]
      simp
    · rw [hframe other (Ne.symm heq)]
      exact h.commits
  · intro other
    have hmem : other ∈ s'.boundaries ↔
        if oid = other then isBoundary (.fromPackRequest request) excluded node depth = true
        else other ∈ s.boundaries := by
      rw [hbdries]
      split_ifs with hbdry heq heq
      · rw [BTree.mem_insert]
        exact iff_of_true (.inl heq) hbdry
      · rw [BTree.mem_insert, or_iff_right heq]
      · rw [hothers]
        exact iff_of_false (fun hmem => hmem.1 heq) hbdry
      · rw [hothers, and_iff_right heq]
    rw [hmem]
    split_ifs with heq
    · subst heq
      rw [hself, hnode]
      simp
    · rw [hframe other (Ne.symm heq)]
      exact h.boundaries

/-- The state after the first arrival at a commit. -/
def first (request : PackRequest) (excluded : BTreeSet AnyGitOid) (s : Selection) (oid : AnyGitOid)
    (depth : ℕ) (node : CommitNode) : Selection :=
  ⟨s.commits.insert oid node, s.depths.insert oid depth,
    if isBoundary (.fromPackRequest request) excluded node depth then s.boundaries.insert oid
      else s.boundaries,
    s.edges + node.parents.length⟩

/-- The state after an arrival on a shorter path. -/
def again (request : PackRequest) (excluded : BTreeSet AnyGitOid) (s : Selection) (oid : AnyGitOid)
    (depth : ℕ) (node : CommitNode) : Selection :=
  ⟨s.commits, s.depths.insert oid depth,
    if isBoundary (.fromPackRequest request) excluded node depth then s.boundaries.insert oid
      else s.boundaries.erase oid,
    s.edges + (pushed (.fromPackRequest request) excluded node depth).length⟩

theorem visit (hkept : oid ∉ excluded) (hfresh : s.depths[oid]? = none)
    (hnode : repository.object oid = .ok (.commit node)) :
    SelectionInv repository request excluded (first request excluded s oid depth node)
      (pushed (.fromPackRequest request) excluded node depth ++ rest) := by
  have hold : oid ∉ s.boundaries := by
    rw [h.boundaries, hfresh]
    rintro ⟨_, _, hnone, -⟩
    cases hnone
  refine h.settle hkept (fun previous hprev => ?_) hnode rfl
    (fun other => get_insert _ _ other _) (fun other => ?_) rfl
  · rw [hfresh] at hprev
    cases hprev
  · rw [and_iff_right_of_imp]
    rintro hmem rfl
    exact hold hmem

theorem revisit (hkept : oid ∉ excluded) {previous : ℕ} (hprev : s.depths[oid]? = some previous)
    (hlt : depthKey request depth < depthKey request previous)
    (hnode : repository.object oid = .ok (.commit node)) :
    SelectionInv repository request excluded (again request excluded s oid depth node)
      (pushed (.fromPackRequest request) excluded node depth ++ rest) := by
  refine h.settle hkept (fun other hother => ?_) hnode rfl (fun other => ?_)
    (mem_erase _ _) rfl
  · rw [hprev] at hother
    cases hother
    exact hlt
  · show s.commits[other]? = _
    split_ifs with heq
    · exact heq ▸ h.commits.mpr ⟨⟨previous, hprev⟩, hnode⟩
    · rfl

end Arrival

/-- There are not more depths than selected commits. -/
theorem size_le (hexcluding : Excluding repository request excluded)
    (h : SelectionInv repository request excluded s stack) :
    s.depths.size ≤ {commit | Selected repository request commit}.ncard := by
  refine size_le_ncard fun oid depth hdepth => ?_
  exact ⟨depth, (arrives_commit_iff hexcluding).mp (h.relaxing.labelled hdepth)⟩

end SelectionInv

theorem depthKey_le {previous : ℕ} (h : previous ≤ depth ∨ request.deepen = none) :
    depthKey request previous ≤ depthKey request depth := by
  unfold depthKey
  rcases h with h | h
  · split_ifs <;> omega
  · rw [if_pos h, if_pos h]

theorem depthKey_lt {previous : ℕ} (h : depth < previous) (hdeepen : request.deepen ≠ none) :
    depthKey request depth < depthKey request previous := by
  unfold depthKey
  rwa [if_neg hdeepen, if_neg hdeepen]

/-- **Each arrival keeps the invariant.** -/
theorem arrive_keeps {arrival : AnyGitOid × ℕ}
    (h : SelectionInv repository request excluded s (arrival :: rest))
    (harrive : arrive repository (.fromPackRequest request) excluded limits s arrival rest
      = .ok (s', stack)) : SelectionInv repository request excluded s' stack := by
  obtain ⟨-, ⟨hexcl, hnext⟩ | ⟨hkept, ⟨previous, hprev, hskip, hnext⟩ | ⟨hfresh, hvisit⟩ |
    ⟨previous, hprev, hlt, hdeepen, hrevisit⟩⟩⟩ := arrive_eq_ok.mp harrive
  · cases hnext
    exact h.pass hexcl
  · cases hnext
    exact h.skip hprev (depthKey_le hskip)
  · obtain ⟨-, node, hnode, -, -, -, hnext⟩ := visit_eq_ok.mp hvisit
    cases hnext
    exact h.visit hkept hfresh hnode
  · obtain ⟨node, hnode, -, -, -, hnext⟩ := revisit_eq_ok.mp hrevisit
    cases hnext
    exact h.revisit hkept hprev (depthKey_lt hlt hdeepen) hnode

variable (hexcluding : Excluding repository request excluded)
  (hhist : History repository (request.wants ++ request.deepenNot))
  (hfit : LengthsFit repository request)

include hexcluding hhist hfit in
/-- A commit that gets a depth can be expanded: the depth has a successor, as
the request cuts before, or there are not that many commits. -/
theorem SelectionInv.expandable (h : SelectionInv repository request excluded s stack)
    (hdepth : s.depths[oid]? = some depth)
    (hnode : repository.object oid = .ok (.commit node)) :
    Expandable repository (.fromPackRequest request) excluded node depth := by
  obtain ⟨hpath, -⟩ := (arrives_commit_iff hexcluding).mp (h.relaxing.labelled hdepth)
  by_cases hbdry : isBoundary (.fromPackRequest request) excluded node depth = true
  · exact .inl hbdry
  · refine .inr ⟨?_, fun parent hmem => ?_⟩
    · cases hdeepen : request.deepen with
      | none =>
        rcases hfit hdeepen with hshort | hfew
        · have hlength := hshort _ _ hpath
          omega
        · have hweight := h.narrow.labelled hdepth
          have hsize := h.size_le hexcluding
          omega
      | some maximum =>
        have hbelow : depth < maximum.toNat := by
          by_contra hdeep
          refine hbdry ((isBoundary_iff hexcluding).mpr (.inr (.inr ⟨maximum, hdeepen, ?_⟩)))
          exact not_lt.mp hdeep
        have hword := maximum.toNat_lt
        omega
    · exact (hhist parent (hpath.ancestor.parent hnode hmem)).1

/-- The identities on the stack belong to the repository. -/
structure StackInv (repository : ObjectClosureRepository) (request : PackRequest)
    (excluded : BTreeSet AnyGitOid) (s : Selection) (stack : List (AnyGitOid × ℕ)) : Prop where
  selection : SelectionInv repository request excluded s stack
  formats : ∀ arrival ∈ stack, arrival.1.algorithm = repository.objectFormat

/-- Room for some more commits and edges. -/
def SelectionRoom (limits : ClosureLimits) (s : Selection) (_ : List (AnyGitOid × ℕ))
    (room : ℕ) : Prop :=
  s.commits.size + room ≤ limits.maxCommits ∧ s.edges + room ≤ limits.maxEdges

/-- A step of the walk that can be made if there is room for its cost. -/
def Progresses (repository : ObjectClosureRepository) (request : PackRequest)
    (excluded : BTreeSet AnyGitOid) (s : Selection) (arrival : AnyGitOid × ℕ)
    (rest : List (AnyGitOid × ℕ)) : Prop :=
  ∃ s' stack cost, StackInv repository request excluded s' stack
    ∧ (rank (depthKey request) (fun oid : AnyGitOid => s'.depths[oid]?)
          < rank (depthKey request) (fun oid : AnyGitOid => s.depths[oid]?)
        ∨ (fun oid : AnyGitOid => s'.depths[oid]?) = (fun oid : AnyGitOid => s.depths[oid]?)
          ∧ stack.length ≤ rest.length)
    ∧ ∀ limits bound, SelectionRoom limits s (arrival :: rest) (bound + cost) →
      arrive repository (.fromPackRequest request) excluded limits s arrival rest = .ok (s', stack)
        ∧ SelectionRoom limits s' stack bound

/-- A step that takes the commit, for the first time or again. -/
theorem progresses_of_settled {s₁ : Selection} (hstack : StackInv repository request excluded s₁
      (pushed (.fromPackRequest request) excluded node depth ++ rest))
    (hbetter : ∀ previous, s.depths[oid]? = some previous →
      depthKey request depth < depthKey request previous)
    (hdepths : s₁.depths = s.depths.insert oid depth) (hsize : s₁.commits.size ≤ s.commits.size + 1)
    (hedges : s₁.edges ≤ s.edges + node.parents.length)
    (hmake : ∀ limits : ClosureLimits, s.commits.size < limits.maxCommits →
      s.edges + node.parents.length ≤ limits.maxEdges →
      arrive repository (.fromPackRequest request) excluded limits s (oid, depth) rest
        = .ok (s₁, pushed (.fromPackRequest request) excluded node depth ++ rest)) :
    Progresses repository request excluded s (oid, depth) rest := by
  refine ⟨s₁, _, 1 + node.parents.length, hstack, .inl ?_, ?_⟩
  · rw [hdepths, get_insert_fun]
    exact rank_lt _ hbetter
  · rintro limits bound ⟨hcoms, hroom⟩
    exact ⟨hmake limits (by omega) (by omega), by omega, by omega⟩

include hexcluding hhist hfit

/-- Every arrival can be handled. -/
theorem StackInv.progresses (h : StackInv repository request excluded s ((oid, depth) :: rest)) :
    Progresses repository request excluded s (oid, depth) rest := by
  obtain ⟨hsel, hfmts⟩ := h
  obtain ⟨hfmt, hrest⟩ := forall_mem_cons.mp hfmts
  by_cases hexcl : oid ∈ excluded
  · refine ⟨s, rest, 0, ⟨hsel.pass hexcl, hrest⟩, .inr ⟨rfl, le_rfl⟩, fun limits bound hroom => ?_⟩
    exact ⟨arrive_eq_ok.mpr ⟨hfmt, .inl ⟨hexcl, rfl⟩⟩, hroom⟩
  obtain ⟨hpath, -⟩ := (arrives_commit_iff hexcluding).mp
    (hsel.relaxing.queued ⟨mem_cons_self, hexcl⟩)
  obtain ⟨-, node, hnode, htree⟩ := hhist oid hpath.ancestor
  -- what is pushed are ancestors of the wants
  have hpushed : ∀ arrival ∈ pushed (.fromPackRequest request) excluded node depth ++ rest,
      arrival.1.algorithm = repository.objectFormat := by
    refine forall_mem_append.mpr ⟨fun arrival hmem => ?_, hrest⟩
    obtain ⟨-, hpar, -⟩ := mem_pushed.mp (show (arrival.1, arrival.2) ∈ _ from hmem)
    exact (hhist _ (hpath.ancestor.parent hnode hpar)).1
  cases hdepth : s.depths[oid]? with
  | none =>
    have hvisit := hsel.visit hexcl hdepth hnode
    have hexpd := hvisit.expandable hexcluding hhist hfit
      ((get_insert _ _ _ _).trans (if_pos rfl)) hnode
    refine progresses_of_settled ⟨hvisit, hpushed⟩ (fun previous hprev => ?_) rfl
      size_insert_le le_rfl fun limits hcoms hedges => ?_
    · rw [hdepth] at hprev
      cases hprev
    · refine arrive_eq_ok.mpr ⟨hfmt, .inr ⟨hexcl, .inr (.inl ⟨hdepth, ?_⟩)⟩⟩
      exact visit_eq_ok.mpr ⟨hcoms.ne, node, hnode, htree, hedges, hexpd, rfl⟩
  | some previous =>
    by_cases hskip : previous ≤ depth ∨ request.deepen = none
    · refine ⟨s, rest, 0, ⟨hsel.skip hdepth (depthKey_le hskip), hrest⟩, .inr ⟨rfl, le_rfl⟩,
        fun limits bound hroom => ?_⟩
      exact ⟨arrive_eq_ok.mpr ⟨hfmt, .inr ⟨hexcl, .inl ⟨previous, hdepth, hskip, rfl⟩⟩⟩, hroom⟩
    · obtain ⟨hlt, hdeepen⟩ := not_or.mp hskip
      have hshorter := depthKey_lt (not_le.mp hlt) hdeepen
      have hrevisit := hsel.revisit hexcl hdepth hshorter hnode
      have hexpd := hrevisit.expandable hexcluding hhist hfit
        ((get_insert _ _ _ _).trans (if_pos rfl)) hnode
      refine progresses_of_settled ⟨hrevisit, hpushed⟩ (fun other hother => ?_) rfl
        (Nat.le_succ _) (Nat.add_le_add_left (length_pushed_le _ _) _) fun limits _ hedges => ?_
      · rw [hdepth] at hother
        cases hother
        exact hshorter
      · refine arrive_eq_ok.mpr ⟨hfmt, .inr ⟨hexcl, .inr (.inr
          ⟨previous, hdepth, not_le.mp hlt, hdeepen, ?_⟩)⟩⟩
        exact revisit_eq_ok.mpr ⟨node, hnode, htree, hexpd, fun _ => hedges, rfl⟩

/-- **With enough room the walk over commits ends.** -/
theorem exists_selection (h : StackInv repository request excluded s stack) :
    ∃ bound, ∀ limits, SelectionRoom limits s stack bound →
      ∃ s', drain (arrive_lowers repository (.fromPackRequest request) excluded limits) s stack
        = .ok s' :=
  exists_drain (depthKey request) (arrive_lowers repository (.fromPackRequest request) excluded)
    (fun s (oid : AnyGitOid) => s.depths[oid]?)
    (fun _ _ _ h => h.progresses hexcluding hhist hfit) h

end Run

end Frankengit.Wire.Closure
