/-
Frankengit/Wire/ClosureSplit.lean

The objects of a closure are split exactly (`Exact`): each is selected or
omitted, once, by what the filter says at its least depth.  The lists are read
off the paths that the walk records; they rise, so they depend on no order
(`Reordered.lists_eq`) and the check of an emitted pack finds what is in them
(`verifyPackObjects_iff`).
-/
import Frankengit.Wire.ClosureObjects
import Frankengit.Lib.SortedUnique

namespace Frankengit.Wire.Closure

open Fallible List Option ClosureObjectId Std.ExtTreeMap Walk Prod Bytewise Drain Nat Sorted
open GitObject (ObjectType)

/-! ### The lists -/

theorem compareObjectIds_lt {left right : ClosureObjectId} (h : left.oid < right.oid) :
    compareObjectIds left right = .lt := by
  rw [compareObjectIds, compare_lt_iff_lt.mpr h]
  rfl

theorem compareOmissions_lt {left right : PromisorOmission} (h : left.oid < right.oid) :
    compareOmissions left right = .lt := by
  rw [compareOmissions, compare_lt_iff_lt.mpr h]
  rfl

/-- What rises along identities that are compared first is sorted. -/
theorem insertionSort_of_rising {α : Type} {oid : α → AnyGitOid} {cmp : α → α → Ordering}
    (hcmp : ∀ {x y}, oid x < oid y → cmp x y = .lt) {values : List α}
    (h : values.Pairwise fun x y => oid x < oid y) :
    values.insertionSort (fun x y => (cmp x y).isLE) = values := by
  refine Pairwise.insertionSort_eq (h.imp fun {x y} hlt => ?_)
  rw [hcmp hlt]
  rfl

variable {object : ClosureObjectId} {repository : ObjectClosureRepository} {limits : ClosureLimits}
    {lists : List ClosureObjectId × List PromisorOmission}

section Lists

variable {filter : Option ObjectFilter} {path : ObjectPath} {oid : AnyGitOid}

theorem selectedObject_eq_some : selectedObject filter oid path = some object ↔
      omissionReason filter path.object path.depth = none
        ∧ object = ⟨oid, path.object.objectType⟩ := by
  unfold selectedObject
  cases omissionReason filter path.object path.depth with
  | none => simp [eq_comm]
  | some reason => simp

theorem omittedObject_eq_some {omission : PromisorOmission} :
    omittedObject filter oid path = some omission ↔
      ∃ reason, omissionReason filter path.object path.depth = some reason
        ∧ omission = ⟨oid, path.object.objectType, path.parent, path.depth, reason⟩ := by
  rw [omittedObject, map_eq_some_iff]
  simp only [eq_comm]

variable (filter) in
/-- The selected objects of the recorded paths, in order. -/
def Walk.objects (s : Walk) : List ClosureObjectId :=
  s.paths.toList.filterMap fun entry => selectedObject filter entry.1 entry.2

variable (filter) in
/-- The omitted objects of the recorded paths, in order. -/
def Walk.omissions (s : Walk) : List PromisorOmission :=
  s.paths.toList.filterMap fun entry => omittedObject filter entry.1 entry.2

variable {s : Walk}

theorem Walk.mem_objects : object ∈ s.objects filter ↔ ∃ path, s.paths[object.oid]? = some path
      ∧ omissionReason filter path.object path.depth = none
      ∧ object.objectType = path.object.objectType := by
  cases object
  simp [objects, mem_filterMap, selectedObject_eq_some]

theorem Walk.mem_omissions {omission : PromisorOmission} : omission ∈ s.omissions filter ↔
    ∃ path, s.paths[omission.oid]? = some path
      ∧ omissionReason filter path.object path.depth = some omission.reason
      ∧ omission.objectType = path.object.objectType ∧
        (omission.parent, omission.depth) = path.label := by
  cases omission
  simp [omissions, mem_filterMap, omittedObject_eq_some, ObjectPath.label]

theorem Walk.toList_rising (s : Walk) : s.paths.toList.Pairwise fun x y => x.1 < y.1 :=
  ordered_keys_toList.imp compare_lt_iff_lt.mp

theorem Walk.objects_rising :
    (s.objects filter).Pairwise fun left right => left.oid < right.oid := by
  refine List.Pairwise.filterMap _ (fun entry entry' hlt object h object' h' => ?_) s.toList_rising
  rw [(selectedObject_eq_some.mp h).2, (selectedObject_eq_some.mp h').2]
  exact hlt

theorem Walk.omissions_rising :
    (s.omissions filter).Pairwise fun left right => left.oid < right.oid := by
  refine List.Pairwise.filterMap _
    (fun entry entry' hlt omission h omission' h' => ?_) s.toList_rising
  obtain ⟨_, -, rfl⟩ := omittedObject_eq_some.mp h
  obtain ⟨_, -, rfl⟩ := omittedObject_eq_some.mp h'
  exact hlt

theorem collectObjectFrontier_eq_ok {frontier : List (AnyGitOid × Label)} :
    collectObjectFrontier repository filter limits frontier = .ok lists ↔
      ∃ s, drain (follow_lowers repository limits) {} frontier = .ok s
        ∧ (s.objects filter, s.omissions filter) = lists := by
  rw [collectObjectFrontier, bind_eq_ok]
  refine exists_congr fun s => and_congr_right fun _ => ?_
  rw [pure_eq_ok]
  have hobjs : sortObjects (s.objects filter) = s.objects filter :=
    insertionSort_of_rising compareObjectIds_lt objects_rising
  have homissions : sortOmissions (s.omissions filter) = s.omissions filter :=
    insertionSort_of_rising compareOmissions_lt omissions_rising
  rw [← hobjs, ← homissions]
  rfl

end Lists

/-! ### The split is exact -/

/-- Each reachable object is in one of the lists, once; it is omitted when the
filter excludes it at its least depth; and the lists rise. -/
structure Exact (repository : ObjectClosureRepository) (roots : List (AnyGitOid × Option AnyGitOid))
    (filter : Option ObjectFilter) (objects : List ClosureObjectId)
    (omissions : List PromisorOmission) : Prop where
  complete : ∀ oid, Reachable repository roots oid ↔
    oid ∈ objects.map ClosureObjectId.oid ++ omissions.map PromisorOmission.oid
  once : (objects.map oid ++ omissions.map PromisorOmission.oid).Nodup
  selected : ∀ object ∈ objects, ∃ fact parent depth,
    repository.object object.oid = .ok fact ∧ object.objectType = fact.objectType
      ∧ Recorded repository roots object.oid parent depth
      ∧ ¬ ∃ f, filter = some f ∧ Excludes f fact depth
  omitted : ∀ omission ∈ omissions, ∃ fact,
    repository.object omission.oid = .ok fact ∧ omission.objectType = fact.objectType
      ∧ Recorded repository roots omission.oid omission.parent omission.depth
      ∧ ∃ f, filter = some f ∧ Excludes f fact omission.depth
  objects_sorted : objects.Pairwise fun left right => compareObjectIds left right = .lt
  omissions_sorted : omissions.Pairwise fun left right => compareOmissions left right = .lt

section Exact

variable {repository : ObjectClosureRepository} {roots : List (AnyGitOid × Option AnyGitOid)}
  {filter : Option ObjectFilter} {limits : ClosureLimits} {s : Walk} {oid : AnyGitOid}

/-- The frontier that roots start with. -/
def rootFrontier (roots : List (AnyGitOid × Option AnyGitOid)) : List (AnyGitOid × Label) :=
  roots.map fun root => (root.1, (root.2, 0))

theorem mem_rootFrontier {label : Label} :
    (oid, label) ∈ rootFrontier roots ↔ RootLabel roots oid label := by
  obtain ⟨parent, depth⟩ := label
  simp [rootFrontier, RootLabel, eq_comm]

section

variable (h : WalkInv repository roots s [])
include h

/-- At the end the labels are the recorded paths. -/
theorem WalkInv.label_iff {label : Label} :
    s.labels oid = some label ↔ Recorded repository roots oid label.1 label.2 := by
  rw [h.relaxing.label_iff not_mem_nil leads_improving Label.key_injective, arrives_iff, Recorded]
  refine and_congr_right fun _ => ?_
  constructor
  · intro hleast parent depth hreach
    exact Label.key_le_iff.mp (hleast (parent, depth) (arrives_iff.mpr hreach))
  · intro hleast other harrives
    exact Label.key_le_iff.mpr (hleast other.1 other.2 (arrives_iff.mp harrives))

theorem WalkInv.recorded {path : ObjectPath} (hpath : s.paths[oid]? = some path) :
    repository.object oid = .ok path.object ∧
      Recorded repository roots oid path.parent path.depth := by
  have hlabel : s.labels oid = some path.label := by rw [labels, hpath, map_some]
  exact ⟨h.facts hpath, h.label_iff.mp hlabel⟩

theorem WalkInv.reachable_iff :
    Reachable repository roots oid ↔ ∃ path, s.paths[oid]? = some path := by
  constructor
  · rintro ⟨parent, depth, hreach⟩
    have harrives : Relax.Arrives (Leads repository) (RootLabel roots) oid (parent, depth) :=
      arrives_iff.mpr hreach
    obtain ⟨label, hlabel, -⟩ := h.relaxing.finished not_mem_nil leads_improving harrives
    obtain ⟨path, hpath, -⟩ := map_eq_some_iff.mp hlabel
    exact ⟨path, hpath⟩
  · rintro ⟨path, hpath⟩
    exact ⟨_, _, (h.recorded hpath).2.1⟩

theorem WalkInv.exact : Exact repository roots filter (s.objects filter) (s.omissions filter) where
  complete := by
    intro oid
    rw [h.reachable_iff, mem_append, List.mem_map, List.mem_map]
    constructor
    · rintro ⟨path, hpath⟩
      cases hreason : omissionReason filter path.object path.depth with
      | none => exact .inl ⟨⟨oid, _⟩, mem_objects.mpr ⟨path, hpath, hreason, rfl⟩, rfl⟩
      | some reason =>
        exact .inr ⟨⟨oid, _, _, _, reason⟩, mem_omissions.mpr ⟨path, hpath, hreason, rfl, rfl⟩, rfl⟩
    · rintro (⟨object, hmem, rfl⟩ | ⟨omission, hmem, rfl⟩)
      · obtain ⟨path, hpath, -⟩ := mem_objects.mp hmem
        exact ⟨path, hpath⟩
      · obtain ⟨path, hpath, -⟩ := mem_omissions.mp hmem
        exact ⟨path, hpath⟩
  once := by
    rw [nodup_append]
    refine ⟨?_, ?_, ?_⟩
    · exact pairwise_map.mpr (objects_rising.imp fun hlt => hlt.ne)
    · exact pairwise_map.mpr (omissions_rising.imp fun hlt => hlt.ne)
    · -- one path is either kept or omitted
      intro oid hselected other homitted heq
      obtain ⟨object, hobj, rfl⟩ := mem_map.mp hselected
      obtain ⟨omission, homission, rfl⟩ := mem_map.mp homitted
      obtain ⟨path, hpath, hnone, -⟩ := mem_objects.mp hobj
      obtain ⟨path', hpath', hsome, -⟩ := mem_omissions.mp homission
      rw [heq, hpath'] at hpath
      cases hpath
      rw [hnone] at hsome
      cases hsome
  selected := by
    intro object hmem
    obtain ⟨path, hpath, hnone, htype⟩ := mem_objects.mp hmem
    obtain ⟨hfact, hrecorded⟩ := h.recorded hpath
    refine ⟨path.object, path.parent, path.depth, hfact, htype, hrecorded, ?_⟩
    rw [← omissionReason_isSome, hnone]
    exact Bool.false_ne_true
  omitted := by
    intro omission hmem
    obtain ⟨path, hpath, hsome, htype, hlabel⟩ := mem_omissions.mp hmem
    obtain ⟨hfact, hrecorded⟩ := h.recorded hpath
    obtain ⟨hpar, hdepth⟩ := mk.inj hlabel
    refine ⟨path.object, hfact, htype, ?_, ?_⟩
    · rw [hpar, hdepth]
      exact hrecorded
    · rw [hdepth, ← omissionReason_isSome, hsome]
      rfl
  objects_sorted := objects_rising.imp compareObjectIds_lt
  omissions_sorted := omissions_rising.imp compareOmissions_lt

end

/-- The walk that a collection made. -/
theorem exists_walkInv
    (h : collectObjectFrontier repository filter limits (rootFrontier roots) = .ok lists) :
    ∃ s, drain (follow_lowers repository limits) {} (rootFrontier roots) = .ok s
      ∧ WalkInv repository roots s [] ∧ (s.objects filter, s.omissions filter) = lists := by
  obtain ⟨s, hdrain, hlists⟩ := collectObjectFrontier_eq_ok.mp h
  refine ⟨s, hdrain, ?_, hlists⟩
  exact drain_keeps (follow_lowers repository limits) follow_keeps hdrain
    (.start fun _ _ => mem_rootFrontier)

theorem collectObjectFrontier_exact {objects : List ClosureObjectId}
    {omissions : List PromisorOmission}
    (h : collectObjectFrontier repository filter limits (rootFrontier roots)
      = .ok (objects, omissions)) :
    Exact repository roots filter objects omissions := by
  obtain ⟨s, -, hinv, hlists⟩ := exists_walkInv h
  cases hlists
  exact hinv.exact

/-- With enough room the collection succeeds. -/
theorem exists_collectObjectFrontier (hreadable : Readable repository roots)
    (hfit : DepthsFit repository roots) (filter : Option ObjectFilter) :
    ∃ bound, ∀ limits : ClosureLimits, bound ≤ limits.maxObjects → bound ≤ limits.maxEdges →
      ∃ objects omissions,
        collectObjectFrontier repository filter limits (rootFrontier roots)
          = .ok (objects, omissions) := by
  have hstart : WalkInv repository roots {} (rootFrontier roots) :=
    WalkInv.start fun _ _ => mem_rootFrontier
  obtain ⟨bound, hbound⟩ := exists_walk hreadable hfit hstart
  refine ⟨(rootFrontier roots).length + bound, fun limits hobjs hedges => ?_⟩
  have hempty : (paths {}).size = 0 := size_empty
  obtain ⟨s, hdrain⟩ := hbound limits ⟨by omega, by dsimp only; omega, hedges⟩
  exact ⟨_, _, collectObjectFrontier_eq_ok.mpr ⟨s, hdrain, rfl⟩⟩

end Exact

/-! ### The order of roots, parents and entries -/

/-- The same object with its references in another order. -/
inductive Shuffled : ClosureObject → ClosureObject → Prop
  | commit {node node' : CommitNode} (htree : node.tree = node'.tree)
      (htime : node.committerTime = node'.committerTime) (hpars : node.parents.Perm node'.parents) :
      Shuffled (.commit node) (.commit node')
  | tree {entries entries' : List ClosureTreeEntry} (h : entries.Perm entries') :
      Shuffled (.tree entries) (.tree entries')
  | blob (size : ℕ) : Shuffled (.blob size) (.blob size)
  | tag (target : AnyGitOid) : Shuffled (.tag target) (.tag target)

/-- Every object of the one is, in another order, an object of the other. -/
def Holds (repository repository' : ObjectClosureRepository) : Prop :=
  ∀ oid object, repository.object oid = .ok object →
    ∃ object', repository'.object oid = .ok object' ∧ Shuffled object object'

/-- The same objects, each with its references in some order. -/
structure Reordered (repository repository' : ObjectClosureRepository) : Prop where
  format : repository.objectFormat = repository'.objectFormat
  holds : Holds repository repository'
  held : Holds repository' repository

section Reordered

variable {repository repository' : ObjectClosureRepository}
  {roots roots' : List (AnyGitOid × Option AnyGitOid)} {oid : AnyGitOid} {parent : Option AnyGitOid}
  {depth : ℕ} {filter : Option ObjectFilter}

theorem Reordered.symm (h : Reordered repository repository') : Reordered repository' repository :=
  ⟨h.format.symm, h.held, h.holds⟩

theorem Reaches.transport (hholds : Holds repository repository')
    (hroots : ∀ root ∈ roots, root ∈ roots') (h : Reaches repository roots oid parent depth) :
    Reaches repository' roots' oid parent depth := by
  induction h with
  | root h => exact .root (hroots _ h)
  | tree _ hobj ih =>
    obtain ⟨_, hobj', hshuf⟩ := hholds _ _ hobj
    cases hshuf with
    | commit htree htime hpars =>
      rw [htree]
      exact .tree ih hobj'
  | parent _ hobj hmem ih =>
    obtain ⟨_, hobj', hshuf⟩ := hholds _ _ hobj
    cases hshuf with
    | commit htree htime hpars => exact .parent ih hobj' (hpars.mem_iff.mp hmem)
  | entry _ hobj hmem hlocal ih =>
    obtain ⟨_, hobj', hshuf⟩ := hholds _ _ hobj
    cases hshuf with
    | tree hentr => exact .entry ih hobj' (hentr.mem_iff.mp hmem) hlocal
  | target _ hobj ih =>
    obtain ⟨_, hobj', hshuf⟩ := hholds _ _ hobj
    cases hshuf with
    | tag => exact .target ih hobj'

variable (h : Reordered repository repository') (hroots : ∀ root, root ∈ roots ↔ root ∈ roots')

include h hroots in
theorem Reordered.reaches_iff :
    Reaches repository roots oid parent depth ↔ Reaches repository' roots' oid parent depth :=
  ⟨.transport h.holds fun root => (hroots root).mp,
    Reaches.transport h.held fun root => (hroots root).mpr⟩

include h hroots in
theorem Reordered.recorded_iff :
    Recorded repository roots oid parent depth ↔ Recorded repository' roots' oid parent depth := by
  rw [Recorded, Recorded, h.reaches_iff hroots]
  refine and_congr_right fun _ => forall₂_congr fun parent' depth' => ?_
  rw [h.reaches_iff hroots]

theorem Shuffled.objectType_eq {object object' : ClosureObject} (h : Shuffled object object') :
    object.objectType = object'.objectType := by
  cases h <;> rfl

theorem Shuffled.omissionReason_eq {object object' : ClosureObject} (h : Shuffled object object') :
    omissionReason filter object depth = omissionReason filter object' depth := by
  cases h <;> cases filter <;> rfl

include h hroots

variable {s s' : Walk} (hs : WalkInv repository roots s []) (hs' : WalkInv repository' roots' s' [])

include hs hs' in
/-- Walks over the same objects record the same paths. -/
theorem Reordered.path {path : ObjectPath} (hpath : s.paths[oid]? = some path) :
    ∃ path', s'.paths[oid]? = some path' ∧ path'.label = path.label
      ∧ Shuffled path.object path'.object := by
  obtain ⟨hfact, hrecorded⟩ := hs.recorded hpath
  have hlabel : s'.labels oid = some path.label :=
    hs'.label_iff.mpr ((h.recorded_iff hroots).mp hrecorded)
  obtain ⟨path', hpath', heq⟩ := map_eq_some_iff.mp hlabel
  obtain ⟨object', hobj', hshuf⟩ := h.holds _ _ hfact
  rw [hs'.facts hpath'] at hobj'
  cases hobj'
  exact ⟨path', hpath', heq, hshuf⟩

include hs hs' in
theorem Reordered.mem_objects (hmem : object ∈ s.objects filter) : object ∈ s'.objects filter := by
  obtain ⟨path, hpath, hreason, htype⟩ := Walk.mem_objects.mp hmem
  obtain ⟨path', hpath', hlabel, hshuf⟩ := h.path hroots hs hs' hpath
  obtain ⟨-, hdepth⟩ := mk.inj hlabel
  refine Walk.mem_objects.mpr ⟨path', hpath', ?_, htype.trans hshuf.objectType_eq⟩
  rw [← hshuf.omissionReason_eq, hdepth, hreason]

include hs hs' in
theorem Reordered.mem_omissions {omission : PromisorOmission}
    (hmem : omission ∈ s.omissions filter) : omission ∈ s'.omissions filter := by
  obtain ⟨path, hpath, hreason, htype, heq⟩ := Walk.mem_omissions.mp hmem
  obtain ⟨path', hpath', hlabel, hshuf⟩ := h.path hroots hs hs' hpath
  obtain ⟨-, hdepth⟩ := mk.inj hlabel
  refine Walk.mem_omissions.mpr
    ⟨path', hpath', ?_, htype.trans hshuf.objectType_eq, heq.trans hlabel.symm⟩
  rw [← hshuf.omissionReason_eq, hdepth, hreason]

/-- **The lists do not depend on any order.** -/
theorem Reordered.lists_eq {limits' : ClosureLimits}
    {lists' : List ClosureObjectId × List PromisorOmission}
    (hok : collectObjectFrontier repository filter limits (rootFrontier roots) = .ok lists)
    (hok' : collectObjectFrontier repository' filter limits' (rootFrontier roots') = .ok lists') :
    lists = lists' := by
  obtain ⟨s, -, hs, rfl⟩ := exists_walkInv hok
  obtain ⟨s', -, hs', rfl⟩ := exists_walkInv hok'
  have hroots' : ∀ root, root ∈ roots' ↔ root ∈ roots := fun root => (hroots root).symm
  have hobjs : s.objects filter = s'.objects filter :=
    objects_rising.eq_of_mem_iff objects_rising fun _ =>
      ⟨h.mem_objects hroots hs hs', h.symm.mem_objects hroots' hs' hs⟩
  have homissions : s.omissions filter = s'.omissions filter :=
    omissions_rising.eq_of_mem_iff omissions_rising fun _ =>
      ⟨h.mem_omissions hroots hs hs', h.symm.mem_omissions hroots' hs' hs⟩
  rw [hobjs, homissions]

end Reordered

/-! ### Checking an emitted pack -/

/-- The order of the objects of a pack. -/
def ClosureObjectId.key (object : ClosureObjectId) : AnyGitOid ×ₗ ℕ :=
  toLex (object.oid, objectTypeCode object.objectType)

theorem objectTypeCode_injective : Function.Injective objectTypeCode := by
  intro kind kind' h
  cases kind <;> cases kind' <;> first | rfl | exact absurd h (by decide)

theorem ClosureObjectId.key_injective : Function.Injective key := by
  rintro ⟨oid, kind⟩ ⟨oid', kind'⟩ h
  obtain ⟨rfl, hcode⟩ := Prod.mk.inj (toLex.injective h)
  exact congrArg (mk oid) (objectTypeCode_injective hcode)

section Verify

variable {left right : ClosureObjectId}

theorem compareObjectIds_eq (left right : ClosureObjectId) :
    compareObjectIds left right = compare left.key right.key := rfl

theorem compareObjectIds_eq_lt : compareObjectIds left right = .lt ↔ left.key < right.key := by
  rw [compareObjectIds_eq, compare_lt_iff_lt]

theorem compareObjectIds_eq_eq : compareObjectIds left right = .eq ↔ left = right := by
  rw [compareObjectIds_eq, compare_eq_iff_eq, key_injective.eq_iff]

/-- A pack passes when each of its objects was selected. -/
theorem verifyPackObjects_iff {closure : PackClosure} {emitted : List ClosureObjectId}
    (hsorted : closure.objects.Pairwise fun left right => compareObjectIds left right = .lt) :
    closure.verifyPackObjects emitted = .ok () ↔ ∀ object ∈ emitted, object ∈ closure.objects := by
  rw [PackClosure.verifyPackObjects, forM_eq_ok]
  refine forall₂_congr fun object _ => ?_
  rw [refuseIf_eq_ok, ← ne_eq, ← isSome_iff_ne_none, Bisect.search_isSome]
  · simp only [compareObjectIds_eq_eq, exists_eq_right]
  · refine Bisect.rising_of_pairwise (hsorted.imp fun {x y} hlt => ?_)
    have hlt := compareObjectIds_eq_lt.mp hlt
    simp only [compareObjectIds_eq, compare_gt_iff_gt, compare_lt_iff_lt]
    exact ⟨fun h => h.trans hlt, fun h => hlt.trans h⟩

end Verify

/-! ### The objects of selected commits -/

theorem sortObjects_sorted {objects : List ClosureObjectId} (h : objects.Nodup) :
    (sortObjects objects).Pairwise fun left right => compareObjectIds left right = .lt := by
  have hsort : sortObjects objects = sortBy key objects := by
    simp only [sortObjects, sortBy, compareObjectIds_eq,
      ← compare_le_iff_le, Ordering.isLE_iff_ne_gt]
  have hne : (sortObjects objects).Nodup := (perm_insertionSort _ objects).nodup_iff.mpr h
  rw [hsort] at hne ⊢
  refine ((pairwise_sortBy key objects).and hne).imp fun {left right} hboth => ?_
  rw [compareObjectIds_eq_lt]
  exact lt_of_le_of_ne hboth.1 fun heq => hboth.2 (key_injective heq)

theorem mem_sortObjects {objects : List ClosureObjectId} :
    object ∈ sortObjects objects ↔ object ∈ objects :=
  (perm_insertionSort _ objects).mem_iff

section Commits

variable {repository : ObjectClosureRepository} {filter : Option ObjectFilter}
  {limits : ClosureLimits}
  {commits : BTreeMap AnyGitOid CommitNode} {objects : List ClosureObjectId}
  {omissions : List PromisorOmission}

/-- The trees of the commits, each with the commit it belongs to. -/
def treeRoots (commits : BTreeMap AnyGitOid CommitNode) : List (AnyGitOid × Option AnyGitOid) :=
  (commits.toList.map fun entry => (entry.2.tree, some entry.1)).reverse

def commitIds (commits : BTreeMap AnyGitOid CommitNode) : List ClosureObjectId :=
  commits.toList.map fun entry => ⟨entry.1, .commit⟩

theorem mem_commitIds :
    object ∈ commitIds commits ↔ object.oid ∈ commits ∧ object.objectType = .commit := by
  cases object
  simp [commitIds, BTree.mem_iff_get, eq_comm]

theorem commitIds_nodup : (commitIds commits).Nodup := by
  refine pairwise_map.mpr ((BTree.toList_pairwise_ne commits).imp fun hne heq => hne ?_)
  exact congrArg oid heq

theorem collectObjects_eq_ok :
    collectObjects repository filter limits commits = .ok (objects, omissions) ↔
    commits.size ≤ limits.maxObjects
      ∧ ∃ trees, collectObjectFrontier repository filter limits (rootFrontier (treeRoots commits))
          = .ok (trees, omissions) ∧ sortObjects (commitIds commits ++ trees) = objects := by
  have hfront : rootFrontier (treeRoots commits)
      = (commits.toList.map fun entry => (entry.2.tree, ((some entry.1, 0) : Label))).reverse := by
    rw [rootFrontier, treeRoots, map_reverse, List.map_map]
    rfl
  simp [collectObjects, hfront, commitIds]

/-- The objects of a pack are the commits and what their trees lead to.  A
commit that a tree led to would be listed twice. -/
theorem collectObjects_exact
    (hdisj : ∀ oid ∈ commits, ¬ Reachable repository (treeRoots commits) oid)
    (h : collectObjects repository filter limits commits = .ok (objects, omissions)) :
    ∃ trees, Exact repository (treeRoots commits) filter trees omissions
      ∧ (∀ object, object ∈ objects ↔
          object.oid ∈ commits ∧ object.objectType = .commit ∨ object ∈ trees)
      ∧ objects.Pairwise fun left right => compareObjectIds left right = .lt := by
  obtain ⟨-, trees, hlists, rfl⟩ := collectObjects_eq_ok.mp h
  have hexact := collectObjectFrontier_exact hlists
  refine ⟨trees, hexact, fun object => ?_, sortObjects_sorted ?_⟩
  · rw [mem_sortObjects, mem_append, mem_commitIds]
  · refine nodup_append.mpr ⟨commitIds_nodup, ?_, ?_⟩
    · exact hexact.objects_sorted.imp fun {left right} hlt heq => by
        rw [compareObjectIds_eq_eq.mpr heq] at hlt
        cases hlt
    · rintro object hcommit object' htree rfl
      refine hdisj object.oid (mem_commitIds.mp hcommit).1 ((hexact.complete _).mpr ?_)
      exact mem_append_left _ (mem_map_of_mem htree)

end Commits

/-! ### Small repositories -/

/-- The identity with that number. -/
@[irreducible] def numbered (n : ℕ) : AnyGitOid :=
  ⟨.sha1, bigEndian 20 n, length_bigEndian 20 n⟩

@[irreducible] def number (oid : AnyGitOid) : ℕ := ofBigEndian oid.bytes

theorem number_numbered {n : ℕ} (h : n < 256 ^ 20) : number (numbered n) = n := by
  unfold number numbered
  exact ofBigEndian_bigEndian_of_lt h

/-- A repository of listed objects. -/
def listed (objects : List (AnyGitOid × ClosureObject)) : ObjectClosureRepository where
  objectFormat := .sha1
  object := fun oid =>
    match objects.lookup oid with
    | some object => .ok object
    | none => .error (.inconsistentGraph oid)

/-- The objects that an object refers to. -/
def references : ClosureObject → List AnyGitOid
  | .commit node => node.parents ++ [node.tree]
  | .tree entries => (entries.filter fun entry => !entry.isGitlink).map ClosureTreeEntry.oid
  | .blob _ => []
  | .tag target => [target]

theorem map_children (oid : AnyGitOid) (depth : ℕ) (object : ClosureObject) :
    (children oid depth object).map fst = references object := by
  cases object with
  | commit node =>
    rw [children, references, map_append, List.map_map]
    exact congrArg (· ++ [node.tree]) (map_id _)
  | tree entries =>
    rw [children, references, List.map_map]
    rfl
  | blob size | tag target => rfl

section Listed

variable {objects : List (AnyGitOid × ClosureObject)} {roots : List (AnyGitOid × Option AnyGitOid)}
  {oid : AnyGitOid} {object : ClosureObject}

theorem listed_eq_ok :
    (listed objects).object oid = .ok object ↔ objects.lookup oid = some object := by
  simp only [listed]
  split
  · next found hfound => simp [hfound]
  · next hnone => simp [hnone]

theorem mem_of_listed (h : (listed objects).object oid = .ok object) : (oid, object) ∈ objects := by
  obtain ⟨before, after, rfl, -⟩ := lookup_eq_some_iff.mp (listed_eq_ok.mp h)
  exact mem_append_right _ mem_cons_self

/-- Roots and references are listed. -/
structure Closed (objects : List (AnyGitOid × ClosureObject))
    (roots : List (AnyGitOid × Option AnyGitOid)) : Prop where
  roots : ∀ root ∈ roots, root.1 ∈ objects.map fst
  references : ∀ entry ∈ objects, ∀ reference ∈ references entry.2, reference ∈ objects.map fst

variable (hclosed : Closed objects roots)
include hclosed

/-- What is closed leads to nothing else. -/
theorem Closed.mem (h : Reachable (listed objects) roots oid) : oid ∈ objects.map fst := by
  obtain ⟨parent, depth, hreach⟩ := h
  have harrives : ∀ {oid label},
    Relax.Arrives (Leads (listed objects)) (RootLabel roots) oid label →
      oid ∈ objects.map fst := by
    intro oid label h
    induction h with
    | root h => exact hclosed.roots _ h.1
    | step _ hleads _ =>
      obtain ⟨object, hobj, hchild⟩ := hleads
      refine hclosed.references _ (mem_of_listed hobj) _ ?_
      rw [← map_children]
      exact mem_map_of_mem hchild
  exact @harrives oid (parent, depth) (arrives_iff.mpr hreach)

theorem Closed.readable
    (hfmt : ∀ entry ∈ objects, entry.1.algorithm = .sha1) : Readable (listed objects) roots := by
  intro oid hreachable
  obtain ⟨entry, hmem, rfl⟩ := mem_map.mp (hclosed.mem hreachable)
  refine ⟨hfmt entry hmem, ?_⟩
  have hfound : (objects.lookup entry.1).isSome :=
    lookup_isSome_iff.mpr ⟨entry, hmem, beq_self_eq_true _⟩
  obtain ⟨object, hobj⟩ := isSome_iff_exists.mp hfound
  exact ⟨object, listed_eq_ok.mpr hobj⟩

theorem Closed.depthsFit (hfew : objects.length < 2 ^ 32) : DepthsFit (listed objects) roots := by
  refine .inr (LE.le.trans_lt ?_ hfew)
  calc _ ≤ ((objects.map fst).toFinset : Set AnyGitOid).ncard :=
        Set.ncard_le_ncard fun oid h => mem_toFinset.mpr (hclosed.mem h)
    _ = (objects.map fst).toFinset.card := Set.ncard_coe_finset _
    _ ≤ (objects.map fst).length := toFinset_card_le _
    _ = objects.length := length_map _

end Listed

section Nested

/-- A tree that holds the tree with the number below. -/
def nestedEntries : ℕ → List ClosureTreeEntry
  | 0 => []
  | n + 1 => [⟨numbered n, .tree⟩]

def nestedTrees : ObjectClosureRepository where
  objectFormat := .sha1
  object := fun oid => .ok (.tree (nestedEntries (number oid)))

variable {top depth : ℕ} {oid : AnyGitOid} {parent : Option AnyGitOid}

theorem nestedTrees_object {object : ClosureObject} (h : nestedTrees.object oid = .ok object) :
    object = .tree (nestedEntries (number oid)) :=
  (Except.ok.inj h).symm

/-- A tree of the nest is reached at one depth. -/
theorem nestedTrees_depth (htop : top < 256 ^ 20)
    (h : Reaches nestedTrees [(numbered top, none)] oid parent depth) :
    depth ≤ top ∧ oid = numbered (top - depth) := by
  induction h with
  | root h =>
    obtain ⟨rfl, -⟩ := mk.inj (mem_singleton.mp h)
    exact ⟨zero_le _, rfl⟩
  | tree _ hobj _ | parent _ hobj _ _ | target _ hobj _ => cases nestedTrees_object hobj
  | @entry oid parent depth entries entry _ hobj hmem _ ih =>
    obtain ⟨hle, rfl⟩ := ih
    obtain rfl := ClosureObject.tree.inj (nestedTrees_object hobj)
    rw [number_numbered (by omega)] at hmem
    cases hrest : top - depth with
    | zero =>
      rw [hrest] at hmem
      cases hmem
    | succ n =>
      rw [hrest] at hmem
      rw [mem_singleton.mp hmem]
      refine ⟨by omega, congrArg numbered ?_⟩
      omega

theorem nestedTrees_reaches (htop : top < 256 ^ 20) (hdepth : depth ≤ top) :
    ∃ parent, Reaches nestedTrees [(numbered top, none)] (numbered (top - depth)) parent depth := by
  induction depth with
  | zero => exact ⟨none, .root (mem_singleton_self _)⟩
  | succ depth ih =>
    obtain ⟨parent, hreach⟩ := ih (by omega)
    have hentry : (⟨numbered (top - (depth + 1)), .tree⟩ : ClosureTreeEntry)
        ∈ nestedEntries (number (numbered (top - depth))) := by
      rw [number_numbered (by omega), show top - depth = top - (depth + 1) + 1 by omega]
      exact mem_singleton_self _
    exact ⟨_, .entry hreach rfl hentry rfl⟩

end Nested

/-- Every tree that was taken could be expanded. -/
def Expanded (s : Walk) : Prop :=
  ∀ (oid : AnyGitOid) (path : ObjectPath), s.paths[oid]? = some path →
    path.object.objectType = .tree → path.depth + 1 < 2 ^ 32

theorem expanded_of_drain {frontier : List (AnyGitOid × Label)} {s : Walk}
    (h : drain (follow_lowers repository limits) {} frontier = .ok s) : Expanded s := by
  refine drain_keeps (follow_lowers repository limits) (P := fun s _ => Expanded s) ?_ h ?_
  · rintro s ⟨oid, label⟩ rest s' stack hexp hfollow
    obtain ⟨-, ⟨_, -, -, hnext⟩ | ⟨-, -, object, -, expanded, hexpand, hnext⟩⟩ :=
      follow_eq_ok.mp hfollow
    · cases hnext
      exact hexp
    · cases hnext
      intro other path hpath htree
      rw [BTree.get_insert] at hpath
      split_ifs at hpath
      · cases hpath
        exact ((expandObject_eq_ok.mp hexpand).1 htree).2
      · exact hexp other path hpath htree
  · intro oid path hpath
    cases hpath

/-- Trees nested as deep as a depth can count are refused under any limits. -/
theorem nestedTrees_refused {filter : Option ObjectFilter} :
    collectObjectFrontier nestedTrees filter limits (rootFrontier [(numbered (2 ^ 32 - 1), none)])
      ≠ .ok lists := by
  intro hok
  have htop : 2 ^ 32 - 1 < 256 ^ 20 := by norm_num
  obtain ⟨s, hdrain, hinv, -⟩ := exists_walkInv hok
  obtain ⟨parent, hreach⟩ := nestedTrees_reaches htop (le_refl (2 ^ 32 - 1))
  obtain ⟨path, hpath⟩ := hinv.reachable_iff.mp ⟨parent, _, hreach⟩
  obtain ⟨hfact, hrecorded⟩ := hinv.recorded hpath
  obtain ⟨hle, heq⟩ := nestedTrees_depth htop hrecorded.1
  have hzero := congrArg number heq
  rw [Nat.sub_self, number_numbered (by norm_num), number_numbered (by omega)] at hzero
  have hfits := expanded_of_drain hdrain _ path hpath (by rw [nestedTrees_object hfact]; rfl)
  omega

section Misfiled

def commitOid : AnyGitOid := .filled .sha1 1
def treeOid : AnyGitOid := .filled .sha1 2
def blobOid : AnyGitOid := .filled .sha1 3

def rootCommit : CommitNode := ⟨treeOid, [], 0⟩

/-- A commit whose tree holds the commit as if it were a blob. -/
def misfiled : List (AnyGitOid × ClosureObject) :=
  [(commitOid, .commit rootCommit), (treeOid, .tree [⟨commitOid, .blob⟩])]

def oneCommit : BTreeMap AnyGitOid CommitNode :=
  (∅ : BTreeMap AnyGitOid CommitNode).insert commitOid rootCommit

variable {roots : List (AnyGitOid × Option AnyGitOid)}

theorem misfiled_closed (hroots : ∀ root ∈ roots, root.1 = treeOid) : Closed misfiled roots where
  roots := by
    intro root hmem
    rw [hroots root hmem]
    decide
  references := by decide

theorem exists_misfiled (hroots : ∀ root ∈ roots, root.1 = treeOid) :
    ∃ bound, ∀ limits : ClosureLimits, bound ≤ limits.maxObjects → bound ≤ limits.maxEdges →
      ∃ objects omissions, collectObjectFrontier (listed misfiled) none limits (rootFrontier roots)
        = .ok (objects, omissions) := by
  have hclosed := misfiled_closed hroots
  exact exists_collectObjectFrontier (hclosed.readable (by decide)) (hclosed.depthsFit (by decide))
    none

/-- Without a filter everything is selected. -/
theorem Exact.mem_selected {objects : List ClosureObjectId} {omissions : List PromisorOmission}
    {oid : AnyGitOid} (h : Exact repository roots none objects omissions)
    (hreachable : Reachable repository roots oid) : oid ∈ objects.map ClosureObjectId.oid := by
  rcases mem_append.mp ((h.complete oid).mp hreachable) with hmem | hmem
  · exact hmem
  · obtain ⟨omission, homission, rfl⟩ := mem_map.mp hmem
    obtain ⟨_, -, -, -, _, hnone, -⟩ := h.omitted omission homission
    cases hnone

theorem mem_treeRoots {commits : BTreeMap AnyGitOid CommitNode}
    {root : AnyGitOid × Option AnyGitOid} :
    root ∈ treeRoots commits ↔ ∃ oid node, commits[oid]? = some node ∧
      (node.tree, some oid) = root := by
  simp only [treeRoots, mem_reverse, List.mem_map, Prod.exists, mem_toList_iff_getElem?_eq_some]

theorem mem_treeRoots_oneCommit {root : AnyGitOid × Option AnyGitOid} :
    root ∈ treeRoots oneCommit ↔ root = (treeOid, some commitOid) := by
  simp only [mem_treeRoots, oneCommit, BTree.get_insert, getElem?_empty]
  aesop

/-- The commit is reached through its tree. -/
theorem reachable_misfiled : Reachable (listed misfiled) (treeRoots oneCommit) commitOid := by
  have hroot : Reaches (listed misfiled) (treeRoots oneCommit) treeOid (some commitOid) 0 :=
    .root (mem_treeRoots_oneCommit.mpr rfl)
  have htree : (listed misfiled).object treeOid = .ok (.tree [⟨commitOid, .blob⟩]) :=
    listed_eq_ok.mpr (by rfl)
  exact ⟨_, _, .entry hroot htree (mem_singleton_self _) rfl⟩

end Misfiled

/-! ### Main result -/

/-- **The objects of a closure are split exactly.**  With enough room the
collection succeeds.  Whenever it does, its lists are exact, depend on no order
of roots, parents and entries, and a pack passes the check when each of its
objects was selected.  So do the objects of selected commits, whose trees are
the roots, unless a tree leads to one of these commits. -/
theorem object_selection_exact (repository : ObjectClosureRepository)
    (roots : List (AnyGitOid × Option AnyGitOid)) (filter : Option ObjectFilter)
    (hreadable : Readable repository roots)
    (hfit : DepthsFit repository roots) :
    (∃ bound, ∀ limits : ClosureLimits, bound ≤ limits.maxObjects → bound ≤ limits.maxEdges →
      ∃ objects omissions,
        collectObjectFrontier repository filter limits (rootFrontier roots)
          = .ok (objects, omissions))
      ∧ (∀ limits objects omissions,
        collectObjectFrontier repository filter limits (rootFrontier roots)
          = .ok (objects, omissions) →
        Exact repository roots filter objects omissions
          ∧ (∀ repository' roots' limits' lists', Reordered repository repository' →
              (∀ root, root ∈ roots ↔ root ∈ roots') →
              collectObjectFrontier repository' filter limits' (rootFrontier roots') = .ok lists' →
              lists' = (objects, omissions))
          ∧ ∀ (closure : PackClosure) (emitted : List ClosureObjectId), closure.objects = objects →
              (closure.verifyPackObjects emitted = .ok () ↔ ∀ object ∈ emitted, object ∈ objects))
      ∧ ∀ commits limits objects omissions, treeRoots commits = roots →
        (∀ oid ∈ commits, ¬ Reachable repository roots oid) →
        collectObjects repository filter limits commits = .ok (objects, omissions) →
        (∃ trees, Exact repository roots filter trees omissions
          ∧ ∀ object, object ∈ objects ↔
              object.oid ∈ commits ∧ object.objectType = .commit ∨ object ∈ trees)
          ∧ objects.Pairwise (fun left right => compareObjectIds left right = .lt)
          ∧ ∀ (closure : PackClosure) (emitted : List ClosureObjectId), closure.objects = objects →
              (closure.verifyPackObjects emitted = .ok () ↔
                ∀ object ∈ emitted, object ∈ objects) := by
  refine ⟨exists_collectObjectFrontier hreadable hfit filter, ?_, ?_⟩
  · intro limits objects omissions hok
    have hexact := collectObjectFrontier_exact hok
    refine ⟨hexact, fun repository' roots' limits' lists' hreord hroots hok' => ?_, ?_⟩
    · exact (hreord.lists_eq hroots hok hok').symm
    · rintro closure emitted rfl
      exact verifyPackObjects_iff hexact.objects_sorted
  · rintro commits limits objects omissions rfl hdisj hok
    obtain ⟨trees, hexact, hmem, hsorted⟩ := collectObjects_exact hdisj hok
    refine ⟨⟨trees, hexact, hmem⟩, hsorted, ?_⟩
    rintro closure emitted rfl
    exact verifyPackObjects_iff hsorted

/-- A tree with a blob and a link to another repository. -/
def oneTree : List (AnyGitOid × ClosureObject) :=
  [(treeOid, .tree [⟨blobOid, .blob⟩, ⟨commitOid, .commit⟩]), (blobOid, .blob 10)]

theorem object_selection_exact_oneTree :
    ∃ limits objects omissions,
      collectObjectFrontier (listed oneTree) (some (.blobLimit 10)) limits
        (rootFrontier [(treeOid, none)])
          = .ok (objects, omissions)
        ∧ Exact (listed oneTree) [(treeOid, none)] (some (.blobLimit 10)) objects omissions := by
  have hclosed : Closed oneTree [(treeOid, none)] := by
    constructor <;> decide
  obtain ⟨⟨bound, hbound⟩, hexact, -⟩ := object_selection_exact (listed oneTree) [(treeOid, none)]
    (some (.blobLimit 10)) (hclosed.readable (by decide)) (hclosed.depthsFit (by decide))
  obtain ⟨objects, omissions, hok⟩ := hbound ⟨0, bound, bound⟩ le_rfl le_rfl
  exact ⟨_, objects, omissions, hok, (hexact _ _ _ hok).1⟩

/-- The empty pack passes the check although an object was selected; trees
nested too deep are refused; and a commit that a tree holds is listed twice. -/
theorem empty_pack_accepted :
    (∃ limits objects omissions,
      collectObjectFrontier (listed misfiled) none limits (rootFrontier [(treeOid, none)])
          = .ok (objects, omissions)
        ∧ objects ≠ [] ∧ ∀ closure : PackClosure, closure.objects = objects →
          closure.verifyPackObjects [] = .ok ())
      ∧ (∀ limits lists, collectObjectFrontier nestedTrees none limits
          (rootFrontier [(numbered (2 ^ 32 - 1), none)]) ≠ .ok lists)
      ∧ ∃ limits objects omissions,
        collectObjects (listed misfiled) none limits oneCommit = .ok (objects, omissions)
          ∧ ¬ (objects.map ClosureObjectId.oid).Nodup := by
  refine ⟨?_, fun _ _ => nestedTrees_refused, ?_⟩
  · have hroots : ∀ root ∈ [(treeOid, (none : Option AnyGitOid))], root.1 = treeOid :=
      forall_mem_singleton.mpr rfl
    obtain ⟨bound, hbound⟩ := exists_misfiled hroots
    obtain ⟨objects, omissions, hok⟩ := hbound ⟨0, bound, bound⟩ le_rfl le_rfl
    refine ⟨_, objects, omissions, hok, fun hnil => ?_, fun _ _ => rfl⟩
    have hmem := (collectObjectFrontier_exact hok).mem_selected
      ⟨none, 0, .root (mem_singleton_self _)⟩
    rw [hnil] at hmem
    cases hmem
  · have hroots : ∀ root ∈ treeRoots oneCommit, root.1 = treeOid := by
      intro root hmem
      rw [mem_treeRoots_oneCommit.mp hmem]
    obtain ⟨bound, hbound⟩ := exists_misfiled hroots
    obtain ⟨trees, omissions, hok⟩ := hbound ⟨0, bound + oneCommit.size, bound⟩
      (le_add_right _ _) le_rfl
    refine ⟨_, _, omissions, collectObjects_eq_ok.mpr ⟨le_add_left _ _, trees, hok, rfl⟩, ?_⟩
    have hsorted := (perm_insertionSort
      (fun left right => (compareObjectIds left right).isLE = true)
        (commitIds oneCommit ++ trees)).map
      ClosureObjectId.oid
    intro hnodup
    have happ := hsorted.nodup_iff.mp hnodup
    rw [map_append, nodup_append] at happ
    have hcommit : (⟨commitOid, .commit⟩ : ClosureObjectId) ∈ commitIds oneCommit := by
      refine mem_commitIds.mpr ⟨?_, rfl⟩
      rw [oneCommit, mem_insert]
      exact .inl (compare_eq_iff_eq.mpr rfl)
    exact happ.2.2 commitOid (mem_map_of_mem hcommit) commitOid
      ((collectObjectFrontier_exact hok).mem_selected reachable_misfiled) rfl

end Frankengit.Wire.Closure
