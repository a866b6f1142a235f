/-
Frankengit/Wire/Visibility.lean

Hidden refs (crate `fgit-wire`, `visibility.rs`).  A policy is a list of hide
and unhide rules; the view of a repository withholds every ref whose name, or
a name it stands for, is hidden.

A symbolic ref stands for its target and a peeled record for its base.  The
source propagates hiding backwards along these edges with a worklist
(`hiddenNames`, an instance of `Saturate`); the maps it keeps are modelled by
what they answer.
-/
import Frankengit.Lib.Saturate
import Frankengit.Wire.Request

namespace Frankengit.Wire

open Fallible Relation List Option AdvertisedRef Saturate Bool ReflTransGen

/-! ### Policies -/

structure VisibilityRule where
  pattern : Bytes
  negated : Bool

structure RefVisibility where
  rules : List VisibilityRule

namespace RefVisibility

def pushRule (visibility : RefVisibility) (rule : Bytes) (limits : WireLimits) :
    Except WireError RefVisibility := do
  refuseIf (limits.maxRefPrefixes ≤ visibility.rules.length)
    (.tooManyObjectIds "visibility rule" limits.maxRefPrefixes)
  let negated := (rule.dropPrefix? (ascii "!")).isSome
  let pattern ← parseRefName ((rule.dropPrefix? (ascii "!")).getD rule) limits
  return ⟨visibility.rules ++ [⟨pattern, negated⟩]⟩

/-- The pattern is the name, or what stands before one of its slashes. -/
def patternMatches (pattern name : Bytes) : Bool :=
  pattern.isPrefixOf name && (name.length = pattern.length || name[pattern.length]? = some 0x2f)

/-- The name a peeled record belongs to; any other name itself. -/
def stripPeel (name : Bytes) : Bytes := (name.dropSuffix? peelSuffix).getD name

/-- The last rule that matches decides. -/
def hides (visibility : RefVisibility) (name : Bytes) : Bool :=
  visibility.rules.foldl
    (fun hidden rule => if patternMatches rule.pattern (stripPeel name) then !rule.negated
      else hidden)
    false

end RefVisibility

/-! ### The view -/

namespace VisibleUploadPackRepository

variable (inner : UploadPackRepository) (visibility : RefVisibility)

/-- The names that stand for `name`: its peeled record and its aliases. -/
def dependents (name : Bytes) : List Bytes :=
  inner.advertisedRefs.flatMap fun reference =>
    (if reference.name.dropSuffix? peelSuffix = some name then [reference.name] else [])
      ++ if inner.symrefTarget reference.name = some name then [reference.name] else []

/-- Advertised names and targets that the policy hides, in the order in which
they are met. -/
def hiddenSeeds : List Bytes :=
  inner.advertisedRefs.flatMap fun reference =>
    (reference.name :: (inner.symrefTarget reference.name).toList).filter visibility.hides

/-- Names that are hidden, or stand for a hidden name. -/
def hiddenNames : Finset Bytes :=
  let (hidden, pending) := mark ∅ [] (hiddenSeeds inner visibility)
  saturate (dependents inner) (2 * inner.advertisedRefs.length) hidden pending

/-- The identities that refs disclose: their own and the peeled one. -/
def tips (refs : List AdvertisedRef) : List AnyGitOid :=
  refs.flatMap fun reference => reference.oid :: (inner.peeled reference.oid).toList

def visible : List AdvertisedRef :=
  inner.advertisedRefs.filter fun reference => reference.name ∉ hiddenNames inner visibility

def hidden : List AdvertisedRef :=
  inner.advertisedRefs.filter fun reference => reference.name ∈ hiddenNames inner visibility

def hiddenOnlyTips : List AnyGitOid :=
  (tips inner (hidden inner visibility)).filter fun oid => oid ∉ tips inner
  (visible inner visibility)

/-- Whether the view may confirm an identity. -/
def disclosable (oid : AnyGitOid) : Bool :=
  oid ∉ hiddenOnlyTips inner visibility || oid ∈ tips inner (visible inner visibility)

def headName : Bytes := ascii "HEAD"

def unbornTarget : Option Bytes :=
  inner.unbornSymrefTarget.filter fun target =>
    !visibility.hides headName && !visibility.hides target
      && headName ∉ hiddenNames inner visibility && target ∉ hiddenNames inner visibility

/-- The repository that discloses what the policy permits. -/
def view : UploadPackRepository where
  objectFormat := inner.objectFormat
  advertisedRefs := visible inner visibility
  containsWant := fun oid => disclosable inner visibility oid && inner.containsWant oid
  isCommon := fun oid => disclosable inner visibility oid && inner.isCommon oid
  resolveRef := fun name =>
    ((visible inner visibility).find? fun reference => reference.name = name).map oid
  symrefTarget := fun name =>
    if name ∈ (visible inner visibility).map AdvertisedRef.name then
      inner.symrefTarget name else none
  unbornSymrefTarget := unbornTarget inner visibility
  peeled := fun oid =>
    if oid ∈ (visible inner visibility).map AdvertisedRef.oid then inner.peeled oid else none

/-! ### What hiding means -/

/-- A name stands for another: an alias for its target, a peeled record for
its base. -/
def StandsFor (name other : Bytes) : Prop :=
  name ∈ inner.advertisedRefs.map AdvertisedRef.name
    ∧ (inner.symrefTarget name = some other ∨ name = other ++ peelSuffix)

/-- Some name on the chain is hidden by the policy. -/
def Concealed (name : Bytes) : Prop :=
  ∃ other, ReflTransGen (StandsFor inner) name other ∧ visibility.hides other

open Classical in
/-- The refs with nothing hidden on their chain. -/
noncomputable def exposedRefs : List AdvertisedRef :=
  inner.advertisedRefs.filter fun reference => ¬ Concealed inner visibility reference.name

/-- The identity is the tip of the ref, or what the tip peels to. -/
def Discloses (reference : AdvertisedRef) (oid : AnyGitOid) : Prop :=
  reference.oid = oid ∨ inner.peeled reference.oid = some oid

/-- Concealed refs disclose the identity and no exposed ref does. -/
def HiddenOnly (oid : AnyGitOid) : Prop :=
  (∃ reference ∈ inner.advertisedRefs, Concealed inner visibility reference.name
      ∧ Discloses inner reference oid)
    ∧ ∀ reference ∈ inner.advertisedRefs, ¬ Concealed inner visibility reference.name →
      ¬ Discloses inner reference oid

/-- No query returns or confirms a concealed name or a hidden-only identity. -/
structure Withheld (shown : UploadPackRepository) : Prop where
  refs : ∀ reference ∈ shown.advertisedRefs,
    ¬ Concealed inner visibility reference.name ∧ ¬ HiddenOnly inner visibility reference.oid
  resolve : ∀ name oid, shown.resolveRef name = some oid →
    ¬ Concealed inner visibility name ∧ ¬ HiddenOnly inner visibility oid
  symref : ∀ name target, shown.symrefTarget name = some target →
    ¬ Concealed inner visibility name ∧ ¬ Concealed inner visibility target
  unborn : ∀ target, shown.unbornSymrefTarget = some target →
    ¬ Concealed inner visibility headName ∧ ¬ Concealed inner visibility target
  peeled : ∀ oid target, shown.peeled oid = some target →
    ¬ HiddenOnly inner visibility oid ∧ ¬ HiddenOnly inner visibility target
  want : ∀ oid, shown.containsWant oid = true → ¬ HiddenOnly inner visibility oid
  common : ∀ oid, shown.isCommon oid = true → ¬ HiddenOnly inner visibility oid

/-- `censored` is the repository without its concealed refs: it denies the
hidden-only identities and answers as before about everything else. -/
structure Censored (censored : UploadPackRepository) : Prop where
  format : censored.objectFormat = inner.objectFormat
  refs : censored.advertisedRefs = exposedRefs inner visibility
  want_hidden : ∀ oid, HiddenOnly inner visibility oid → censored.containsWant oid = false
  want : ∀ oid, ¬ HiddenOnly inner visibility oid →
    censored.containsWant oid = inner.containsWant oid
  common_hidden : ∀ oid, HiddenOnly inner visibility oid → censored.isCommon oid = false
  common : ∀ oid, ¬ HiddenOnly inner visibility oid → censored.isCommon oid = inner.isCommon oid
  symref : ∀ reference ∈ exposedRefs inner visibility,
    censored.symrefTarget reference.name = inner.symrefTarget reference.name
  peeled : ∀ reference ∈ exposedRefs inner visibility,
    censored.peeled reference.oid = inner.peeled reference.oid
  unborn : censored.unbornSymrefTarget = inner.unbornSymrefTarget
  unborn_new : ∀ target, inner.unbornSymrefTarget = some target →
    ∀ reference ∈ inner.advertisedRefs, reference.name ≠ headName ∧ reference.name ≠ target

/-- The base of a peeled record is no peeled record. -/
def PlainBases : Prop :=
  ∀ reference ∈ inner.advertisedRefs, ∀ base, reference.name = base ++ peelSuffix →
    ¬ peelSuffix <:+ base

/-! ### The worklist finds the concealed names -/

variable {inner : UploadPackRepository} {visibility : RefVisibility} {name other : Bytes}

theorem dropSuffix_peel :
    name.dropSuffix? peelSuffix = some other ↔ name = other ++ peelSuffix := by
  simp [dropSuffix?_eq_some_iff]

theorem mem_dependents : name ∈ dependents inner other ↔ StandsFor inner name other := by
  simp only [dependents, mem_flatMap, mem_append, mem_ite_nil_right, mem_singleton, dropSuffix_peel,
    StandsFor, List.mem_map]
  aesop

theorem mem_hiddenSeeds : name ∈ hiddenSeeds inner visibility ↔
    visibility.hides name ∧ ∃ reference ∈ inner.advertisedRefs,
      reference.name = name ∨ inner.symrefTarget reference.name = some name := by
  simp only [hiddenSeeds, mem_flatMap, mem_filter, mem_cons, mem_toList, eq_comm (a := name)]
  aesop

/-- The names that the worklist can meet. -/
def nodes (inner : UploadPackRepository) : List Bytes :=
  inner.advertisedRefs.map AdvertisedRef.name
    ++ inner.advertisedRefs.filterMap fun reference => inner.symrefTarget reference.name

theorem length_nodes_le : (nodes inner).length ≤ 2 * inner.advertisedRefs.length := by
  have htgts := length_filterMap_le
    (fun reference => inner.symrefTarget reference.name) inner.advertisedRefs
  rw [nodes, length_append, length_map]
  omega

theorem mem_nodes_of_mem_hiddenSeeds (h : name ∈ hiddenSeeds inner visibility) :
    name ∈ nodes inner := by
  obtain ⟨-, reference, hmem, rfl | htgt⟩ := mem_hiddenSeeds.mp h
  · exact mem_append_left _ (mem_map_of_mem hmem)
  · exact mem_append_right _ (mem_filterMap.mpr ⟨reference, hmem, htgt⟩)

theorem mem_hiddenNames : name ∈ hiddenNames inner visibility ↔
    ∃ seed ∈ hiddenSeeds inner visibility, ReflTransGen (StandsFor inner) name seed := by
  have hcard := (toFinset_card_le (nodes inner)).trans length_nodes_le
  refine (mem_saturate_mark hcard (fun a ha => ?_) fun a b hb => ?_).trans ?_
  · exact mem_toFinset.mpr (mem_nodes_of_mem_hiddenSeeds ha)
  · exact mem_toFinset.mpr (mem_append_left _ (mem_dependents.mp hb).1)
  · simp only [mem_dependents]
    exact exists_congr fun a => and_congr_right fun _ => reflTransGen_swap

/-- A peeled record and its base get one decision. -/
theorem hides_append_peel (h : ¬ peelSuffix <:+ name) :
    visibility.hides (name ++ peelSuffix) = visibility.hides name := by
  have hrec : RefVisibility.stripPeel (name ++ peelSuffix) = name := by
    rw [RefVisibility.stripPeel, dropSuffix_peel.mpr rfl, getD_some]
  have hbase : RefVisibility.stripPeel name = name := by
    rw [RefVisibility.stripPeel]
    cases hdrop : name.dropSuffix? peelSuffix with
    | none => rfl
    | some stem => exact absurd ⟨stem, (dropSuffix_peel.mp hdrop).symm⟩ h
  rw [RefVisibility.hides, RefVisibility.hides, hrec, hbase]

theorem mem_hiddenNames_of_hides (hmem : name ∈ inner.advertisedRefs.map AdvertisedRef.name)
    (hhides : visibility.hides name) : name ∈ hiddenNames inner visibility := by
  obtain ⟨reference, href, rfl⟩ := mem_map.mp hmem
  exact mem_hiddenNames.mpr ⟨_, mem_hiddenSeeds.mpr ⟨hhides, reference, href, .inl rfl⟩, .refl⟩

/-- **The worklist marks the concealed names**, but for names that nothing
advertised leads to. -/
theorem concealed_iff (hplain : PlainBases inner) :
    Concealed inner visibility name ↔ name ∈ hiddenNames inner visibility ∨
      visibility.hides name := by
  constructor
  · rintro ⟨other, hpath, hhides⟩
    -- the last step of the chain says why its end is a seed
    rcases cases_tail hpath with rfl | ⟨before, hbefore, hmem, htgt | rfl⟩
    · exact .inr hhides
    · obtain ⟨reference, href, rfl⟩ := mem_map.mp hmem
      refine .inl (mem_hiddenNames.mpr ⟨other, ?_, hpath⟩)
      exact mem_hiddenSeeds.mpr ⟨hhides, reference, href, .inr htgt⟩
    · obtain ⟨reference, href, hname⟩ := mem_map.mp hmem
      refine .inl (mem_hiddenNames.mpr ⟨_, ?_, hbefore⟩)
      refine mem_hiddenSeeds.mpr ⟨?_, reference, href, .inl hname⟩
      rwa [hides_append_peel (hplain reference href other hname)]
  · rintro (hmem | hhides)
    · obtain ⟨seed, hseed, hpath⟩ := mem_hiddenNames.mp hmem
      exact ⟨seed, hpath, (mem_hiddenSeeds.mp hseed).1⟩
    · exact ⟨name, .refl, hhides⟩

theorem concealed_iff_mem (hplain : PlainBases inner)
    (hmem : name ∈ inner.advertisedRefs.map AdvertisedRef.name) :
    Concealed inner visibility name ↔ name ∈ hiddenNames inner visibility := by
  rw [concealed_iff hplain]
  exact or_iff_left_of_imp (mem_hiddenNames_of_hides hmem)

theorem visible_eq (hplain : PlainBases inner) :
    visible inner visibility = exposedRefs inner visibility := by
  refine filter_congr fun reference hmem => ?_
  rw [decide_eq_decide, concealed_iff_mem hplain (mem_map_of_mem hmem)]

theorem mem_exposedRefs {reference : AdvertisedRef} : reference ∈ exposedRefs inner visibility ↔
    reference ∈ inner.advertisedRefs ∧ ¬ Concealed inner visibility reference.name := by
  classical
  rw [exposedRefs, mem_filter, decide_eq_true_eq]

/-! ### The identities -/

variable {oid : AnyGitOid}

theorem mem_tips {refs : List AdvertisedRef} :
    oid ∈ tips inner refs ↔ ∃ reference ∈ refs, Discloses inner reference oid := by
  simp only [tips, mem_flatMap, mem_cons, mem_toList, Discloses, eq_comm]

theorem mem_hiddenOnlyTips (hplain : PlainBases inner) :
    oid ∈ hiddenOnlyTips inner visibility ↔ HiddenOnly inner visibility oid := by
  rw [hiddenOnlyTips, mem_filter, decide_eq_true_eq, mem_tips, mem_tips, visible_eq hplain]
  refine and_congr (exists_congr fun reference => ?_) ?_
  · have hconcealed (hmem : reference ∈ inner.advertisedRefs) :
        Concealed inner visibility reference.name ↔ _ :=
      concealed_iff_mem hplain (mem_map_of_mem hmem)
    rw [hidden, mem_filter, decide_eq_true_eq]
    tauto
  · simp [mem_exposedRefs]

/-- Only the hidden-only identities may not be confirmed. -/
theorem disclosable_iff (hplain : PlainBases inner) :
    disclosable inner visibility oid = true ↔ ¬ HiddenOnly inner visibility oid := by
  rw [disclosable, or_eq_true, decide_eq_true_eq, decide_eq_true_eq, mem_hiddenOnlyTips hplain]
  refine or_iff_left_of_imp fun htip honly => ?_
  rw [← mem_hiddenOnlyTips hplain, hiddenOnlyTips, mem_filter, decide_eq_true_eq] at honly
  exact honly.2 htip

theorem not_hiddenOnly {reference : AdvertisedRef} (hmem : reference ∈ exposedRefs inner visibility)
    (hdiscloses : Discloses inner reference oid) : ¬ HiddenOnly inner visibility oid := by
  obtain ⟨hmem, hexposed⟩ := mem_exposedRefs.mp hmem
  exact fun honly => honly.2 reference hmem hexposed hdiscloses

/-! ### Nothing concealed is shown -/

theorem view_withheld (hplain : PlainBases inner) :
    Withheld inner visibility (view inner visibility) where
  refs := by
    intro reference hmem
    rw [view, visible_eq hplain] at hmem
    exact ⟨(mem_exposedRefs.mp hmem).2, not_hiddenOnly hmem (.inl rfl)⟩
  resolve := by
    intro name oid h
    rw [view, visible_eq hplain] at h
    obtain ⟨reference, hfind, rfl⟩ := map_eq_some_iff.mp h
    have hmem := mem_of_find?_eq_some hfind
    have hname : decide (reference.name = name) = true :=
      find?_some (p := fun reference : AdvertisedRef => decide (reference.name = name)) hfind
    obtain rfl := of_decide_eq_true hname
    exact ⟨(mem_exposedRefs.mp hmem).2, not_hiddenOnly hmem (.inl rfl)⟩
  symref := by
    intro name target h
    rw [view, visible_eq hplain] at h
    obtain ⟨hlisted, htgt⟩ := ite_none_right_eq_some.mp h
    obtain ⟨reference, hmem, rfl⟩ := mem_map.mp hlisted
    obtain ⟨hadvertised, hexposed⟩ := mem_exposedRefs.mp hmem
    refine ⟨hexposed, fun ⟨other, hpath, hhides⟩ => hexposed ⟨other, ?_, hhides⟩⟩
    exact hpath.head ⟨mem_map_of_mem hadvertised, .inl htgt⟩
  unborn := by
    intro target h
    rw [concealed_iff hplain, concealed_iff hplain]
    obtain ⟨-, hfilter⟩ := filter_eq_some_iff.mp h
    simp only [and_eq_true, not_eq_true', decide_eq_true_eq] at hfilter
    obtain ⟨⟨⟨hhead, htgt⟩, hheadName⟩, htgtName⟩ := hfilter
    exact ⟨not_or.mpr ⟨hheadName, by simp [hhead]⟩, not_or.mpr ⟨htgtName, by simp [htgt]⟩⟩
  peeled := by
    intro oid target h
    rw [view, visible_eq hplain] at h
    obtain ⟨hlisted, htgt⟩ := ite_none_right_eq_some.mp h
    obtain ⟨reference, hmem, rfl⟩ := mem_map.mp hlisted
    exact ⟨not_hiddenOnly hmem (.inl rfl), not_hiddenOnly hmem (.inr htgt)⟩
  want := by
    intro oid h
    exact (disclosable_iff hplain).mp (and_eq_true_iff.mp h).1
  common := by
    intro oid h
    exact (disclosable_iff hplain).mp (and_eq_true_iff.mp h).1

/-- A name that is not advertised is marked only if it is hidden itself. -/
theorem hides_of_mem_hiddenNames (hnew : ∀ reference ∈ inner.advertisedRefs, reference.name ≠ name)
    (hmem : name ∈ hiddenNames inner visibility) : visibility.hides name := by
  obtain ⟨seed, hseed, hpath⟩ := mem_hiddenNames.mp hmem
  rcases cases_head hpath with rfl | ⟨next, ⟨hlisted, -⟩, -⟩
  · exact (mem_hiddenSeeds.mp hseed).1
  · obtain ⟨reference, href, hname⟩ := mem_map.mp hlisted
    exact absurd hname (hnew reference href)

/-- An unborn target that is not advertised is judged by the policy alone. -/
theorem unbornTarget_eq (hnew : ∀ target, inner.unbornSymrefTarget = some target →
      ∀ reference ∈ inner.advertisedRefs, reference.name ≠ headName ∧ reference.name ≠ target) :
    unbornTarget inner visibility = inner.unbornSymrefTarget.filter fun target =>
      !visibility.hides headName && !visibility.hides target := by
  cases hunborn : inner.unbornSymrefTarget with
  | none => rw [unbornTarget, hunborn, filter_none, filter_none]
  | some target =>
    have hhead : headName ∈ hiddenNames inner visibility → visibility.hides headName :=
      hides_of_mem_hiddenNames fun reference hmem => (hnew target hunborn reference hmem).1
    have htgt : target ∈ hiddenNames inner visibility → visibility.hides target :=
      hides_of_mem_hiddenNames fun reference hmem => (hnew target hunborn reference hmem).2
    rw [unbornTarget, hunborn, filter_some, filter_some]
    refine if_congr ?_ rfl rfl
    simp only [and_eq_true, not_eq_true', decide_eq_true_eq, ← not_eq_true]
    tauto

/-! ### The view of the censored repository -/

namespace Censored

variable {censored : UploadPackRepository} (h : Censored inner visibility censored)
include h

theorem plainBases (hplain : PlainBases inner) : PlainBases censored := by
  intro reference hmem
  rw [h.refs] at hmem
  exact hplain reference (mem_exposedRefs.mp hmem).1

theorem standsFor (hstep : StandsFor censored name other) : StandsFor inner name other := by
  obtain ⟨hlisted, hstep⟩ := hstep
  rw [h.refs] at hlisted
  obtain ⟨reference, hmem, rfl⟩ := mem_map.mp hlisted
  rw [h.symref reference hmem] at hstep
  exact ⟨mem_map_of_mem (mem_exposedRefs.mp hmem).1, hstep⟩

/-- Nothing is left to conceal. -/
theorem concealed (hconcealed : Concealed censored visibility name) :
    Concealed inner visibility name := by
  obtain ⟨other, hpath, hhides⟩ := hconcealed
  exact ⟨other, hpath.lift id fun _ _ => h.standsFor, hhides⟩

theorem exposedRefs_eq : exposedRefs censored visibility = exposedRefs inner visibility := by
  classical
  rw [exposedRefs, h.refs, filter_eq_self]
  intro reference hmem
  exact decide_eq_true fun hconcealed => (mem_exposedRefs.mp hmem).2 (h.concealed hconcealed)

theorem not_hiddenOnly : ¬ HiddenOnly censored visibility oid := by
  rintro ⟨⟨reference, hmem, hconcealed, -⟩, -⟩
  rw [h.refs] at hmem
  exact (mem_exposedRefs.mp hmem).2 (h.concealed hconcealed)

theorem unborn_eq : unbornTarget censored visibility = unbornTarget inner visibility := by
  rw [unbornTarget_eq h.unborn_new, unbornTarget_eq, h.unborn]
  intro target hunborn reference hmem
  rw [h.refs] at hmem
  rw [h.unborn] at hunborn
  exact h.unborn_new target hunborn reference (mem_exposedRefs.mp hmem).1

/-- A denied identity gets the answer it gets where it does not exist. -/
theorem answer_eq (hplain : PlainBases inner) {answer before : AnyGitOid → Bool}
    (hhidden : ∀ oid, HiddenOnly inner visibility oid → answer oid = false)
    (hsame : ∀ oid, ¬ HiddenOnly inner visibility oid → answer oid = before oid) :
    (fun oid => disclosable censored visibility oid && answer oid)
      = fun oid => disclosable inner visibility oid && before oid := by
  funext oid
  rw [(disclosable_iff (h.plainBases hplain)).mpr h.not_hiddenOnly, Bool.true_and]
  by_cases honly : HiddenOnly inner visibility oid
  · have hdenied : disclosable inner visibility oid = false := by
      rw [← not_eq_true, disclosable_iff hplain]
      exact not_not.mpr honly
    rw [hhidden oid honly, hdenied, Bool.false_and]
  · rw [hsame oid honly, (disclosable_iff hplain).mpr honly, Bool.true_and]

/-- **The view does not tell a concealed ref from an absent one.** -/
theorem view_eq (hplain : PlainBases inner) : view censored visibility = view inner visibility := by
  have hinner : visible inner visibility = exposedRefs inner visibility := visible_eq hplain
  have hcensored : visible censored visibility = exposedRefs inner visibility := by
    rw [visible_eq (h.plainBases hplain), h.exposedRefs_eq]
  ext1
  · exact h.format
  · exact hcensored.trans hinner.symm
  · exact h.answer_eq hplain h.want_hidden h.want
  · exact h.answer_eq hplain h.common_hidden h.common
  · rfl
  · rfl
  · funext name
    simp only [view, hcensored, hinner]
  · funext name
    simp only [view, hcensored, hinner]
    refine ite_congr rfl (fun hlisted => ?_) fun _ => rfl
    obtain ⟨reference, hmem, rfl⟩ := mem_map.mp hlisted
    exact h.symref reference hmem
  · exact h.unborn_eq
  · funext oid
    simp only [view, hcensored, hinner]
    refine ite_congr rfl (fun hlisted => ?_) fun _ => rfl
    obtain ⟨reference, hmem, rfl⟩ := mem_map.mp hlisted
    exact h.peeled reference hmem

end Censored

open Classical in
/-- The repository without its concealed refs. -/
noncomputable def censor (inner : UploadPackRepository) (visibility : RefVisibility) :
    UploadPackRepository :=
  { inner with
    advertisedRefs := exposedRefs inner visibility
    containsWant := fun oid => !decide (HiddenOnly inner visibility oid) && inner.containsWant oid
    isCommon := fun oid => !decide (HiddenOnly inner visibility oid) && inner.isCommon oid }

theorem censor_censored (hnew : ∀ target, inner.unbornSymrefTarget = some target →
      ∀ reference ∈ inner.advertisedRefs, reference.name ≠ headName ∧ reference.name ≠ target) :
    Censored inner visibility (censor inner visibility) where
  format := rfl
  refs := rfl
  want_hidden := fun oid honly => by simp [censor, honly]
  want := fun oid honly => by simp [censor, honly]
  common_hidden := fun oid honly => by simp [censor, honly]
  common := fun oid honly => by simp [censor, honly]
  symref := fun _ _ => rfl
  peeled := fun _ _ => rfl
  unborn := rfl
  unborn_new := hnew

/-- Names that the constructor of refs accepts are peeled at most once. -/
theorem plainBases_of_new (h : ∀ reference ∈ inner.advertisedRefs, ∃ oid name limits,
      new oid name limits = .ok reference) : PlainBases inner := by
  intro reference hmem base hname hsuffix
  obtain ⟨oid, text, limits, hnew⟩ := h reference hmem
  obtain ⟨name, hparse, hreturn⟩ := bind_eq_ok.mp hnew
  obtain rfl := pure_eq_ok.mp hreturn
  obtain rfl := (parseAdvertisedRefName_ok hparse).1
  obtain rfl : name = base ++ peelSuffix := hname
  -- the base went through the check of ref names, which forbids the caret
  unfold parseAdvertisedRefName at hparse
  split_ifs at hparse
  rw [dropSuffix_peel.mpr rfl, getD_some] at hparse
  obtain ⟨checked, hbase, -⟩ := bind_eq_ok.mp hparse
  have hcaret : (0x5e : UInt8) ∈ base := hsuffix.subset (by decide)
  exact (parseRefName_ok hbase).2 _ hcaret (by decide)

/-- **Hidden refs do not interfere.**  The exposed refs are, in their order,
those with nothing hidden on their chain; no query returns or confirms a
concealed name or an identity of concealed refs only; and without the
concealed refs the view would be the same. -/
theorem hidden_refs_noninterference (inner : UploadPackRepository) (visibility : RefVisibility)
    (hplain : PlainBases inner) :
    (view inner visibility).advertisedRefs = exposedRefs inner visibility
      ∧ Withheld inner visibility (view inner visibility)
      ∧ ∀ censored, Censored inner visibility censored →
          view censored visibility = view inner visibility :=
  ⟨visible_eq hplain, view_withheld hplain, fun _ h => h.view_eq hplain⟩

/-! ### A hidden target behind an alias, and a record peeled twice -/

/-- A repository with refs and aliases only. -/
def refsOnly (refs : List AdvertisedRef) (aliases : List (Bytes × Bytes)) :
    UploadPackRepository where
  objectFormat := .sha1
  advertisedRefs := refs
  containsWant := fun _ => true
  isCommon := fun _ => true
  symrefTarget := fun name => aliases.lookup name

def mainRef : AdvertisedRef := ⟨.filled .sha1 1, ascii "refs/heads/main"⟩
def aliasRef : AdvertisedRef := ⟨.filled .sha1 2, ascii "refs/heads/next"⟩
def secretRef : AdvertisedRef := ⟨.filled .sha1 2, ascii "refs/secret/next"⟩

/-- The policy of one hide rule. -/
def hidePattern (pattern : Bytes) : RefVisibility := ⟨[⟨pattern, false⟩]⟩

theorem hidden_refs_noninterference_alias :
    let inner := refsOnly [mainRef, aliasRef, secretRef] [(aliasRef.name, secretRef.name)]
    let visibility := hidePattern (ascii "refs/secret")
    (view inner visibility).advertisedRefs = [mainRef]
      ∧ (view inner visibility).containsWant (.filled .sha1 2) = false
      ∧ (view inner visibility).advertisedRefs = exposedRefs inner visibility
      ∧ view (censor inner visibility) visibility = view inner visibility := by
  intro inner visibility
  have hplain : PlainBases inner := by
    refine plainBases_of_new fun reference hmem => ⟨reference.oid, reference.name, {}, ?_⟩
    fin_cases hmem <;> rfl
  obtain ⟨hrefs, -, hcensored⟩ := hidden_refs_noninterference inner visibility hplain
  refine ⟨by decide +kernel, by decide +kernel, hrefs, hcensored _ (censor_censored ?_)⟩
  intro target hunborn
  exact absurd hunborn.symm (some_ne_none target)

/-- The name of a record that was peeled twice. -/
def nestedRef : AdvertisedRef := ⟨.filled .sha1 1, ascii "refs/a" ++ peelSuffix ++ peelSuffix⟩

def toRecordRef : AdvertisedRef := ⟨.filled .sha1 2, ascii "refs/b"⟩

/-- With `refs/a` hidden, a record peeled twice is shown although its base is
hidden; it is withheld once another ref is an alias of that base. -/
theorem nested_record_shown :
    let visibility := hidePattern (ascii "refs/a")
    let alone := refsOnly [nestedRef] []
    let aliased := refsOnly [nestedRef, toRecordRef]
      [(toRecordRef.name, ascii "refs/a" ++ peelSuffix)]
    RefVisibility.pushRule ⟨[]⟩ (ascii "refs/a") {} = .ok visibility
      ∧ Concealed alone visibility nestedRef.name
      ∧ nestedRef ∈ (view alone visibility).advertisedRefs
      ∧ nestedRef ∉ (view aliased visibility).advertisedRefs := by
  refine ⟨rfl, ⟨ascii "refs/a" ++ peelSuffix, .single ?_, by decide +kernel⟩, by decide +kernel,
    by decide +kernel⟩
  exact ⟨mem_singleton_self _, .inr rfl⟩

end VisibleUploadPackRepository

end Frankengit.Wire
