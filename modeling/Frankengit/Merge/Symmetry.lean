/-
Frankengit/Merge/Symmetry.lean

The content merge does not prefer a side.

The code takes ours first everywhere: in a turn, in a cluster, when two
changes stand at one place.  A cluster is the least range that is closed under
both sides (`closeCluster_least`), so the order in which it absorbs does not
matter, and changes that do not touch never stand at one place.  The two merges
then go through mirrored states (`Mirrored`); their outputs differ in the markers
only, which have the same length, so the limits treat them alike.
-/
import Frankengit.Merge.ThreeWay

namespace Frankengit.Merge

open Diff Fallible Alignment Patch List Change ContentMergeOutcome

/-- The same conflict from the other side. -/
def ContentConflict.swap (c : ContentConflict) : ContentConflict := ⟨c.base, c.theirs, c.ours⟩

def Cluster.swap (c : Cluster) : Cluster := ⟨c.range, c.theirs, c.ours, c.theirsRest, c.oursRest⟩

/-! ### Clusters are least -/

/-- The range holds the first changes, and the next one does not touch it. -/
structure Encloses (outer : ByteRange) (changesIn changesRest changes : List Change) : Prop where
  append : changesIn ++ changesRest = changes
  holds : ∀ c ∈ changesIn, outer.Holds c
  stops : ∀ c, changesRest.head? = some c → ¬ c.Touches outer

section Least

variable {range outer : ByteRange}
  {changes changesIn changesRest ours oursIn oursRest theirs theirsIn theirsRest : List Change}

theorem Change.Touches.mono {c : Change} (h : c.Touches range) (hwithin : range.Within outer) :
    c.Touches outer := by
  obtain ⟨hstart, hstop⟩ := hwithin
  unfold Touches at h ⊢
  split at h <;> split <;> omega

theorem absorb_least (hwithin : range.Within outer)
    (h : Encloses outer changesIn changesRest changes) :
    (absorb range changes).2.2.Within outer ∧ ∃ more, (absorb range changes).1 ++ more = changesIn ∧
      Encloses outer more changesRest (absorb range changes).2.1 := by
  obtain ⟨rfl, hholds, hstops⟩ := h
  induction changesIn generalizing range with
  | nil =>
    cases changesRest with
    | nil => exact ⟨hwithin, [], rfl, rfl, hholds, hstops⟩
    | cons next rest =>
      have hnot : ¬ next.Touches range := fun h => hstops next rfl (h.mono hwithin)
      rw [nil_append, absorb, if_neg hnot]
      exact ⟨hwithin, [], rfl, rfl, hholds, hstops⟩
  | cons first changesIn ih =>
    obtain ⟨hfirst, hrest⟩ := forall_mem_cons.mp hholds
    rw [cons_append, absorb]
    split
    · have hhull : (range.hull first).Within outer :=
        ⟨le_min hwithin.1 hfirst.1, max_le hwithin.2 hfirst.2⟩
      obtain ⟨hgrown, more, htaken, hmore⟩ := ih hhull hrest
      exact ⟨hgrown, more, congrArg (first :: ·) htaken, hmore⟩
    · exact ⟨hwithin, first :: changesIn, rfl, rfl, hholds, hstops⟩

theorem closeCluster_least (oursTaken theirsTaken : List Change) (hwithin : range.Within outer)
    (hours : Encloses outer oursIn oursRest ours)
    (htheirs : Encloses outer theirsIn theirsRest theirs) :
    (closeCluster range oursTaken theirsTaken ours theirs).range.Within outer ∧
      (closeCluster range oursTaken theirsTaken ours theirs).ours <+: oursTaken ++ oursIn ∧
      (closeCluster range oursTaken theirsTaken ours theirs).theirs <+: theirsTaken
        ++ theirsIn := by
  induction range, oursTaken, theirsTaken, ours, theirs using closeCluster.induct
    generalizing oursIn theirsIn with
  | case1 range oursTaken theirsTaken ours theirs =>
    rename_i hnone
    have hgrown := (absorb_least hwithin hours).1
    rw [closeCluster, if_pos hnone]
    exact ⟨(absorb_least hgrown htheirs).1, prefix_append _ _, prefix_append _ _⟩
  | case2 range oursTaken theirsTaken ours theirs =>
    rename_i hsome ih
    obtain ⟨hgrown, oursMore, rfl, hoursMore⟩ := absorb_least hwithin hours
    obtain ⟨hgrown', theirsMore, rfl, htheirsMore⟩ := absorb_least hgrown htheirs
    rw [closeCluster, if_neg hsome, ← append_assoc, ← append_assoc]
    exact ih hgrown' hoursMore htheirsMore

theorem closeCluster_le_swap (range : ByteRange) (ours theirs : List Change) :
    let c := closeCluster range [] [] ours theirs
    let c' := closeCluster range [] [] theirs ours
    c.range.Within c'.range ∧ c.ours <+: c'.theirs ∧ c.theirs <+: c'.ours := by
  have hclosed := closeCluster_closed range [] [] theirs ours nofun nofun
  exact closeCluster_least [] [] hclosed.grows
    ⟨hclosed.theirs_eq, hclosed.theirs_holds, hclosed.theirs_stops⟩
    ⟨hclosed.ours_eq, hclosed.ours_holds, hclosed.ours_stops⟩

/-- From the other side it is the same cluster. -/
theorem closeCluster_swap (range : ByteRange) (ours theirs : List Change) :
    closeCluster range [] [] theirs ours = (closeCluster range [] [] ours theirs).swap := by
  obtain ⟨hrange, hours, htheirs⟩ := closeCluster_le_swap range ours theirs
  obtain ⟨hrange', hours', htheirs'⟩ := closeCluster_le_swap range theirs ours
  have hc : Closed range ours theirs _ := closeCluster_closed range [] [] ours theirs nofun nofun
  have hc' : Closed range theirs ours _ := closeCluster_closed range [] [] theirs ours nofun nofun
  generalize closeCluster range [] [] ours theirs = c at *
  generalize closeCluster range [] [] theirs ours = c' at *
  have hoursEq : c.ours = c'.theirs := hours.eq_of_length_le htheirs'.length_le
  have htheirsEq : c.theirs = c'.ours := htheirs.eq_of_length_le hours'.length_le
  have hoursRest : c.oursRest = c'.theirsRest :=
    append_cancel_left (hc.ours_eq.trans (hoursEq ▸ hc'.theirs_eq.symm))
  have htheirsRest : c.theirsRest = c'.oursRest :=
    append_cancel_left (hc.theirs_eq.trans (htheirsEq ▸ hc'.ours_eq.symm))
  have hrangeEq : c.range = c'.range := congrArg₂ ByteRange.mk
    (le_antisymm hrange'.1 hrange.1) (le_antisymm hrange.2 hrange'.2)
  rw [Cluster.swap, hoursEq, htheirsEq, hoursRest, htheirsRest, hrangeEq]

end Least

/-! ### Mirrored states -/

/-- Outputs of the same length, and the same ones under a condition. -/
def Alike (p : Prop) (a b : Bytes) : Prop := a.length = b.length ∧ (p → a = b)

/-- A state and the state of the other side's merge.  Until there is a conflict
the outputs are the same. -/
inductive Mirrored : MergeState → MergeState → Prop
  | mk {ours theirs : List Change} {cursor : ℕ} {output output' : Bytes}
      {conflicts : List ContentConflict} (hours : ∀ c ∈ ours, c.old.byteStart ≤ c.old.byteEnd)
      (halike : Alike (conflicts = []) output output') :
      Mirrored ⟨ours, theirs, cursor, output, conflicts⟩
        ⟨theirs, ours, cursor, output', conflicts.map ContentConflict.swap⟩

section Steps

variable {p : Prop} {a b c d base : Bytes} {options : ContentMergeOptions} {start stop limit : ℕ}

theorem Alike.appendBytes (h : Alike p a b) (h' : Alike p c d) :
    Simulates (Alike p) (appendBytes a c limit) (appendBytes b d limit) := by
  have hlen : a.length + c.length = b.length + d.length := congrArg₂ (· + ·) h.1 h'.1
  refine .ite (by rw [hlen]) nofun fun _ => .pure ⟨?_, fun hp => ?_⟩
  · rwa [length_append, length_append]
  · rw [h.2 hp, h'.2 hp]

theorem Alike.appendBase (h : Alike p a b) :
    Simulates (Alike p) (appendBase a base start stop limit) (appendBase b base start stop limit) :=
  .ite .rfl nofun fun _ => h.appendBytes ⟨rfl, fun _ => rfl⟩

theorem length_le_of_appendParts {part marker out : Bytes} {parts : List Bytes}
    (h : (part :: parts).foldlM (fun marker bytes => appendBytes marker bytes limit) marker
      = .ok out) : out.length ≤ limit := by
  obtain hnil | hle := foldlM_induction (P := fun done out => done = [] ∨ out.length ≤ limit) h
    (.inl rfl) fun _ _ _ _ _ _ h => .inr (by
      rw [appendBytes, ite_error_eq_ok] at h
      obtain ⟨hle, ⟨⟩⟩ := h
      rw [length_append]
      omega)
  · cases hnil
  · exact hle

theorem renderMarker_fits {room : Prop} (c : ContentConflict) (style : ConflictStyle)
    (hroom : room → (render style ⟨c.base.bytes, c.ours.bytes, c.theirs.bytes⟩).length ≤ limit) :
    Fits room .malformedDiffHunk (renderMarker c style limit)
      (· = render style ⟨c.base.bytes, c.ours.bytes, c.theirs.bytes⟩) :=
  appendParts_fits hroom

theorem renderMarker_alike (c : ContentConflict) (style : ConflictStyle) :
    Simulates (Alike False) (renderMarker c style limit) (renderMarker c.swap style limit) := by
  intro out hout
  have hle : out.length ≤ limit := by
    cases style
    exact length_le_of_appendParts hout
  have hlen : out.length = (render style ⟨c.base.bytes, c.theirs.bytes, c.ours.bytes⟩).length := by
    rw [(renderMarker_fits c style False.elim).answer hout, length_render, length_render]
    dsimp only
    omega
  have hfits := renderMarker_fits c.swap style fun _ : True => hlen.symm.trans_le hle
  obtain ⟨other, hother⟩ := hfits.exists_ok trivial
  exact ⟨other, hother, hlen.trans (congrArg length (hfits.answer hother)).symm, False.elim⟩

instance : Std.Associative fun a b : Span => (⟨min a.byteStart b.byteStart, max a.byteEnd b.byteEnd,
    min a.unitStart b.unitStart, max a.unitEnd b.unitEnd⟩ : Span) :=
  ⟨fun a b c => by simp only [min_assoc, max_assoc]⟩

theorem mergeSpans_comm (xs ys : List Span) : mergeSpans (xs ++ ys) = mergeSpans (ys ++ xs) := by
  cases xs with
  | nil => rw [nil_append, append_nil]
  | cons x xs =>
    cases ys with
    | nil => rw [nil_append, append_nil]
    | cons y ys =>
      simp only [mergeSpans, cons_append, foldl_append, foldl_cons, foldl_assoc]
      simp only [min_comm, max_comm]

section Turn

variable {ours theirs oursNext theirsNext : List Change} {cursor : ℕ} {output output' : Bytes}
  {conflicts : List ContentConflict} (halike : Alike (conflicts = []) output output')
include halike

theorem takeChange_mirrored {change : Change}
    (hnext : ∀ c ∈ oursNext, c.old.byteStart ≤ c.old.byteEnd) : Simulates Mirrored
      (takeChange base options ⟨ours, theirs, cursor, output, conflicts⟩ change oursNext theirsNext)
      (takeChange base options
        ⟨theirs, ours, cursor, output', conflicts.map ContentConflict.swap⟩ change theirsNext
        oursNext) :=
  halike.appendBase.bind fun _ _ halike => (halike.appendBytes ⟨rfl, fun _ => rfl⟩).bind
    fun _ _ halike => .pure ⟨hnext, halike⟩

theorem takeCluster_mirrored {cluster : Cluster}
    (hrest : ∀ c ∈ cluster.oursRest, c.old.byteStart ≤ c.old.byteEnd) : Simulates Mirrored
      (takeCluster base options ⟨ours, theirs, cursor, output, conflicts⟩ cluster)
      (takeCluster base options ⟨theirs, ours, cursor, output', conflicts.map ContentConflict.swap⟩
        cluster.swap) := by
  refine halike.appendBase.bind fun _ _ halike => .comm fun oursSide theirsSide _ _ => ?_
  refine .ite eq_comm (fun hsame => ?_) fun _ => ?_
  · exact (halike.appendBytes ⟨congrArg length hsame, fun _ => hsame⟩).bind
      fun _ _ halike => .pure ⟨hrest, halike⟩
  · have hconf : cluster.swap.conflict base theirsSide oursSide
        = (cluster.conflict base oursSide theirsSide).swap := by
      rw [Cluster.conflict, Cluster.swap, map_append, mergeSpans_comm, ← map_append]
      rfl
    rw [hconf]
    generalize cluster.conflict base oursSide theirsSide = conflict
    refine .bind (.refuseIf (by rw [length_map]; exact id)) fun _ _ _ => ?_
    refine (renderMarker_alike conflict _).bind fun marker marker' hmarker => ?_
    have halike : Alike False _ _ := ⟨halike.1, False.elim⟩
    refine (halike.appendBytes hmarker).bind fun _ _ halike => .pure ?_
    rw [show [conflict.swap] = [conflict].map ContentConflict.swap from rfl, ← map_append]
    exact ⟨hrest, halike.1, fun hnone => absurd hnone (by simp)⟩

end Turn

theorem Change.overlaps_comm {left right : Change} : left.Overlaps right ↔ right.Overlaps left := by
  simp only [Overlaps, Touches, range]
  split <;> split <;> omega

/-- Changes that do not touch are at different places. -/
theorem Change.precedes_comm {left right : Change} (hover : ¬ left.Overlaps right)
    (hleft : left.old.byteStart ≤ left.old.byteEnd) :
    left.Precedes right ↔ ¬ right.Precedes left := by
  simp only [Overlaps, Touches, range] at hover
  simp only [Precedes]
  split at hover <;> omega

variable {s t : MergeState}

theorem mergeStep_mirrored (h : Mirrored s t) :
    Simulates Mirrored (mergeStep base options s) (mergeStep base options t) := by
  obtain @⟨ours, theirs, cursor, output, output', conflicts, hordered, halike⟩ := h
  cases ours with
  | nil =>
    cases theirs with
    | nil => exact .pure ⟨hordered, halike⟩
    | cons change theirs => exact takeChange_mirrored halike hordered
  | cons first ours =>
    obtain ⟨hfirst, hours⟩ := forall_mem_cons.mp hordered
    cases theirs with
    | nil => exact takeChange_mirrored halike hours
    | cons other theirs =>
      refine .ite overlaps_comm (fun _ => ?_) fun hover => ?_
      · have hswap : collectCluster other first (other :: theirs) (first :: ours)
            = (collectCluster first other (first :: ours) (other :: theirs)).swap := by
          rw [collectCluster, collectCluster, ← closeCluster_swap, ByteRange.hull, ByteRange.hull,
            min_comm, max_comm]
          rfl
        have hclosed : Closed _ (first :: ours) (other :: theirs)
            (collectCluster first other (first :: ours) (other :: theirs)) :=
          closeCluster_closed _ [] [] _ _ nofun nofun
        rw [hswap]
        exact takeCluster_mirrored halike fun c hc =>
          hordered c (hclosed.ours_eq ▸ mem_append_right _ hc)
      · rw [if_congr (precedes_comm hover hfirst) rfl rfl, ite_not]
        exact .ite .rfl (fun _ => takeChange_mirrored halike hordered)
          fun _ => takeChange_mirrored halike hours

theorem Mirrored.done (h : Mirrored s t) :
    s.ours = [] ∧ s.theirs = [] ↔ t.ours = [] ∧ t.theirs = [] := by
  cases h
  exact and_comm

theorem mergeLoop_mirrored (work : ℕ) (h : Mirrored s t) :
    Simulates Mirrored (mergeLoop base options work s) (mergeLoop base options work t) := by
  induction work generalizing s t with
  | zero =>
    refine .ite h.done (fun _ => .pure h) fun _ _ herror => ?_
    cases herror
  | succ work ih =>
    exact .ite h.done (fun _ => .pure h) fun _ => (mergeStep_mirrored h).bind fun _ _ h => ih h

end Steps

/-! ### Mirrored outcomes -/

/-- The same clean bytes, or the same conflicts from the other side. -/
inductive ContentMergeOutcome.Mirrors : ContentMergeOutcome → ContentMergeOutcome → Prop
  | clean (bytes : Bytes) : Mirrors (.clean bytes) (.clean bytes)
  | conflicted (bytes bytes' : Bytes) (conflicts : List ContentConflict) :
    Mirrors (.conflicted bytes conflicts) (.conflicted bytes' (conflicts.map ContentConflict.swap))

section Outcomes

variable {base ours theirs : Bytes} {options : ContentMergeOptions}

theorem mergeChangeLists_mirrors {oursChanges theirsChanges : List Change}
    (hours : ∀ c ∈ oursChanges, c.old.byteStart ≤ c.old.byteEnd) :
    Simulates Mirrors (mergeChangeLists base options oursChanges theirsChanges)
      (mergeChangeLists base options theirsChanges oursChanges) := by
  have hstart : Mirrored ⟨oursChanges, theirsChanges, 0, [], []⟩
    ⟨theirsChanges, oursChanges, 0, [], []⟩ := ⟨hours, rfl, fun _ => rfl⟩
  refine (mergeLoop_mirrored _ hstart).bind fun s t h => ?_
  obtain @⟨_, _, _, _, _, conflicts, -, halike⟩ := h
  refine halike.appendBase.bind fun output output' halike => .pure ?_
  cases conflicts with
  | nil =>
    rw [halike.2 rfl]
    exact .clean output'
  | cons conflict conflicts => exact .conflicted output output' _

theorem changesFrom_ordered {least : ℕ} {hunks : List DiffHunk} {changes : List Change}
    (h : changesFrom least hunks = .ok changes) :
    ∀ c ∈ changes, c.old.byteStart ≤ c.old.byteEnd := by
  induction hunks generalizing least changes with
  | nil =>
    cases h
    exact nofun
  | cons hunk hunks ih =>
    simp only [changesFrom, ite_error_eq_ok, not_or, bind_eq_ok, pure_eq_ok] at h
    obtain ⟨hguard, rest, hrest, rfl⟩ := h
    exact forall_mem_cons.mpr ⟨not_lt.mp hguard.2, ih hrest⟩

theorem cleanResult_mirrors (bytes : Bytes) (limit : ℕ) :
    Simulates Mirrors (cleanResult bytes limit) (cleanResult bytes limit) :=
  .bind (.refuseIf id) fun _ _ _ => .pure (.clean bytes)

theorem mergeOutcome_mirrors : Simulates Mirrors
    (mergeOutcome base ours theirs options) (mergeOutcome base theirs ours options) := by
  refine .bind (.refuseIf (by omega)) fun _ _ _ => .ite eq_comm (fun hsame => ?_) fun hsame => ?_
  · rw [hsame]
    exact cleanResult_mirrors _ _
  by_cases hours : base = ours
  · rw [if_pos hours, if_neg (hours ▸ hsame), if_pos hours]
    exact cleanResult_mirrors _ _
  rw [if_neg hours, if_neg hours]
  refine .ite .rfl (fun _ => cleanResult_mirrors _ _) fun _ => ?_
  refine .ite (by tauto) (fun _ => ?_) fun _ => ?_
  · refine .bind (.refuseIf id) fun _ _ _ => ?_
    exact (renderMarker_alike ⟨wholeEvidence base, wholeEvidence ours, wholeEvidence theirs⟩ _).bind
      fun _ _ _ => .pure (.conflicted _ _ [_])
  · refine .comm fun oursDiff theirsDiff _ _ => .comm fun oursChanges theirsChanges hours _ => ?_
    obtain ⟨_, -, hours⟩ := bind_eq_ok.mp hours
    exact mergeChangeLists_mirrors (changesFrom_ordered hours)

end Outcomes

/-- A content merge and the merge of the exchanged sides have the same clean
bytes, and the same conflicts with the sides exchanged. -/
theorem mergeContent_symmetric (base ours theirs : Bytes) (options : ContentMergeOptions) :
    (∀ bytes, (∃ r, mergeContent base ours theirs options = .ok r ∧ r.outcome = .clean bytes) ↔
      ∃ r, mergeContent base theirs ours options = .ok r ∧ r.outcome = .clean bytes) ∧
    ∀ conflicts, (∃ r bytes, mergeContent base ours theirs options = .ok r ∧
        r.outcome = .conflicted bytes conflicts) ↔
      ∃ r bytes, mergeContent base theirs ours options = .ok r ∧
        r.outcome = .conflicted bytes (conflicts.map ContentConflict.swap) := by
  have hmirrors : ∀ ours theirs, Simulates (fun r r' => r.outcome.Mirrors r'.outcome)
      (mergeContent base ours theirs options) (mergeContent base theirs ours options) :=
    fun _ _ => mergeOutcome_mirrors.bind fun _ _ h => .pure h
  refine ⟨fun bytes => ⟨?_, ?_⟩, fun conflicts => ⟨?_, ?_⟩⟩
  · rintro ⟨⟨_, _⟩, hr, rfl⟩
    obtain ⟨⟨_, _⟩, hr', ⟨⟩⟩ := hmirrors _ _ _ hr
    exact ⟨_, hr', rfl⟩
  · rintro ⟨⟨_, _⟩, hr, rfl⟩
    obtain ⟨⟨_, _⟩, hr', ⟨⟩⟩ := hmirrors _ _ _ hr
    exact ⟨_, hr', rfl⟩
  · rintro ⟨⟨_, _⟩, bytes, hr, rfl⟩
    obtain ⟨⟨_, _⟩, hr', ⟨⟩⟩ := hmirrors _ _ _ hr
    exact ⟨_, _, hr', rfl⟩
  · rintro ⟨⟨_, _⟩, bytes, hr, rfl⟩
    obtain ⟨⟨_, _⟩, hr', ⟨⟩⟩ := hmirrors _ _ _ hr
    refine ⟨_, _, hr', congrArg (conflicted _) ?_⟩
    rw [map_map]
    exact map_id _

end Frankengit.Merge
