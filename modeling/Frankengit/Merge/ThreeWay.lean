/-
Frankengit/Merge/ThreeWay.lean

The content merge divides the three versions into segments and merges them one
by one.

A turn takes a change that lies alone in its window, or a cluster.  A cluster
that is not common is a conflict: it has changes of both sides, and changes of a
diff are never without effect (`Effective`).  `Room` is what the limits must
allow for the turns that are left.
-/
import Frankengit.Merge.Window

namespace Frankengit.Merge

open Diff Fallible Alignment Patch List Change Segment Nat ContentMergeError ContentConflict
open ByteRange

/-! ### Room -/

/-- What the limits must allow from here on.  Every turn takes a change, and a
rendered conflict adds the 49 bytes of its markers to its three texts. -/
structure Room (base : Bytes) (options : ContentMergeOptions) (s : MergeState) (work : ℕ) :
    Prop where
  output : s.output.length + (base.length - s.cursor)
    + (patched base s.cursor base.length (s.ours.map patch)).length
    + (patched base s.cursor base.length (s.theirs.map patch)).length
    + 49 * s.ours.length ≤ options.limits.maxOutputBytes
  conflicts : s.conflicts.length + s.ours.length ≤ options.limits.maxConflicts
  work : s.ours.length + s.theirs.length ≤ work

theorem length_render (style : ConflictStyle) (s : Segment UInt8) :
    (render style s).length = s.ours.length + s.base.length + s.theirs.length + 49 := by
  cases style
  have hmarkers : (ascii "<<<<<<< ours\n").length = 13 ∧ (ascii "||||||| base\n").length = 13 ∧
      (ascii "=======\n").length = 8 ∧ (ascii ">>>>>>> theirs\n").length = 15 := by decide
  simp only [render, markerParts, length_flatten, map_cons, map_nil, sum_cons, sum_nil, hmarkers]
  omega

theorem length_merged_le (style : ConflictStyle) (s : Segment UInt8) {n : ℕ}
    (hn : s.Conflicts → 0 < n) : (s.merged (render style)).length
      ≤ s.base.length + s.ours.length + s.theirs.length + 49 * n := by
  by_cases hconfl : s.Conflicts
  · have hpos := hn hconfl
    rw [merged_of_conflicts _ hconfl, length_render]
    omega
  · rw [merged]
    split
    · omega
    · next hours =>
      split
      · omega
      · next htheirs =>
        split
        · omega
        · next hsame => exact absurd ⟨hours, htheirs, hsame⟩ hconfl

section Room

variable {base : Bytes} {options : ContentMergeOptions} {s : MergeState} {range : ByteRange}
  {oursIn oursRest theirsIn theirsRest : List Change} {work : ℕ}

theorem Room.output_le (h : Room base options s work) :
    s.output.length ≤ options.limits.maxOutputBytes := by
  have houtput := h.output
  omega

theorem Room.advance (h : Room base options s (work + 1))
    (w : Window base s range oursIn oursRest theirsIn theirsRest)
    (conflicts : List ContentConflict) (hsome : oursIn ≠ [] ∨ theirsIn ≠ [])
    (hconfl : conflicts.length ≤ s.conflicts.length + oursIn.length)
    (hbody : (changedIn base range oursIn theirsIn).Conflicts → oursIn ≠ []) :
    Room base options
      ⟨oursRest, theirsRest, range.stop, s.output ++ (slice base s.cursor range.start
        ++ (changedIn base range oursIn theirsIn).merged (render options.profile.conflictStyle)),
      conflicts⟩ work := by
  obtain ⟨houtput, hroom, hwork⟩ := h
  have hours := patched_window oursIn oursRest w.start_ge w.le w.stop_le w.ours_holds w.ours_rest
  have htheirs :=
    patched_window theirsIn theirsRest w.start_ge w.le w.stop_le w.theirs_holds w.theirs_rest
  have hgap : (slice base s.cursor range.start).length = range.start - s.cursor :=
    length_slice (w.le.trans w.stop_le)
  have hmerged := length_merged_le options.profile.conflictStyle
    (changedIn base range oursIn theirsIn) fun hc => length_pos_iff.mpr (hbody hc)
  have hbase : (changedIn base range oursIn theirsIn).base.length = range.stop - range.start :=
    length_slice w.stop_le
  have hchanges : 0 < oursIn.length + theirsIn.length := by
    rcases hsome with hne | hne
    · exact Nat.add_pos_left (length_pos_iff.mpr hne) _
    · exact Nat.add_pos_right _ (length_pos_iff.mpr hne)
  rw [w.ours] at houtput hroom hwork
  rw [w.theirs] at houtput hwork
  rw [hours, htheirs] at houtput
  simp only [length_append, hgap] at houtput hroom hwork
  change _ ≤ _ + (patched base range.start range.stop _).length
    + (patched base range.start range.stop _).length + _ at hmerged
  have hstart := w.start_ge
  have hle := w.le
  have hstop := w.stop_le
  refine ⟨?_, ?_, ?_⟩
  · dsimp only
    rw [length_append, length_append, hgap]
    omega
  · show conflicts.length + oursRest.length ≤ _
    omega
  · show oursRest.length + theirsRest.length ≤ work
    omega

end Room

/-! ### Turns -/

section Turns

variable {base : Bytes} {options : ContentMergeOptions} {s : MergeState} {room : Prop}

theorem appendBytes_fits {output bytes : Bytes} {limit : ℕ}
    (hroom : room → (output ++ bytes).length ≤ limit) :
    Fits room .malformedDiffHunk (appendBytes output bytes limit) (· = output ++ bytes) := by
  rw [length_append] at hroom
  exact .ite (by simp) (fun h => not_lt.mpr (hroom h)) fun _ => rfl

theorem appendBase_fits {output : Bytes} {start stop limit : ℕ} (hle : start ≤ stop)
    (hstop : stop ≤ base.length) (hroom : room → (output ++ slice base start stop).length ≤ limit) :
    Fits room .malformedDiffHunk (appendBase output base start stop limit)
      (· = output ++ slice base start stop) :=
  Fits.passes (not_or.mpr ⟨not_lt.mpr hle, not_lt.mpr hstop⟩) (appendBytes_fits hroom)

theorem appendParts_fits {parts : List Bytes} {marker : Bytes} {limit : ℕ}
    (hroom : room → (marker ++ parts.flatten).length ≤ limit) : Fits room .malformedDiffHunk
      (parts.foldlM (fun marker bytes => appendBytes marker bytes limit) marker)
      (· = marker ++ parts.flatten) := by
  induction parts generalizing marker with
  | nil => exact (append_nil marker).symm
  | cons part parts ih =>
    rw [flatten_cons, ← append_assoc] at hroom ⊢
    refine (appendBytes_fits fun h => ?_).bind fun output houtput => ?_
    · have hle := hroom h
      rw [length_append] at hle
      exact (le_add_right _ _).trans hle
    · subst houtput
      exact ih hroom

theorem renderFrom_eq {changes : List Change} {start stop : ℕ}
    (hsorted : Sorted start (changes.map patch)) (hin : ∀ c ∈ changes, c.old.byteEnd ≤ stop) :
    renderFrom base stop start changes = .ok (patched base start stop (changes.map patch)) := by
  induction changes generalizing start with
  | nil => rfl
  | cons change changes ih =>
    obtain ⟨hstart, -, hrest⟩ := hsorted
    have hguard : ¬ (change.old.byteStart < start ∨ stop < change.old.byteEnd) := by
      rintro (hlt | hlt)
      · exact absurd hstart (not_le.mpr hlt)
      · exact absurd (hin change mem_cons_self) (not_le.mpr hlt)
    have hchanges := ih (hrest.mono (le_succ _)) fun c hc => hin c (mem_cons_of_mem _ hc)
    change renderFrom base stop change.old.byteEnd changes = _ at hchanges
    rw [renderFrom, if_neg hguard, hchanges]
    rfl

/-- The changes of one side in a range, which they change. -/
theorem renderSide_eq {range : ByteRange} {changes inside rest : List Change} {least : ℕ}
    (hsplit : changes = inside ++ rest) (hsorted : Sorted least (changes.map patch))
    (heffective : Effective base (changes.map patch)) (hin : ∀ c ∈ inside, range.Holds c)
    (hle : range.start ≤ range.stop) (hne : inside ≠ []) :
    ∃ side, renderSide base range inside = .ok side ∧
      side.bytes = patched base range.start range.stop (inside.map patch) ∧
      side.bytes ≠ slice base range.start range.stop := by
  rw [hsplit, map_append] at hsorted heffective
  have hinside : Sorted range.start (inside.map patch) :=
    hsorted.of_append.1.raise (forall_mem_map.mpr fun c hc => (hin c hc).1)
  refine ⟨⟨range, mergeSpans (inside.map new), _, inside.flatMap edits⟩, ?_, rfl, ?_⟩
  · rw [renderSide, renderFrom_eq hinside fun c hc => (hin c hc).2]
    rfl
  · exact heffective [] _ _ _ _ rfl (mt map_eq_nil_iff.mp hne) hinside hle
      (forall_mem_map.mpr fun c hc => (hin c hc).2)

theorem takeChange_fits {change : Change} {ours theirs : List Change}
    (hstart : s.cursor ≤ change.old.byteStart) (hstop : change.old.byteStart ≤ base.length)
    (hroom : room → (s.output ++ (slice base s.cursor change.old.byteStart
      ++ change.replacement)).length ≤ options.limits.maxOutputBytes) :
    Fits room .malformedDiffHunk (takeChange base options s change ours theirs)
      (· = ⟨ours, theirs, change.old.byteEnd, s.output ++ (slice base s.cursor change.old.byteStart
        ++ change.replacement), s.conflicts⟩) := by
  rw [← append_assoc] at hroom
  refine (appendBase_fits hstart hstop fun h => ?_).bind fun output houtput => ?_
  · have hle := hroom h
    rw [length_append] at hle
    exact (le_add_right _ _).trans hle
  · subst houtput
    refine (appendBytes_fits hroom).bind fun output houtput => ?_
    subst houtput
    exact congrArg (fun output => (⟨ours, theirs, change.old.byteEnd, output, s.conflicts⟩ :
      MergeState)) (append_assoc _ _ _)

/-- The conflicts after a cluster. -/
def Cluster.conflictsAfter (base : Bytes) (s : MergeState) (cluster : Cluster)
    (ours theirs : ConflictSideEvidence) : List ContentConflict :=
  if ours.bytes = theirs.bytes then s.conflicts
  else s.conflicts ++ [cluster.conflict base ours theirs]

theorem takeCluster_fits {cluster : Cluster} {ours theirs : ConflictSideEvidence}
    (hours : renderSide base cluster.range cluster.ours = .ok ours)
    (htheirs : renderSide base cluster.range cluster.theirs = .ok theirs) {body : Segment UInt8}
    (hbody : body = ⟨slice base cluster.range.start cluster.range.stop, ours.bytes, theirs.bytes⟩)
    (hconfl : ours.bytes ≠ theirs.bytes → body.Conflicts)
    (hstart : s.cursor ≤ cluster.range.start) (hstop : cluster.range.start ≤ base.length)
    (hroom : room → (s.output ++ (slice base s.cursor cluster.range.start
      ++ body.merged (render options.profile.conflictStyle))).length
        ≤ options.limits.maxOutputBytes)
    (hcount : room → (cluster.conflictsAfter base s ours theirs).length
      ≤ options.limits.maxConflicts) :
    Fits room .malformedDiffHunk (takeCluster base options s cluster)
      (· = ⟨cluster.oursRest, cluster.theirsRest, cluster.range.stop,
        s.output ++ (slice base s.cursor cluster.range.start
          ++ body.merged (render options.profile.conflictStyle)),
        cluster.conflictsAfter base s ours theirs⟩) := by
  rw [← append_assoc] at hroom ⊢
  have hlen : room → (s.output ++ slice base s.cursor cluster.range.start).length
      + (body.merged (render options.profile.conflictStyle)).length
        ≤ options.limits.maxOutputBytes := fun h => length_append ▸ hroom h
  refine (appendBase_fits hstart hstop fun h => (le_add_right _ _).trans (hlen h)).bind
    fun output houtput => ?_
  subst houtput
  rw [hours, htheirs]
  show Fits room _ (if ours.bytes = theirs.bytes then _ else _) _
  rw [Cluster.conflictsAfter] at hcount ⊢
  by_cases hsame : ours.bytes = theirs.bytes
  · have hmerged : body.merged (render options.profile.conflictStyle) = ours.bytes := by
      subst hbody
      exact merged_of_same _ hsame
    rw [if_pos hsame, if_pos hsame, hmerged]
    rw [hmerged] at hroom
    exact (appendBytes_fits hroom).bind fun output houtput => houtput ▸ rfl
  · have hmerged : body.merged (render options.profile.conflictStyle)
        = render options.profile.conflictStyle body := merged_of_conflicts _ (hconfl hsame)
    rw [if_neg hsame, if_neg hsame, hmerged]
    rw [hmerged] at hroom hlen
    rw [if_neg hsame, length_append, length_singleton] at hcount
    refine .refuseIf_bind (by simp) (fun h => (lt_of_succ_le (hcount h)).ne) ?_
    have hmarker : Fits room .malformedDiffHunk (renderMarker (cluster.conflict base ours theirs)
        options.profile.conflictStyle options.limits.maxOutputBytes)
        (· = render options.profile.conflictStyle body) := by
      subst hbody
      exact appendParts_fits fun h => (le_add_left _ _).trans (hlen h)
    refine hmarker.bind fun marker hmarker => ?_
    subst hmarker
    exact (appendBytes_fits hroom).bind fun output houtput => houtput ▸ rfl

end Turns

section Run

variable {base ours theirs : Bytes} {options : ContentMergeOptions} {s : MergeState}
  {segments : List (Segment UInt8)} {room : Prop} {work : ℕ}

/-- What a cluster leaves comes after it. -/
theorem sorted_rest {taken rest : List Change} {range : ByteRange} {least : ℕ}
    (h : Sorted least ((taken ++ rest).map patch)) (hne : taken ≠ [])
    (hin : ∀ c ∈ taken, range.Holds c) (hstops : ∀ c, rest.head? = some c → ¬ c.Touches range) :
    Sorted (range.stop + 1) (rest.map patch) := by
  rw [map_append] at h
  obtain ⟨hsorted, -, hafter⟩ := h.of_append
  cases rest with
  | nil => trivial
  | cons next rest =>
    obtain ⟨last, hlast⟩ := exists_mem_of_ne_nil taken hne
    obtain ⟨hstart, hstop, hrest⟩ := hafter last.patch (mem_map_of_mem hlast)
    have hpatch := (hsorted.start_ge last.patch (mem_map_of_mem hlast)).2
    have hholds := (hin last hlast).1
    have hnot := hstops next rfl
    rw [Touches] at hnot
    change last.old.byteEnd + 1 ≤ next.old.byteStart at hstart
    change next.old.byteStart ≤ next.old.byteEnd at hstop
    change last.old.byteStart ≤ last.old.byteEnd at hpatch
    refine ⟨?_, hstop, hrest⟩
    show range.stop + 1 ≤ next.old.byteStart
    split at hnot <;> omega

variable (h : Merging base ours theirs options.profile.conflictStyle s segments)

include h in
theorem Merging.window_of_cluster {oursFirst theirsFirst : Change}
    {oursNext theirsNext : List Change}
    (hours : s.ours = oursFirst :: oursNext) (htheirs : s.theirs = theirsFirst :: theirsNext)
    {cluster : Cluster}
    (hcluster : cluster = collectCluster oursFirst theirsFirst s.ours s.theirs) :
    Window base s cluster.range cluster.ours cluster.oursRest cluster.theirs cluster.theirsRest ∧
      cluster.ours ≠ [] ∧ cluster.theirs ≠ [] ∧
      (s.conflicts ≠ [] → s.cursor < cluster.range.start) := by
  have hclosed : Closed (oursFirst.range.hull theirsFirst) s.ours s.theirs cluster := by
    rw [hcluster]
    exact closeCluster_closed _ [] [] s.ours s.theirs (by simp) (by simp)
  have hoursMem : oursFirst ∈ s.ours := hours ▸ mem_cons_self
  have htheirsMem : theirsFirst ∈ s.theirs := htheirs ▸ mem_cons_self
  -- the cluster stays where both sides' changes are
  have hinside : ∀ least, Sorted least (s.ours.map patch) → Sorted least (s.theirs.map patch) →
      cluster.range.Within ⟨least, base.length⟩ := by
    intro least hsorted hsorted'
    have hholds : ∀ c ∈ s.ours, Holds ⟨least, base.length⟩ c := fun c hc =>
      ⟨(hsorted.start_ge c.patch (mem_map_of_mem hc)).1, h.ours_stop c hc⟩
    have hholds' : ∀ c ∈ s.theirs, Holds ⟨least, base.length⟩ c := fun c hc =>
      ⟨(hsorted'.start_ge c.patch (mem_map_of_mem hc)).1, h.theirs_stop c hc⟩
    refine hclosed.inside _ ⟨?_, ?_⟩ hholds hholds'
    · exact le_min (hholds _ hoursMem).1 (hholds' _ htheirsMem).1
    · exact max_le (hholds _ hoursMem).2 (hholds' _ htheirsMem).2
  have hle := (h.ours_sorted.start_ge _ (mem_map_of_mem hoursMem)).2
  have hle' := (h.theirs_sorted.start_ge _ (mem_map_of_mem htheirsMem)).2
  -- the first changes lie in the cluster, so they were absorbed
  have hfirst : cluster.range.Holds oursFirst :=
    ByteRange.Holds.mono ⟨min_le_left _ _, le_max_left _ _⟩ hclosed.grows
  have hfirst' : cluster.range.Holds theirsFirst :=
    ByteRange.Holds.mono ⟨min_le_right _ _, le_max_right _ _⟩ hclosed.grows
  have hne : cluster.ours ≠ [] := by
    intro hnil
    have hrest := hclosed.ours_eq
    rw [hnil, nil_append, hours] at hrest
    exact hclosed.ours_stops oursFirst (hrest ▸ rfl) (hfirst.touches hle)
  have hne' : cluster.theirs ≠ [] := by
    intro hnil
    have hrest := hclosed.theirs_eq
    rw [hnil, nil_append, htheirs] at hrest
    exact hclosed.theirs_stops theirsFirst (hrest ▸ rfl) (hfirst'.touches hle')
  have hsorted := h.ours_sorted
  have hsorted' := h.theirs_sorted
  rw [← hclosed.ours_eq] at hsorted
  rw [← hclosed.theirs_eq] at hsorted'
  have hcursor := hinside s.cursor h.ours_sorted h.theirs_sorted
  refine ⟨⟨hclosed.ours_eq.symm, hclosed.theirs_eq.symm, hcursor.1,
    hfirst.1.trans (hle.trans hfirst.2), hcursor.2, hclosed.ours_holds, hclosed.theirs_holds,
    sorted_rest hsorted hne hclosed.ours_holds hclosed.ours_stops,
    sorted_rest hsorted' hne' hclosed.theirs_holds hclosed.theirs_stops⟩, hne, hne', ?_⟩
  intro hconfl
  exact (hinside (s.cursor + 1) (h.fresh hconfl).1 (h.fresh hconfl).2).1

include h in
theorem Merging.window_of_ours {change : Change} {next : List Change}
    (hours : s.ours = change :: next)
    (htheirs : Sorted (change.old.byteEnd + 1) (s.theirs.map patch)) :
    Window base s change.range [change] next [] s.theirs := by
  have hsorted := h.ours_sorted
  rw [hours] at hsorted
  obtain ⟨hstart, hstop, hrest⟩ := hsorted
  exact ⟨hours, rfl, hstart, hstop, h.ours_stop change (hours ▸ mem_cons_self),
    by simp [Holds, Change.range], by simp, hrest, htheirs⟩

include h in
theorem Merging.window_of_theirs {change : Change} {next : List Change}
    (htheirs : s.theirs = change :: next)
    (hours : Sorted (change.old.byteEnd + 1) (s.ours.map patch)) :
    Window base s change.range [] s.ours [change] next := by
  have hsorted := h.theirs_sorted
  rw [htheirs] at hsorted
  obtain ⟨hstart, hstop, hrest⟩ := hsorted
  exact ⟨rfl, htheirs, hstart, hstop, h.theirs_stop change (htheirs ▸ mem_cons_self),
    by simp, by simp [Holds, Change.range], hours, hrest⟩

theorem patched_alone (change : Change) :
    patched base change.range.start change.range.stop ([change].map patch)
      = change.replacement := by
  show slice base change.old.byteStart change.old.byteStart
    ++ (change.replacement ++ slice base change.old.byteEnd change.old.byteEnd) = _
  rw [slice_self, slice_self, append_nil, nil_append]

/-- What a turn leaves: the segments go on, and so does the room. -/
def Turned (base ours theirs : Bytes) (options : ContentMergeOptions) (room : Prop) (work : ℕ)
    (s : MergeState) : Prop :=
  (∃ segments, Merging base ours theirs options.profile.conflictStyle s segments) ∧
    (room → Room base options s work)

include h in
/-- A change that lies alone in its window. -/
theorem Merging.takeChange_fits {change : Change}
    {oursIn oursRest theirsIn theirsRest : List Change}
    (w : Window base s change.range oursIn oursRest theirsIn theirsRest)
    (halone : oursIn = [change] ∧ theirsIn = [] ∨ oursIn = [] ∧ theirsIn = [change])
    (hroom : room → Room base options s (work + 1)) :
    Fits room .malformedDiffHunk (takeChange base options s change oursRest theirsRest)
      (Turned base ours theirs options room work) := by
  have hnot : ¬ (changedIn base change.range oursIn theirsIn).Conflicts := by
    rintro ⟨hours, htheirs, -⟩
    rcases halone with ⟨-, rfl⟩ | ⟨rfl, -⟩
    · exact htheirs rfl
    · exact hours rfl
  have hmerged : (changedIn base change.range oursIn theirsIn).merged
      (render options.profile.conflictStyle) = change.replacement := by
    rcases halone with ⟨rfl, rfl⟩ | ⟨rfl, rfl⟩
    · exact (merged_of_theirs _ rfl).trans (patched_alone change)
    · exact (merged_of_ours _ rfl).trans (patched_alone change)
  have hsome : oursIn ≠ [] ∨ theirsIn ≠ [] := by
    rcases halone with ⟨rfl, -⟩ | ⟨-, rfl⟩
    · exact .inl (cons_ne_nil _ _)
    · exact .inr (cons_ne_nil _ _)
  have hnext := h.advance w s.conflicts (.inl ⟨rfl, hnot⟩)
  have hafter := fun r => (hroom r).advance w s.conflicts hsome (le_add_right _ _)
    fun hc => absurd hc hnot
  rw [hmerged] at hnext hafter
  refine (Merge.takeChange_fits w.start_ge (w.le.trans w.stop_le) fun r => ?_).mono ?_
  · exact (hafter r).output_le
  · rintro s' rfl
    exact ⟨⟨_, hnext⟩, hafter⟩

include h in
theorem Merging.takeCluster_fits {oursFirst theirsFirst : Change}
    {oursNext theirsNext : List Change}
    (hours : s.ours = oursFirst :: oursNext) (htheirs : s.theirs = theirsFirst :: theirsNext)
    (hroom : room → Room base options s (work + 1)) : Fits room .malformedDiffHunk
      (takeCluster base options s (collectCluster oursFirst theirsFirst s.ours s.theirs))
      (Turned base ours theirs options room work) := by
  generalize hcluster : collectCluster oursFirst theirsFirst s.ours s.theirs = cluster
  obtain ⟨w, hne, hne', hfresh⟩ := h.window_of_cluster hours htheirs hcluster.symm
  obtain ⟨oursSide, hoursSide, hoursBytes, hoursNe⟩ :=
    renderSide_eq w.ours h.ours_sorted h.ours_effective w.ours_holds w.le hne
  obtain ⟨theirsSide, htheirsSide, htheirsBytes, htheirsNe⟩ :=
    renderSide_eq w.theirs h.theirs_sorted h.theirs_effective w.theirs_holds w.le hne'
  generalize hbody : changedIn base cluster.range cluster.ours cluster.theirs = body
  have hbody' : body = ⟨slice base cluster.range.start cluster.range.stop, oursSide.bytes,
      theirsSide.bytes⟩ := by
    rw [hoursBytes, htheirsBytes]
    exact hbody.symm
  -- the changes of both sides have effect, so a cluster is common or a conflict
  have hconfl : oursSide.bytes ≠ theirsSide.bytes → body.Conflicts := by
    intro hdiffer
    subst hbody'
    exact ⟨hoursNe, htheirsNe, hdiffer⟩
  have hnext := h.advance w (cluster.conflictsAfter base s oursSide theirsSide) <| by
    rw [hbody, Cluster.conflictsAfter]
    by_cases hsame : oursSide.bytes = theirsSide.bytes
    · refine .inl ⟨if_pos hsame, fun hc => ?_⟩
      subst hbody'
      exact hc.2.2 hsame
    · refine .inr ⟨_, if_neg hsame, hconfl hsame, ?_, hfresh⟩
      have hlen : body.base.length = cluster.range.stop - cluster.range.start := by
        rw [hbody']
        exact length_slice w.stop_le
      rw [recordAt, hlen, Nat.add_sub_cancel' w.le, hbody']
      rfl
  have hafter := fun r => (hroom r).advance w (cluster.conflictsAfter base s oursSide theirsSide)
    (.inl hne)
    (by
      have hpos := length_pos_iff.mpr hne
      rw [Cluster.conflictsAfter]
      split
      · exact le_add_right _ _
      · rw [length_append, length_singleton]
        exact Nat.add_le_add_left hpos _)
    fun _ => hne
  rw [hbody] at hnext hafter
  refine (Merge.takeCluster_fits hoursSide htheirsSide hbody' hconfl w.start_ge
    (w.le.trans w.stop_le) (fun r => (hafter r).output_le) fun r => ?_).mono ?_
  · exact (le_add_right _ _).trans (hafter r).conflicts
  · rintro s' rfl
    exact ⟨⟨_, hnext⟩, hafter⟩

/-- Changes that do not touch come one after the other. -/
theorem Change.apart_of_not_overlaps {left right : Change} (hover : ¬ left.Overlaps right)
    (hleft : left.old.byteStart ≤ left.old.byteEnd)
    (hright : right.old.byteStart ≤ right.old.byteEnd) :
    (left.Precedes right → left.old.byteEnd < right.old.byteStart) ∧
      (¬ left.Precedes right → right.old.byteEnd < left.old.byteStart) := by
  rw [Overlaps, Touches] at hover
  simp only [Precedes]
  dsimp only [range] at hover
  split at hover <;> omega

include h in
theorem Merging.mergeStep_fits (hsome : ¬ (s.ours = [] ∧ s.theirs = []))
    (hroom : room → Room base options s (work + 1)) :
    Fits room .malformedDiffHunk (mergeStep base options s)
      (Turned base ours theirs options room work) := by
  rw [mergeStep]
  split
  · next oursChange oursNext theirsChange theirsNext hours htheirs =>
    have hleft := h.ours_sorted
    have hright := h.theirs_sorted
    rw [hours] at hleft
    rw [htheirs] at hright
    split
    · exact h.takeCluster_fits hours htheirs hroom
    · next hover =>
      have hapart := apart_of_not_overlaps hover hleft.2.1 hright.2.1
      split
      · next hprecedes =>
        refine h.takeChange_fits (h.window_of_ours hours ?_) (.inl ⟨rfl, rfl⟩) hroom
        rw [htheirs]
        exact ⟨hapart.1 hprecedes, hright.2⟩
      · next hprecedes =>
        refine h.takeChange_fits (h.window_of_theirs htheirs ?_) (.inr ⟨rfl, rfl⟩) hroom
        rw [hours]
        exact ⟨hapart.2 hprecedes, hleft.2⟩
  · next change next hours htheirs =>
    have hwindow := h.window_of_ours hours (by rw [htheirs]; trivial)
    rw [htheirs] at hwindow
    exact h.takeChange_fits hwindow (.inl ⟨rfl, rfl⟩) hroom
  · next change next hours htheirs =>
    have hwindow := h.window_of_theirs htheirs (by rw [hours]; trivial)
    rw [hours] at hwindow
    exact h.takeChange_fits hwindow (.inr ⟨rfl, rfl⟩) hroom
  · next hours htheirs => exact absurd ⟨hours, htheirs⟩ hsome

/-- The loop ends with all changes taken. -/
theorem mergeLoop_fits (h : Turned base ours theirs options room work s) :
    Fits room .malformedDiffHunk (mergeLoop base options work s) fun s' =>
      (∃ segments, Merging base ours theirs options.profile.conflictStyle s' segments) ∧
        (s'.ours = [] ∧ s'.theirs = []) ∧ (room → s'.output.length + (base.length - s'.cursor)
          ≤ options.limits.maxOutputBytes) := by
  induction work generalizing s with
  | zero =>
    obtain ⟨hmerging, hroom⟩ := h
    rw [mergeLoop]
    split
    · next hdone =>
      refine ⟨hmerging, hdone, fun r => ?_⟩
      have houtput := (hroom r).output
      omega
    · next hsome =>
      refine ⟨by simp, fun r => hsome ?_⟩
      have hwork := (hroom r).work
      exact ⟨length_eq_zero_iff.mp (by omega), length_eq_zero_iff.mp (by omega)⟩
  | succ work ih =>
    obtain ⟨⟨segments, hmerging⟩, hroom⟩ := h
    rw [mergeLoop]
    split
    · next hdone =>
      refine ⟨⟨segments, hmerging⟩, hdone, fun r => ?_⟩
      have houtput := (hroom r).output
      omega
    · next hsome => exact (hmerging.mergeStep_fits hsome hroom).bind fun s' hs' => ih hs'

end Run

/-! ### Outcomes -/

/-- The conflicts of an outcome. -/
def ContentMergeOutcome.conflicts : ContentMergeOutcome → List ContentConflict
  | clean _ => []
  | conflicted _ conflicts => conflicts

/-- Consecutive parts of three versions. -/
structure Divides (base ours theirs : Bytes) (segments : List (Segment UInt8)) : Prop where
  base_eq : segments.flatMap Segment.base = base
  ours_eq : segments.flatMap Segment.ours = ours
  theirs_eq : segments.flatMap Segment.theirs = theirs

/-- The outcome merges a division part by part. -/
structure Merges (style : ConflictStyle) (segments : List (Segment UInt8))
    (outcome : ContentMergeOutcome) : Prop where
  bytes_eq : outcome.proposedBytes = segments.flatMap (merged (render style))
  conflicts_eq : outcome.conflicts.map recorded = (conflictsAt 0 segments).map recordAt
  conflicted_iff : (∃ bytes conflicts, outcome = .conflicted bytes conflicts) ↔
    ∃ s ∈ segments, s.Conflicts
  apart : outcome.conflicts.IsChain fun c c' => c.base.byteRange.stop < c'.base.byteRange.start

theorem Merges.of_parts {style : ConflictStyle} {segments : List (Segment UInt8)} {bytes : Bytes}
    {conflicts : List ContentConflict} (hbytes : bytes = segments.flatMap (merged (render style)))
    (hconfl : conflicts.map recorded = (conflictsAt 0 segments).map recordAt)
    (hapart : conflicts.IsChain fun c c' => c.base.byteRange.stop < c'.base.byteRange.start) :
    Merges style segments
      (if conflicts = [] then .clean bytes else .conflicted bytes conflicts) := by
  have hiff : conflicts = [] ↔ ¬ ∃ s ∈ segments, s.Conflicts := by
    rw [← map_eq_nil_iff, hconfl, map_eq_nil_iff, conflictsAt_eq_nil_iff]
    push Not
    rfl
  split
  · next hnone =>
    subst hnone
    refine ⟨hbytes, hconfl, ⟨?_, fun hsome => absurd hsome (hiff.mp rfl)⟩, hapart⟩
    rintro ⟨_, _, houtcome⟩
    cases houtcome
  · next hsome =>
    exact ⟨hbytes, hconfl, ⟨fun _ => not_not.mp (mt hiff.mpr hsome), fun _ => ⟨_, _, rfl⟩⟩, hapart⟩

section Outcomes

variable {base ours theirs : Bytes} {options : ContentMergeOptions} {room : Prop}

theorem mergeChangeLists_fits {oursChanges theirsChanges : List Change}
    (hours : Patches base ours (oursChanges.map patch))
    (htheirs : Patches base theirs (theirsChanges.map patch))
    (hroom : room → Room base options ⟨oursChanges, theirsChanges, 0, [], []⟩
      options.limits.maxWorkSteps) :
    Fits room .malformedDiffHunk (mergeChangeLists base options oursChanges theirsChanges)
      fun outcome => ∃ segments, Divides base ours theirs segments ∧
        Merges options.profile.conflictStyle segments outcome := by
  have hstart : Merging base ours theirs options.profile.conflictStyle
      ⟨oursChanges, theirsChanges, 0, [], []⟩ [] :=
    { ours_sorted := hours.sorted
      theirs_sorted := htheirs.sorted
      ours_stop := forall_mem_map.mp hours.stop_le
      theirs_stop := forall_mem_map.mp htheirs.stop_le
      ours_effective := hours.effective
      theirs_effective := htheirs.effective
      cursor_le := zero_le _
      base_eq := (slice_self base 0).symm
      ours_eq := hours.patched
      theirs_eq := htheirs.patched
      output_eq := rfl
      conflicts_eq := rfl
      apart := .nil
      before := by simp
      fresh := fun h => absurd rfl h }
  refine (mergeLoop_fits ⟨⟨[], hstart⟩, hroom⟩).bind fun s hs => ?_
  obtain ⟨⟨segments, hmerging⟩, ⟨hoursDone, htheirsDone⟩, houtput⟩ := hs
  have hoursEq := hmerging.ours_eq
  have htheirsEq := hmerging.theirs_eq
  rw [hoursDone] at hoursEq
  rw [htheirsDone] at htheirsEq
  have hlast : ¬ (untouched base s.cursor base.length).Conflicts := fun hc => hc.1 rfl
  have hblocks : conflictsAt 0 (segments ++ [untouched base s.cursor base.length])
      = conflictsAt 0 segments := by
    rw [conflictsAt_append, conflictsAt, if_neg hlast, nil_append, conflictsAt, append_nil]
  refine (appendBase_fits hmerging.cursor_le le_rfl fun r => ?_).bind fun output hout => ?_
  · rw [length_append, length_slice le_rfl]
    exact houtput r
  have hdivides : Divides base ours theirs (segments ++ [untouched base s.cursor base.length]) := by
    refine ⟨?_, ?_, ?_⟩
    · rw [flatMap_append, hmerging.base_eq, flatMap_singleton]
      exact (slice_append base (zero_le _) hmerging.cursor_le).trans (slice_whole base)
    · rw [flatMap_append, flatMap_singleton]
      exact hoursEq
    · rw [flatMap_append, flatMap_singleton]
      exact htheirsEq
  refine ⟨_, hdivides, .of_parts ?_ ?_ hmerging.apart⟩
  · have hgap : (untouched base s.cursor base.length).merged
        (render options.profile.conflictStyle) = slice base s.cursor base.length :=
      merged_of_ours _ rfl
    rw [flatMap_append, flatMap_singleton, ← hmerging.output_eq, hout, hgap]
  · rw [hblocks]
    exact hmerging.conflicts_eq

/-- One segment that one rule decides. -/
theorem cleanResult_fits {bytes : Bytes} (s : Segment UInt8)
    (hbytes : s.merged (render options.profile.conflictStyle) = bytes) (hclean : ¬ s.Conflicts)
    (hroom : room → bytes.length ≤ options.limits.maxOutputBytes) :
    Fits room .malformedDiffHunk (cleanResult bytes options.limits.maxOutputBytes)
      fun outcome => ∃ segments, Divides s.base s.ours s.theirs segments ∧
        Merges options.profile.conflictStyle segments outcome := by
  refine .refuseIf_bind (by simp) (fun r => not_lt.mpr (hroom r))
    ⟨[s], ⟨?_, ?_, ?_⟩, ?_⟩
  · exact flatMap_singleton _ _
  · exact flatMap_singleton _ _
  · exact flatMap_singleton _ _
  · have hnone : conflictsAt 0 [s] = [] :=
      (conflictsAt_eq_nil_iff 0 [s]).mpr fun s' hs' => mem_singleton.mp hs' ▸ hclean
    have hmerged : bytes = [s].flatMap (merged (render options.profile.conflictStyle)) :=
      hbytes.symm.trans (flatMap_singleton _ _).symm
    have hparts : Merges _ [s] (if ([] : List ContentConflict) = [] then _ else _) :=
      .of_parts hmerged (by rw [hnone]; rfl) .nil
    exact hparts

/-- Limits that a merge does not reach. -/
structure Ample (base ours theirs : Bytes) (options : ContentMergeOptions)
    (oursDiff theirsDiff : DiffResult) : Prop where
  ours_ok : diff base ours options.profile.diffOptions = .ok oursDiff
  theirs_ok : diff base theirs options.profile.diffOptions = .ok theirsDiff
  input : base.length + ours.length + theirs.length ≤ options.limits.maxInputBytes
  output : base.length + ours.length + theirs.length + 49 * oursDiff.hunks.length
    ≤ options.limits.maxOutputBytes
  hunks : oursDiff.hunks.length + theirsDiff.hunks.length ≤ options.limits.maxHunks
  conflicts : oursDiff.hunks.length ≤ options.limits.maxConflicts
  work : oursDiff.hunks.length + theirsDiff.hunks.length ≤ options.limits.maxWorkSteps

theorem diff_fits {old new : Bytes} {diffOptions : DiffOptions} {r : DiffResult}
    (hroom : room → diff old new diffOptions = .ok r) :
    Fits room .malformedDiffHunk ((diff old new diffOptions).mapError ContentMergeError.diff)
      fun r' => Patches old new (r'.hunks.map DiffHunk.replacement) ∧ (room → r' = r) := by
  cases hdiff : diff old new diffOptions with
  | error e => exact ⟨by simp, fun h => by cases hdiff.symm.trans (hroom h)⟩
  | ok r' => exact ⟨(diff_eq_ok hdiff).patches, fun h => Except.ok.inj (hdiff.symm.trans (hroom h))⟩

theorem mergeOutcome_fits (oursDiff theirsDiff : DiffResult) (hbase : ¬ isBinary base)
    (hours : ¬ isBinary ours) (htheirs : ¬ isBinary theirs) :
    Fits (Ample base ours theirs options oursDiff theirsDiff) .malformedDiffHunk
      (mergeOutcome base ours theirs options) fun outcome =>
        ∃ segments, Divides base ours theirs segments ∧
          Merges options.profile.conflictStyle segments outcome := by
  refine .refuseIf_bind (by simp) (fun r => not_lt.mpr r.input) ?_
  have hfits : Ample base ours theirs options oursDiff theirsDiff →
      ours.length ≤ options.limits.maxOutputBytes ∧
        theirs.length ≤ options.limits.maxOutputBytes := by
    intro r
    have houtput := r.output
    omega
  split
  · next hsame =>
    exact cleanResult_fits ⟨base, ours, theirs⟩ (merged_of_same _ hsame)
      (fun hc => hc.2.2 hsame) fun r => (hfits r).1
  split
  · next hsame =>
    exact cleanResult_fits ⟨base, ours, theirs⟩ (merged_of_ours _ hsame.symm)
      (fun hc => hc.1 hsame.symm) fun r => (hfits r).2
  split
  · next hsame =>
    exact cleanResult_fits ⟨base, ours, theirs⟩ (merged_of_theirs _ hsame.symm)
      (fun hc => hc.2.1 hsame.symm) fun r => (hfits r).1
  rw [if_neg (by tauto)]
  refine (diff_fits fun r => r.ours_ok).bind fun oursResult hoursResult => ?_
  refine (diff_fits fun r => r.theirs_ok).bind fun theirsResult htheirsResult => ?_
  obtain ⟨hoursPatches, hoursResult⟩ := hoursResult
  obtain ⟨htheirsPatches, htheirsResult⟩ := htheirsResult
  refine (changesFromHunks_fits hoursPatches fun r => ?_).bind fun oursChanges hoursChanges => ?_
  · rw [hoursResult r]
    exact (le_add_right _ _).trans r.hunks
  refine (changesFromHunks_fits htheirsPatches fun r => ?_).bind
    fun theirsChanges htheirsChanges => ?_
  · rw [htheirsResult r]
    exact (le_add_left _ _).trans r.hunks
  rw [← hoursChanges] at hoursPatches
  rw [← htheirsChanges] at htheirsPatches
  refine mergeChangeLists_fits hoursPatches htheirsPatches fun r => ?_
  have hoursCount : oursChanges.length = oursDiff.hunks.length := by
    rw [← length_map patch, hoursChanges, length_map, hoursResult r]
  have htheirsCount : theirsChanges.length = theirsDiff.hunks.length := by
    rw [← length_map patch, htheirsChanges, length_map, htheirsResult r]
  refine ⟨?_, ?_, ?_⟩
  · dsimp only
    rw [hoursPatches.patched, htheirsPatches.patched, hoursCount, length_nil, zero_add,
      Nat.sub_zero]
    exact r.output
  · dsimp only
    rw [hoursCount, length_nil, zero_add]
    exact r.conflicts
  · dsimp only
    rw [hoursCount, htheirsCount]
    exact r.work

end Outcomes

/-- A content merge divides the three versions into segments and merges them one
by one.  With room it has an answer, and no hunk is ever malformed. -/
theorem mergeContent_diff3 (base ours theirs : Bytes) (hbase : 0 ∉ base) (hours : 0 ∉ ours)
    (htheirs : 0 ∉ theirs) (profile : MergeProfile) :
    (∀ limits r, mergeContent base ours theirs ⟨profile, limits⟩ = .ok r →
      ∃ segments, Divides base ours theirs segments ∧
        Merges profile.conflictStyle segments r.outcome) ∧
    (∀ limits, mergeContent base ours theirs ⟨profile, limits⟩ ≠ .error .malformedDiffHunk) ∧
    ∃ enough : ℕ, ∀ (diffLimits : DiffLimits) (limits : ContentMergeLimits),
      diffLimits.maxTraceCells = profile.diffOptions.limits.maxTraceCells →
      (∀ limit ∈ [diffLimits.maxInputBytes, diffLimits.maxUnits, diffLimits.maxWork,
        limits.maxInputBytes, limits.maxOutputBytes, limits.maxHunks, limits.maxConflicts,
        limits.maxWorkSteps], enough ≤ limit) →
      ∃ r, mergeContent base ours theirs
        ⟨{ profile with diffOptions := { profile.diffOptions with limits := diffLimits } }, limits⟩
          = .ok r := by
  obtain ⟨oursWork, oursDiff, hoursDiff⟩ := diff_of_room base ours profile.diffOptions
  obtain ⟨theirsWork, theirsDiff, htheirsDiff⟩ := diff_of_room base theirs profile.diffOptions
  have hfits : ∀ options, Fits (Ample base ours theirs options oursDiff theirsDiff)
      .malformedDiffHunk (mergeContent base ours theirs options) fun r =>
        ∃ segments, Divides base ours theirs segments ∧
          Merges options.profile.conflictStyle segments r.outcome := fun options =>
    (mergeOutcome_fits oursDiff theirsDiff hbase hours htheirs).bind fun _ houtcome => houtcome
  refine ⟨fun limits r h => ?_, fun limits => ?_, ?_⟩
  · exact (hfits ⟨profile, limits⟩).answer h
  · exact (hfits ⟨profile, limits⟩).ne_bad
  · let count (bytes : Bytes) : ℕ := (units bytes profile.diffOptions.granularity).length
    refine ⟨base.length + ours.length + theirs.length + (count base + count ours + count theirs)
      + (oursWork + theirsWork) + 49 * (oursDiff.hunks.length + theirsDiff.hunks.length),
      fun diffLimits limits hcells henough => ?_⟩
    simp only [forall_mem_cons, not_mem_nil, false_imp_iff, implies_true, and_true] at henough
    refine (hfits _).exists_ok ⟨hoursDiff diffLimits hcells ?_ ?_ ?_,
      htheirsDiff diffLimits hcells ?_ ?_ ?_, ?_, ?_, ?_, ?_, ?_⟩
    all_goals dsimp only [count] at *; omega

/-- Both sides change the second line, and one side adds a last one. -/
theorem mergeContent_diff3_lines :
    let profile : MergeProfile :=
      ⟨1, ⟨.myersMinimal, .lines, ⟨100, 100, 1000, 1000⟩⟩, .markerV1, .requireSingle⟩
    let limits : ContentMergeLimits := ⟨100, 100, 100, 100, 100⟩
    ∃ r, mergeContent [1, 10, 2, 10, 3, 10] [1, 10, 4, 10, 3, 10] [1, 10, 5, 10, 3, 10, 6, 10]
        ⟨profile, limits⟩ = .ok r ∧ r.outcome.conflicts.map ContentConflict.recorded
          = [(⟨2, 4⟩, [2, 10], [4, 10], [5, 10])] ∧
      ∃ segments, Divides [1, 10, 2, 10, 3, 10] [1, 10, 4, 10, 3, 10] [1, 10, 5, 10, 3, 10, 6, 10]
        segments ∧ Merges profile.conflictStyle segments r.outcome := by
  intro profile limits
  have hrun : (mergeContent [1, 10, 2, 10, 3, 10] [1, 10, 4, 10, 3, 10]
      [1, 10, 5, 10, 3, 10, 6, 10] ⟨profile, limits⟩).toOption.map
        (fun r => r.outcome.conflicts.map recorded)
          = some [(⟨2, 4⟩, [2, 10], [4, 10], [5, 10])] := by decide +kernel
  obtain ⟨r, h, hrecorded⟩ := exists_ok_of_toOption hrun
  exact ⟨r, h, hrecorded,
    (mergeContent_diff3 _ _ _ (by decide) (by decide) (by decide) profile).1 limits r h⟩

end Frankengit.Merge
