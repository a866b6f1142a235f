/-
Frankengit/Diff/Correct.lean

`diff` as a whole (crate `fgit-diff`), for every profile, granularity and set of
limits.

* `diff_correct` — a result replays to the new bytes, its spans tile both
  sequences, and its hunks are the changes, with an equal unit between any two;
  no script is malformed, and limits that do not bind do not matter.
* `diff_minimal_lcs` — the minimal profile keeps a longest common subsequence.

The budget never decides what is computed (`computeDiff_gives`), so the two
statements need no case for it.
-/
import Frankengit.Diff.Result

namespace Frankengit.Diff

open Alignment WorkBudget Fallible List Nat Region

section Definitions

variable (old new : TokenStream) (options : DiffOptions)

/-- The whole of two sequences. -/
def Region.whole : Region := ⟨0, old.tokens.length, 0, new.tokens.length⟩

def computeAtoms : Budgeted (List AtomicEdit × DiffAlgorithm) :=
  let r := .whole old new
  let maxTraceCells := options.limits.maxTraceCells
  match options.profile with
  | .myersMinimal => minimalAtoms old new r maxTraceCells
  | .patience => do
    let atoms ← patienceAtoms old new maxTraceCells (r.oldLen + 1) r
    return (atoms, .patienceAnchored)
  | .histogram => do
    let atoms ← histogramAtoms old new maxTraceCells (r.oldLen + 1) r
    return (atoms, .histogramAnchored)

def computeDiff : Budgeted DiffResult := do
  let (atoms, algorithm) ← computeAtoms old new options
  consume atoms.length
  let edits ← materializeEdits old new atoms
  return ⟨options.profile, options.granularity, algorithm, edits⟩

end Definitions

/-- A bounded deterministic diff. -/
def diff (old new : Bytes) (options : DiffOptions) : Except DiffError DiffResult := do
  let totalBytes := old.length + new.length
  refuseIf (options.limits.maxInputBytes < totalBytes)
    (.inputBytesExceeded options.limits.maxInputBytes totalBytes)
  let totalUnits := unitCount old options.granularity + unitCount new options.granularity
  refuseIf (options.limits.maxUnits < totalUnits)
    (.unitsExceeded options.limits.maxUnits totalUnits)
  let oldTokens := .new old options.granularity
  let newTokens := .new new options.granularity
  let (result, _) ← (computeDiff oldTokens newTokens options).run (.new options.limits.maxWork)
  return result

/-- The units of a byte string. -/
abbrev units (bytes : Bytes) (granularity : SequenceGranularity) : List Bytes :=
  (TokenStream.new bytes granularity).units

/-! ### Units -/

theorem length_lineTokensFrom {start offset : ℕ} (bytes : Bytes) (h : start ≤ offset) :
    (lineTokensFrom start offset bytes).length = bytes.count 10 +
      (if bytes.getLast? ≠ some 10 ∧ (bytes ≠ [] ∨ start < offset) then 1 else 0) := by
  induction bytes generalizing start offset with
  | nil =>
    rw [lineTokensFrom]
    split <;> simp_all
  | cons byte rest ih =>
    rw [lineTokensFrom]
    split
    · next hbyte =>
      rw [length_cons, ih le_rfl, hbyte, count_cons_self]
      cases rest with
      | nil => simp
      | cons b rest => simp; omega
    · next hbyte =>
      rw [ih (by omega), count_cons_of_ne (by simpa using hbyte)]
      cases rest with
      | nil => simp [hbyte, lt_succ_of_le h]
      | cons b rest => simp

@[simp] theorem length_units_new (bytes : Bytes) (granularity : SequenceGranularity) :
    (units bytes granularity).length = unitCount bytes granularity := by
  cases granularity with
  | bytes => simp [units, TokenStream.new, byteTokens, unitCount]
  | lines =>
    rw [units, TokenStream.length_units]
    show (lineTokensFrom 0 0 bytes).length = _
    rw [length_lineTokensFrom bytes le_rfl]
    simp [unitCount]

@[simp] theorem bytes_new (bytes : Bytes) (granularity : SequenceGranularity) :
    (TokenStream.new bytes granularity).bytes = bytes := by
  cases granularity <;> rfl

/-! ### What is computed -/

section Computed

variable {old new : TokenStream}

theorem Region.within_whole : (whole old new).Within old new :=
  ⟨zero_le _, le_rfl, zero_le _, le_rfl⟩

/-- A result between two sequences.  The minimal profile keeps the most. -/
structure Computed (old new : TokenStream) (options : DiffOptions) (result : DiffResult) :
    Prop where
  edits : Edits old new 0 0 result.edits
  script : Script (Same old.units new.units) 0 0 old.tokens.length new.tokens.length
    (result.edits.map Edit.step)
  tight : Tight old.units new.units 0 0 (result.edits.map Edit.step)
  least : options.profile = .myersMinimal →
    kept (result.edits.map Edit.step) = lcs old.units new.units

theorem computeAtoms_gives (old new : TokenStream) (options : DiffOptions) :
    Gives (computeAtoms old new options) fun p =>
      Solves old new (.whole old new) p.1 ∧
        (options.profile = .myersMinimal → Optimal old new (.whole old new) p.1) := by
  have hr : (whole old new).Within old new := within_whole
  rw [computeAtoms]
  cases options.profile with
  | myersMinimal =>
    exact (minimalAtoms_gives hr _).mono fun p hp => ⟨hp.solves hr, fun _ => hp⟩
  | patience =>
    exact (patienceAtoms_gives _ hr (lt_succ_self _)).bind fun atoms hatoms =>
      Gives.pure ⟨hatoms, fun h => nomatch h⟩
  | histogram =>
    exact (histogramAtoms_gives _ hr (lt_succ_self _)).bind fun atoms hatoms =>
      Gives.pure ⟨hatoms, fun h => nomatch h⟩

theorem computeDiff_gives (old new : TokenStream) (options : DiffOptions) :
    Gives (computeDiff old new options) (Computed old new options) := by
  refine (computeAtoms_gives old new options).bind ?_
  rintro ⟨atoms, algorithm⟩ ⟨hsolves, hoptimal⟩
  obtain ⟨edits, heq, hedits, hsteps⟩ := materializeFrom_eq hsolves.script
  change materializeFrom old new 0 0 atoms = .ok edits at heq
  refine .pay ?_
  rw [materializeEdits, heq]
  refine .pure ⟨hedits, hsteps ▸ hsolves.script, hsteps ▸ hsolves.tight, fun hprofile => ?_⟩
  rw [hsteps, (hoptimal hprofile).kept_eq]
  show lcs (slice old.units 0 old.tokens.length) (slice new.units 0 new.tokens.length) = _
  simp only [slice, drop_zero, Nat.sub_zero, ← TokenStream.length_units, take_length]

end Computed

/-! ### The two sides of the budget -/

section Diff

variable {old new : Bytes} {options : DiffOptions} {r : DiffResult}

theorem diff_eq_ok (h : diff old new options = .ok r) :
    Computed (.new old options.granularity) (.new new options.granularity) options r := by
  simp only [diff, bind_eq_ok, refuseIf_eq_ok, pure_eq_ok] at h
  obtain ⟨-, -, -, -, ⟨result, b⟩, hrun, rfl⟩ := h
  exact (computeDiff_gives _ _ options).answer hrun

theorem diff_eq_error {e : DiffError} (h : diff old new options = .error e) :
    e = .inputBytesExceeded options.limits.maxInputBytes (old.length + new.length) ∨
      e = .unitsExceeded options.limits.maxUnits
        (unitCount old options.granularity + unitCount new options.granularity) ∨
      e = .workExceeded options.limits.maxWork := by
  rw [diff] at h
  by_cases hbytes : options.limits.maxInputBytes < old.length + new.length
  · simp only [refuseIf, if_pos hbytes] at h
    cases h
    exact .inl rfl
  simp only [refuseIf, if_neg hbytes] at h
  by_cases hunits : options.limits.maxUnits <
      unitCount old options.granularity + unitCount new options.granularity
  · simp only [if_pos hunits] at h
    cases h
    exact .inr (.inl rfl)
  simp only [if_neg hunits] at h
  cases hrun : (computeDiff (.new old options.granularity) (.new new options.granularity)
      options).run (.new options.limits.maxWork) with
  | error e' =>
    rw [hrun] at h
    cases h
    exact .inr (.inr ((computeDiff_gives _ _ options).failure hrun))
  | ok p =>
    rw [hrun] at h
    cases h

/-- Limits that are not reached do not matter. -/
theorem diff_of_room (old new : Bytes) (options : DiffOptions) :
    ∃ work r, ∀ limits : DiffLimits, limits.maxTraceCells = options.limits.maxTraceCells →
      old.length + new.length ≤ limits.maxInputBytes →
      (units old options.granularity).length + (units new options.granularity).length
        ≤ limits.maxUnits → work ≤ limits.maxWork →
      diff old new { options with limits := limits } = .ok r := by
  obtain ⟨work, r, htakes, -⟩ := computeDiff_gives (.new old options.granularity)
    (.new new options.granularity) options
  refine ⟨work, r, fun limits hcells hbytes hunits hwork => ?_⟩
  rw [length_units_new, length_units_new] at hunits
  have hrun := htakes.eq_ok (b := .new limits.maxWork) hwork
  have hsame : computeDiff (.new old options.granularity) (.new new options.granularity)
      { options with limits := limits } = computeDiff (.new old options.granularity)
        (.new new options.granularity) options := by
    simp only [computeDiff, computeAtoms, hcells]
  simp only [diff, refuseIf, if_neg (not_lt.mpr hbytes), if_neg (not_lt.mpr hunits), hsame,
    StateT.run, hrun]
  rfl

/-- Diffs are correct. -/
theorem diff_correct (old new : Bytes) (options : DiffOptions) :
    diff old new options ≠ .error .malformedScript ∧
    (∀ r, diff old new options = .ok r →
      r.applyTo old = .ok new ∧
      Abut 0 0 (r.edits.map Edit.oldSpan) old.length (units old options.granularity).length ∧
      Abut 0 0 (r.edits.map Edit.newSpan) new.length (units new options.granularity).length ∧
      (∀ s t, Edit.equal s t ∈ r.edits → ∃ unit,
        (units old options.granularity)[s.unitStart]? = some unit ∧
        (units new options.granularity)[t.unitStart]? = some unit ∧
        s.unitEnd = s.unitStart + 1 ∧ t.unitEnd = t.unitStart + 1 ∧
        slice old s.byteStart s.byteEnd = unit ∧ slice new t.byteStart t.byteEnd = unit) ∧
      r.hunks.flatMap DiffHunk.edits = r.edits.filter (fun e => !e.isEqual) ∧
      (∀ hunk ∈ r.hunks, hunk.Covers) ∧
      r.hunks.IsChain (Apart r.edits)) ∧
    ∃ work, ∀ limits : DiffLimits, limits.maxTraceCells = options.limits.maxTraceCells →
      old.length + new.length ≤ limits.maxInputBytes →
      (units old options.granularity).length + (units new options.granularity).length
        ≤ limits.maxUnits → work ≤ limits.maxWork →
      ∃ r, diff old new { options with limits := limits } = .ok r := by
  refine ⟨fun h => ?_, fun r h => ?_, ?_⟩
  · rcases diff_eq_error h with h | h | h <;> cases h
  · have hedits := (diff_eq_ok h).edits
    have hold := hedits.old_abut
    have hnew := hedits.new_abut
    have hgrouped := (grouped_hunksFrom hold hnew).1
    have hrelates := hedits.relates
    have happly := applyFrom_eq hedits
    have hapart := hgrouped.apart hrelates hold hnew
    rw [TokenStream.byteOffsetAt_zero, ← TokenStream.length_units] at hold hnew
    rw [TokenStream.byteOffsetAt_zero, TokenStream.byteOffsetAt_zero, bytes_new, bytes_new]
      at happly
    rw [bytes_new] at hold hnew
    refine ⟨?_, hold, hnew, fun s t hmem => ?_, hgrouped.flatMap_edits, hgrouped.covers, hapart⟩
    · rw [DiffResult.applyTo, happly, slice, drop_zero, Nat.sub_zero, take_length]
    · obtain ⟨hs, ht, -, -, unit, hi, hj, hbytes, hbytes'⟩ := hrelates _ hmem
      rw [bytes_new] at hbytes hbytes'
      exact ⟨unit, hi, hj, hs, ht, hbytes, hbytes'⟩
  · obtain ⟨work, r, hroom⟩ := diff_of_room old new options
    exact ⟨work, fun limits h₁ h₂ h₃ h₄ => ⟨r, hroom limits h₁ h₂ h₃ h₄⟩⟩

/-- The minimal profile keeps a longest common subsequence, and so changes as
little as can be. -/
theorem diff_minimal_lcs (old new : Bytes) (options : DiffOptions)
    (hprofile : options.profile = .myersMinimal) (r : DiffResult)
    (h : diff old new options = .ok r) :
    (∃ common : List Bytes, common.Sublist (units old options.granularity) ∧
      common.Sublist (units new options.granularity) ∧
      common.length = (r.edits.filter Edit.isEqual).length) ∧
    (∀ common : List Bytes, common.Sublist (units old options.granularity) →
      common.Sublist (units new options.granularity) →
      common.length ≤ (r.edits.filter Edit.isEqual).length) ∧
    2 * (r.edits.filter Edit.isEqual).length + (r.edits.filter fun e => !e.isEqual).length
      = (units old options.granularity).length + (units new options.granularity).length := by
  have hcomputed := diff_eq_ok h
  have hposs := hcomputed.script.positions
  rw [kept_steps, changed_steps] at hposs
  have hcount : (r.edits.filter Edit.isEqual).length
      = lcs (units old options.granularity) (units new options.granularity) := by
    rw [← kept_steps]
    exact hcomputed.least hprofile
  refine ⟨?_, ?_, ?_⟩
  · rw [hcount]
    exact exists_common _ _
  · rw [hcount]
    exact fun common hold hnew => length_le_lcs hold hnew
  · rw [TokenStream.length_units, TokenStream.length_units]
    omega

/-- Minimal scripts of two short byte strings, with and without room for the
trace. -/
theorem diff_minimal_lcs_short :
    let traced : DiffOptions := ⟨.myersMinimal, .bytes, ⟨10, 10, 100, 100⟩⟩
    let refined : DiffOptions := ⟨.myersMinimal, .bytes, ⟨10, 10, 100, 0⟩⟩
    (∃ r, diff [1, 2, 3] [2, 4] traced = .ok r ∧ r.algorithm = .myersTrace ∧
      2 * (r.edits.filter Edit.isEqual).length + (r.edits.filter fun e => !e.isEqual).length = 5) ∧
    ∃ r, diff [1, 2, 3] [2, 4] refined = .ok r ∧ r.algorithm = .myersLinearRefinement ∧
      2 * (r.edits.filter Edit.isEqual).length +
        (r.edits.filter fun e => !e.isEqual).length = 5 := by
  intro traced refined
  have htraced : (diff [1, 2, 3] [2, 4] traced).toOption.map DiffResult.algorithm
      = some .myersTrace := by decide +kernel
  have hrefined : (diff [1, 2, 3] [2, 4] refined).toOption.map DiffResult.algorithm
      = some .myersLinearRefinement := by decide +kernel
  obtain ⟨r, h, halg⟩ := exists_ok_of_toOption htraced
  obtain ⟨r', h', halg'⟩ := exists_ok_of_toOption hrefined
  exact ⟨⟨r, h, halg, (diff_minimal_lcs _ _ traced rfl r h).2.2⟩,
    r', h', halg', (diff_minimal_lcs _ _ refined rfl r' h').2.2⟩

end Diff

end Frankengit.Diff
