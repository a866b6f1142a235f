/-
Frankengit/Diff/Trace.lean

The Myers trace (crate `fgit-diff`): the greedy search of the edit graph by
diagonals, the frontiers it saves on the way, and the script that is read back
from them.

A frontier is a function of the diagonal.  The source's vector of width
`2 * max + 3` is indexed by `offset + diagonal` with `offset = max + 1`, and
the diagonals that are read and written lie between `-max - 1` and `max + 1`.

The library `EditGraph` knows what the furthest points are; the proofs here
say that the sweeps compute them (`sweep_gives`), that the search therefore
stops at the least cost (`searchDistances_gives`), and that the saved frontiers
lead back along a script of that cost (`backtrack_script`).
-/
import Frankengit.Diff.Basic
import Frankengit.Lib.EditGraph
import Frankengit.Lib.Fallible
import Mathlib.Data.List.GetD

namespace Frankengit.Diff

open Alignment EditGraph WorkBudget Fallible List Nat TokenStream Function

/-- The parts of the two sequences that are compared. -/
structure Region where
  oldStart : ℕ
  oldEnd : ℕ
  newStart : ℕ
  newEnd : ℕ
deriving DecidableEq

namespace Region

def oldLen (r : Region) : ℕ := r.oldEnd - r.oldStart

def newLen (r : Region) : ℕ := r.newEnd - r.newStart

/-- The region lies within the sequences. -/
structure Within (r : Region) (old new : TokenStream) : Prop where
  old_le : r.oldStart ≤ r.oldEnd
  old_end : r.oldEnd ≤ old.tokens.length
  new_le : r.newStart ≤ r.newEnd
  new_end : r.newEnd ≤ new.tokens.length

variable {r : Region} {old new : TokenStream}

theorem Within.old_units (hr : r.Within old new) : r.oldEnd ≤ old.units.length :=
  (length_units old).symm ▸ hr.old_end

theorem Within.new_units (hr : r.Within old new) : r.newEnd ≤ new.units.length :=
  (length_units new).symm ▸ hr.new_end

end Region

/-- The furthest old-side position of each diagonal. -/
abbrev Frontier := ℤ → ℤ

section Search

variable (old new : TokenStream) (r : Region)

/-! ### The search -/

/-- Consume equal tokens. -/
def extendSnake (oldIndex newIndex : ℤ) : Budgeted (ℤ × ℤ) :=
  if oldIndex < r.oldLen ∧ newIndex < r.newLen then do
    let i ← toIndex oldIndex
    let j ← toIndex newIndex
    if old.equal (r.oldStart + i) new (r.newStart + j) then
      consume 1
      extendSnake (oldIndex + 1) (newIndex + 1)
    else
      return (oldIndex, newIndex)
  else
    return (oldIndex, newIndex)
termination_by (r.oldLen - oldIndex).toNat

/-- The diagonals of one distance. -/
def diagonals (distance : ℕ) : List ℤ :=
  ((range (2 * distance + 1)).map fun i : ℕ => (i : ℤ) - distance).filter
    fun diagonal => (diagonal + distance) % 2 = 0

/-- Advance the diagonals that are left.  The answer says whether the far
corner was reached. -/
def sweep (distance : ℕ) : List ℤ → Frontier → Budgeted (Bool × Frontier)
  | [], frontier => return (false, frontier)
  | diagonal :: rest, frontier => do
    let start := startFrom distance frontier diagonal
    let (oldIndex, newIndex) ← extendSnake old new r start (start - diagonal)
    let frontier := update frontier diagonal oldIndex
    if oldIndex = r.oldLen ∧ newIndex = r.newLen then return (true, frontier)
    else sweep distance rest frontier

/-! ### The way back -/

/-- Step back along a diagonal while both sides are past a point. -/
def retreat (floorOld floorNew oldIndex newIndex : ℤ) (script : List AtomicEdit) :
    Except DiffError ((ℤ × ℤ) × List AtomicEdit) :=
  if floorOld < oldIndex ∧ floorNew < newIndex then do
    let i ← toIndex (oldIndex - 1)
    let j ← toIndex (newIndex - 1)
    retreat floorOld floorNew (oldIndex - 1) (newIndex - 1)
      (.equal (r.oldStart + i) (r.newStart + j) :: script)
  else
    return ((oldIndex, newIndex), script)
termination_by (oldIndex - floorOld).toNat

/-- What is left of the old side is deleted. -/
def retreatOld (oldIndex : ℤ) (script : List AtomicEdit) : Except DiffError (List AtomicEdit) :=
  if 0 < oldIndex then do
    let i ← toIndex (oldIndex - 1)
    retreatOld (oldIndex - 1) (.delete (r.oldStart + i) :: script)
  else
    return script
termination_by oldIndex.toNat

/-- What is left of the new side is inserted. -/
def retreatNew (newIndex : ℤ) (script : List AtomicEdit) : Except DiffError (List AtomicEdit) :=
  if 0 < newIndex then do
    let j ← toIndex (newIndex - 1)
    retreatNew (newIndex - 1) (.insert (r.newStart + j) :: script)
  else
    return script
termination_by newIndex.toNat

/-- Read the script back from a point at a distance.  It is built from its
end, so that it need not be reversed. -/
def backtrackMyers (trace : List Frontier) :
    ℕ → ℤ → ℤ → List AtomicEdit → Except DiffError (List AtomicEdit)
  | 0, oldIndex, newIndex, script => do
    let ((oldIndex, newIndex), script) ← retreat r 0 0 oldIndex newIndex script
    let script ← retreatOld r oldIndex script
    retreatNew r newIndex script
  | distance + 1, oldIndex, newIndex, script => do
    let previous := trace.getD distance fun _ => 0
    let diagonal := oldIndex - newIndex
    let previousDiagonal :=
      if TakesInsert (distance + 1) previous diagonal then diagonal + 1 else diagonal - 1
    let previousOld := previous previousDiagonal
    let previousNew := previousOld - previousDiagonal
    let ((oldIndex, newIndex), script) ← retreat r previousOld previousNew oldIndex newIndex script
    if oldIndex = previousOld then
      let j ← toIndex (newIndex - 1)
      backtrackMyers trace distance oldIndex (newIndex - 1) (.insert (r.newStart + j) :: script)
    else
      let i ← toIndex (oldIndex - 1)
      backtrackMyers trace distance (oldIndex - 1) newIndex (.delete (r.oldStart + i) :: script)

/-- Search the distances that are left.  `none` means that the trace would
exceed its limit. -/
def searchDistances (maxTraceCells width : ℕ) :
    List ℕ → Frontier → List Frontier → ℕ → Budgeted (Option (List AtomicEdit))
  | [], _, _, _ => throw .arithmeticOverflow
  | distance :: rest, frontier, trace, traceCells => do
    consume (2 * distance + 1)
    if maxTraceCells < traceCells + width then return none
    else
      let (reached, frontier) ← sweep old new r distance (diagonals distance) frontier
      if reached then
        let script ← backtrackMyers r (trace ++ [frontier]) distance r.oldLen r.newLen []
        return some script
      else
        searchDistances maxTraceCells width rest frontier (trace ++ [frontier]) (traceCells + width)

def myersTraceAtoms (maxTraceCells : ℕ) : Budgeted (Option (List AtomicEdit)) :=
  let max := r.oldLen + r.newLen
  let width := max * 2 + 3
  if maxTraceCells < width then return none
  else
    searchDistances old new r maxTraceCells width (range (max + 1)) (fun _ => 0) [] 0

end Search

/-! ### Sweeps compute furthest points -/

section Correct

variable {old new : TokenStream} {r : Region}

/-- Where the diagonals of the region's edit graph run. -/
def Region.Match (r : Region) (old new : TokenStream) (x y : ℤ) : Prop :=
  0 ≤ x ∧ x < r.oldLen ∧ 0 ≤ y ∧ y < r.newLen ∧
    old.equal (r.oldStart + x.toNat) new (r.newStart + y.toNat) = true

theorem extendSnake_gives {x y : ℤ} (hx : 0 ≤ x) (hy : 0 ≤ y) :
    Gives (extendSnake old new r x y) fun p =>
      p.2 = p.1 - (x - y) ∧ Snake (r.Match old new) (x - y) x p.1 := by
  induction hn : (r.oldLen - x).toNat generalizing x y with
  | zero =>
    rw [extendSnake, if_neg (by omega)]
    refine .pure ⟨by omega, le_rfl, fun _ _ _ => by omega, ?_⟩
    rintro ⟨-, hlt, -⟩
    omega
  | succ n ih =>
    rw [extendSnake]
    split
    · next hin =>
      rw [toIndex_of_nonneg hx, toIndex_of_nonneg hy]
      show Gives (if old.equal (r.oldStart + x.toNat) new (r.newStart + y.toNat) then _ else _) _
      split
      · next heq =>
        refine .pay ((ih (by omega) (by omega) (by omega)).mono ?_)
        rintro ⟨x', y'⟩ ⟨hy', hsnake⟩
        rw [show x + 1 - (y + 1) = x - y by ring] at hy' hsnake
        refine ⟨hy', by have := hsnake.le; omega, fun z hz hz' => ?_, hsnake.stop⟩
        rcases hz.eq_or_lt with rfl | hz
        · rw [show x - (x - y) = y by ring]
          exact ⟨hx, hin.1, hy, hin.2, heq⟩
        · exact hsnake.along z (by omega) hz'
      · next heq =>
        refine .pure ⟨by ring, le_rfl, fun _ _ _ => by omega, ?_⟩
        rintro ⟨-, -, -, -, hmatch⟩
        rw [show x - (x - y) = y by ring] at hmatch
        exact heq hmatch
    · next hout =>
      refine .pure ⟨by ring, le_rfl, fun _ _ _ => by omega, ?_⟩
      rintro ⟨-, hlt, -, hlt', -⟩
      exact hout ⟨hlt, by omega⟩

variable {k : ℤ}

theorem mem_diagonals {distance : ℕ} : k ∈ diagonals distance ↔ OnDiagonal distance k := by
  simp only [diagonals, mem_filter, mem_map, mem_range, decide_eq_true_eq, OnDiagonal]
  constructor
  · rintro ⟨⟨i, hi, rfl⟩, hparity⟩
    exact ⟨by omega, by omega, hparity⟩
  · rintro ⟨hlow, hhigh, hparity⟩
    exact ⟨⟨(k + distance).toNat, by omega, by omega⟩, hparity⟩

variable {g : Frontier}

/-- Diagonals of one distance do not look at each other. -/
theorem startFrom_congr {d : ℕ} {f : Frontier} (hk : OnDiagonal d k)
    (h : ∀ k : ℤ, (k + d) % 2 ≠ 0 → g k = f k) : startFrom d g k = startFrom d f k := by
  have hparity := hk.2.2
  have hleft : g (k - 1) = f (k - 1) := h (k - 1) (by omega)
  have habove : g (k + 1) = f (k + 1) := h (k + 1) (by omega)
  have htakes : TakesInsert d g k ↔ TakesInsert d f k := by
    rw [TakesInsert, TakesInsert, hleft, habove]
  simp only [startFrom, htakes, hleft, habove]

/-- The diagonal is advanced, and did not end in the far corner. -/
def Advanced (old new : TokenStream) (r : Region) (d : ℕ) (f g : Frontier) (k : ℤ) : Prop :=
  Snake (r.Match old new) k (startFrom d f k) (g k) ∧ ¬ (g k = r.oldLen ∧ g k - k = r.newLen)

theorem sweep_gives {d : ℕ} {f : Frontier}
    (hstart : ∀ k, OnDiagonal d k → 0 ≤ startFrom d f k ∧ 0 ≤ startFrom d f k - k)
    (rest done : List ℤ) (g : Frontier) (hrest : ∀ k ∈ rest, OnDiagonal d k)
    (hother : ∀ k : ℤ, (k + d) % 2 ≠ 0 → g k = f k)
    (hdone : ∀ k ∈ done, Advanced old new r d f g k) : Gives (sweep old new r d rest g) fun p =>
      if p.1 then OnDiagonal d (r.oldLen - r.newLen) ∧
        Snake (r.Match old new) (r.oldLen - r.newLen) (startFrom d f (r.oldLen - r.newLen)) r.oldLen
      else ∀ k ∈ done ++ rest, Advanced old new r d f p.2 k := by
  induction rest generalizing done g with
  | nil =>
    refine .pure ?_
    rw [append_nil, if_neg Bool.false_ne_true]
    exact hdone
  | cons k rest ih =>
    have hk := hrest k (by simp)
    obtain ⟨hx, hy⟩ := hstart k hk
    rw [sweep]
    simp only [startFrom_congr hk hother]
    refine (extendSnake_gives hx hy).bind ?_
    rintro ⟨x, y⟩ ⟨hy', hsnake⟩
    rw [show startFrom d f k - (startFrom d f k - k) = k by ring] at hy' hsnake
    obtain rfl : y = x - k := hy'
    split
    · next hcorner =>
      obtain ⟨rfl, hcorner⟩ := hcorner
      obtain rfl : k = r.oldLen - r.newLen := by omega
      exact .pure ⟨hk, hsnake⟩
    · next hcorner =>
      refine (ih (done ++ [k]) _ (fun k' hk' => hrest k' (by simp [hk'])) ?_ ?_).mono ?_
      · intro k' hk'
        rw [update_of_ne, hother k' hk']
        rintro rfl
        exact hk' hk.2.2
      · intro k' hk'
        by_cases heq : k' = k
        · subst heq
          rw [Advanced, update_self]
          exact ⟨hsnake, hcorner⟩
        · rw [Advanced, update_of_ne heq]
          refine hdone k' ?_
          simpa [heq] using hk'
      · intro p hp
        rwa [append_assoc, singleton_append] at hp

/-! ### The trace -/

/-- The frontier of a stage. -/
abbrev stage (trace : List Frontier) (d : ℕ) : Frontier := trace.getD d fun _ => 0

/-- Where a diagonal starts at a stage. -/
def stageStart (trace : List Frontier) : ℕ → ℤ → ℤ
  | 0, _ => 0
  | d + 1, k => startFrom (d + 1) (stage trace d) k

/-- The first `d` frontiers are those of a search. -/
def Staged (M : ℤ → ℤ → Prop) (d : ℕ) (trace : List Frontier) : Prop :=
  ∀ c < d, ∀ k, OnDiagonal c k → Snake M k (stageStart trace c k) (stage trace c k)

theorem onDiagonal_zero (h : OnDiagonal 0 k) : k = 0 := by
  obtain ⟨hlow, hhigh, -⟩ := h
  omega

variable {trace : List Frontier} {M : ℤ → ℤ → Prop}

theorem Staged.furthest {d c : ℕ} (h : Staged M d trace) (hc : c < d) (hk : OnDiagonal c k) :
    Furthest M c k (stage trace c k) := by
  induction c generalizing k with
  | zero =>
    obtain rfl := onDiagonal_zero hk
    exact furthest_zero (h 0 hc 0 hk)
  | succ c ih => exact .step (fun k hk => ih (by omega) hk) hk (h (c + 1) hc k hk)

theorem path_stageStart {d : ℕ} (h : Staged M d trace) (hk : OnDiagonal d k) :
    Path M d (stageStart trace d k) (stageStart trace d k - k) := by
  cases d with
  | zero =>
    obtain rfl := onDiagonal_zero hk
    exact .start
  | succ d => exact path_startFrom (fun k hk => h.furthest (lt_succ_self d) hk) hk

theorem stage_append {c : ℕ} (hc : c < trace.length) : stage (trace ++ [g]) c = stage trace c := by
  rw [stage, stage, getD_append _ _ _ _ hc]

theorem stage_last : stage (trace ++ [g]) trace.length = g := by
  rw [stage, getD_append_right _ _ _ _ le_rfl, Nat.sub_self, getD_cons_zero]

theorem stageStart_append {c : ℕ} (hc : c ≤ trace.length) (k : ℤ) :
    stageStart (trace ++ [g]) c k = stageStart trace c k := by
  cases c with
  | zero => rfl
  | succ c => rw [stageStart, stageStart, stage_append hc]

theorem Staged.weaken (h : Staged M trace.length trace) : Staged M trace.length (trace ++ [g]) := by
  intro c hc k hk
  rw [stageStart_append hc.le, stage_append hc]
  exact h c hc k hk

theorem Staged.append (h : Staged M trace.length trace)
    (hg : ∀ k, OnDiagonal trace.length k → Snake M k (stageStart trace trace.length k) (g k)) :
    Staged M (trace ++ [g]).length (trace ++ [g]) := by
  intro c hc k hk
  rw [length_append, length_singleton] at hc
  rcases Nat.lt_succ_iff_lt_or_eq.mp hc with hc | rfl
  · exact h.weaken c hc k hk
  · rw [stageStart_append le_rfl, stage_last]
    exact hg k hk

/-! ### The script is read back -/

variable (hr : r.Within old new)
include hr

/-- A match of the region is a match of the sequences. -/
theorem Region.Match.same {x y : ℤ} (h : r.Match old new x y) :
    Same old.units new.units (r.oldStart + x.toNat) (r.newStart + y.toNat) := by
  obtain ⟨hx, hxn, hy, hym, heq⟩ := h
  have hold := hr.old_end
  have hnew := hr.new_end
  rw [Region.oldLen] at hxn
  rw [Region.newLen] at hym
  exact (equal_iff (by omega) (by omega)).mp heq

/-- What is left of a script from a point of the region. -/
def Leads (old new : TokenStream) (r : Region) (x y : ℤ) (s : List AtomicEdit) : Prop :=
  Script (Same old.units new.units) (r.oldStart + x.toNat) (r.newStart + y.toNat)
    r.oldEnd r.newEnd s

theorem leads_corner : Leads old new r r.oldLen (r.oldLen - (r.oldLen - r.newLen)) [] := by
  have hold : r.oldStart + (r.oldLen : ℤ).toNat = r.oldEnd := by
    have hle := hr.old_le
    rw [Region.oldLen]
    omega
  have hnew : r.newStart + ((r.oldLen : ℤ) - (r.oldLen - r.newLen)).toNat = r.newEnd := by
    have hle := hr.new_le
    simp only [Region.oldLen, Region.newLen]
    omega
  rw [Leads, hold, hnew]
  exact .nil _ _

theorem retreat_eq (fx fy : ℤ) {s x : ℤ} {script : List AtomicEdit}
    (hle : s ≤ x) (halong : ∀ z, s ≤ z → z < x → r.Match old new z (z - k))
    (hfloor : fx ≤ s ∧ fy ≤ s - k ∧ (fx = s ∨ fy = s - k))
    (hscript : Leads old new r x (x - k) script) :
    ∃ script', retreat r fx fy x (x - k) script = .ok ((s, s - k), script') ∧
      Leads old new r s (s - k) script' ∧ changed script' = changed script := by
  induction hn : (x - s).toNat generalizing x script with
  | zero =>
    obtain rfl : x = s := by omega
    rw [retreat, if_neg (by omega)]
    exact ⟨script, rfl, hscript, rfl⟩
  | succ n ih =>
    have hmatch := halong (x - 1) (by omega) (by omega)
    have hx : 0 ≤ x - 1 := hmatch.1
    have hy : 0 ≤ x - 1 - k := hmatch.2.2.1
    rw [retreat, if_pos (by omega), toIndex_of_nonneg hx, toIndex_of_nonneg (by omega)]
    have hnext : Leads old new r (x - 1) (x - 1 - k)
        (.equal (r.oldStart + (x - 1).toNat) (r.newStart + (x - 1 - k).toNat) :: script) := by
      refine .equal (hmatch.same hr) ?_
      rwa [show r.oldStart + (x - 1).toNat + 1 = r.oldStart + x.toNat by omega,
        show r.newStart + (x - 1 - k).toNat + 1 = r.newStart + (x - k).toNat by omega]
    obtain ⟨script', heq, hleads, hchanged⟩ :=
      ih (by omega) (fun z hz hzx => halong z hz (by omega)) hnext (by omega)
    refine ⟨script', ?_, hleads, hchanged⟩
    rw [show x - k - 1 = x - 1 - k by ring]
    exact heq

/-- Where the search came from, the insertion or deletion that it took, and the
floors of the way back. -/
theorem backtrack_script {d : ℕ} {x : ℤ} {script : List AtomicEdit}
    (hstaged : Staged (r.Match old new) d trace) (hk : OnDiagonal d k)
    (hsnake : Snake (r.Match old new) k (stageStart trace d k) x)
    (hscript : Leads old new r x (x - k) script) :
    ∃ s, backtrackMyers r trace d x (x - k) script = .ok s ∧
      Script (Same old.units new.units) r.oldStart r.newStart r.oldEnd r.newEnd s ∧
      changed s = d + changed script := by
  induction d generalizing k x script with
  | zero =>
    obtain rfl := onDiagonal_zero hk
    obtain ⟨s, heq, hleads, hchanged⟩ := retreat_eq hr 0 0 hsnake.le hsnake.along
      ⟨le_rfl, le_rfl, .inl rfl⟩ hscript
    refine ⟨s, ?_, ?_, by rw [hchanged, zero_add]⟩
    · rw [backtrackMyers, heq]
      show (do let s ← retreatOld r 0 s; retreatNew r (0 - 0) s) = _
      rw [retreatOld, if_neg (by omega)]
      show retreatNew r (0 - 0) s = _
      rw [retreatNew, if_neg (by omega)]
      rfl
    · simpa [Leads, stageStart] using hleads
  | succ d ih =>
    have hbelow : Staged (r.Match old new) d trace := fun c hc => hstaged c (by omega)
    rw [backtrackMyers]
    simp only [show x - (x - k) = k by ring]
    by_cases hins : TakesInsert (d + 1) (stage trace d) k
    · have hback := hk.back.1 hins
      have hprev := hstaged d (lt_succ_self d) (k + 1) hback
      have hnonneg := (hstaged.furthest (lt_succ_self d) hback).path.nonneg
      rw [stageStart, startFrom, if_pos hins] at hsnake
      rw [if_pos hins]
      unfold stage at hprev hnonneg hsnake
      generalize trace.getD d (fun _ => 0) (k + 1) = p at hprev hnonneg hsnake ⊢
      obtain ⟨s, heq, hleads, hchanged⟩ := retreat_eq hr p (p - (k + 1)) hsnake.le hsnake.along
        ⟨le_rfl, by omega, .inl rfl⟩ hscript
      have hnext : Leads old new r p (p - (k + 1))
          (.insert (r.newStart + (p - (k + 1)).toNat) :: s) := by
        refine .insert ?_
        rwa [show r.newStart + (p - (k + 1)).toNat + 1 = r.newStart + (p - k).toNat by omega]
      obtain ⟨s', heq', hscript', hchanged'⟩ := ih hbelow hback hprev hnext
      refine ⟨s', ?_, hscript', by rw [hchanged', changed, hchanged]; omega⟩
      rw [heq]
      show (if p = p then _ else _) = _
      rw [if_pos rfl, show p - k - 1 = p - (k + 1) by ring, toIndex_of_nonneg hnonneg.2]
      exact heq'
    · have hback := hk.back.2 hins
      have hprev := hstaged d (lt_succ_self d) (k - 1) hback
      have hnonneg := (hstaged.furthest (lt_succ_self d) hback).path.nonneg
      rw [stageStart, startFrom, if_neg hins] at hsnake
      rw [if_neg hins]
      unfold stage at hprev hnonneg hsnake
      generalize trace.getD d (fun _ => 0) (k - 1) = p at hprev hnonneg hsnake ⊢
      obtain ⟨s, heq, hleads, hchanged⟩ := retreat_eq hr p (p - (k - 1)) hsnake.le hsnake.along
        ⟨by omega, by omega, .inr (by ring)⟩ hscript
      have hnew : p + 1 - k = p - (k - 1) := by ring
      have hnext : Leads old new r p (p - (k - 1)) (.delete (r.oldStart + p.toNat) :: s) := by
        refine .delete ?_
        rwa [show r.oldStart + p.toNat + 1 = r.oldStart + (p + 1).toNat by omega, ← hnew]
      obtain ⟨s', heq', hscript', hchanged'⟩ := ih hbelow hback hprev hnext
      refine ⟨s', ?_, hscript', by rw [hchanged', changed, hchanged]; omega⟩
      rw [heq]
      show (if p + 1 = p then _ else _) = _
      rw [if_neg (by omega), show p + 1 - 1 = p by ring, toIndex_of_nonneg hnonneg.1, hnew]
      exact heq'

/-! ### The least cost -/

omit hr in
theorem Region.match_lt {x y : ℤ} (h : r.Match old new x y) : x < r.oldLen ∧ y < r.newLen :=
  ⟨h.2.1, h.2.2.2.1⟩

/-- A script of the region that no other has fewer changes than. -/
def Least (old new : TokenStream) (r : Region) (s : List AtomicEdit) : Prop :=
  Script (Same old.units new.units) r.oldStart r.newStart r.oldEnd r.newEnd s ∧
    ∀ c < changed s, ¬ Path (r.Match old new) c r.oldLen r.newLen

theorem searchDistances_gives {maxTraceCells width : ℕ} (rest : List ℕ)
    (frontier : Frontier) (trace : List Frontier) (cells : ℕ)
    (hrest : rest = range' trace.length (r.oldLen + r.newLen + 1 - trace.length))
    (hfront : ∀ k, OnDiagonal trace.length k →
      startFrom trace.length frontier k = stageStart trace trace.length k)
    (hstaged : Staged (r.Match old new) trace.length trace)
    (hleast : ∀ c < trace.length, ¬ Path (r.Match old new) c r.oldLen r.newLen) :
    Gives (searchDistances old new r maxTraceCells width rest frontier trace cells)
      fun answer => ∀ s, answer = some s → Least old new r s := by
  induction rest generalizing frontier trace cells with
  | nil =>
    -- every distance was tried, and one of them must have reached the corner
    have hempty := congrArg length hrest
    rw [length_nil, length_range'] at hempty
    exact absurd (.corner r.oldLen r.newLen) (hleast _ (by omega))
  | cons d rest ih =>
    have hcount : r.oldLen + r.newLen + 1 - trace.length
        = r.oldLen + r.newLen + 1 - (trace.length + 1) + 1 := by
      have hlen := congrArg length hrest
      rw [length_cons, length_range'] at hlen
      omega
    rw [hcount, range'_succ, cons.injEq] at hrest
    obtain ⟨rfl, hrest⟩ := hrest
    refine .pay ?_
    split
    · exact .pure fun s hs => by cases hs
    have hstart : ∀ k, OnDiagonal trace.length k →
        0 ≤ startFrom trace.length frontier k ∧ 0 ≤ startFrom trace.length frontier k - k := by
      intro k hk
      rw [hfront k hk]
      exact (path_stageStart hstaged hk).nonneg
    refine (sweep_gives hstart (diagonals trace.length) [] frontier
      (fun k hk => mem_diagonals.mp hk) (fun _ _ => rfl) (by simp)).bind ?_
    rintro ⟨reached, g⟩ hswept
    cases reached with
    | true =>
      obtain ⟨hk, hsnake⟩ := hswept
      rw [hfront _ hk, ← stageStart_append le_rfl] at hsnake
      obtain ⟨s, heq, hscript, hchanged⟩ :=
        backtrack_script hr (hstaged.weaken (g := g)) hk hsnake (leads_corner hr)
      rw [show (r.oldLen : ℤ) - (r.oldLen - r.newLen) = r.newLen by ring] at heq
      simp only [if_true]
      rw [heq]
      refine .pure fun s' hs' => ?_
      cases hs'
      refine ⟨hscript, fun c hc => hleast c ?_⟩
      rwa [hchanged, changed, add_zero] at hc
    | false =>
      have hadvanced : ∀ k, OnDiagonal trace.length k →
          Advanced old new r trace.length frontier g k :=
        fun k hk => hswept k (mem_diagonals.mpr hk)
      have hstaged' := hstaged.append (g := g) fun k hk => by
        rw [← hfront k hk]
        exact (hadvanced k hk).1
      refine ih g (trace ++ [g]) _ ?_ ?_ hstaged' ?_
      · rw [length_append, length_singleton]
        exact hrest
      · intro k _
        rw [length_append, length_singleton, stageStart, stage_last]
      · intro c hc hpath
        rw [length_append, length_singleton] at hc
        rcases Nat.lt_succ_iff_lt_or_eq.mp hc with hc | rfl
        · exact hleast c hc hpath
        · -- the corner is on a diagonal of this distance, and none of them ended there
          have hk : OnDiagonal trace.length ((r.oldLen : ℤ) - r.newLen) := hpath.diagonal
          have hfurthest := hstaged'.furthest (by simp) hk
          rw [stage_last] at hfurthest
          have hcorner := hfurthest.corner (by omega) (by omega) Region.match_lt hleast hpath
          exact (hadvanced _ hk).2 ⟨hcorner, by omega⟩

/-- A script of the region that keeps as much as any. -/
structure Optimal (old new : TokenStream) (r : Region) (s : List AtomicEdit) : Prop where
  script : Script (Same old.units new.units) r.oldStart r.newStart r.oldEnd r.newEnd s
  kept_eq : kept s = lcs (slice old.units r.oldStart r.oldEnd) (slice new.units r.newStart r.newEnd)

/-- Fewest changes, most kept. -/
theorem Least.optimal {s : List AtomicEdit} (h : Least old new r s) : Optimal old new r s := by
  obtain ⟨hscript, hleast⟩ := h
  refine ⟨hscript, le_antisymm (hscript.kept_le hr.old_units hr.new_units) ?_⟩
  obtain ⟨t, ht, hkept⟩ :=
    exists_script old.units new.units hr.old_le hr.new_le hr.old_units hr.new_units
  have hpath : Path (r.Match old new) (0 + changed t) r.oldLen r.newLen := by
    refine .script (i := 0) (j := 0) (fun {i j} hsame hi hj => ?_) ht .start
    refine ⟨by omega, ?_, by omega, ?_, ?_⟩
    · rw [Region.oldLen]
      omega
    · rw [Region.newLen]
      omega
    · rw [Int.toNat_natCast, Int.toNat_natCast, equal_iff]
      · exact hsame
      · exact hi.trans_le hr.old_end
      · exact hj.trans_le hr.new_end
  rw [zero_add] at hpath
  have hfewest : changed s ≤ changed t := not_lt.mp fun hlt => hleast _ hlt hpath
  have hs := hscript.positions
  have ht := ht.positions
  omega

theorem myersTraceAtoms_gives (maxTraceCells : ℕ) : Gives (myersTraceAtoms old new r maxTraceCells)
      fun answer => ∀ s, answer = some s → Optimal old new r s := by
  rw [myersTraceAtoms]
  split
  · exact .pure fun s hs => by cases hs
  refine (searchDistances_gives hr _ (fun _ => 0) [] 0 ?_ ?_ ?_ ?_).mono
    fun answer h s hs => (h s hs).optimal hr
  · rw [length_nil, Nat.sub_zero, range_eq_range']
  · intro k hk
    obtain rfl := onDiagonal_zero hk
    show startFrom 0 (fun _ => 0) 0 = 0
    rw [startFrom, if_pos (.inl (by simp))]
  · exact fun c hc => absurd hc (not_lt_zero c)
  · exact fun c hc => absurd hc (not_lt_zero c)

end Correct

end Frankengit.Diff
