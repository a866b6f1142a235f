/-
Frankengit/Lib/Bisect.lean

Binary search in a list.  `narrow` halves a window until one place is left, the
last one that is not above what is looked for; `search` looks there.

In a list whose places are first below, then equal, then above, the search
finds exactly what is in it (`search_isSome`).
-/
import Mathlib.Tactic

namespace Bisect

variable {α : Type}

/-- The place that is left of a window of `size` places from `base` on. -/
def narrow (probe : ℕ → Ordering) (base size : ℕ) : ℕ :=
  if size ≤ 1 then base
  else narrow probe (if probe (base + size / 2) = .gt then base else base + size / 2)
    (size - size / 2)
termination_by size
decreasing_by omega

/-- What the probe says of a place; beyond the end everything is above. -/
def probeAt (xs : List α) (probe : α → Ordering) (i : ℕ) : Ordering := xs[i]?.elim .gt probe

def search (xs : List α) (probe : α → Ordering) : Option ℕ :=
  let i := narrow (probeAt xs probe) 0 xs.length
  if probeAt xs probe i = .eq then some i else none

/-- First below, then equal, then above. -/
def Rising (probe : ℕ → Ordering) : Prop :=
  ∀ i j, i ≤ j → (probe i = .gt → probe j = .gt) ∧ (probe j = .lt → probe i = .lt)

variable {probe : ℕ → Ordering}

/-- No place after the last one is equal or below, and the last one is not
above unless it is the first. -/
theorem narrow_last {base size : ℕ} (hsize : 0 < size) (hprobe : Rising probe)
    (habove : ∀ i, base + size ≤ i → probe i = .gt) (hbase : base = 0 ∨ probe base ≠ .gt) :
    (∀ i, narrow probe base size < i → probe i = .gt)
      ∧ (narrow probe base size = 0 ∨ probe (narrow probe base size) ≠ .gt) := by
  fun_induction narrow probe base size with
  | case1 base size hsmall =>
    refine ⟨fun i hi => habove i ?_, hbase⟩
    omega
  | case2 base size hlarge ih =>
    have hhalf : 0 < size - size / 2 := by omega
    by_cases hmid : probe (base + size / 2) = .gt
    · simp only [hmid, dite_true, if_true] at ih ⊢
      refine ih hhalf (fun i hi => ?_) hbase
      exact (hprobe (base + size / 2) i (by omega)).1 hmid
    · simp only [hmid, dite_false, if_false] at ih ⊢
      refine ih hhalf (fun i hi => habove i ?_) (.inr hmid)
      omega

/-- Where something is equal, the last place is. -/
theorem probe_narrow {i size : ℕ} (hprobe : Rising probe) (hsize : 0 < size)
    (habove : ∀ i, size ≤ i → probe i = .gt) (hi : probe i = .eq) :
    probe (narrow probe 0 size) = .eq := by
  have habove' : ∀ i, 0 + size ≤ i → probe i = .gt := fun i hle => habove i (by omega)
  obtain ⟨hlater, hlast⟩ := narrow_last hsize hprobe habove' (.inl rfl)
  have hle : i ≤ narrow probe 0 size := by
    by_contra hlt
    rw [hlater i (not_le.mp hlt)] at hi
    cases hi
  cases hfound : probe (narrow probe 0 size) with
  | eq => rfl
  | lt =>
    rw [(hprobe i _ hle).2 hfound] at hi
    cases hi
  | gt =>
    have hzero := hlast.resolve_right (not_not.mpr hfound)
    rw [hzero, Nat.le_zero] at hle
    rw [hzero, ← hle, hi] at hfound
    cases hfound

variable {xs : List α} {probe : α → Ordering}

/-- **The search finds what is there.** -/
theorem search_isSome (hprobe : Rising (probeAt xs probe)) :
    (search xs probe).isSome ↔ ∃ x ∈ xs, probe x = .eq := by
  have hsearch : (search xs probe).isSome ↔
      probeAt xs probe (narrow (probeAt xs probe) 0 xs.length) = .eq := by
    dsimp only [search]
    split_ifs with h <;> simp [h]
  rw [hsearch]
  constructor
  · intro h
    cases hx : xs[narrow (probeAt xs probe) 0 xs.length]? with
    | none =>
      rw [probeAt, hx] at h
      cases h
    | some x =>
      rw [probeAt, hx] at h
      exact ⟨x, List.mem_of_getElem? hx, h⟩
  · rintro ⟨x, hmem, hx⟩
    obtain ⟨i, hi⟩ := List.mem_iff_getElem?.mp hmem
    have hfound : probeAt xs probe i = .eq := by
      rw [probeAt, hi]
      exact hx
    refine probe_narrow hprobe (List.length_pos_of_mem hmem) (fun j hj => ?_) hfound
    rw [probeAt, List.getElem?_eq_none hj]
    rfl

/-- What the search finds is equal. -/
theorem probe_of_search {i : ℕ} {x : α} (h : search xs probe = some i) (hx : xs[i]? = some x) :
    probe x = .eq := by
  dsimp only [search] at h
  split_ifs at h with hprobe
  rw [Option.some.inj h, probeAt, hx] at hprobe
  exact hprobe

/-- A sorted list is first below, then equal, then above. -/
theorem rising_of_pairwise
    (h : xs.Pairwise fun x y => (probe x = .gt → probe y = .gt) ∧ (probe y = .lt → probe x = .lt)) :
    Rising (probeAt xs probe) := by
  intro i j hij
  rcases hij.eq_or_lt with rfl | hlt
  · exact ⟨id, id⟩
  cases hj : xs[j]? with
  | none =>
    rw [probeAt, probeAt, hj]
    exact ⟨fun _ => rfl, nofun⟩
  | some y =>
    obtain ⟨hjlen, rfl⟩ := List.getElem?_eq_some_iff.mp hj
    have hi : xs[i]? = some xs[i] := List.getElem?_eq_getElem (hlt.trans hjlen)
    rw [probeAt, probeAt, hj, hi]
    exact List.pairwise_iff_getElem.mp h i j _ hjlen hlt

end Bisect
