/-
Frankengit/Lib/EditGraph.lean

The edit graph of two sequences on the whole plane, and the greedy search
through it by diagonals.

From a point one may go right (delete) or down (insert) at a cost of one, or
along the diagonal at no cost where `M` allows it.  `Furthest M d k x` says
that `x` is the furthest point of diagonal `k` at cost `d`.  The greedy rule is
`Furthest.step`: start from the better neighbour at cost `d`, and follow the
diagonal while it lasts.

Nothing keeps a path inside the rectangle where `M` lives.  `Path.clip` cuts a
path at the rectangle's far sides at a saving, so the first path that passes
the far corner passes through it.
-/
import Frankengit.Lib.Alignment

namespace EditGraph

variable {M : ℤ → ℤ → Prop}

/-- The points that `d` deletions and insertions lead to from the origin. -/
inductive Path (M : ℤ → ℤ → Prop) : ℕ → ℤ → ℤ → Prop
  | start : Path M 0 0 0
  | delete {d : ℕ} {x y : ℤ} (h : Path M d x y) : Path M (d + 1) (x + 1) y
  | insert {d : ℕ} {x y : ℤ} (h : Path M d x y) : Path M (d + 1) x (y + 1)
  | keep {d : ℕ} {x y : ℤ} (h : Path M d x y) (hM : M x y) : Path M d (x + 1) (y + 1)

namespace Path

variable {d : ℕ} {x y : ℤ}

section

variable (h : Path M d x y)
include h

theorem nonneg : 0 ≤ x ∧ 0 ≤ y := by
  induction h with
  | start => exact ⟨le_rfl, le_rfl⟩
  | delete _ ih => exact ⟨by omega, ih.2⟩
  | insert _ ih => exact ⟨ih.1, by omega⟩
  | keep _ _ ih => exact ⟨by omega, by omega⟩

/-- At cost `d` a path is on one of the diagonals `-d, -d + 2, …, d`. -/
theorem diagonal : -(d : ℤ) ≤ x - y ∧ x - y ≤ d ∧ (x - y + d) % 2 = 0 := by
  induction h with
  | start => exact ⟨le_rfl, le_rfl, rfl⟩
  | delete _ ih | insert _ ih => push_cast; omega
  | keep _ _ ih => omega

/-- Follow a diagonal. -/
theorem follow {n : ℕ} (hM : ∀ i : ℕ, i < n → M (x + i) (y + i)) : Path M d (x + n) (y + n) := by
  induction n with
  | zero => simpa using h
  | succ n ih =>
    have hnext := (ih fun i hi => hM i (by omega)).keep (hM n (by omega))
    rwa [add_assoc, add_assoc] at hnext

/-- The last deletion or insertion of a path, and the diagonal after it. -/
theorem last : ∀ c, d = c + 1 → ∃ n : ℕ,
    (Path M c (x - n - 1) (y - n) ∨ Path M c (x - n) (y - n - 1)) ∧
      ∀ i : ℕ, i < n → M (x - n + i) (y - n + i) := by
  induction h with
  | start => exact fun c hc => absurd hc (Nat.succ_ne_zero c).symm
  | @delete d x y h =>
    rintro c hc
    obtain rfl : d = c := by omega
    refine ⟨0, .inl ?_, by simp⟩
    simpa using h
  | @insert d x y h =>
    rintro c hc
    obtain rfl : d = c := by omega
    refine ⟨0, .inr ?_, by simp⟩
    simpa using h
  | @keep d x y h hM ih =>
    intro c hc
    obtain ⟨n, hlast, hn⟩ := ih c hc
    have hx : x + 1 - ((n + 1 : ℕ) : ℤ) = x - n := by push_cast; ring
    have hy : y + 1 - ((n + 1 : ℕ) : ℤ) = y - n := by push_cast; ring
    refine ⟨n + 1, by rwa [hx, hy], fun i hi => ?_⟩
    rw [hx, hy]
    rcases Nat.lt_succ_iff_lt_or_eq.mp hi with hi | rfl
    · exact hn i hi
    · simpa using hM

/-- A path without cost is the diagonal from the origin. -/
theorem zero (hd : d = 0) : x = y ∧ ∀ i : ℕ, (i : ℤ) < x → M i i := by
  induction h with
  | start => exact ⟨rfl, fun i hi => absurd hi (by omega)⟩
  | delete | insert => exact absurd hd (Nat.succ_ne_zero _)
  | @keep d x y h hM ih =>
    obtain ⟨rfl, hn⟩ := ih hd
    refine ⟨rfl, fun i hi => ?_⟩
    rcases (Int.lt_add_one_iff.mp hi).lt_or_eq with hi | hi
    · exact hn i hi
    · rw [hi]
      exact hM

end

/-- Cut a path at the far sides of the rectangle that `M` lives in. -/
theorem clip {n m : ℤ} (hn : 0 ≤ n) (hm : 0 ≤ m) (hM : ∀ {x y}, M x y → x < n ∧ y < m)
    (h : Path M d x y) :
    ∃ c, Path M c (min x n) (min y m) ∧ (c : ℤ) + (x - min x n) + (y - min y m) ≤ d := by
  induction h with
  | start => exact ⟨0, by rw [min_eq_left hn, min_eq_left hm]; exact .start, by simp [hn, hm]⟩
  | @delete d x y h ih =>
    obtain ⟨c, hc, hle⟩ := ih
    rcases lt_or_ge x n with hx | hx
    · rw [show min (x + 1) n = min x n + 1 by omega]
      exact ⟨c + 1, hc.delete, by push_cast; omega⟩
    · rw [show min (x + 1) n = min x n by omega]
      exact ⟨c, hc, by omega⟩
  | @insert d x y h ih =>
    obtain ⟨c, hc, hle⟩ := ih
    rcases lt_or_ge y m with hy | hy
    · rw [show min (y + 1) m = min y m + 1 by omega]
      exact ⟨c + 1, hc.insert, by push_cast; omega⟩
    · rw [show min (y + 1) m = min y m by omega]
      exact ⟨c, hc, by omega⟩
  | @keep d x y h hxy ih =>
    obtain ⟨c, hc, hle⟩ := ih
    obtain ⟨hx, hy⟩ := hM hxy
    rw [min_eq_left hx.le, min_eq_left hy.le] at hc hle
    rw [min_eq_left (by omega : x + 1 ≤ n), min_eq_left (by omega : y + 1 ≤ m)]
    exact ⟨c, hc.keep hxy, by omega⟩

/-- There is a path that keeps nothing. -/
theorem corner (n m : ℕ) : Path M (n + m) n m := by
  have hdown : Path M m 0 m := by
    induction m with
    | zero => exact .start
    | succ m ih =>
      exact ih.insert
  induction n with
  | zero => simpa using hdown
  | succ n ih =>
    have hnext := ih.delete
    rwa [show n + 1 + m = n + m + 1 by omega]

end Path

/-! ### Furthest points -/

/-- The furthest point of a diagonal at a cost. -/
structure Furthest (M : ℤ → ℤ → Prop) (d : ℕ) (k x : ℤ) : Prop where
  path : Path M d x (x - k)
  max : ∀ x', Path M d x' (x' - k) → x' ≤ x

/-- From `s` the diagonal `k` lasts up to `e` and no further. -/
structure Snake (M : ℤ → ℤ → Prop) (k s e : ℤ) : Prop where
  le : s ≤ e
  along : ∀ x, s ≤ x → x < e → M x (x - k)
  stop : ¬ M e (e - k)

variable {d : ℕ}

theorem Snake.path {k s e : ℤ} (h : Snake M k s e) (hs : Path M d s (s - k)) :
    Path M d e (e - k) := by
  have hfollow := hs.follow (n := (e - s).toNat) fun i hi => by
    have := h.along (s + i) (by omega) (by omega)
    rwa [show s + i - k = s - k + i by ring] at this
  have hle := h.le
  rwa [Int.toNat_of_nonneg (by omega), show s + (e - s) = e by ring,
    show s - k + (e - s) = e - k by ring] at hfollow

theorem furthest_zero {e : ℤ} (h : Snake M 0 0 e) : Furthest M 0 0 e := by
  refine ⟨h.path ?_, fun x' hx' => ?_⟩
  · simpa using Path.start
  · obtain ⟨-, hM⟩ := hx'.zero rfl
    -- beyond the end, the end itself would have to be on the diagonal
    by_contra hlt
    have hle := h.le
    have hend := hM e.toNat (by omega)
    rw [Int.toNat_of_nonneg hle] at hend
    exact h.stop (by simpa using hend)

/-- Whether the search comes to a diagonal by an insertion: from the neighbour
above, unless the one to the left is as far. -/
def TakesInsert (d : ℕ) (frontier : ℤ → ℤ) (k : ℤ) : Prop :=
  k = -(d : ℤ) ∨ (k ≠ d ∧ frontier (k - 1) < frontier (k + 1))

instance (d : ℕ) (frontier : ℤ → ℤ) (k : ℤ) : Decidable (TakesInsert d frontier k) :=
  inferInstanceAs (Decidable (_ ∨ _))

/-- Where the search starts on a diagonal. -/
def startFrom (d : ℕ) (frontier : ℤ → ℤ) (k : ℤ) : ℤ :=
  if TakesInsert d frontier k then frontier (k + 1) else frontier (k - 1) + 1

/-- A diagonal that paths of cost `d` can end on. -/
def OnDiagonal (d : ℕ) (k : ℤ) : Prop := -(d : ℤ) ≤ k ∧ k ≤ d ∧ (k + d) % 2 = 0

variable {frontier : ℤ → ℤ}

/-- The neighbour the search comes from. -/
theorem OnDiagonal.back {k : ℤ} (h : OnDiagonal (d + 1) k) :
    (TakesInsert (d + 1) frontier k → OnDiagonal d (k + 1)) ∧
      (¬ TakesInsert (d + 1) frontier k → OnDiagonal d (k - 1)) := by
  obtain ⟨hlow, hhigh, hparity⟩ := h
  simp only [TakesInsert, OnDiagonal]
  constructor <;> intro <;> refine ⟨?_, ?_, ?_⟩ <;> omega

theorem path_startFrom {k : ℤ} (hfront : ∀ k, OnDiagonal d k → Furthest M d k (frontier k))
    (hk : OnDiagonal (d + 1) k) :
    Path M (d + 1) (startFrom (d + 1) frontier k) (startFrom (d + 1) frontier k - k) := by
  rw [startFrom]
  split
  · next hins =>
    have hpath := (hfront (k + 1) (hk.back.1 hins)).path.insert
    rwa [show frontier (k + 1) - (k + 1) + 1 = frontier (k + 1) - k by ring] at hpath
  · next hdelete =>
    have hpath := (hfront (k - 1) (hk.back.2 hdelete)).path.delete
    rwa [show frontier (k - 1) - (k - 1) = frontier (k - 1) + 1 - k by ring] at hpath

/-- The greedy rule. -/
theorem Furthest.step {k e : ℤ} (hfront : ∀ k, OnDiagonal d k → Furthest M d k (frontier k))
    (hk : OnDiagonal (d + 1) k) (h : Snake M k (startFrom (d + 1) frontier k) e) :
    Furthest M (d + 1) k e := by
  refine ⟨h.path (path_startFrom hfront hk), fun x' hx' => ?_⟩
  -- where there is a neighbour, the start is not behind it
  have habove : k ≠ d + 1 → frontier (k + 1) ≤ startFrom (d + 1) frontier k := by
    simp only [startFrom, TakesInsert]
    push_cast
    split <;> omega
  have hleft : k ≠ -(d + 1 : ℤ) → frontier (k - 1) + 1 ≤ startFrom (d + 1) frontier k := by
    simp only [startFrom, TakesInsert]
    push_cast
    split <;> omega
  -- the last diagonal of another path starts no further, so it stops at `e` too
  obtain ⟨n, hlast, hn⟩ := hx'.last d rfl
  have hbehind : x' - n ≤ startFrom (d + 1) frontier k := by
    rcases hlast with hlast | hlast
    · obtain ⟨h₁, h₂, h₃⟩ := hlast.diagonal
      have hmax := (hfront (k - 1) ⟨by omega, by omega, by omega⟩).max (x' - n - 1)
        (by rwa [show x' - n - 1 - (k - 1) = x' - k - n by ring])
      omega
    · obtain ⟨h₁, h₂, h₃⟩ := hlast.diagonal
      have hmax := (hfront (k + 1) ⟨by omega, by omega, by omega⟩).max (x' - n)
        (by rwa [show x' - n - (k + 1) = x' - k - n - 1 by ring])
      omega
  by_contra hlt
  have hle := h.le
  have hend := hn (e - (x' - n)).toNat (by omega)
  rw [Int.toNat_of_nonneg (by omega), show x' - n + (e - (x' - n)) = e by ring,
    show x' - k - n + (e - (x' - n)) = e - k by ring] at hend
  exact h.stop hend

/-- The far corner is reached at the least cost at which it can be. -/
theorem Furthest.corner {n m x : ℤ} (hn : 0 ≤ n) (hm : 0 ≤ m) (hM : ∀ {x y}, M x y → x < n ∧ y < m)
    (hmin : ∀ c < d, ¬ Path M c n m) (h : Furthest M d (n - m) x) (hpath : Path M d n m) :
    x = n := by
  have hle : n ≤ x := h.max n (by rwa [show n - (n - m) = m by ring])
  obtain ⟨c, hc, hcost⟩ := h.path.clip hn hm hM
  rw [min_eq_right hle, min_eq_right (by omega : m ≤ x - (n - m))] at hc hcost
  by_contra hne
  exact hmin c (by omega) hc

/-! ### Scripts are paths -/

open Alignment in
/-- A script goes on from a point at the cost of its changes. -/
theorem Path.script {same : ℕ → ℕ → Prop} {i₀ j₀ i j i' j' : ℕ} {s : List Step}
    (hM : ∀ {i j : ℕ}, same (i₀ + i) (j₀ + j) → i₀ + i < i' → j₀ + j < j' → M i j)
    (h : Script same (i₀ + i) (j₀ + j) i' j' s) (hpath : Path M d i j) :
    Path M (d + changed s) (i' - i₀ : ℕ) (j' - j₀ : ℕ) := by
  generalize hi : i₀ + i = a at h
  generalize hj : j₀ + j = b at h
  induction h generalizing i j d with
  | nil a b =>
    subst hi hj
    simpa [changed] using hpath
  | @equal a b i' j' s hsame h ih =>
    have hkeep := hpath.keep (hM (by rwa [hi, hj]) (hi ▸ h.old_le) (hj ▸ h.new_le))
    have := ih hM (i := i + 1) (j := j + 1) (by push_cast; exact hkeep) (by omega) (by omega)
    exact this
  | @delete a b i' j' s h ih =>
    have := ih hM (i := i + 1) (j := j) (by push_cast; exact hpath.delete) (by omega) hj
    rwa [show d + 1 + changed s = d + (changed s + 1) by omega] at this
  | @insert a b i' j' s h ih =>
    have := ih hM (i := i) (j := j + 1) (by push_cast; exact hpath.insert) hi (by omega)
    rwa [show d + 1 + changed s = d + (changed s + 1) by omega] at this

end EditGraph
