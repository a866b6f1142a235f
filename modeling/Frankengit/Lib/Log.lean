/-
Frankengit/Lib/Log.lean

Append-only logs.  A log is a list that only grows at its end; three
properties of it recur and are each closed under appending one element:

* `Numbered` — the elements carry the numbers 1, 2, 3, … without gap;
* `Parented` — each element names the element before it;
* `Indexed` — no key occurs twice, and a map binds exactly the keys of the
  log, each to the value the log holds for it.
-/
import Frankengit.Lib.BTree

namespace Log

open List Option

variable {α ι K V : Type*}

/-! ### Numbering -/

/-- The numbers 1, 2, 3, … without gap. -/
def Numbered (l : List ℕ) : Prop := l = List.range' 1 l.length

theorem Numbered.nil : Numbered [] := rfl

theorem Numbered.snoc {l : List ℕ} {n : ℕ} (h : Numbered l) (hn : n = l.length + 1) :
    Numbered (l ++ [n]) := by
  unfold Numbered at h ⊢
  rw [length_append, length_singleton, range'_concat, ← h, hn]
  simp [Nat.add_comm]

/-- The last number is the length. -/
theorem Numbered.getLast {l : List ℕ} {n : ℕ} (h : Numbered l) (hn : l.getLast? = some n) :
    n = l.length := by
  rw [h, getLast?_range'] at hn
  split at hn
  · cases hn
  · have hpos : l.length ≠ 0 := ‹_›
    simp only [some.injEq] at hn
    omega

/-! ### Links to the element before -/

/-- Each element names the one before it, the first names none. -/
def Parented (id : α → ι) (parent : α → Option ι) (l : List α) : Prop :=
  ∀ k x, l[k]? = some x → parent x = (l.take k).getLast?.map id

theorem Parented.nil {id : α → ι} {parent : α → Option ι} : Parented id parent [] := by
  intro k x h
  simp at h

theorem Parented.snoc {id : α → ι} {parent : α → Option ι} {l : List α} {x : α}
    (h : Parented id parent l) (hx : parent x = l.getLast?.map id) :
    Parented id parent (l ++ [x]) := by
  intro k y hy
  rcases Nat.lt_trichotomy k l.length with hk | hk | hk
  · rw [getElem?_append_left hk] at hy
    rw [take_append_of_le_length hk.le]
    exact h k y hy
  · subst hk
    rw [getElem?_concat_length, some.injEq] at hy
    rw [take_left', ← hy, hx]
    rfl
  · rw [getElem?_eq_none (by simp; omega)] at hy
    cases hy

/-! ### An index over a log -/

variable [LinearOrder K]

/-- The keys of the log are distinct and `index` binds exactly them, each to
its value. -/
structure Indexed (key : α → K) (value : α → V) (index : BTreeMap K V) (l : List α) : Prop where
  nodup : (l.map key).Nodup
  exact : ∀ (k : K) v, index[k]? = some v ↔ ∃ x ∈ l, key x = k ∧ value x = v

namespace Indexed

variable {key : α → K} {value : α → V} {index : BTreeMap K V} {l : List α}

theorem nil : Indexed key value ∅ [] where
  nodup := nodup_nil
  exact := by simp

theorem get_eq_none (h : Indexed key value index l) {k : K} : index[k]? = none ↔ k ∉ l.map key := by
  simp only [eq_none_iff_forall_ne_some, ne_eq, h.exact]
  aesop

/-- Appending an element under a new key and binding it. -/
theorem snoc (h : Indexed key value index l) {x : α} (hfresh : key x ∉ l.map key) :
    Indexed key value (index.insert (key x) (value x)) (l ++ [x]) where
  nodup := by
    rw [map_append, map_singleton, nodup_append_comm]
    exact nodup_cons.mpr ⟨hfresh, h.nodup⟩
  exact k v := by
    simp only [BTree.get_insert, mem_append, mem_singleton, or_and_right, exists_or, exists_eq_left,
      ← h.exact]
    split
    · next e => simp [e, h.get_eq_none.mpr (e ▸ hfresh)]
    · next e => simp [e]

end Indexed

end Log
