/-
Frankengit/Lib/Merkle.lean

Binary hash trees over an ordered list of leaf digests.  A level is paired
from the left and an odd digest at its end is promoted unchanged; the levels
end in one digest, the root.

The root commits to the list (`root_injective`): equal roots have equal
lists of leaves, of whatever lengths.  The proof replaces digests by the
trees they commit to.  Under an injective node hash that meets no leaf a
digest determines its tree, and pairing does not change the leaves of a row
of trees.

A membership proof lists the siblings on the way from a leaf to the root.
`refold` folds them back; it knows the shape of the tree only from the index
and the number of leaves that the proof claims.  The honest proof folds to
the root (`refold_siblings`), and whatever is folded, a leaf digest that
reaches the root of a list is in that list (`mem_of_refold`).
-/
import Mathlib.Data.Nat.Bitwise
import Mathlib.Tactic

namespace Merkle

open List Function

variable {D : Type}

/-- The hashes of a tree: leaf digests, interior nodes and the digest of no
leaves are kept apart, and the node hash is injective. -/
structure Hashing (D : Type) where
  IsLeaf : D → Prop
  node : D → D → D
  empty : D
  node_injective : ∀ {a b a' b'}, node a b = node a' b' → a = a' ∧ b = b'
  node_not_leaf : ∀ a b, ¬ IsLeaf (node a b)
  empty_not_leaf : ¬ IsLeaf empty
  empty_ne_node : ∀ a b, empty ≠ node a b

/-- Pair a level from the left; an odd end is promoted. -/
def pairUp {α : Type} (node : α → α → α) : List α → List α
  | a :: b :: rest => node a b :: pairUp node rest
  | level => level

/-- The root of a list of leaves.  Pairing a level of at most one digest
changes nothing, so as many rounds as there are leaves end the loop. -/
def root (node : D → D → D) (empty : D) (leaves : List D) : D :=
  ((pairUp node)^[leaves.length] leaves).headD empty

theorem length_pairUp {α : Type} (node : α → α → α) (level : List α) :
    (pairUp node level).length = (level.length + 1) / 2 := by
  induction level using twoStepInduction with
  | nil | singleton => simp [pairUp]
  | cons_cons a b rest ih _ =>
    simp only [pairUp, length_cons, ih]
    omega

/-- After enough rounds at most one digest is left. -/
theorem length_pairUp_iterate {α : Type} (node : α → α → α) (rounds : ℕ) (level : List α)
    (h : level.length ≤ rounds + 1) : ((pairUp node)^[rounds] level).length ≤ 1 := by
  induction rounds generalizing level with
  | zero => simpa using h
  | succ rounds ih =>
    refine ih _ ?_
    rw [length_pairUp]
    omega

/-! ### The trees behind the digests -/

/-- A tree over leaf digests. -/
inductive Tree (D : Type) where
  | leaf (d : D)
  | node (left right : Tree D)

namespace Tree

/-- The digest of a tree. -/
def digest (hash : D → D → D) : Tree D → D
  | leaf d => d
  | node left right => hash (left.digest hash) (right.digest hash)

/-- The leaves, in order. -/
def leaves : Tree D → List D
  | leaf d => [d]
  | node left right => left.leaves ++ right.leaves

/-- All leaves of the tree are leaf digests. -/
def Proper (H : Hashing D) : Tree D → Prop
  | leaf d => H.IsLeaf d
  | node left right => left.Proper H ∧ right.Proper H

variable {H : Hashing D}

/-- A digest determines its tree. -/
theorem digest_injective {s t : Tree D} (hs : s.Proper H) (ht : t.Proper H)
    (h : s.digest H.node = t.digest H.node) : s = t := by
  induction s generalizing t with
  | leaf d =>
    cases t with
    | leaf e => exact congrArg leaf h
    | node left right =>
      have hleaf : H.IsLeaf (digest H.node (node left right)) := h ▸ hs
      exact absurd hleaf (H.node_not_leaf _ _)
  | node left right ihl ihr =>
    cases t with
    | leaf e =>
      have hleaf : H.IsLeaf (digest H.node (node left right)) := h ▸ ht
      exact absurd hleaf (H.node_not_leaf _ _)
    | node left' right' =>
      obtain ⟨hl, hr⟩ := H.node_injective h
      rw [ihl hs.1 ht.1 hl, ihr hs.2 ht.2 hr]

theorem digest_ne_empty {t : Tree D} (ht : t.Proper H) : H.empty ≠ t.digest H.node := by
  cases t with
  | leaf d => exact fun h => H.empty_not_leaf (h ▸ ht)
  | node left right => exact H.empty_ne_node _ _

/-! ### Rows of trees -/

/-- Pairing trees pairs their digests. -/
theorem map_digest_pairUp (hash : D → D → D) (row : List (Tree D)) :
    (pairUp node row).map (digest hash) = pairUp hash (row.map (digest hash)) := by
  induction row using twoStepInduction with
  | nil | singleton => rfl
  | cons_cons a b rest ih _ =>
    rw [pairUp, map_cons, ih]
    rfl

/-- Pairing keeps the leaves of a row. -/
theorem leaves_pairUp (row : List (Tree D)) :
    (pairUp node row).flatMap leaves = row.flatMap leaves := by
  fun_induction pairUp node row with
  | case1 a b rest ih =>
    rw [flatMap_cons, ih, flatMap_cons, flatMap_cons, ← append_assoc]
    rfl
  | case2 row h => rfl

theorem proper_pairUp {row : List (Tree D)} (h : ∀ t ∈ row, t.Proper H) :
    ∀ t ∈ pairUp node row, t.Proper H := by
  fun_induction pairUp node row with
  | case1 a b rest ih =>
    exact forall_mem_cons.mpr ⟨⟨h a (by simp), h b (by simp)⟩, ih fun t ht => h t (by simp [ht])⟩
  | case2 row _ => exact h

end Tree

variable (H : Hashing D)

/-- The root of a list of leaf digests is the digest of a tree with exactly
these leaves, or the empty digest. -/
theorem root_tree {l : List D} (hl : ∀ d ∈ l, H.IsLeaf d) :
    (l = [] ∧ root H.node H.empty l = H.empty) ∨
      ∃ t : Tree D, t.Proper H ∧ t.leaves = l ∧ root H.node H.empty l = t.digest H.node := by
  -- the rows of trees follow the levels of digests
  have hproper := Iterate.rec (fun row : List (Tree D) => ∀ t ∈ row, t.Proper H)
    (a := l.map .leaf) (forall_mem_map.mpr hl) (fun _ => Tree.proper_pairUp) l.length
  have hleaves := Iterate.rec (fun row => row.flatMap Tree.leaves = l)
    ((flatMap_map .leaf _ l).trans (flatMap_singleton' l))
    (fun row h => (Tree.leaves_pairUp row).trans h) l.length
  have hdig := Semiconj.iterate_right (Tree.map_digest_pairUp H.node) l.length (l.map .leaf)
  have hshort := length_pairUp_iterate Tree.node l.length (l.map .leaf) (by simp)
  generalize (pairUp Tree.node)^[l.length] (l.map .leaf) = row at hproper hleaves hdig hshort
  have hroot : root H.node H.empty l = (row.map (Tree.digest H.node)).headD H.empty := by
    rw [hdig, map_map]
    exact congrArg (fun l' => headD ((pairUp H.node)^[l.length] l') _) (map_id l).symm
  match row, hshort with
  | [], _ => exact .inl ⟨hleaves.symm, hroot⟩
  | [t], _ => exact .inr ⟨t, hproper t (by simp), by simpa using hleaves, hroot⟩

/-- **The root commits to the leaves.** -/
theorem root_injective {l l' : List D} (hl : ∀ d ∈ l, H.IsLeaf d) (hl' : ∀ d ∈ l', H.IsLeaf d)
    (h : root H.node H.empty l = root H.node H.empty l') : l = l' := by
  rcases root_tree H hl with ⟨rfl, hempty⟩ | ⟨t, ht, rfl, hroot⟩
  · rcases root_tree H hl' with ⟨rfl, -⟩ | ⟨t', ht', -, hroot'⟩
    · rfl
    · exact absurd (hempty.symm.trans (h.trans hroot')) (Tree.digest_ne_empty ht')
  · rcases root_tree H hl' with ⟨rfl, hempty'⟩ | ⟨t', ht', rfl, hroot'⟩
    · exact absurd (hempty'.symm.trans (h.symm.trans hroot)) (Tree.digest_ne_empty ht)
    · rw [Tree.digest_injective ht ht' (hroot.symm.trans (h.trans hroot'))]

/-! ### Membership proofs -/

section Proofs

variable {D : Type} {node : D → D → D}

/-- The element is the odd one at the end of its level. -/
def Promoted (position width : ℕ) : Prop := position = width - 1 ∧ width % 2 = 1

instance (position width : ℕ) : Decidable (Promoted position width) :=
  inferInstanceAs (Decidable (_ ∧ _))

/-- The other one of a pair. -/
theorem xor_one (position : ℕ) :
    position ^^^ 1 = if position % 2 = 0 then position + 1 else position - 1 := by
  split
  · next h => exact Nat.xor_one_of_even (Nat.even_iff.mpr h)
  · next h => exact Nat.xor_one_of_odd (Nat.odd_iff.mpr (by omega))

variable {position : ℕ}

theorem xor_one_lt {width : ℕ} (h : position < width) (hpaired : ¬ Promoted position width) :
    position ^^^ 1 < width := by
  rw [xor_one]
  unfold Promoted at hpaired
  split <;> omega

theorem half_lt_pairUp {level : List D} (h : position < level.length) :
    position / 2 < (pairUp node level).length := by
  rw [length_pairUp]
  omega

/-- The siblings met on the way up from a position, bottom level first. -/
def siblings (node : D → D → D) : ℕ → (level : List D) → (position : ℕ) →
    position < level.length → List D
  | 0, _, _, _ => []
  | rounds + 1, level, position, h =>
    if 1 < level.length then
      if hp : Promoted position level.length then
        siblings node rounds (pairUp node level) (position / 2) (half_lt_pairUp h)
      else
        level.get ⟨position ^^^ 1, xor_one_lt h hp⟩ ::
          siblings node rounds (pairUp node level) (position / 2) (half_lt_pairUp h)
    else []

/-- Fold siblings onto a digest.  Every sibling has to be used. -/
def refold (node : D → D → D) : ℕ → D → ℕ → ℕ → List D → Option D
  | 0, computed, _, _, offered => if offered = [] then some computed else none
  | rounds + 1, computed, position, width, offered =>
    if 1 < width then
      if Promoted position width then
        refold node rounds computed (position / 2) ((width + 1) / 2) offered
      else
        match offered with
        | [] => none
        | sibling :: rest =>
          refold node rounds
            (if position % 2 = 0 then node computed sibling else node sibling computed)
            (position / 2) ((width + 1) / 2) rest
    else if offered = [] then some computed else none

/-! #### The honest proof -/

/-- Where an element of a level goes. -/
theorem get_pairUp (level : List D) (h : position < level.length) :
    (pairUp node level).get ⟨position / 2, half_lt_pairUp h⟩
      = if hp : Promoted position level.length then level.get ⟨position, h⟩
        else if position % 2 = 0 then
          node (level.get ⟨position, h⟩) (level.get ⟨position ^^^ 1, xor_one_lt h hp⟩)
        else node (level.get ⟨position ^^^ 1, xor_one_lt h hp⟩) (level.get ⟨position, h⟩) := by
  simp only [get_eq_getElem, xor_one]
  induction level using twoStepInduction generalizing position with
  | nil => exact absurd h (Nat.not_lt_zero _)
  | singleton a =>
    obtain rfl : position = 0 := by simpa using h
    simp [pairUp, Promoted]
  | cons_cons a b rest ih _ =>
    match position, h with
    | 0, _ => simp [pairUp, Promoted]
    | 1, _ =>
      have hpaired : ¬ Promoted 1 (a :: b :: rest).length := by
        simp only [Promoted, length_cons]
        omega
      rw [dif_neg hpaired]
      rfl
    | position + 2, h =>
      have hrest : position < rest.length := by simpa using h
      have hparity : (position + 2) % 2 = position % 2 := by omega
      have hprom : Promoted (position + 2) (a :: b :: rest).length
          ↔ Promoted position rest.length := by
        simp only [Promoted, length_cons]
        omega
      have hhalf : (position + 2) / 2 = position / 2 + 1 := by omega
      have hstep := ih hrest
      simp only [pairUp, hhalf, getElem_cons_succ, hparity, hprom]
      rw [hstep]
      split
      · rfl
      · split
        · rfl
        · have hpos : position + 2 - 1 = (position - 1) + 2 := by omega
          simp only [hpos, getElem_cons_succ]

/-- **Completeness**: the honest proof folds to the root. -/
theorem refold_siblings (empty : D) (rounds : ℕ) (level : List D)
    (h : position < level.length) (hrounds : level.length ≤ rounds + 1) :
    refold node rounds (level.get ⟨position, h⟩) position level.length
        (siblings node rounds level position h)
      = some (((pairUp node)^[rounds] level).headD empty) := by
  induction rounds generalizing level position with
  | zero =>
    obtain ⟨a, rfl⟩ : ∃ a, level = [a] := length_eq_one_iff.mp (by omega)
    obtain rfl : position = 0 := by simpa using h
    rfl
  | succ rounds ih =>
    by_cases hlong : 1 < level.length
    · have hnext : (pairUp node level).length ≤ rounds + 1 := by
        rw [length_pairUp]
        omega
      have hfold := ih (pairUp node level) (half_lt_pairUp h) hnext
      rw [get_pairUp level h, length_pairUp] at hfold
      rw [iterate_succ_apply, ← hfold]
      simp only [refold, siblings, if_pos hlong]
      by_cases hp : Promoted position level.length
      · simp only [if_pos hp, dif_pos hp]
      · simp only [if_neg hp, dif_neg hp]
    · obtain ⟨a, rfl⟩ : ∃ a, level = [a] := length_eq_one_iff.mp (by omega)
      obtain rfl : position = 0 := by simpa using h
      have hfix : (pairUp node)^[rounds + 1] [a] = [a] := iterate_fixed rfl (rounds + 1)
      rw [hfix]
      rfl

/-! #### Any proof -/

/-- `x` lies beneath `d`: node hashes lead from `x` to `d`. -/
inductive Beneath (node : D → D → D) (x : D) : D → Prop
  | refl : Beneath node x x
  | left {a : D} (b : D) (h : Beneath node x a) : Beneath node x (node a b)
  | right (a : D) {b : D} (h : Beneath node x b) : Beneath node x (node a b)

/-- Folding only builds upwards. -/
theorem beneath_refold {rounds : ℕ} {x computed d : D} {width : ℕ} {offered : List D}
    (hx : Beneath node x computed)
    (h : refold node rounds computed position width offered = some d) :
    Beneath node x d := by
  fun_induction refold node rounds computed position width offered with
  | case1 | case6 => exact Option.some.inj h ▸ hx
  | case2 | case4 | case7 => cases h
  | case3 _ _ _ _ _ _ _ ih => exact ih hx h
  | case5 _ _ _ _ _ _ _ _ ih =>
    refine ih ?_ h
    split
    · exact .left _ hx
    · exact .right _ hx

/-- A leaf digest beneath the digest of a tree is one of its leaves. -/
theorem Beneath.mem_leaves {H : Hashing D} {x : D} (hx : H.IsLeaf x) {t : Tree D}
    (ht : t.Proper H) (h : Beneath H.node x (t.digest H.node)) : x ∈ t.leaves := by
  induction t with
  | leaf d =>
    have hleaf : H.IsLeaf (Tree.digest H.node (.leaf d)) := ht
    generalize hd : Tree.digest H.node (.leaf d) = top at h hleaf
    cases h with
    | refl => exact mem_singleton.mpr hd.symm
    | left b _ | right a _ => exact absurd hleaf (H.node_not_leaf _ _)
  | node l r ihl ihr =>
    generalize hd : Tree.digest H.node (.node l r) = top at h
    cases h with
    | refl => exact absurd (hd ▸ hx) (H.node_not_leaf _ _)
    | left b hbelow =>
      obtain ⟨rfl, -⟩ := H.node_injective hd
      exact mem_append_left _ (ihl ht.1 hbelow)
    | right a hbelow =>
      obtain ⟨-, rfl⟩ := H.node_injective hd
      exact mem_append_right _ (ihr ht.2 hbelow)

/-- Nothing but itself lies beneath the digest of no leaves. -/
theorem Beneath.eq_empty {H : Hashing D} {x : D} (h : Beneath H.node x H.empty) : x = H.empty := by
  generalize hd : H.empty = top at h
  cases h with
  | refl => rfl
  | left b _ | right a _ => exact absurd hd (H.empty_ne_node _ _)

/-- **Soundness**: a leaf digest that any proof folds to the root of a list
is in that list. -/
theorem mem_of_refold (H : Hashing D) {leaves : List D} (hleaves : ∀ d ∈ leaves, H.IsLeaf d) {x : D}
    (hx : H.IsLeaf x) {rounds width : ℕ} {offered : List D}
    (h : refold H.node rounds x position width offered = some (root H.node H.empty leaves)) :
    x ∈ leaves := by
  have hbeneath := beneath_refold .refl h
  rcases root_tree H hleaves with ⟨-, hempty⟩ | ⟨t, ht, rfl, hroot⟩
  · rw [hempty] at hbeneath
    exact absurd (hbeneath.eq_empty ▸ hx) H.empty_not_leaf
  · rw [hroot] at hbeneath
    exact hbeneath.mem_leaves hx ht

end Proofs

end Merkle
