/-
Frankengit/Lib/MerklePath.lean

What a folded membership proof says about the place of its leaf.

The verifier of `Merkle.refold` is told an index and a number of leaves and
derives from them on which side each sibling stands.  A promotion leaves no
trace in the digest, so all that a root can confirm is the sequence of sides,
`turns`.  In the tree behind the root these turns lead from the root down to
the leaf (`Tree.Below`), and to no other subtree (`Tree.Below.unique`).

Different claims can give the same turns, so a proof does not bind its index
or its count.  It still binds order:

* the first position of any width turns left at every level, and the last one
  turns right (`turns_first`, `turns_last`);
* neighbouring positions of any width part at one node, from where one turns
  right at every level and the other left (`turns_succ`).

Hence accepted neighbours are neighbours in the tree, whatever width was
claimed (`adjacent_of_refold`).
-/
import Frankengit.Lib.Merkle

namespace Merkle

open List Merkle.Tree

variable {D : Type}

/-- Which child of its parent a digest is. -/
inductive Side where
  | left | right
deriving DecidableEq

/-- The sides on the way up from a position, bottom level first. -/
def turns : ℕ → ℕ → ℕ → List Side
  | 0, _, _ => []
  | rounds + 1, position, width =>
    if 1 < width then
      if Promoted position width then turns rounds (position / 2) ((width + 1) / 2)
      else
        (if position % 2 = 0 then .left else .right) ::
          turns rounds (position / 2) ((width + 1) / 2)
    else []

/-- Node hashes lead from `x` to `d`, with `x` on the given sides. -/
inductive Climbs (node : D → D → D) : D → List Side → D → Prop
  | done (d : D) : Climbs node d [] d
  | left {x d : D} (b : D) {path : List Side} (h : Climbs node (node x b) path d) :
      Climbs node x (.left :: path) d
  | right {x d : D} (a : D) {path : List Side} (h : Climbs node (node a x) path d) :
      Climbs node x (.right :: path) d

variable {rounds position width : ℕ} {offered : List D}

/-- A fold climbs along the turns of the claimed position. -/
theorem climbs_of_refold {node : D → D → D} {x d : D}
    (h : refold node rounds x position width offered = some d) :
    Climbs node x (turns rounds position width) d := by
  fun_induction refold node rounds x position width offered with
  | case1 => exact Option.some.inj h ▸ .done _
  | case2 | case4 | case7 => cases h
  | case3 _ _ _ _ _ hwidth hprom ih =>
    rw [turns, if_pos hwidth, if_pos hprom]
    exact ih h
  | case5 _ _ _ _ hwidth hpaired _ _ ih =>
    have hrest := ih h
    rw [turns, if_pos hwidth, if_neg hpaired]
    split_ifs at hrest ⊢
    · exact .left _ hrest
    · exact .right _ hrest
  | case6 _ _ _ _ hwidth =>
    rw [turns, if_neg hwidth]
    exact Option.some.inj h ▸ .done _

/-! ### Places in a tree -/

namespace Tree

/-- The subtree `s` of `t` that is reached by turns, read from `s` up. -/
inductive Below (t : Tree D) : List Side → Tree D → Prop
  | here : Below t [] t
  | left {path : List Side} {l r : Tree D} (h : Below t path (node l r)) : Below t (.left :: path) l
  | right {path : List Side} {l r : Tree D} (h : Below t path (node l r)) :
      Below t (.right :: path) r

/-- Turns are followed in two parts, the upper one first. -/
theorem below_append {t s : Tree D} {lower upper : List Side} :
    Below t (lower ++ upper) s ↔ ∃ m, Below t upper m ∧ Below m lower s := by
  constructor
  · intro h
    induction lower generalizing s with
    | nil => exact ⟨s, h, .here⟩
    | cons side lower ih =>
      cases h with
      | left h =>
        obtain ⟨m, hm, hs⟩ := ih h
        exact ⟨m, hm, .left hs⟩
      | right h =>
        obtain ⟨m, hm, hs⟩ := ih h
        exact ⟨m, hm, .right hs⟩
  · rintro ⟨m, hm, hs⟩
    induction hs with
    | here => exact hm
    | left _ ih => exact .left ih
    | right _ ih => exact .right ih

variable {t s : Tree D} {path : List Side}

/-- Turns lead to one subtree. -/
theorem Below.unique {s' : Tree D} (h : Below t path s) (h' : Below t path s') : s = s' := by
  induction h generalizing s' with
  | here =>
    cases h'
    rfl
  | left _ ih =>
    cases h' with
    | left h' => exact (node.inj (ih h')).1
  | right _ ih =>
    cases h' with
    | right h' => exact (node.inj (ih h')).2

/-- A subtree's leaves stand together. -/
theorem Below.leaves_eq (h : Below t path s) :
    ∃ before after, t.leaves = before ++ s.leaves ++ after := by
  induction h with
  | here => exact ⟨[], [], by simp⟩
  | @left _ l r _ ih =>
    obtain ⟨before, after, hleaves⟩ := ih
    refine ⟨before, r.leaves ++ after, ?_⟩
    rw [hleaves]
    simp [leaves]
  | @right _ l r _ ih =>
    obtain ⟨before, after, hleaves⟩ := ih
    refine ⟨before ++ l.leaves, after, ?_⟩
    rw [hleaves]
    simp [leaves]

/-- Turning left only leads to the first leaves. -/
theorem Below.first (h : Below t path s) (hleft : ∀ side ∈ path, side = .left) :
    ∃ after, t.leaves = s.leaves ++ after := by
  induction h with
  | here => exact ⟨[], by simp⟩
  | @left path l r _ ih =>
    obtain ⟨after, hleaves⟩ := ih fun side hside => hleft side (mem_cons_of_mem _ hside)
    refine ⟨r.leaves ++ after, ?_⟩
    rw [hleaves]
    simp [leaves]
  | right _ _ => exact absurd (hleft .right mem_cons_self) (by decide)

/-- Turning right only leads to the last leaves. -/
theorem Below.last (h : Below t path s) (hright : ∀ side ∈ path, side = .right) :
    ∃ before, t.leaves = before ++ s.leaves := by
  induction h with
  | here => exact ⟨[], by simp⟩
  | left _ _ => exact absurd (hright .left mem_cons_self) (by decide)
  | @right path l r _ ih =>
    obtain ⟨before, hleaves⟩ := ih fun side hside => hright side (mem_cons_of_mem _ hside)
    refine ⟨before ++ l.leaves, ?_⟩
    rw [hleaves]
    simp [leaves]

variable {H : Hashing D}

theorem Below.proper (ht : t.Proper H) (h : Below t path s) : s.Proper H := by
  induction h with
  | here => exact ht
  | left _ ih => exact ih.1
  | right _ ih => exact ih.2

/-- A climb to a tree's digest starts at the subtree the turns lead to. -/
theorem below_of_climbs {x : D} (ht : t.Proper H) (h : Climbs H.node x path (t.digest H.node)) :
    ∃ s, Below t path s ∧ s.digest H.node = x := by
  generalize hd : t.digest H.node = d at h
  induction h with
  | done d => exact ⟨t, .here, hd⟩
  | left b _ ih =>
    obtain ⟨s, hs, hdig⟩ := ih hd
    cases s with
    | leaf e =>
      have hleaf : H.IsLeaf (digest H.node (leaf e)) := hs.proper ht
      exact absurd (hdig ▸ hleaf) (H.node_not_leaf _ _)
    | node l r => exact ⟨l, .left hs, (H.node_injective hdig).1⟩
  | right a _ ih =>
    obtain ⟨s, hs, hdig⟩ := ih hd
    cases s with
    | leaf e =>
      have hleaf : H.IsLeaf (digest H.node (leaf e)) := hs.proper ht
      exact absurd (hdig ▸ hleaf) (H.node_not_leaf _ _)
    | node l r => exact ⟨r, .right hs, (H.node_injective hdig).2⟩

/-- A climb from a leaf digest starts at that leaf. -/
theorem below_leaf_of_climbs {x : D} (ht : t.Proper H) (hx : H.IsLeaf x)
    (h : Climbs H.node x path (t.digest H.node)) : Below t path (leaf x) := by
  obtain ⟨s, hs, hdig⟩ := below_of_climbs ht h
  cases s with
  | leaf e =>
    obtain rfl : e = x := hdig
    exact hs
  | node l r => exact absurd (hdig ▸ hx) (H.node_not_leaf _ _)

end Tree

/-! ### The turns of first, last and neighbouring positions -/

theorem turns_first (rounds width : ℕ) : ∀ side ∈ turns rounds 0 width, side = .left := by
  induction rounds generalizing width with
  | zero => simp [turns]
  | succ rounds ih =>
    rw [turns]
    split
    · next hwidth =>
      -- the first position is promoted in a level of one only
      have hpaired : ¬ Promoted 0 width := by
        unfold Promoted
        omega
      rw [if_neg hpaired, if_pos rfl, forall_mem_cons]
      exact ⟨rfl, ih _⟩
    · simp

theorem turns_last (rounds : ℕ) (h : position + 1 = width) :
    ∀ side ∈ turns rounds position width, side = .right := by
  induction rounds generalizing position width with
  | zero => simp [turns]
  | succ rounds ih =>
    have hnext : position / 2 + 1 = (width + 1) / 2 := by omega
    simp only [turns]
    split
    · split
      · exact ih hnext
      · next hpaired =>
        -- a last position that is paired is the right one of its pair
        have hodd : ¬ position % 2 = 0 := by
          unfold Promoted at hpaired
          omega
        rw [if_neg hodd, forall_mem_cons]
        exact ⟨rfl, ih hnext⟩
    · simp

/-- Neighbouring positions part at one node. -/
theorem turns_succ (h : position + 1 < width) (hrounds : width ≤ rounds + 1) :
    ∃ lower lower' upper, turns rounds position width = lower ++ .left :: upper ∧
      turns rounds (position + 1) width = lower' ++ .right :: upper ∧
      (∀ side ∈ lower, side = .right) ∧ ∀ side ∈ lower', side = .left := by
  induction rounds generalizing position width with
  | zero => omega
  | succ rounds ih =>
    have hwidth : 1 < width := by omega
    have hpaired : ¬ Promoted position width := by
      unfold Promoted
      omega
    by_cases heven : position % 2 = 0
    · -- a pair: the paths part here
      have hpaired' : ¬ Promoted (position + 1) width := by
        unfold Promoted
        omega
      have hodd : ¬ (position + 1) % 2 = 0 := by omega
      have hhalf : (position + 1) / 2 = position / 2 := by omega
      refine ⟨[], [], turns rounds (position / 2) ((width + 1) / 2), ?_, ?_, by simp, by simp⟩
      · rw [turns, if_pos hwidth, if_neg hpaired, if_pos heven]
        rfl
      · rw [turns, if_pos hwidth, if_neg hpaired', if_neg hodd, hhalf]
        rfl
    · have hhalf : (position + 1) / 2 = position / 2 + 1 := by omega
      have hnext : position / 2 + 1 < (width + 1) / 2 := by omega
      obtain ⟨lower, lower', upper, hturns, hturns', hright, hleft⟩ :=
        ih hnext (by omega)
      have hstep : turns (rounds + 1) position width = (.right :: lower) ++ .left :: upper := by
        rw [turns, if_pos hwidth, if_neg hpaired, if_neg heven, hturns]
        rfl
      have hrights : ∀ side ∈ Side.right :: lower, side = .right :=
        forall_mem_cons.mpr ⟨rfl, hright⟩
      by_cases hprom : Promoted (position + 1) width
      · refine ⟨_, lower', upper, hstep, ?_, hrights, hleft⟩
        rw [turns, if_pos hwidth, if_pos hprom, hhalf, hturns']
      · have heven' : (position + 1) % 2 = 0 := by omega
        refine ⟨_, .left :: lower', upper, hstep, ?_, hrights, forall_mem_cons.mpr ⟨rfl, hleft⟩⟩
        rw [turns, if_pos hwidth, if_neg hprom, if_pos heven', hhalf, hturns']
        rfl

/-! ### What an accepted proof says -/

section Accepted

variable (H : Hashing D) {leaves : List D} (hleaves : ∀ d ∈ leaves, H.IsLeaf d)
include hleaves

/-- The tree behind a root that a leaf folds to. -/
theorem tree_of_refold {x : D} (hx : H.IsLeaf x)
    (h : refold H.node rounds x position width offered = some (root H.node H.empty leaves)) :
    ∃ t : Tree D, t.Proper H ∧ t.leaves = leaves ∧
      root H.node H.empty leaves = t.digest H.node := by
  rcases root_tree H hleaves with ⟨rfl, -⟩ | htree
  · exact absurd (mem_of_refold H hleaves hx h) not_mem_nil
  · exact htree

/-- The first position is the first leaf. -/
theorem first_of_refold {x : D} (hx : H.IsLeaf x)
    (h : refold H.node rounds x 0 width offered = some (root H.node H.empty leaves)) :
    ∃ after, leaves = x :: after := by
  obtain ⟨t, ht, rfl, hroot⟩ := tree_of_refold H hleaves hx h
  rw [hroot] at h
  exact (below_leaf_of_climbs ht hx (climbs_of_refold h)).first (turns_first _ _)

/-- The last position is the last leaf. -/
theorem last_of_refold {x : D} (hx : H.IsLeaf x) (hlast : position + 1 = width)
    (h : refold H.node rounds x position width offered = some (root H.node H.empty leaves)) :
    ∃ before, leaves = before ++ [x] := by
  obtain ⟨t, ht, rfl, hroot⟩ := tree_of_refold H hleaves hx h
  rw [hroot] at h
  exact (below_leaf_of_climbs ht hx (climbs_of_refold h)).last (turns_last _ hlast)

/-- Neighbouring positions are neighbouring leaves, whatever width they claim. -/
theorem adjacent_of_refold {x y : D} (hx : H.IsLeaf x) (hy : H.IsLeaf y) {offered' : List D}
    (hpos : position + 1 < width) (hrounds : width ≤ rounds + 1)
    (h : refold H.node rounds x position width offered = some (root H.node H.empty leaves))
    (h' : refold H.node rounds y (position + 1) width offered'
      = some (root H.node H.empty leaves)) :
    ∃ before after, leaves = before ++ x :: y :: after := by
  obtain ⟨t, ht, rfl, hroot⟩ := tree_of_refold H hleaves hx h
  rw [hroot] at h h'
  obtain ⟨lower, lower', upper, hturns, hturns', hright, hleft⟩ := turns_succ hpos hrounds
  have hbelow := below_leaf_of_climbs ht hx (climbs_of_refold h)
  have hbelow' := below_leaf_of_climbs ht hy (climbs_of_refold h')
  rw [hturns, below_append] at hbelow
  rw [hturns', below_append] at hbelow'
  obtain ⟨l, hl, hlast⟩ := hbelow
  obtain ⟨r, hr, hfirst⟩ := hbelow'
  -- both paths leave the same node, one into each child
  cases hl with
  | left hnode =>
    cases hr with
    | right hnode' =>
      obtain ⟨rfl, rfl⟩ := node.inj (hnode.unique hnode')
      obtain ⟨before, hbefore⟩ := hlast.last hright
      obtain ⟨after, hafter⟩ := hfirst.first hleft
      obtain ⟨outer, outer', houter⟩ := hnode.leaves_eq
      refine ⟨outer ++ before, after ++ outer', ?_⟩
      rw [houter, leaves, hbefore, hafter]
      simp [leaves]

end Accepted

/-- Nothing is folded onto a single digest. -/
theorem refold_one {node : D → D → D} {x d : D} (h : refold node rounds x 0 1 offered = some d) :
    offered = [] ∧ x = d := by
  cases rounds <;> simpa [refold] using h

/-- Under the true width the fold of an index reaches the root from the leaf
at that index only, and with its own siblings only. -/
theorem eq_of_refold {node : D → D → D} (empty : D)
    (hinj : ∀ {a b a' b'}, node a b = node a' b' → a = a' ∧ b = b') {level : List D}
    (h : position < level.length) (hrounds : level.length ≤ rounds + 1) {x : D}
    (hfold : refold node rounds x position level.length offered
      = some (((pairUp node)^[rounds] level).headD empty)) :
    x = level.get ⟨position, h⟩ ∧ offered = siblings node rounds level position h := by
  induction rounds generalizing level position x offered with
  | zero =>
    obtain ⟨a, rfl⟩ : ∃ a, level = [a] := length_eq_one_iff.mp (by omega)
    obtain rfl : position = 0 := by simpa using h
    exact (refold_one hfold).symm
  | succ rounds ih =>
    by_cases hlong : 1 < level.length
    · have hnext : (pairUp node level).length ≤ rounds + 1 := by
        rw [length_pairUp]
        omega
      have hup : position / 2 < (pairUp node level).length := half_lt_pairUp h
      simp only [refold, if_pos hlong] at hfold
      simp only [siblings, if_pos hlong]
      rw [← length_pairUp node] at hfold
      by_cases hprom : Promoted position level.length
      · rw [if_pos hprom] at hfold
        obtain ⟨hx, hoffered⟩ := ih hup hnext hfold
        rw [get_pairUp level h, dif_pos hprom] at hx
        rw [dif_pos hprom]
        exact ⟨hx, hoffered⟩
      · rw [if_neg hprom] at hfold
        rw [dif_neg hprom]
        cases offered with
        | nil => cases hfold
        | cons sibling rest =>
          obtain ⟨hx, rfl⟩ := ih hup hnext hfold
          rw [get_pairUp level h, dif_neg hprom] at hx
          by_cases heven : position % 2 = 0
          · rw [if_pos heven, if_pos heven] at hx
            obtain ⟨rfl, rfl⟩ := hinj hx
            exact ⟨rfl, rfl⟩
          · rw [if_neg heven, if_neg heven] at hx
            obtain ⟨rfl, rfl⟩ := hinj hx
            exact ⟨rfl, rfl⟩
    · obtain ⟨a, rfl⟩ : ∃ a, level = [a] := length_eq_one_iff.mp (by omega)
      obtain rfl : position = 0 := by simpa using h
      have hfix : (pairUp node)^[rounds + 1] [a] = [a] :=
        Function.iterate_fixed rfl (rounds + 1)
      rw [hfix] at hfold
      exact (refold_one hfold).symm

end Merkle
