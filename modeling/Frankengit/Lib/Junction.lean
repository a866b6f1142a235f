/-
Frankengit/Lib/Junction.lean

Formulas with negation and junctions of lists of operands, up to spelling.
`Connectives` says how a type of formulas builds them; a junction is a
conjunction or a disjunction.  `Respell` is one change of spelling, at any
depth: operands permuted or repeated, some of them grouped into a junction of
the same kind, a unit operand added, a double negation inserted.

`Canonical` says what an interpretation of formulas must satisfy to be blind
to spelling: a junction is read off the set of its operands' values, and
units, groups and double negations do not show.  `Canonical.eq` is the result.
-/
import Mathlib.Tactic
import Mathlib.Logic.Relation

namespace Junction

open List

universe u v

/-- How formulas are built; `junction true` is a conjunction. -/
structure Connectives (α : Type u) where
  junction : Bool → List α → α
  unit : Bool → α
  not : α → α

variable {α : Type u} {β : Type v}

/-- One change of spelling. -/
inductive Respell (C : Connectives α) : α → α → Prop where
  | permute {c : Bool} {l m : List α} (h : l.Perm m) : Respell C (C.junction c l) (C.junction c m)
  | duplicate {c : Bool} {l : List α} {p : α} (h : p ∈ l) :
      Respell C (C.junction c l) (C.junction c (p :: l))
  | group (c : Bool) (before inner after : List α) :
      Respell C (C.junction c (before ++ inner ++ after))
        (C.junction c (before ++ C.junction c inner :: after))
  | unit (c : Bool) (l : List α) : Respell C (C.junction c l) (C.junction c (C.unit c :: l))
  | doubleNegation (p : α) : Respell C p (C.not (C.not p))
  | underNot {p q : α} (h : Respell C p q) : Respell C (C.not p) (C.not q)
  | underJunction {p q : α} (c : Bool) (before after : List α) (h : Respell C p q) :
      Respell C (C.junction c (before ++ p :: after)) (C.junction c (before ++ q :: after))

/-- Two spellings of one formula. -/
def Respelled (C : Connectives α) : α → α → Prop := Relation.EqvGen (Respell C)

/-- An interpretation that is blind to spelling. -/
structure Canonical (C : Connectives α) (f : α → β) : Prop where
  junction_congr : ∀ (c : Bool) {l m : List α}, (∀ b, b ∈ l.map f ↔ b ∈ m.map f) →
    f (C.junction c l) = f (C.junction c m)
  group : ∀ (c : Bool) (before inner after : List α),
    f (C.junction c (before ++ C.junction c inner :: after))
      = f (C.junction c (before ++ inner ++ after))
  unit : ∀ (c : Bool) (l : List α), f (C.junction c (C.unit c :: l)) = f (C.junction c l)
  not_congr : ∀ {p q : α}, f p = f q → f (C.not p) = f (C.not q)
  not_not : ∀ p : α, f (C.not (C.not p)) = f p

namespace Canonical

variable {C : Connectives α} {f : α → β} {p q : α}

theorem eq_of_respell (hf : Canonical C f) (h : Respell C p q) : f p = f q := by
  induction h with
  | permute h => exact hf.junction_congr _ fun b => (h.map f).mem_iff
  | duplicate h =>
    refine hf.junction_congr _ fun b => ?_
    rw [map_cons, mem_cons, or_iff_right_of_imp]
    rintro rfl
    exact mem_map_of_mem h
  | group c before inner after => exact (hf.group c before inner after).symm
  | unit c l => exact (hf.unit c l).symm
  | doubleNegation p => exact (hf.not_not p).symm
  | underNot _ ih => exact hf.not_congr ih
  | underJunction c before after _ ih =>
    refine hf.junction_congr c fun b => ?_
    rw [map_append, map_append, map_cons, map_cons, ih]

/-- **Spelling does not show.** -/
theorem eq (hf : Canonical C f) (h : Respelled C p q) : f p = f q := by
  induction h with
  | rel _ _ h => exact hf.eq_of_respell h
  | refl => rfl
  | symm _ _ _ ih => exact ih.symm
  | trans _ _ _ _ _ ih₁ ih₂ => exact ih₁.trans ih₂

end Canonical

end Junction
