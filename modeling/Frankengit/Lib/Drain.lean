/-
Frankengit/Lib/Drain.lean

Loops that take the top of a stack until it is empty.  A step sees what is left
of the stack and returns the stack to go on with.  It lowers the rank of the
state, or keeps it and pushes nothing; so the loop ends.

`drain_keeps` carries an invariant of state and stack through a run.
-/
import Mathlib.Order.WellFounded
import Frankengit.Lib.Fallible

namespace Drain

variable {σ ι ε ρ : Type} [Preorder ρ]

/-- Each step lowers the rank, or keeps it and pushes nothing. -/
def Lowers (step : σ → ι → List ι → Except ε (σ × List ι)) (rank : σ → ρ) : Prop :=
  ∀ s i rest s' stack, step s i rest = .ok (s', stack) →
    rank s' < rank s ∨ rank s' = rank s ∧ stack.length ≤ rest.length

variable {step : σ → ι → List ι → Except ε (σ × List ι)} {rank : σ → ρ}

def drain [WellFoundedLT ρ] (h : Lowers step rank) (s : σ) : List ι → Except ε σ
  | [] => .ok s
  | i :: rest =>
    match _hstep : step s i rest with
    | .error e => .error e
    | .ok (s', stack) => drain h s' stack
termination_by stack => (WellFounded.wrap (wellFounded_lt (α := ρ)) (rank s), stack.length)
decreasing_by
  rcases h _ _ _ _ _ _hstep with hlt | ⟨heq, hle⟩
  · exact Prod.Lex.left _ _ hlt
  · rw [heq]
    exact Prod.Lex.right _ (Nat.lt_succ_of_le hle)

variable [WellFoundedLT ρ] {s s' : σ} {i : ι} {rest stack : List ι}

@[simp] theorem drain_nil (h : Lowers step rank) : drain h s [] = .ok s := by
  rw [drain]

theorem drain_cons (h : Lowers step rank) :
    drain h s (i :: rest) = step s i rest >>= fun next => drain h next.1 next.2 := by
  rw [drain]
  split
  · next e he => rw [he]; rfl
  · next s' stack hok => rw [hok]; rfl

/-- An invariant that each step keeps holds at the end. -/
theorem drain_keeps (h : Lowers step rank) {P : σ → List ι → Prop}
    (hstep : ∀ {s i rest s' stack}, P s (i :: rest) → step s i rest = .ok (s', stack) → P s' stack)
    (hrun : drain h s stack = .ok s') (hP : P s stack) : P s' [] := by
  fun_induction drain h s stack with
  | case1 s =>
    cases hrun
    exact hP
  | case2 => cases hrun
  | case3 s i rest s₁ stack hok ih => exact ih hrun (hstep hP hok)

end Drain
