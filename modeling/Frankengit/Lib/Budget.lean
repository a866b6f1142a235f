/-
Frankengit/Lib/Budget.lean

Computations that pay for their work from a budget.

Paying can fail, and it is the only thing the budget decides: what a
computation answers, and what it costs, do not depend on how much is left.
`Takes x cost a` says so of a computation, and `Gives x P` that it has some
cost and an answer with `P`.  Such a computation answers exactly when the
budget covers its cost.
-/
import Mathlib.Tactic

/-- What is left of a limit. -/
structure WorkBudget where
  remaining : ℕ
  limit : ℕ

namespace WorkBudget

variable {ε α β ι : Type}

/-- A computation that pays from a budget and may fail with `ε`. -/
abbrev Budgeted (ε : Type) := StateT WorkBudget (Except ε)

def new (limit : ℕ) : WorkBudget := ⟨limit, limit⟩

/-- Pay, or fail with the error for this limit. -/
def consume (exceeded : ℕ → ε) (amount : ℕ) : Budgeted ε Unit := fun b =>
  if amount ≤ b.remaining then .ok ((), { b with remaining := b.remaining - amount })
  else .error (exceeded b.limit)

section

variable (exceeded : ℕ → ε)

/-- The computation costs this much and answers that. -/
def Takes (x : Budgeted ε α) (cost : ℕ) (a : α) : Prop :=
  ∀ b, x b = if cost ≤ b.remaining then .ok (a, { b with remaining := b.remaining - cost })
    else .error (exceeded b.limit)

/-- The computation has a cost, and an answer with the property. -/
def Gives (x : Budgeted ε α) (P : α → Prop) : Prop := ∃ cost a, Takes exceeded x cost a ∧ P a

end

variable {exceeded : ℕ → ε}

theorem takes_pure (a : α) : Takes exceeded (pure a) 0 a := by
  intro b
  rfl

theorem takes_consume (amount : ℕ) : Takes exceeded (consume exceeded amount) amount () :=
  fun _ => rfl

variable {x : Budgeted ε α}

theorem Takes.bind {f : α → Budgeted ε β} {m n : ℕ} {a : α} {c : β} (hx : Takes exceeded x m a)
    (hf : Takes exceeded (f a) n c) : Takes exceeded (x >>= f) (m + n) c := by
  intro b
  show (x b >>= fun p => f p.1 p.2) = _
  rw [hx b]
  by_cases hm : m ≤ b.remaining
  · rw [if_pos hm]
    show f a _ = _
    rw [hf]
    by_cases hn : m + n ≤ b.remaining
    · rw [if_pos hn, if_pos (Nat.le_sub_of_add_le' hn), Nat.sub_sub]
    · have hrest : ¬ n ≤ b.remaining - m := by omega
      rw [if_neg hn, if_neg hrest]
  · rw [if_neg hm, if_neg (by omega)]
    rfl

variable {b : WorkBudget}

/-- The budget covers the cost. -/
theorem Takes.eq_ok {cost : ℕ} {a : α} (h : Takes exceeded x cost a) (hb : cost ≤ b.remaining) :
    x b = .ok (a, { b with remaining := b.remaining - cost }) :=
  (h b).trans (if_pos hb)

namespace Gives

variable {P Q : α → Prop}

theorem pure {a : α} (h : P a) : Gives exceeded (pure a : Budgeted ε α) P :=
  ⟨0, a, takes_pure a, h⟩

theorem consume (amount : ℕ) : Gives exceeded (consume exceeded amount) fun _ => True :=
  ⟨amount, (), takes_consume amount, trivial⟩

theorem bind {R : β → Prop} {x : Budgeted ε β} {f : β → Budgeted ε α} (hx : Gives exceeded x R)
    (hf : ∀ b, R b → Gives exceeded (f b) P) : Gives exceeded (x >>= f) P := by
  obtain ⟨m, b, hb, hR⟩ := hx
  obtain ⟨n, a, ha, hP⟩ := hf b hR
  exact ⟨m + n, a, hb.bind ha, hP⟩

/-- Pay and go on. -/
theorem pay {amount : ℕ} {f : Unit → Budgeted ε α} (hf : Gives exceeded (f ()) P) :
    Gives exceeded (WorkBudget.consume exceeded amount >>= f) P :=
  (consume amount).bind fun _ _ => hf

theorem map {f : β → α} {x : Budgeted ε β} (h : Gives exceeded x fun b => P (f b)) :
    Gives exceeded (f <$> x) P := by
  exact h.bind fun b hb => pure hb

theorem mono (h : Gives exceeded x P) (hPQ : ∀ a, P a → Q a) : Gives exceeded x Q := by
  obtain ⟨cost, a, ha, hP⟩ := h
  exact ⟨cost, a, ha, hPQ a hP⟩

/-- A loop that pays in every turn, with an invariant of the consumed
elements. -/
theorem foldlM {f : β → ι → Budgeted ε β} {I : List ι → β → Prop} {l : List ι} {b : β}
    (init : I [] b) (step : ∀ done x rest b, l = done ++ x :: rest → I done b →
      Gives exceeded (f b x) (I (done ++ [x]))) : Gives exceeded (l.foldlM f b) (I l) := by
  suffices aux : ∀ (rest done : List ι) (b : β), l = done ++ rest → I done b →
      Gives exceeded (rest.foldlM f b) (I l) by
    exact aux l [] b rfl init
  intro rest
  induction rest with
  | nil =>
    rintro done b hl hI
    rw [List.append_nil] at hl
    exact pure (hl ▸ hI)
  | cons x rest ih =>
    intro done b hl hI
    refine (step done x rest b hl hI).bind fun b' hI' => ih (done ++ [x]) b' ?_ hI'
    rw [hl, List.append_assoc, List.singleton_append]

/-- What a computation answers has the property. -/
theorem answer (h : Gives exceeded x P) {b' : WorkBudget} {a : α} (ha : x b = .ok (a, b')) :
    P a := by
  obtain ⟨cost, a', htakes, hP⟩ := h
  rw [htakes] at ha
  split at ha
  · cases ha
    exact hP
  · cases ha

/-- The one way to fail is to run out of budget. -/
theorem failure (h : Gives exceeded x P) {e : ε} (he : x b = .error e) : e = exceeded b.limit := by
  obtain ⟨cost, a, htakes, -⟩ := h
  rw [htakes] at he
  split at he
  · cases he
  · cases he
    rfl

end Gives

end WorkBudget
