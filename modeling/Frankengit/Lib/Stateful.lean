/-
Frankengit/Lib/Stateful.lean

Computations that may fail and that keep the state they have reached when
they do, as `ExceptT` over a state monad.

`Triple P x Q E` is their logic: from a state with `P`, an answer comes with
`Q` of the answer and the state reached, and a failure leaves a state with
`E`.  For a mutable object that is used again after a failed call, `E` is the
object's invariant.
-/
import Mathlib.Tactic

namespace Stateful

variable {ε σ α β : Type}

/-- A computation over a state `σ` that keeps its state when it fails. -/
abbrev Fallibly (ε σ : Type) := ExceptT ε (StateM σ)

/-- The answer and the state reached. -/
def exec (x : Fallibly ε σ α) (s : σ) : Except ε α × σ := StateT.run (ExceptT.run x) s

/-- The computation with a given outcome. -/
def ofExec (f : σ → Except ε α × σ) : Fallibly ε σ α := ExceptT.mk fun s => f s

@[simp] theorem exec_ofExec (f : σ → Except ε α × σ) (s : σ) : exec (ofExec f) s = f s := rfl

theorem exec_bind (x : Fallibly ε σ α) (f : α → Fallibly ε σ β) (s : σ) :
    exec (x >>= f) s = match exec x s with
      | (.ok a, s') => exec (f a) s'
      | (.error e, s') => (.error e, s') := by
  show (match x s with | (a, s') => ExceptT.bindCont f a s') = _
  rw [show exec x s = x s from rfl]
  rcases x s with ⟨a | a, s'⟩ <;> rfl

theorem exec_map (f : α → β) (x : Fallibly ε σ α) (s : σ) :
    exec (f <$> x) s = ((exec x s).1.map f, (exec x s).2) := by
  show (match x s with
    | (a, s') => (match a with
      | .ok a => Pure.pure (.ok (f a))
      | .error e => Pure.pure (.error e) : StateM σ (Except ε β)) s') = _
  rw [show exec x s = x s from rfl]
  rcases x s with ⟨a | a, s'⟩ <;> rfl

/-- Partial correctness, with a condition on the state a failure leaves. -/
def Triple (P : σ → Prop) (x : Fallibly ε σ α) (Q : α → σ → Prop) (E : σ → Prop) : Prop :=
  ∀ s, P s → match exec x s with
    | (.ok a, s') => Q a s'
    | (.error _, s') => E s'

variable {x : Fallibly ε σ β} {f : β → Fallibly ε σ α}

namespace Triple

variable {P P' : σ → Prop} {Q Q' : α → σ → Prop} {E : σ → Prop}

/-- What holds of an answer. -/
theorem answer {x : Fallibly ε σ α} (h : Triple P x Q E) {s : σ} (hs : P s) {a : α}
    (ha : (exec x s).1 = .ok a) : Q a (exec x s).2 := by
  have hx := h s hs
  rcases e : exec x s with ⟨_ | b, s'⟩
  · rw [e] at ha
    cases ha
  · rw [e] at hx ha
    cases ha
    exact hx

theorem mono {x : Fallibly ε σ α} (h : Triple P x Q E) (hP : ∀ s, P' s → P s)
    (hQ : ∀ a s, Q a s → Q' a s) : Triple P' x Q' E := by
  intro s hs
  have hx := h s (hP s hs)
  rcases e : exec x s with ⟨_ | a, s'⟩
  · rw [e] at hx
    exact hx
  · rw [e] at hx
    exact hQ a s' hx

theorem pure {a : α} (h : ∀ s, P s → Q a s) : Triple P (pure a : Fallibly ε σ α) Q E :=
  fun s hs => h s hs

theorem bind {R : β → σ → Prop} (hx : Triple P x R E) (hf : ∀ b, Triple (R b) (f b) Q E) :
    Triple P (x >>= f) Q E := by
  intro s hs
  have h := hx s hs
  rw [exec_bind]
  rcases e : exec x s with ⟨_ | b, s'⟩
  · rw [e] at h
    exact h
  · rw [e] at h
    exact hf b s' h

theorem map {f : β → α} (h : Triple P x (fun b => Q (f b)) E) : Triple P (f <$> x) Q E := by
  intro s hs
  have hx := h s hs
  rw [exec_map]
  rcases e : exec x s with ⟨_ | b, s'⟩ <;> rw [e] at hx <;> exact hx

theorem throw {e : ε} (h : ∀ s, P s → E s) :
    Triple P (throw e : Fallibly ε σ α) Q E := fun s hs => h s hs

theorem get {Q : σ → σ → Prop} (h : ∀ s, P s → Q s s) :
    Triple P (MonadState.get : Fallibly ε σ σ) Q E := fun s hs => h s hs

/-- A computation that looks at the state goes on from that state. -/
theorem get_bind {f : σ → Fallibly ε σ α} (hf : ∀ s, P s → Triple (· = s) (f s) Q E) :
    Triple P (MonadState.get >>= f) Q E := fun s hs => hf s hs s rfl

theorem modify {f : σ → σ} {Q : PUnit → σ → Prop} (h : ∀ s, P s → Q ⟨⟩ (f s)) :
    Triple P (modify f : Fallibly ε σ PUnit) Q E := fun s hs => h s hs

/-- A step that does not look at the state. -/
theorem lift {x : Except ε α} (h : ∀ a s, x = .ok a → P s → Q a s) (hE : ∀ s, P s → E s) :
    Triple P (liftM x : Fallibly ε σ α) Q E := by
  intro s hs
  cases hx : x with
  | error e => exact hE s hs
  | ok a => exact h a s hx hs

/-- After such a step, its success is known. -/
theorem lift_bind {x : Except ε β} (hf : ∀ b, x = .ok b → Triple P (f b) Q E)
    (hE : ∀ s, P s → E s) :
    Triple P (liftM x >>= f) Q E := by
  cases hx : x with
  | error e => exact fun s hs => hE s hs
  | ok b => exact fun s hs => hf b hx s hs

end Triple

/-! ### Invariants -/

/-- The computation keeps an invariant, whatever it answers. -/
def Keeps (I : σ → Prop) (x : Fallibly ε σ α) : Prop := Triple I x (fun _ => I) I

/-- The computation keeps an invariant, and its answer has a property. -/
abbrev Ensures (I : σ → Prop) (x : Fallibly ε σ α) (Q : α → σ → Prop) : Prop :=
  Triple I x (fun a s => I s ∧ Q a s) I

namespace Keeps

variable {I : σ → Prop}

theorem exec_snd {x : Fallibly ε σ α} (h : Keeps I x) {s : σ} (hs : I s) : I (exec x s).2 := by
  have hx := h s hs
  rcases e : exec x s with ⟨_ | a, s'⟩ <;> rw [e] at hx <;> exact hx

theorem pure (a : α) : Keeps I (pure a : Fallibly ε σ α) := Triple.pure fun _ hs => hs

theorem throw (e : ε) : Keeps I (throw e : Fallibly ε σ α) := Triple.throw fun _ hs => hs

theorem bind (hx : Keeps I x) (hf : ∀ b, Keeps I (f b)) : Keeps I (x >>= f) := Triple.bind hx hf

/-- A computation that looks at the state sees one with the invariant. -/
theorem get_bind {f : σ → Fallibly ε σ α} (hf : ∀ s, I s → Keeps I (f s)) :
    Keeps I (MonadState.get >>= f) := fun s hs => hf s hs s hs

theorem modify {f : σ → σ} (h : ∀ s, I s → I (f s)) :
    Keeps I (modify f : Fallibly ε σ PUnit) := Triple.modify h

theorem ofExec {f : σ → Except ε α × σ} (h : ∀ s, I s → I (f s).2) : Keeps I (ofExec f) := by
  intro s hs
  have hf := h s hs
  rw [exec_ofExec]
  rcases e : f s with ⟨_ | a, s'⟩ <;> rw [e] at hf <;> exact hf

theorem lift (x : Except ε α) : Keeps I (liftM x : Fallibly ε σ α) :=
  Triple.lift (fun _ _ _ hs => hs) fun _ hs => hs

end Keeps

end Stateful
