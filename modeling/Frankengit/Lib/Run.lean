/-
Frankengit/Lib/Run.lean

Runs of a deterministic machine: a transition function `next : σ → ι → σ`
driven over a list of inputs.  Nothing here knows what the machine is.

Five rules carry every whole-run result of the development:

* `exec_history` — induction over a run for a property of the inputs
  consumed so far and the state they lead to (so a property may speak of
  the history, not only of the state);
* `exec_course` — the same for properties of states, where a step may use
  the property of every state the run went through;
* `exec_mono` — a preorder every step respects, under an invariant,
  relates the state after an initial segment of a run to the state after
  the whole run;
* `exec_invariant_of_meets` — an invariant that is kept only by the steps
  which meet a side condition holds after every run all of whose steps
  meet it;
* `exec_meets_or` — where the other steps break it for good, it holds after
  no other run.

`Happened` names one step of a run: the input and the state it was given
to.
-/
import Mathlib.Data.List.Induction

namespace Run

variable {σ ι : Type*}

/-- The state a run of inputs leads to. -/
def exec (next : σ → ι → σ) (s : σ) (inputs : List ι) : σ :=
  inputs.foldl next s

variable {next : σ → ι → σ} {s : σ}

@[simp] theorem exec_nil : exec next s [] = s := rfl

@[simp] theorem exec_cons (i : ι) (inputs : List ι) :
    exec next s (i :: inputs) = exec next (next s i) inputs := rfl

theorem exec_append (done rest : List ι) :
    exec next s (done ++ rest) = exec next (exec next s done) rest :=
  List.foldl_append

theorem exec_snoc (done : List ι) (i : ι) :
    exec next s (done ++ [i]) = next (exec next s done) i := by
  rw [exec_append, exec_cons, exec_nil]

/-! ### Steps of a run -/

/-- `Happened next s inputs before i`: along the run of `inputs` from `s`,
the input `i` was given to the state `before`. -/
def Happened (next : σ → ι → σ) (s : σ) (inputs : List ι) (before : σ) (i : ι) : Prop :=
  ∃ done rest, inputs = done ++ i :: rest ∧ before = exec next s done

theorem Happened.last (done : List ι) (i : ι) :
    Happened next s (done ++ [i]) (exec next s done) i :=
  ⟨done, [], rfl, rfl⟩

/-- A step of a run is a step of what came before the last input, or the last
one. -/
theorem Happened.of_snoc {done : List ι} {i j : ι} {before : σ}
    (h : Happened next s (done ++ [i]) before j) :
    Happened next s done before j ∨ before = exec next s done ∧ j = i := by
  obtain ⟨front, rest, h, rfl⟩ := h
  cases rest using List.reverseRecOn with
  | nil =>
    obtain ⟨rfl, hlast⟩ := List.append_inj' h rfl
    exact .inr ⟨rfl, (List.singleton_inj.mp hlast).symm⟩
  | append_singleton rest k =>
    rw [← List.cons_append, ← List.append_assoc] at h
    obtain ⟨rfl, -⟩ := List.append_inj' h rfl
    exact .inl ⟨front, rest, rfl, rfl⟩

variable {inputs : List ι}

theorem Happened.append {before : σ} {i : ι} (h : Happened next s inputs before i)
    (later : List ι) :
    Happened next s (inputs ++ later) before i := by
  obtain ⟨done, rest, rfl, rfl⟩ := h
  exact ⟨done, rest ++ later, by simp, rfl⟩

/-- Every step of the run meets `ok`. -/
def Meets (next : σ → ι → σ) (ok : σ → ι → Prop) (s : σ) (inputs : List ι) : Prop :=
  ∀ before i, Happened next s inputs before i → ok before i

variable {ok : σ → ι → Prop}

theorem Meets.nil : Meets next ok s [] := by
  rintro before i ⟨done, rest, h, -⟩
  simp at h

theorem Meets.cons {i : ι} (hi : ok s i) (h : Meets next ok (next s i) inputs) :
    Meets next ok s (i :: inputs) := by
  rintro before j ⟨done, rest, heq, rfl⟩
  cases done with
  | nil =>
    cases heq
    exact hi
  | cons first done =>
    cases heq
    exact h _ j ⟨done, rest, rfl, rfl⟩

theorem Meets.cons_iff {i : ι} :
    Meets next ok s (i :: inputs) ↔ ok s i ∧ Meets next ok (next s i) inputs := by
  refine ⟨fun h => ⟨h s i ⟨[], inputs, rfl, rfl⟩, ?_⟩, fun h => .cons h.1 h.2⟩
  rintro before j ⟨done, rest, rfl, rfl⟩
  exact h _ j ⟨i :: done, rest, rfl, rfl⟩

instance decidableMeets {ok : σ → ι → Prop} [∀ s i, Decidable (ok s i)] :
    ∀ (inputs : List ι) (s : σ), Decidable (Meets next ok s inputs)
  | [], _ => isTrue .nil
  | i :: inputs, s =>
    have : Decidable (Meets next ok (next s i) inputs) := decidableMeets inputs (next s i)
    decidable_of_iff (ok s i ∧ Meets next ok (next s i) inputs) Meets.cons_iff.symm

theorem Meets.of_snoc {done : List ι} {i : ι} (h : Meets next ok s (done ++ [i])) :
    Meets next ok s done ∧ ok (exec next s done) i :=
  ⟨fun _ _ hb => h _ _ (hb.append [i]), h _ _ (Happened.last done i)⟩

/-! ### Induction over a run -/

section History

variable {P : List ι → σ → Prop} (init : P [] s)
include init

/-- An invariant kept by the steps that meet `ok` holds after every run
whose steps all meet `ok`. -/
theorem exec_invariant_of_meets (step : ∀ done i, P done (exec next s done) →
      ok (exec next s done) i → P (done ++ [i]) (next (exec next s done) i))
    (h : Meets next ok s inputs) : P inputs (exec next s inputs) := by
  induction inputs using List.reverseRecOn with
  | nil => exact init
  | append_singleton done i ih =>
    obtain ⟨hdone, hi⟩ := h.of_snoc
    rw [exec_snoc]
    exact step done i (ih hdone) hi

/-- Induction over a run for properties of the consumed inputs and the
state they lead to. -/
theorem exec_history (step : ∀ done i, P done (exec next s done) →
      P (done ++ [i]) (next (exec next s done) i)) (inputs : List ι) : P inputs
        (exec next s inputs) :=
  have hmeets : Meets next (fun _ _ => True) s inputs := fun _ _ _ => trivial
  exec_invariant_of_meets init (fun done i ih _ => step done i ih) hmeets

end History

/-- A step invariant is a run invariant. -/
theorem exec_invariant {P : σ → Prop} (init : P s)
    (step : ∀ s i, P s → P (next s i)) (inputs : List ι) : P (exec next s inputs) :=
  exec_history (P := fun _ t => P t) init (fun _ _ h => step _ _ h) inputs

/-- Where a step that does not meet `ok` leads from `P` to `Q`, and nothing leads out
of `Q`, a run keeps `P` if all its steps meet `ok` and ends in `Q` otherwise. -/
theorem exec_meets_or {P Q : σ → Prop} (keep : ∀ s i, P s → ok s i → P (next s i))
    (leave : ∀ s i, P s → ¬ ok s i → Q (next s i)) (stay : ∀ s i, Q s → Q (next s i)) (hs : P s)
    (inputs : List ι) : Meets next ok s inputs ∧ P (exec next s inputs) ∨
      ¬ Meets next ok s inputs ∧ Q (exec next s inputs) := by
  induction inputs generalizing s with
  | nil => exact .inl ⟨.nil, hs⟩
  | cons i rest ih =>
    simp only [Meets.cons_iff, exec_cons]
    by_cases hi : ok s i
    · simpa [hi] using ih (keep s i hs hi)
    · exact .inr ⟨fun h => hi h.1, exec_invariant (leave s i hs hi) stay rest⟩

/-- Course-of-values induction over a run: a step may use the property of
every state the run went through. -/
theorem exec_course {P : σ → Prop} (init : P s)
    (step : ∀ done i, (∀ before j, Happened next s (done ++ [i]) before j → P before) →
      P (next (exec next s done) i)) (inputs : List ι) : P (exec next s inputs) := by
  -- carry the property of all earlier states along
  suffices h : P (exec next s inputs) ∧ ∀ before j, Happened next s inputs before j → P before from
    h.1
  refine exec_history
    (P := fun inputs t => P t ∧ ∀ before j, Happened next s inputs before j → P before)
    ⟨init, ?_⟩ (fun done i ih => ?_) inputs
  · rintro before j ⟨done, rest, h, -⟩
    simp at h
  · have hall : ∀ before j, Happened next s (done ++ [i]) before j → P before := by
      intro before j h
      rcases h.of_snoc with hearlier | ⟨rfl, -⟩
      · exact ih.2 before j hearlier
      · exact ih.1
    exact ⟨step done i hall, hall⟩

/-! ### Monotone observations -/

section Mono

variable {I : σ → Prop} {R : σ → σ → Prop}

/-- A preorder respected by every step from a state that keeps an invariant
is respected by runs from such a state. -/
theorem exec_mono (hrefl : ∀ t, R t t) (htrans : ∀ {a b c}, R a b → R b c → R a c)
    (keep : ∀ t i, I t → I (next t i)) (step : ∀ t i, I t → R t (next t i)) (hs : I s)
    (inputs : List ι) : R s (exec next s inputs) := by
  induction inputs generalizing s with
  | nil => exact hrefl s
  | cons i rest ih => exact htrans (step s i hs) (ih (keep s i hs))

/-- The state a step of the run was taken from is below the final state. -/
theorem Happened.mono (hrefl : ∀ t, R t t) (htrans : ∀ {a b c}, R a b → R b c → R a c)
    (keep : ∀ t i, I t → I (next t i)) (step : ∀ t i, I t → R t (next t i)) (hs : I s) {before : σ}
    {i : ι} (h : Happened next s inputs before i) : R before (exec next s inputs) := by
  obtain ⟨done, rest, rfl, rfl⟩ := h
  rw [exec_append]
  exact exec_mono hrefl htrans keep step (exec_invariant hs keep done) _

end Mono

end Run
