/-
Frankengit/Lib/Relax.lean

Label-correcting search.  A node is reached with a label, leads on to other
nodes with labels that depend on its own, and is looked at again whenever it is
reached with a better one.  Labels are compared by a key.

`Relaxing` is the invariant of such a loop, kept when an arrival is dropped
(`skip`) and when one is taken (`visit`); with nothing pending every node has
its best label (`finished`).  `Narrow` bounds the weight of a label by the number
of labelled nodes.
-/
import Mathlib.Order.WellFoundedSet
import Mathlib.Data.DFinsupp.WellFounded
import Frankengit.Lib.Drain

namespace Relax

open Function Drain

variable {α L κ : Type}

section Search

variable [LinearOrder κ] (leads : α → L → α → L → Prop) (roots : α → L → Prop) (key : L → κ)

/-- A node is reached with a label. -/
inductive Arrives : α → L → Prop
  | root {x : α} {l : L} (h : roots x l) : Arrives x l
  | step {y : α} {m : L} {x : α} {l : L} (hy : Arrives y m) (h : leads y m x l) : Arrives x l

/-- A better label leads to labels that are no worse. -/
def Improving : Prop :=
  ∀ {y m m' x l'}, key m ≤ key m' → leads y m' x l' → ∃ l, leads y m x l ∧ key l ≤ key l'

/-- The node has a label, or will get one, that is no worse. -/
def Covered (labels : α → Option L) (pending : α → L → Prop) (x : α) (l : L) : Prop :=
  ∃ l', key l' ≤ key l ∧ (labels x = some l' ∨ pending x l')

/-- The search so far: labels and pending arrivals are real, and every arrival
that the labels account for is covered. -/
structure Relaxing (labels : α → Option L) (pending : α → L → Prop) : Prop where
  labelled : ∀ {x l}, labels x = some l → Arrives leads roots x l
  queued : ∀ {x l}, pending x l → Arrives leads roots x l
  roots : ∀ {x l}, roots x l → Covered key labels pending x l
  closed : ∀ {y m x l}, labels y = some m → leads y m x l → Covered key labels pending x l

namespace Relaxing

variable {leads : α → L → α → L → Prop} {roots : α → L → Prop} {key : L → κ}
  {labels labels' : α → Option L} {pending pending' : α → L → Prop} {x : α} {l m : L}

theorem start (hlabels : ∀ x, labels x = none) (hpend : ∀ x l, pending x l ↔ roots x l) :
    Relaxing leads roots key labels pending where
  labelled := by
    intro x l h
    rw [hlabels] at h
    cases h
  queued := fun h => .root ((hpend _ _).mp h)
  roots := fun h => ⟨_, le_rfl, .inr ((hpend _ _).mpr h)⟩
  closed := by
    intro y m x l h
    rw [hlabels] at h
    cases h

/-- What has a label after an arrival is taken. -/
theorem update_cases [DecidableEq α] {y : α} (h : update labels x (some l) y = some m) :
    y = x ∧ m = l ∨ labels y = some m := by
  rw [update_apply] at h
  split at h
  · next hy => exact .inl ⟨hy, (Option.some.inj h).symm⟩
  · exact .inr h

variable (h : Relaxing leads roots key labels pending)

include h

/-- An arrival that is no better than the label is dropped. -/
theorem skip (hlabel : labels x = some m) (hle : key m ≤ key l)
    (honly : ∀ {y n}, pending' y n → pending y n)
    (hkept : ∀ {y n}, pending y n → (y = x ∧ n = l) ∨ pending' y n) :
    Relaxing leads roots key labels pending' := by
  have hcov : ∀ {y n}, Covered key labels pending y n → Covered key labels pending' y n := by
    rintro y n ⟨n', hn', hlabelled | hqueued⟩
    · exact ⟨n', hn', .inl hlabelled⟩
    · rcases hkept hqueued with ⟨rfl, rfl⟩ | hqueued
      · exact ⟨m, hle.trans hn', .inl hlabel⟩
      · exact ⟨n', hn', .inr hqueued⟩
  exact ⟨h.labelled, fun hq => h.queued (honly hq), fun hr => hcov (h.roots hr),
    fun hy hl => hcov (h.closed hy hl)⟩

/-- A better arrival becomes the label, and what it leads to is pending. -/
theorem visit [DecidableEq α] (hx : pending x l)
    (hbetter : ∀ {m}, labels x = some m → key l ≤ key m)
    (hpend : ∀ y n, pending' y n ∨ y = x ∧ n = l ↔ leads x l y n ∨ pending y n) :
    Relaxing leads roots key (update labels x (some l)) pending' := by
  have hqueue : ∀ {y n}, leads x l y n ∨ pending y n →
      update labels x (some l) y = some n ∨ pending' y n := by
    intro y n hq
    rcases (hpend y n).mpr hq with hq | ⟨rfl, rfl⟩
    · exact .inr hq
    · exact .inl (update_self ..)
  have hcov : ∀ {y n}, Covered key labels pending y n →
      Covered key (update labels x (some l)) pending' y n := by
    rintro y n ⟨n', hn', hlabelled | hqueued⟩
    · by_cases hy : y = x
      · subst hy
        exact ⟨l, (hbetter hlabelled).trans hn', .inl (update_self ..)⟩
      · exact ⟨n', hn', .inl ((update_of_ne hy ..).trans hlabelled)⟩
    · exact ⟨n', hn', hqueue (.inr hqueued)⟩
  constructor
  · intro y n hn
    rcases update_cases hn with ⟨rfl, rfl⟩ | hn
    · exact h.queued hx
    · exact h.labelled hn
  · intro y n hn
    rcases (hpend y n).mp (.inl hn) with hn | hn
    · exact .step (h.queued hx) hn
    · exact h.queued hn
  · exact fun hr => hcov (h.roots hr)
  · intro y n z k hn hz
    rcases update_cases hn with ⟨rfl, rfl⟩ | hn
    · exact ⟨k, le_rfl, hqueue (.inl hz)⟩
    · exact hcov (h.closed hn hz)

/-- **With nothing pending every reached node has its best label.** -/
theorem finished (hnone : ∀ {y n}, ¬ pending y n) (himproving : Improving leads key)
    (harrives : Arrives leads roots x l) : ∃ m, labels x = some m ∧ key m ≤ key l := by
  have hlabel : ∀ {y n}, Covered key labels pending y n → ∃ m, labels y = some m ∧
      key m ≤ key n := by
    rintro y n ⟨n', hn', hlabelled | hqueued⟩
    · exact ⟨n', hlabelled, hn'⟩
    · exact absurd hqueued hnone
  induction harrives with
  | root hr => exact hlabel (h.roots hr)
  | step _ hstep ih =>
    obtain ⟨m', hm', hle⟩ := ih
    obtain ⟨l', hl', hle'⟩ := himproving hle hstep
    obtain ⟨k, hk, hkl⟩ := hlabel (h.closed hm' hl')
    exact ⟨k, hk, hkl.trans hle'⟩

/-- The labels at the end, when keys tell labels apart. -/
theorem label_iff (hnone : ∀ {y n}, ¬ pending y n) (himproving : Improving leads key)
    (hkey : Injective key) :
    labels x = some l ↔ Arrives leads roots x l ∧ ∀ m, Arrives leads roots x m → key l ≤ key m := by
  constructor
  · intro hl
    refine ⟨h.labelled hl, fun m hm => ?_⟩
    obtain ⟨n, hn, hle⟩ := h.finished hnone himproving hm
    rw [hl] at hn
    cases hn
    exact hle
  · rintro ⟨harrives, hleast⟩
    obtain ⟨n, hn, hle⟩ := h.finished hnone himproving harrives
    rw [hn, hkey (le_antisymm hle (hleast n (h.labelled hn)))]

end Relaxing

end Search

/-! ### Weights -/

/-- A label weighs less than the number of labelled nodes, a pending one no
more. -/
structure Narrow (weight : L → ℕ) (count : ℕ) (labels : α → Option L) (pending : α → L → Prop) :
    Prop where
  labelled : ∀ {x l}, labels x = some l → weight l < count
  queued : ∀ {x l}, pending x l → weight l ≤ count

namespace Narrow

variable {weight : L → ℕ} {count count' : ℕ} {labels labels' : α → Option L}
  {pending pending' : α → L → Prop} {x : α} {l : L}

theorem skip (h : Narrow weight count labels pending)
    (honly : ∀ {y n}, pending' y n → pending y n) :
    Narrow weight count labels pending' :=
  ⟨h.labelled, fun hq => h.queued (honly hq)⟩

theorem visit [DecidableEq α] (h : Narrow weight count labels pending) (hx : pending x l)
    (hold : ∀ {m}, labels x = some m → weight l ≤ weight m)
    (hcount : count ≤ count') (hfresh : labels x = none → count < count')
    (honly : ∀ {y n}, pending' y n → weight n ≤ weight l + 1 ∨ pending y n) :
    Narrow weight count' (update labels x (some l)) pending' := by
  have hl : weight l < count' := by
    cases hx' : labels x with
    | none => exact (h.queued hx).trans_lt (hfresh hx')
    | some m => exact (hold hx').trans_lt ((h.labelled hx').trans_le hcount)
  constructor
  · intro y n hn
    rcases Relaxing.update_cases hn with ⟨rfl, rfl⟩ | hn
    · exact hl
    · exact (h.labelled hn).trans_le hcount
  · intro y n hn
    rcases honly hn with hn | hn
    · omega
    · exact (h.queued hn).trans hcount

end Narrow

/-! ### Runs end -/

section Runs

variable [LinearOrder κ] (key : L → κ)

/-- The keys of the labels, with none at the top. -/
def rank (labels : α → Option L) : α → WithTop κ :=
  fun x => (labels x).elim ⊤ fun l => (key l : WithTop κ)

theorem rank_lt [DecidableEq α] {labels : α → Option L} {x : α} {l : L}
    (hbetter : ∀ m, labels x = some m → key l < key m) :
    rank key (update labels x (some l)) < rank key labels := by
  have hrank : rank key (update labels x (some l))
      = update (rank key labels) x (key l : WithTop κ) :=
    comp_update (fun label : Option L => label.elim ⊤ fun l => (key l : WithTop κ)) ..
  rw [hrank, update_lt_self_iff, rank]
  cases hold : labels x with
  | none => exact WithTop.coe_lt_top _
  | some m => exact WithTop.coe_lt_coe.mpr (hbetter m hold)

/-- **Induction along a run**: the labels get better, or they stay and fewer
arrivals are pending. -/
theorem induction [Finite α] [WellFoundedLT κ] {σ : Type} (labels : σ → α → Option L)
    (size : σ → ℕ) {P : σ → Prop}
    (step : ∀ s, (∀ s', rank key (labels s') < rank key (labels s) → P s') →
      (∀ s', labels s' = labels s → size s' < size s → P s') → P s) (s : σ) : P s := by
  have hwf : WellFounded (Prod.Lex (fun f g : α → WithTop κ => f < g) (fun m n : ℕ => m < n)) :=
    WellFounded.prod_lex wellFounded_lt wellFounded_lt
  refine (InvImage.wf (fun s => (rank key (labels s), size s)) hwf).induction s fun s ih => ?_
  refine step s (fun s' h => ih s' (Prod.Lex.left _ _ h)) fun s' heq h => ih s' ?_
  show Prod.Lex _ _ (rank key (labels s'), size s') (rank key (labels s), size s)
  rw [heq]
  exact Prod.Lex.right _ h

variable {σ ι ε ρ Λ : Type} [Preorder ρ] [WellFoundedLT ρ]
  {step : Λ → σ → ι → List ι → Except ε (σ × List ι)} {score : Λ → σ → ρ}

/-- **A run succeeds within some bound.**  Each step can be made at some cost,
whatever the limits, if they leave room for the cost; and it improves the labels
or drops an arrival.  Then there is an amount of room in which the whole run
can be made. -/
theorem exists_drain [Finite α] [WellFoundedLT κ]
    (hlowers : ∀ limits, Drain.Lowers (step limits) (score limits))
    (labels : σ → α → Option L) {Inv : σ → List ι → Prop} {room : Λ → σ → List ι → ℕ → Prop}
    (hstep : ∀ s i rest, Inv s (i :: rest) → ∃ s' stack cost, Inv s' stack
      ∧ (rank key (labels s') < rank key (labels s) ∨ labels s' = labels s ∧
        stack.length ≤ rest.length)
      ∧ ∀ limits bound, room limits s (i :: rest) (bound + cost) →
        step limits s i rest = .ok (s', stack) ∧ room limits s' stack bound)
    {s : σ} {stack : List ι} (h : Inv s stack) :
    ∃ bound, ∀ limits, room limits s stack bound →
      ∃ s', drain (hlowers limits) s stack = .ok s' := by
  let P : σ × List ι → Prop := fun state => Inv state.1 state.2 → ∃ bound, ∀ limits,
    room limits state.1 state.2 bound → ∃ s', drain (hlowers limits) state.1 state.2 = .ok s'
  refine induction (P := P) key (fun state => labels state.1) (fun state => state.2.length) ?_
    (s, stack) h
  rintro ⟨s, stack⟩ ihBetter ihFewer h
  cases stack with
  | nil => exact ⟨0, fun limits _ => ⟨s, drain_nil _⟩⟩
  | cons i rest =>
    obtain ⟨s', stack', cost, h', hprogress, hmake⟩ := hstep s i rest h
    have hrest : P (s', stack') := by
      rcases hprogress with hbetter | ⟨hsame, hfewer⟩
      · exact ihBetter (s', stack') hbetter
      · exact ihFewer (s', stack') hsame (Nat.lt_succ_of_le hfewer)
    obtain ⟨bound, hbound⟩ := hrest h'
    refine ⟨bound + cost, fun limits hroom => ?_⟩
    obtain ⟨hok, hleft⟩ := hmake limits bound hroom
    rw [drain_cons, hok]
    exact hbound limits hleft

end Runs

end Relax
