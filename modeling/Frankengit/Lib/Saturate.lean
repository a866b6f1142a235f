/-
Frankengit/Lib/Saturate.lean

What some nodes lead to in a finite graph.  `Spread` is the invariant of every
loop that finds it: the nodes that are known, and of those the ones whose
successors are known too.  Looking at one more node keeps it (`Spread.visit`), and
with nothing left to look at the known nodes are the reached ones
(`Spread.known_iff`).

`saturate` is such a loop, with a stack of marked nodes whose successors have
not been looked at.  A node is marked when it is pushed, so it is pushed once;
the loop needs no more turns than there are nodes.
-/
import Mathlib.Data.Finset.Card
import Mathlib.Logic.Relation
import Mathlib.Tactic

open Relation List

/-- Known nodes are reached, and done ones lead to known ones. -/
structure Spread {α : Type*} (edge : α → α → Prop) (roots known done : α → Prop) : Prop where
  reached : ∀ x, known x → ∃ r, roots r ∧ ReflTransGen edge r x
  roots : ∀ x, roots x → known x
  closed : ∀ x y, done x → edge x y → known y

namespace Spread

variable {α : Type*} {edge : α → α → Prop} {roots known known' done done' : α → Prop} {x : α}

/-- Look at a node. -/
theorem visit (h : Spread edge roots known done) (hx : known x)
    (hknown : ∀ y, known' y ↔ known y ∨ edge x y) (hdone : ∀ y, done' y → done y ∨ y = x) :
    Spread edge roots known' done' where
  reached y hy := by
    rcases (hknown y).mp hy with hy | hedge
    · exact h.reached y hy
    · obtain ⟨r, hr, hpath⟩ := h.reached x hx
      exact ⟨r, hr, hpath.tail hedge⟩
  roots y hy := (hknown y).mpr (.inl (h.roots y hy))
  closed y z hy hedge := by
    rcases hdone y hy with hy | rfl
    · exact (hknown z).mpr (.inl (h.closed y z hy hedge))
    · exact (hknown z).mpr (.inr hedge)

/-- **In the end the known nodes are the reached ones.** -/
theorem known_iff (h : Spread edge roots known done) (hall : ∀ x, known x → done x) :
    known x ↔ ∃ r, roots r ∧ ReflTransGen edge r x := by
  refine ⟨h.reached x, ?_⟩
  rintro ⟨r, hr, hpath⟩
  induction hpath with
  | refl => exact h.roots r hr
  | tail _ hedge ih => exact h.closed _ _ (hall _ ih) hedge

end Spread

namespace Saturate

variable {α : Type} [DecidableEq α]

/-- Mark and push what is not marked yet. -/
def mark (marked : Finset α) (pending : List α) : List α → Finset α × List α
  | [] => (marked, pending)
  | x :: rest =>
    if x ∈ marked then mark marked pending rest
    else mark (insert x marked) (x :: pending) rest

/-- Pop a node and mark its successors, for at most `fuel` turns. -/
def saturate (next : α → List α) : ℕ → Finset α → List α → Finset α
  | 0, marked, _ => marked
  | _ + 1, marked, [] => marked
  | fuel + 1, marked, x :: pending =>
    let (marked, pending) := mark marked pending (next x)
    saturate next fuel marked pending

variable {next : α → List α} {marked nodes : Finset α} {pending : List α} {x y : α}

/-- What is not marked yet is marked and pushed, once. -/
theorem mark_eq (marked : Finset α) (pending l : List α) :
    ∃ fresh, mark marked pending l = (marked ∪ l.toFinset, fresh ++ pending)
      ∧ (marked ∪ l.toFinset).card = marked.card + fresh.length
      ∧ ∀ y, y ∈ fresh ↔ y ∈ l ∧ y ∉ marked := by
  induction l generalizing marked pending with
  | nil => exact ⟨[], by simp [mark]⟩
  | cons x rest ih =>
    rw [mark, toFinset_cons, Finset.union_insert, ← Finset.insert_union]
    split_ifs with hx
    · obtain ⟨fresh, heq, hcard, hmem⟩ := ih marked pending
      have hne : ∀ y, y ∉ marked → y ≠ x := fun y hy heq => hy (heq ▸ hx)
      rw [Finset.insert_eq_of_mem hx]
      refine ⟨fresh, heq, hcard, fun y => ?_⟩
      rw [hmem, mem_cons, or_and_right, iff_or_self]
      exact fun h => absurd h.1 (hne y h.2)
    · obtain ⟨fresh, heq, hcard, hmem⟩ := ih (insert x marked) (x :: pending)
      refine ⟨fresh ++ [x], by rw [heq, append_assoc, singleton_append], ?_, fun y => ?_⟩
      · rw [hcard, Finset.card_insert_of_notMem hx, length_append, length_singleton]
        omega
      · have hout : y = x → y ∉ marked := fun heq => heq ▸ hx
        simp only [mem_append, hmem, mem_cons, Finset.mem_insert]
        tauto

/-- Look at a node and put what is new anywhere. -/
theorem turn {edge : α → α → Prop} {roots : α → Prop} {l fresh pending' : List α}
    (h : Spread edge roots (· ∈ marked) fun a => a ∈ marked ∧ a ∉ x :: pending)
    (hpend : ∀ a ∈ x :: pending, a ∈ marked) (hl : ∀ y, edge x y ↔ y ∈ l)
    (hfresh : ∀ y, y ∈ fresh ↔ y ∈ l ∧ y ∉ marked)
    (hput : ∀ y, y ∈ pending' ↔ y ∈ fresh ∨ y ∈ pending) :
    (∀ a ∈ pending', a ∈ marked ∪ l.toFinset) ∧ Spread edge roots (· ∈ marked ∪ l.toFinset)
      fun a => a ∈ marked ∪ l.toFinset ∧ a ∉ pending' := by
  simp only [Finset.mem_union, mem_toFinset, hput, hfresh, mem_cons] at *
  refine ⟨?_, h.visit (hpend x (.inl rfl)) (fun y => by rw [hl]) fun y hy => by tauto⟩
  rintro a (⟨ha, -⟩ | ha)
  · exact .inr ha
  · exact .inl (hpend a (.inr ha))

/-- **The marks at the end are what the roots reach.** -/
theorem mem_saturate {roots : α → Prop} {fuel : ℕ} (hnodes : marked ⊆ nodes)
    (hnext : ∀ a, ∀ b ∈ next a, b ∈ nodes)
    (hfuel : pending.length + nodes.card ≤ fuel + marked.card) (hpend : ∀ a ∈ pending, a ∈ marked)
    (h : Spread (fun a b => b ∈ next a) roots (· ∈ marked) fun a => a ∈ marked ∧ a ∉ pending) :
    y ∈ saturate next fuel marked pending ↔
      ∃ r, roots r ∧ ReflTransGen (fun a b => b ∈ next a) r y := by
  induction fuel generalizing marked pending with
  | zero =>
    have hcard := Finset.card_le_card hnodes
    obtain rfl : pending = [] := length_eq_zero_iff.mp (by omega)
    exact h.known_iff fun a ha => ⟨ha, not_mem_nil⟩
  | succ fuel ih =>
    cases pending with
    | nil => exact h.known_iff fun a ha => ⟨ha, not_mem_nil⟩
    | cons x pending =>
      obtain ⟨fresh, heq, hcard, hmem⟩ := mark_eq marked pending (next x)
      rw [length_cons] at hfuel
      rw [saturate, heq]
      obtain ⟨hpend', h'⟩ := turn h hpend (fun _ => Iff.rfl) hmem fun _ => mem_append
      refine ih (Finset.union_subset hnodes fun a ha => hnext x a (mem_toFinset.mp ha)) ?_ hpend' h'
      rw [length_append]
      omega

/-- From nothing marked. -/
theorem mem_saturate_mark {seeds : List α} {fuel : ℕ} (hfuel : nodes.card ≤ fuel)
    (hseeds : ∀ a ∈ seeds, a ∈ nodes) (hnext : ∀ a, ∀ b ∈ next a, b ∈ nodes) :
    y ∈ saturate next fuel (mark ∅ [] seeds).1 (mark ∅ [] seeds).2 ↔
      ∃ r ∈ seeds, ReflTransGen (fun a b => b ∈ next a) r y := by
  obtain ⟨fresh, heq, hcard, hmem⟩ := mark_eq ∅ [] seeds
  rw [Finset.empty_union, append_nil] at heq
  rw [Finset.empty_union, Finset.card_empty, Nat.zero_add] at hcard
  simp only [Finset.notMem_empty, not_false_eq_true, and_true] at hmem
  rw [heq]
  dsimp only
  refine mem_saturate (fun a ha => hseeds a (mem_toFinset.mp ha)) hnext (by omega) (fun a ha => ?_)
    ⟨fun a ha => ⟨a, mem_toFinset.mp ha, .refl⟩, fun a ha => mem_toFinset.mpr ha, ?_⟩
  · exact mem_toFinset.mpr ((hmem a).mp ha)
  · -- everything marked so far is still on the stack
    rintro a b ⟨ha, hnot⟩
    exact absurd ((hmem a).mpr (mem_toFinset.mp ha)) hnot

end Saturate
