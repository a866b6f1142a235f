/-
Frankengit/Lib/Dag.lean

Kahn's algorithm: sorting a finite graph with predecessors first.  `next c` are
the ends of the edges out of `c`, one entry for each edge.

`Sorting` is the invariant of the algorithm, for any choice among the nodes that
are ready: the counts are those of the edges from nodes that are not sorted
yet.  When nothing is ready, every node is sorted if and only if the graph has no
cycle (`Sorting.length_eq_iff`).
-/
import Mathlib.Tactic
import Mathlib.Data.Fintype.Card
import Mathlib.Logic.Relation

namespace Dag

open Relation List

variable {C : Type}

section Ancestors

variable (next : C → List C)

def Edge (c p : C) : Prop := p ∈ next c

/-- A way of at least one edge. -/
def Leads (c p : C) : Prop := TransGen (Edge next) c p

end Ancestors

variable {next : C → List C} {c p : C}

variable [DecidableEq C] (next) (nodes : Finset C)

/-- The edges to a node from nodes that are not sorted yet. -/
def waiting (done : List C) (p : C) : ℕ := ∑ c ∈ nodes.filter (· ∉ done), (next c).count p

/-- The nodes of `done` are sorted, and the nodes that wait for no edge are
ready. -/
structure Sorting (count : C → ℕ) (ready : C → Prop) (done : List C) : Prop where
  nodup : done.Nodup
  inside : ∀ c ∈ done, c ∈ nodes
  count_eq : ∀ p ∈ nodes, count p = waiting next nodes done p
  ready_iff : ∀ p, ready p ↔ p ∈ nodes ∧ p ∉ done ∧ count p = 0
  ordered : ∀ front c back, done = front ++ c :: back → ∀ d ∈ nodes, c ∈ next d → d ∈ front

variable {next} {nodes}

theorem waiting_concat {done : List C} (hc : c ∈ nodes) (hdone : c ∉ done) :
    waiting next nodes (done ++ [c]) p + (next c).count p = waiting next nodes done p := by
  have herase : nodes.filter (· ∉ done ++ [c]) = (nodes.filter (· ∉ done)).erase c := by
    ext d
    simp only [Finset.mem_filter, Finset.mem_erase, mem_append, mem_singleton]
    tauto
  rw [waiting, herase]
  exact Finset.sum_erase_add _ _ (Finset.mem_filter.mpr ⟨hc, hdone⟩)

/-- An edge from a node that is not sorted is waited for. -/
theorem waiting_pos {done : List C} (hc : c ∈ nodes) (hdone : c ∉ done) (hp : p ∈ next c) :
    0 < waiting next nodes done p := by
  rw [← waiting_concat hc hdone]
  exact Nat.add_pos_right _ (count_pos_iff.mpr hp)

namespace Sorting

variable {count count' : C → ℕ} {ready ready' : C → Prop} {done : List C}

theorem start (hcount : ∀ p ∈ nodes, count p = waiting next nodes [] p)
    (hready : ∀ p, ready p ↔ p ∈ nodes ∧ count p = 0) : Sorting next nodes count ready [] where
  nodup := .nil
  inside := by simp
  count_eq := hcount
  ready_iff := by simpa using hready
  ordered := by simp

variable (h : Sorting next nodes count ready done)

include h

/-- The predecessors of a sorted node are sorted. -/
theorem pred_mem (hp : p ∈ done) (hc : c ∈ nodes) (hpc : p ∈ next c) : c ∈ done := by
  obtain ⟨front, back, rfl⟩ := append_of_mem hp
  exact mem_append_left _ (h.ordered front p back rfl c hc hpc)

/-- No node that is left has an edge to a ready one. -/
theorem not_mem_next (hp : ready p) (hc : c ∈ nodes) (hdone : c ∉ done) : p ∉ next c := by
  obtain ⟨hnode, -, hzero⟩ := (h.ready_iff p).mp hp
  intro hmem
  have hpos := waiting_pos hc hdone hmem
  rw [← h.count_eq p hnode, hzero] at hpos
  exact lt_irrefl 0 hpos

/-- A ready node is sorted, and its edges are no longer waited for. -/
theorem step (hc : ready c) (hcount : ∀ p ∈ nodes, count' p = count p - (next c).count p)
    (hready : ∀ p, ready' p ↔ ready p ∧ p ≠ c ∨ p ∈ nodes ∧ p ∈ next c ∧ count' p = 0) :
    Sorting next nodes count' ready' (done ++ [c]) := by
  obtain ⟨hnodes, hdone, hzero⟩ := (h.ready_iff c).mp hc
  have hcount' : ∀ p ∈ nodes, count' p = waiting next nodes (done ++ [c]) p := by
    intro p hp
    rw [hcount p hp, h.count_eq p hp, ← waiting_concat hnodes hdone, Nat.add_sub_cancel]
  refine ⟨?_, ?_, hcount', fun p => ?_, ?_⟩
  · rw [← concat_eq_append]
    exact h.nodup.concat hdone
  · exact forall_mem_append.mpr ⟨h.inside, forall_mem_singleton.mpr hnodes⟩
  · rw [hready, h.ready_iff, mem_append, mem_singleton]
    by_cases hp : p ∈ nodes
    · by_cases hpc : p ∈ next c
      · -- an end of an edge from this node was neither ready nor sorted
        have hpdone : p ∉ done := fun hmem => hdone (h.pred_mem hmem hnodes hpc)
        have hne : p ≠ c := fun heq => h.not_mem_next hc hnodes hdone (heq ▸ hpc)
        have hwaited : count p ≠ 0 := by
          rw [h.count_eq p hp]
          exact (waiting_pos hnodes hdone hpc).ne'
        tauto
      · rw [hcount p hp, count_eq_zero_of_not_mem hpc, Nat.sub_zero]
        tauto
    · simp only [hp]
      tauto
  · intro front d back heq e he hde
    rcases eq_nil_or_concat back with rfl | ⟨back, last, rfl⟩
    · obtain ⟨rfl, hlast⟩ := append_inj' heq rfl
      obtain rfl : c = d := by simpa using hlast
      by_contra hmem
      exact h.not_mem_next hc he hmem hde
    · rw [concat_eq_append, ← cons_append, ← append_assoc] at heq
      obtain ⟨hdone', -⟩ := append_inj' heq rfl
      exact h.ordered front d back hdone' e he hde

/-- When nothing is ready and there is no cycle, every node is sorted. -/
theorem finished (hacyc : ∀ c, ¬ Leads next c c) (hnone : ∀ p, ¬ ready p)
    (hc : c ∈ nodes) : c ∈ done := by
  have horder : IsStrictOrder C (Leads next) :=
    { irrefl := hacyc, trans := fun _ _ _ => TransGen.trans }
  -- by induction along the edges: a node that is left has an edge from one that is left
  refine nodes.finite_toSet.wellFoundedOn.induction (r := Leads next) hc fun c hc ih => ?_
  by_contra hdone
  have hcount : waiting next nodes done c ≠ 0 := by
    rw [← h.count_eq c hc]
    exact fun hzero => hnone c ((h.ready_iff c).mpr ⟨hc, hdone, hzero⟩)
  obtain ⟨d, hd, hpos⟩ := Finset.exists_ne_zero_of_sum_ne_zero hcount
  obtain ⟨hnode, hwaits⟩ := Finset.mem_filter.mp hd
  exact hwaits (ih d hnode (TransGen.single (count_pos_iff.mp (Nat.pos_of_ne_zero hpos))))

/-- What leads to a sorted node was sorted before it. -/
theorem leads_front (hclosed : ∀ c p, p ∈ next c → c ∈ nodes) (hlead : Leads next c p) :
    ∀ front back, done = front ++ p :: back → c ∈ front := by
  induction hlead with
  | single hedge =>
    exact fun front back heq => h.ordered front _ back heq c (hclosed _ _ hedge) hedge
  | @tail m p _ hedge ih =>
    intro front back heq
    obtain ⟨front', back', rfl⟩ := append_of_mem (h.ordered front p back heq m
      (hclosed _ _ hedge) hedge)
    rw [append_assoc, cons_append] at heq
    exact mem_append_left _ (ih front' _ heq)

/-- **A cycle leaves nodes unsorted, and nothing else does.** -/
theorem length_eq_iff (hclosed : ∀ c p, p ∈ next c → c ∈ nodes) (hnone : ∀ p, ¬ ready p) :
    done.length = nodes.card ↔ ∀ c, ¬ Leads next c c := by
  have hsub : done.toFinset ⊆ nodes := fun c hc => h.inside c (mem_toFinset.mp hc)
  have hcard : done.length = done.toFinset.card := (toFinset_card_of_nodup h.nodup).symm
  constructor
  · intro heq c hlead
    have hc : c ∈ nodes := by
      obtain ⟨m, hedge, -⟩ := TransGen.head'_iff.mp hlead
      exact hclosed _ _ hedge
    rw [← Finset.eq_of_subset_of_card_le hsub (by rw [← hcard, heq]), mem_toFinset] at hc
    obtain ⟨front, back, hsplit⟩ := append_of_mem hc
    have hfront := h.leads_front hclosed hlead front back hsplit
    have hnodup := h.nodup
    rw [hsplit] at hnodup
    exact (nodup_append.mp hnodup).2.2 c hfront c mem_cons_self rfl
  · intro hacyc
    rw [hcard]
    congr 1
    exact hsub.antisymm fun c hc => mem_toFinset.mpr (h.finished hacyc hnone hc)

end Sorting

end Dag
