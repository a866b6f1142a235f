/-
Frankengit/Graph/Cycle.lean

The test for directed cycles (`fgit-graph`, `architecture.rs`,
`has_directed_cycle`): Kahn's algorithm over a list of edges.  It answers
whether there is a cycle (`hasDirectedCycle_eq_false`).
-/
import Frankengit.Graph.Basis
import Frankengit.Lib.Dag

namespace Frankengit.Graph

open List BTree GraphEdge Nat

/-- An edge of the list between two nodes. -/
def EdgeStep (edges : List GraphEdge) (a b : GraphNodeId) : Prop :=
  ∃ edge ∈ edges, edge.fromNode = a ∧ edge.toNode = b

/-- No way along the edges comes back. -/
def Acyclic (edges : List GraphEdge) : Prop := ∀ v, ¬ Relation.TransGen (EdgeStep edges) v v

structure Kahn where
  indegree : BTreeMap GraphNodeId ℕ
  ready : BTreeSet GraphNodeId

/-- Count an edge at its end, in 32 bits. -/
def countEdge (indegree : BTreeMap GraphNodeId ℕ) (edge : GraphEdge) : BTreeMap GraphNodeId ℕ :=
  indegree.insert edge.toNode (min (indegree[edge.toNode]?.getD 0 + 1) u32Max)

def pushEdge (outbound : BTreeMap GraphNodeId (List GraphNodeId)) (edge : GraphEdge) :
    BTreeMap GraphNodeId (List GraphNodeId) :=
  outbound.insert edge.fromNode (outbound[edge.fromNode]?.getD [] ++ [edge.toNode])

/-- An edge to `target` is no longer waited for. -/
def Kahn.settle (state : Kahn) (target : GraphNodeId) : Kahn :=
  match state.indegree[target]? with
  | some degree =>
    { indegree := state.indegree.insert target (degree - 1)
      ready := if degree - 1 = 0 then state.ready.insert target else state.ready }
  | none => state

/-- Take the least ready node until there is none; the number of nodes bounds
the turns. -/
def kahnLoop (outbound : BTreeMap GraphNodeId (List GraphNodeId)) : ℕ → Kahn → ℕ → ℕ
  | 0, _, visited => visited
  | turns + 1, state, visited =>
    match state.ready.toList with
    | node :: _ =>
      kahnLoop outbound turns ((outbound[node]?.getD []).foldl Kahn.settle
        { state with ready := state.ready.erase node }) (visited + 1)
    | [] => visited

def startKahn (nodes : List GraphNodeId) (edges : List GraphEdge) : Kahn :=
  let indegree := edges.foldl countEdge (tabulate nodes fun _ => 0)
  { indegree
    ready := .ofList ((indegree.toList.filter fun entry => entry.2 = 0).map Prod.fst) compare }

def hasDirectedCycle (nodes : List GraphNodeId) (edges : List GraphEdge) : Bool :=
  let outbound := edges.foldl pushEdge (tabulate nodes fun _ => [])
  kahnLoop outbound nodes.length (startKahn nodes edges) 0 ≠ nodes.length

/-! ### The tables -/

/-- The ends of the edges out of a node. -/
def targets (edges : List GraphEdge) (node : GraphNodeId) : List GraphNodeId :=
  (edges.filter fun edge => edge.fromNode = node).map toNode

variable {nodes : List GraphNodeId} {edges : List GraphEdge} {p : GraphNodeId}

theorem mem_targets {c : GraphNodeId} : p ∈ targets edges c ↔ EdgeStep edges c p := by
  simp [targets, EdgeStep, and_assoc]

theorem get_indegree {m : BTreeMap GraphNodeId ℕ} {start : ℕ} (hp : m[p]? = some start)
    (hroom : start + edges.length ≤ u32Max) :
    (edges.foldl countEdge m)[p]? = some (start + (edges.map toNode).count p) := by
  induction edges generalizing m start with
  | nil => simpa using hp
  | cons edge edges ih =>
    rw [length_cons] at hroom
    have hget : (countEdge m edge)[p]? = some (start + [edge.toNode].count p) := by
      rw [countEdge, get_insert]
      by_cases hto : edge.toNode = p
      · rw [if_pos hto, hto, hp, Option.getD_some, min_eq_left (by omega), count_singleton_self]
      · simp [hto, hp]
    have hone := count_le_length (a := p) (l := [edge.toNode])
    rw [foldl_cons, ih hget (by rw [length_singleton] at hone; omega),
      add_assoc, ← count_append]
    rfl

theorem get_indegree_none {m : BTreeMap GraphNodeId ℕ} (hm : m[p]? = none)
    (hp : ∀ edge ∈ edges, edge.toNode ≠ p) : (edges.foldl countEdge m)[p]? = none := by
  induction edges generalizing m with
  | nil => exact hm
  | cons edge edges ih =>
    obtain ⟨hedge, hrest⟩ := forall_mem_cons.mp hp
    exact ih (by rw [countEdge, get_insert, if_neg hedge, hm]) hrest

theorem get_outbound {m : BTreeMap GraphNodeId (List GraphNodeId)} {s : List GraphNodeId}
    (hp : m[p]?.getD [] = s) : (edges.foldl pushEdge m)[p]?.getD [] = s ++ targets edges p := by
  induction edges generalizing m s with
  | nil => simpa [targets] using hp
  | cons edge edges ih =>
    rw [foldl_cons, ih rfl, pushEdge, get_insert]
    by_cases hfrom : edge.fromNode = p
    · simp [targets, hfrom, hp]
    · simp [targets, hfrom, hp]

/-- Every edge is counted where it starts. -/
theorem sum_count_targets (hfrom : ∀ edge ∈ edges, edge.fromNode ∈ nodes) :
    ∑ c ∈ nodes.toFinset, (targets edges c).count p = (edges.map toNode).count p := by
  induction edges with
  | nil => simp [targets]
  | cons edge edges ih =>
    obtain ⟨hedge, hrest⟩ := forall_mem_cons.mp hfrom
    have hsplit : ∀ c, (targets (edge :: edges) c).count p = (targets edges c).count p
        + if edge.fromNode = c then (if edge.toNode = p then 1 else 0) else 0 := by
      intro c
      by_cases hc : edge.fromNode = c <;> simp [targets, hc, count_cons]
    rw [Finset.sum_congr rfl fun c _ => hsplit c, Finset.sum_add_distrib, ih hrest,
      Finset.sum_ite_eq, if_pos (mem_toFinset.mpr hedge), map_cons, count_cons]
    simp

/-! ### One turn -/

theorem settle_get (state : Kahn) (target p : GraphNodeId) :
    (state.settle target).indegree[p]? = state.indegree[p]?.map (· - [target].count p) := by
  unfold Kahn.settle
  by_cases heq : target = p
  · cases hdeg : state.indegree[target]? <;> simp [← heq, hdeg]
  · split <;> simp [heq, get_insert]

theorem mem_settle (state : Kahn) (target : GraphNodeId) : p ∈ (state.settle target).ready ↔
    p ∈ state.ready ∨ target = p ∧ (state.settle target).indegree[p]? = some 0 := by
  unfold Kahn.settle
  by_cases heq : target = p
  · subst heq
    split
    · split
      · next hzero => simp [hzero]
      · next hpos => simp [hpos]
    · next hdeg => simp [hdeg]
  · split
    · split <;> simp [heq]
    · simp [heq]

theorem settle_foldl (targets : List GraphNodeId) (state : Kahn) :
    (targets.foldl Kahn.settle state).indegree[p]? = state.indegree[p]?.map (· - targets.count p)
      ∧ (p ∈ (targets.foldl Kahn.settle state).ready ↔ p ∈ state.ready
        ∨ p ∈ targets ∧ (targets.foldl Kahn.settle state).indegree[p]? = some 0) := by
  induction targets generalizing state with
  | nil => simp
  | cons target rest ih =>
    obtain ⟨hindeg, hready⟩ := ih (state.settle target)
    rw [foldl_cons, hready, hindeg, mem_settle, mem_cons, eq_comm (a := p)]
    refine ⟨?_, ?_⟩
    · rw [settle_get, Option.map_map]
      simp [Function.comp_def, Nat.sub_sub, count_cons, Nat.add_comm]
    · -- a count that is zero stays so, and one that changes has a later edge
      have hlater : (state.settle target).indegree[p]? = some 0 →
          (state.settle target).indegree[p]?.map (· - rest.count p) = some 0 := by
        intro hzero
        rw [hzero]
        simp
      by_cases hp : p ∈ rest
      · simp only [hp]
        tauto
      · rw [count_eq_zero_of_not_mem hp] at *
        simp [hp]

/-! ### The loop -/

/-- A node's count in the table. -/
def Kahn.count (state : Kahn) (node : GraphNodeId) : ℕ := state.indegree[node]?.getD 0

/-- The state of the loop after some nodes. -/
structure KahnInv (nodes : List GraphNodeId) (edges : List GraphEdge) (state : Kahn)
    (done : List GraphNodeId) : Prop where
  keys : ∀ p, (∃ degree, state.indegree[p]? = some degree) ↔ p ∈ nodes
  sorting : Dag.Sorting (targets edges) nodes.toFinset state.count (· ∈ state.ready) done

theorem KahnInv.step {state : Kahn} {done : List GraphNodeId} (h : KahnInv nodes edges state done)
    (hto : ∀ edge ∈ edges, edge.toNode ∈ nodes) {node : GraphNodeId} (hnode : node ∈ state.ready) :
    KahnInv nodes edges ((targets edges node).foldl Kahn.settle
      { state with ready := state.ready.erase node }) (done ++ [node]) := by
  have hinside : ∀ t ∈ targets edges node, t ∈ nodes := by
    intro t ht
    obtain ⟨edge, hedge, -, rfl⟩ := mem_targets.mp ht
    exact hto edge hedge
  have hsettle := fun p => settle_foldl (p := p) (targets edges node)
    { state with ready := state.ready.erase node }
  obtain ⟨hindeg, hready⟩ := forall_and.mp hsettle
  refine ⟨fun p => ?_, h.sorting.step hnode (fun p hp => ?_) fun p => ?_⟩
  · rw [hindeg p, ← h.keys p]
    simp
  · obtain ⟨degree, hdeg⟩ := (h.keys p).mpr (mem_toFinset.mp hp)
    rw [Kahn.count, Kahn.count, hindeg p, hdeg]
    rfl
  · rw [hready p, mem_erase, and_comm, ne_comm, mem_toFinset, Kahn.count]
    refine or_congr_right ?_
    constructor
    · rintro ⟨hp, hzero⟩
      exact ⟨hinside p hp, hp, by rw [hzero]; rfl⟩
    · rintro ⟨hp, htgt, hzero⟩
      refine ⟨htgt, ?_⟩
      obtain ⟨degree, hdeg⟩ := (h.keys p).mpr hp
      rw [hindeg p, hdeg] at hzero ⊢
      exact congrArg some hzero

/-- The loop visits the nodes of a sorting until nothing is ready. -/
theorem kahnLoop_spec {outbound : BTreeMap GraphNodeId (List GraphNodeId)}
    (houtbound : ∀ p, outbound[p]?.getD [] = targets edges p)
    (hto : ∀ edge ∈ edges, edge.toNode ∈ nodes) {turns : ℕ} {state : Kahn}
    {done : List GraphNodeId} (h : KahnInv nodes edges state done)
    (hturns : done.length + turns = nodes.length) :
    ∃ state' done', kahnLoop outbound turns state done.length = done'.length
      ∧ KahnInv nodes edges state' done' ∧ ∀ p, p ∉ state'.ready := by
  induction turns generalizing state done with
  | zero =>
    refine ⟨state, done, rfl, h, fun p hp => ?_⟩
    -- all nodes are sorted
    obtain ⟨hnode, hdone, -⟩ := (h.sorting.ready_iff p).mp hp
    have hsub : done ⊆ nodes := fun c hc => mem_toFinset.mp (h.sorting.inside c hc)
    have hperm := (h.sorting.nodup.subperm hsub).perm_of_length_le (by omega)
    exact hdone (hperm.mem_iff.mpr (mem_toFinset.mp hnode))
  | succ turns ih =>
    rw [kahnLoop]
    split
    · next node _ hready =>
      have hnode : node ∈ state.ready := by
        rw [← Std.ExtTreeSet.mem_toList, hready]
        exact mem_cons_self
      have hlen : (done ++ [node]).length = done.length + 1 := length_append
      rw [houtbound node, ← hlen]
      exact ih (h.step hto hnode) (by omega)
    · next hready =>
      refine ⟨state, done, rfl, h, fun p hp => ?_⟩
      rw [← Std.ExtTreeSet.mem_toList, hready] at hp
      exact not_mem_nil hp

theorem kahnInv_start (hfrom : ∀ edge ∈ edges, edge.fromNode ∈ nodes)
    (hto : ∀ edge ∈ edges, edge.toNode ∈ nodes) (hroom : edges.length ≤ u32Max) :
    KahnInv nodes edges (startKahn nodes edges) [] := by
  have hcount : ∀ p ∈ nodes, (startKahn nodes edges).indegree[p]?
      = some ((edges.map toNode).count p) := by
    intro p hp
    have hstart : (tabulate nodes fun _ => 0)[p]? = some 0 := by
      rw [get_tabulate, if_pos hp]
    have hget : (edges.foldl countEdge _)[p]? = _ := get_indegree hstart (by omega)
    rwa [zero_add] at hget
  have hkeys : ∀ p, (∃ degree, (startKahn nodes edges).indegree[p]? = some degree) ↔ p ∈ nodes := by
    intro p
    refine ⟨?_, fun hp => ⟨_, hcount p hp⟩⟩
    rintro ⟨degree, hdeg⟩
    by_contra hp
    have hstart : (tabulate nodes fun _ => 0)[p]? = none := by
      rw [get_tabulate, if_neg hp]
    rw [startKahn, get_indegree_none hstart fun edge hedge heq => hp (heq ▸ hto edge hedge)] at hdeg
    cases hdeg
  refine ⟨hkeys, .start (fun p hp => ?_) fun p => ?_⟩
  · rw [Kahn.count, hcount p (mem_toFinset.mp hp), Option.getD_some, ← sum_count_targets hfrom,
      Dag.waiting]
    simp
  · have hready : p ∈ (startKahn nodes edges).ready ↔
        (startKahn nodes edges).indegree[p]? = some 0 := by
      rw [startKahn, Std.ExtTreeSet.mem_ofList, contains_iff_mem]
      simp [Std.ExtTreeMap.mem_toList_iff_getElem?_eq_some]
    rw [hready, mem_toFinset, Kahn.count]
    constructor
    · intro hzero
      exact ⟨(hkeys p).mp ⟨0, hzero⟩, by rw [hzero]; rfl⟩
    · rintro ⟨hp, hzero⟩
      rw [hcount p hp] at hzero ⊢
      exact congrArg some hzero

/-- **The test answers whether there is a cycle.** -/
theorem hasDirectedCycle_eq_false (hnodup : nodes.Nodup)
    (hfrom : ∀ edge ∈ edges, edge.fromNode ∈ nodes) (hto : ∀ edge ∈ edges, edge.toNode ∈ nodes)
    (hroom : edges.length ≤ u32Max) : hasDirectedCycle nodes edges = false ↔ Acyclic edges := by
  have houtbound : ∀ p, (edges.foldl pushEdge (tabulate nodes fun _ => []))[p]?.getD []
      = targets edges p := by
    intro p
    have hstart : (tabulate nodes fun _ => ([] : List GraphNodeId))[p]?.getD [] = [] := by
      rw [get_tabulate]
      split <;> rfl
    exact get_outbound hstart
  obtain ⟨state, done, hloop, hinv, hnone⟩ := kahnLoop_spec houtbound hto
    (kahnInv_start hfrom hto hroom) (zero_add _)
  have hlen := hinv.sorting.length_eq_iff (fun c p hp => by
    obtain ⟨edge, hedge, rfl, -⟩ := mem_targets.mp hp
    exact mem_toFinset.mpr (hfrom edge hedge)) hnone
  have hedge : Dag.Edge (targets edges) = EdgeStep edges := by
    funext c p
    exact propext mem_targets
  rw [toFinset_card_of_nodup hnodup] at hlen
  unfold hasDirectedCycle Acyclic
  rw [decide_eq_false_iff_not, not_not]
  refine (Eq.congr_left hloop).trans (hlen.trans ?_)
  unfold Dag.Leads
  rw [hedge]

end Frankengit.Graph
