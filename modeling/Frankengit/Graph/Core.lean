/-
Frankengit/Graph/Core.lean

Core numbers (`fgit-graph`, `architecture.rs`,
`ArchitectureAnalysis::core_decomposition`): nodes of least degree are peeled off
one after the other, and a node's core number is its degree when it goes.

A neighbour that is left is lowered by one, but not below that degree.  Which of
several nodes of least degree goes first is a parameter (`pick`): it makes no
difference (`coreDecomposition_exact`).
-/
import Frankengit.Graph.Feedback
import Frankengit.Lib.Peeling

namespace Frankengit.Graph

open List BTree Fallible Peeling

/-- The nodes that an edge joins to a node, in either direction. -/
def weakNeighbors (edges : List GraphEdge) (node : GraphNodeId) : BTreeSet GraphNodeId :=
  .ofList (targets edges node
    ++ (edges.filter fun edge => edge.toNode = node).map GraphEdge.fromNode) compare

structure CoreState where
  remaining : BTreeSet GraphNodeId
  degrees : BTreeMap GraphNodeId ℕ
  cores : BTreeMap GraphNodeId ℕ

namespace CoreState

def degree (state : CoreState) (node : GraphNodeId) : ℕ := state.degrees[node]?.getD u32Max

/-- The node of least degree, the first of several. -/
def leastNode (state : CoreState) : Option GraphNodeId :=
  state.remaining.toList.argmin fun node => toLex (state.degree node, node)

/-- Lower a neighbour of a node that went with this degree. -/
def lower (remaining : BTreeSet GraphNodeId) (degree : ℕ) (degrees : BTreeMap GraphNodeId ℕ)
    (neighbor : GraphNodeId) : BTreeMap GraphNodeId ℕ :=
  match degrees[neighbor]? with
  | some current =>
    if neighbor ∈ remaining ∧ degree < current then degrees.insert neighbor (current - 1)
    else degrees
  | none => degrees

/-- Take a node off. -/
def peel (edges : List GraphEdge) (state : CoreState)
    (node : GraphNodeId) (degree : ℕ) : CoreState :=
  let remaining := state.remaining.erase node
  { remaining
    degrees := (weakNeighbors edges node).foldl (lower remaining degree) state.degrees
    cores := state.cores.insert node degree }

/-- Peel until nothing is left; the number of nodes bounds the turns. -/
def peelLoop (edges : List GraphEdge)
    (pick : CoreState → Option GraphNodeId) : ℕ → CoreState → Except ArchitectureRefusal CoreState
  | 0, state => .ok state
  | turns + 1, state =>
    if state.remaining.isEmpty then .ok state
    else
      match pick state with
      | none => .error .arithmeticOverflow
      | some node =>
        match state.degrees[node]? with
        | none => .error .arithmeticOverflow
        | some degree => peelLoop edges pick turns (state.peel edges node degree)

end CoreState

structure CoreMembership where
  node : GraphNodeId
  core : ℕ
deriving DecidableEq

namespace ArchitectureAnalysis

open CoreState

/-- The length of encoded memberships. -/
def encodeCoreMemberships (rows : List CoreMembership) : Except ArchitectureRefusal ℕ := do
  writeCount .codec "core_memberships" rows.length
  return 4 + 16 * rows.length

def checkLimit (resource : String) (observed limit : ℕ) : Except ArchitectureRefusal Unit :=
  refuseIf (limit < observed) (.resourceLimit resource observed limit)

/-- Admit a graph. -/
def tryNew (graph : DeterministicGraph) (limits : ArchitectureLimits) :
    Except ArchitectureRefusal ArchitectureAnalysis := do
  checkLimit "architecture_nodes" graph.nodes.length limits.nodes
  checkLimit "architecture_edges" graph.edges.length limits.edges
  return ⟨graph, limits⟩

theorem tryNew_eq_ok {graph : DeterministicGraph} {limits : ArchitectureLimits}
    {analysis : ArchitectureAnalysis} : tryNew graph limits = .ok analysis ↔
      graph.nodes.length ≤ limits.nodes ∧ graph.edges.length ≤ limits.edges
        ∧ ⟨graph, limits⟩ = analysis := by
  simp [tryNew, checkLimit, bind_eq_ok, refuseIf_eq_ok]

/-- The decomposition with some choice among the nodes of least degree. -/
def coreDecompositionWith (pick : CoreState → Option GraphNodeId)
    (analysis : ArchitectureAnalysis) : Except ArchitectureRefusal (List CoreMembership) := do
  let ⟨graph, _⟩ := analysis
  refuseIf (∃ node ∈ graph.nodes, u32Max < (weakNeighbors graph.edges node).size)
    .arithmeticOverflow
  let state ← peelLoop graph.edges pick graph.nodes.length
    { remaining := .ofList graph.nodes compare
      degrees := tabulate graph.nodes fun node => (weakNeighbors graph.edges node).size
      cores := ∅ }
  let memberships := state.cores.toList.map fun entry => ⟨entry.1, entry.2⟩
  let trace ← encodeCoreMemberships memberships
  let result ← encodeCoreMemberships memberships
  sealProposal (1 + trace) result memberships

def coreDecomposition : ArchitectureAnalysis → Except ArchitectureRefusal (List CoreMembership) :=
  coreDecompositionWith leastNode

end ArchitectureAnalysis

/-! ### Neighbours -/

namespace DeterministicGraph

variable (g : DeterministicGraph)

open Classical in
/-- The nodes next to a node, along an edge in either direction. -/
noncomputable def near (v : GraphNodeId) : Finset GraphNodeId :=
  g.nodes.toFinset.filter fun u => EdgeStep g.edges v u ∨ EdgeStep g.edges u v

variable {g} {u v : GraphNodeId}

theorem near_subset : g.near v ⊆ g.nodes.toFinset := by
  classical
  exact Finset.filter_subset _ _

theorem mem_near : u ∈ g.near v ↔ EdgeStep g.edges v u ∨ EdgeStep g.edges u v := by
  simp only [near, Finset.mem_filter, mem_toFinset, and_iff_right_iff_imp]
  rintro (⟨edge, hedge, -, rfl⟩ | ⟨edge, hedge, rfl, -⟩)
  · exact (g.admissible edge hedge).toNode
  · exact (g.admissible edge hedge).fromNode

theorem mem_weakNeighbors : u ∈ weakNeighbors g.edges v ↔ u ∈ g.near v := by
  rw [weakNeighbors, Std.ExtTreeSet.mem_ofList, contains_iff_mem, mem_append, mem_targets, mem_near]
  simp [EdgeStep, and_assoc, and_comm]

theorem size_weakNeighbors : (weakNeighbors g.edges v).size = (g.near v).card := by
  have hnodup : (weakNeighbors g.edges v).toList.Nodup :=
    (weakNeighbors g.edges v).ordered_toList.imp fun hlt => ne_of_lt (compare_lt_iff_lt.mp hlt)
  rw [← Std.ExtTreeSet.length_toList, ← toFinset_card_of_nodup hnodup]
  congr 1
  ext u
  rw [mem_toFinset, Std.ExtTreeSet.mem_toList, mem_weakNeighbors]

end DeterministicGraph

/-! ### Peeling -/

/-- A node of least degree is picked while there is one. -/
def PicksLeast (pick : CoreState → Option GraphNodeId) : Prop :=
  ∀ state : CoreState, state.remaining.isEmpty = false → ∃ node ∈ state.remaining,
    pick state = some node ∧ ∀ u ∈ state.remaining, state.degree node ≤ state.degree u

theorem picksLeast_leastNode : PicksLeast CoreState.leastNode := by
  intro state hsome
  cases hpick : state.leastNode with
  | none =>
    have hnil := argmin_eq_none.mp hpick
    rw [← Std.ExtTreeSet.isEmpty_toList, hnil] at hsome
    cases hsome
  | some node =>
    refine ⟨node, Std.ExtTreeSet.mem_toList.mp (argmin_mem hpick), rfl, fun u hu => ?_⟩
    have hle := le_of_mem_argmin (Std.ExtTreeSet.mem_toList.mpr hu) hpick
    rcases Prod.Lex.toLex_le_toLex.mp hle with hlt | ⟨heq, -⟩
    · exact hlt.le
    · exact heq.le

/-- The nodes that are left. -/
def CoreState.left (g : DeterministicGraph) (state : CoreState) : Finset GraphNodeId :=
  g.nodes.toFinset.filter (· ∈ state.remaining)

/-- The core number of a node. -/
noncomputable def DeterministicGraph.coreNumber (g : DeterministicGraph) (v : GraphNodeId) : ℕ :=
  sSup (coresOf g.near g.nodes.toFinset v)

/-- The state of the loop: the numbers of the nodes that went are right. -/
structure PeelInv (g : DeterministicGraph) (state : CoreState) : Prop where
  inside : ∀ v ∈ state.remaining, v ∈ g.nodes
  keys : ∀ v ∈ g.nodes, ∃ degree, state.degrees[v]? = some degree
  peeled : ∃ level, Peeled g.near g.nodes.toFinset (state.left g) state.degree level
  cores : ∀ v, state.cores[v]?
    = if v ∈ g.nodes ∧ v ∉ state.remaining then some (g.coreNumber v) else none
  exact : ∀ v ∈ g.nodes, v ∉ state.remaining →
    IsGreatest (coresOf g.near g.nodes.toFinset v) (g.coreNumber v)

theorem get_lower (adjacent remaining : BTreeSet GraphNodeId) (degree : ℕ)
    (degrees : BTreeMap GraphNodeId ℕ) (a : GraphNodeId) :
    (adjacent.foldl (CoreState.lower remaining degree) degrees)[a]? = if a ∈ adjacent then
        degrees[a]?.map fun current =>
          if a ∈ remaining ∧ degree < current then current - 1 else current
      else degrees[a]? := by
  refine foldl_observe_set (fun (m : BTreeMap GraphNodeId ℕ) k => m[k]?) _ (fun k seen =>
    seen.map fun current => if k ∈ remaining ∧ degree < current then current - 1 else current)
    (fun m k a => ?_) adjacent degrees a
  unfold CoreState.lower
  by_cases heq : k = a
  · subst heq
    cases hget : m[k]? with
    | none => simp [hget]
    | some current =>
      dsimp only
      split <;> simp [*]
  · split
    · split <;> simp [get_insert, heq]
    · simp [heq]

section Step

variable {g : DeterministicGraph} {state : CoreState} {node : GraphNodeId} {degree : ℕ}

theorem left_peel : (state.peel g.edges node degree).left g = (state.left g).erase node := by
  ext u
  simp only [CoreState.left, CoreState.peel, Finset.mem_filter, Finset.mem_erase,
    mem_erase, ne_comm]
  tauto

theorem PeelInv.mem_left (h : PeelInv g state) {u : GraphNodeId} :
    u ∈ state.left g ↔ u ∈ state.remaining := by
  simp only [CoreState.left, Finset.mem_filter, mem_toFinset, and_iff_right_iff_imp]
  exact h.inside u

theorem PeelInv.step (h : PeelInv g state) (hnode : node ∈ state.remaining)
    (hleast : ∀ u ∈ state.remaining, state.degree node ≤ state.degree u)
    (hdeg : state.degrees[node]? = some degree) : PeelInv g (state.peel g.edges node degree) := by
  obtain ⟨level, hpeeled⟩ := h.peeled
  have hin := h.inside node hnode
  have hsub : state.left g ⊆ g.nodes.toFinset := Finset.filter_subset _ _
  have hdegree : state.degree node = degree := by rw [CoreState.degree, hdeg, Option.getD_some]
  have hleast' : ∀ u ∈ state.left g, state.degree node ≤ state.degree u :=
    fun u hu => hleast u (h.mem_left.mp hu)
  have hcore := hpeeled.isGreatest hsub (h.mem_left.mpr hnode) hleast'
  have hnumber : g.coreNumber node = degree := hcore.csSup_eq.trans hdegree
  have hlower : ∀ u, (state.peel g.edges node degree).degrees[u]? = _ :=
    get_lower (weakNeighbors g.edges node) (state.remaining.erase node) degree state.degrees
  simp only [DeterministicGraph.mem_weakNeighbors] at hlower
  refine ⟨fun v hv => h.inside v ((mem_erase _ _ _).mp hv).2, fun v hv => ?_, ⟨degree, ?_⟩, ?_, ?_⟩
  · obtain ⟨d, hd⟩ := h.keys v hv
    rw [hlower v, hd]
    split <;> exact ⟨_, rfl⟩
  · rw [left_peel, ← hdegree]
    refine hpeeled.step hsub (fun u => ?_) (h.mem_left.mpr hnode) hleast' fun u hu => ?_
    · rw [DeterministicGraph.mem_near, DeterministicGraph.mem_near, or_comm]
    · obtain ⟨hne, hu⟩ := Finset.mem_erase.mp hu
      obtain ⟨d, hd⟩ := h.keys u (mem_toFinset.mp (hsub hu))
      have hrem : u ∈ state.remaining.erase node :=
        (mem_erase _ _ _).mpr ⟨hne.symm, h.mem_left.mp hu⟩
      rw [hdegree, CoreState.degree, CoreState.degree, hlower u, hd]
      by_cases hmem : u ∈ g.near node <;> simp [hmem, hrem]
  · intro v
    show (state.cores.insert node degree)[v]? = _
    rw [get_insert, h.cores v]
    by_cases heq : node = v
    · subst heq
      simp [CoreState.peel, hin, hnumber]
    · simp [CoreState.peel, heq]
  · intro v hv hgone
    by_cases heq : node = v
    · rw [← heq, hnumber, ← hdegree]
      exact hcore
    · exact h.exact v hv fun hmem => hgone ((mem_erase _ _ _).mpr ⟨heq, hmem⟩)

theorem peelLoop_spec {pick : CoreState → Option GraphNodeId} (hpick : PicksLeast pick)
    {turns : ℕ} (h : PeelInv g state) (hturns : (state.left g).card ≤ turns) :
    ∃ state', CoreState.peelLoop g.edges pick turns state = .ok state'
      ∧ PeelInv g state' ∧ ∀ v, v ∉ state'.remaining := by
  induction turns generalizing state with
  | zero =>
    refine ⟨state, rfl, h, fun v hv => ?_⟩
    have hempty := Finset.card_eq_zero.mp (Nat.le_zero.mp hturns)
    exact Finset.notMem_empty v (hempty ▸ h.mem_left.mpr hv)
  | succ turns ih =>
    rw [CoreState.peelLoop]
    split
    · next hempty =>
      refine ⟨state, rfl, h, fun v hv => ?_⟩
      rw [Std.ExtTreeSet.isEmpty_iff.mp hempty] at hv
      exact Std.ExtTreeSet.not_mem_empty hv
    · next hsome =>
      obtain ⟨node, hnode, hpicked, hleast⟩ := hpick state (Bool.eq_false_iff.mpr hsome)
      obtain ⟨degree, hdeg⟩ := h.keys node (h.inside node hnode)
      simp only [hpicked, hdeg]
      refine ih (h.step hnode hleast hdeg) ?_
      rw [left_peel, Finset.card_erase_of_mem (h.mem_left.mpr hnode)]
      omega

theorem peelInv_start (g : DeterministicGraph) : PeelInv g ⟨.ofList g.nodes compare,
    tabulate g.nodes fun node => (weakNeighbors g.edges node).size, ∅⟩ := by
  have hmem : ∀ v, v ∈ Std.ExtTreeSet.ofList g.nodes compare ↔ v ∈ g.nodes := by
    intro v
    rw [Std.ExtTreeSet.mem_ofList, contains_iff_mem]
  have hget : ∀ v ∈ g.nodes, (tabulate g.nodes fun node => (weakNeighbors g.edges node).size)[v]?
      = some (g.near v).card := by
    intro v hv
    rw [get_tabulate, if_pos hv, DeterministicGraph.size_weakNeighbors]
  refine ⟨fun v hv => (hmem v).mp hv, fun v hv => ⟨_, hget v hv⟩, ⟨0, ?_⟩, fun v => ?_, ?_⟩
  · rw [CoreState.left, Finset.filter_true_of_mem fun v hv => (hmem v).mpr (mem_toFinset.mp hv)]
    refine peeled_start fun v hv => ⟨g.near_subset, ?_⟩
    rw [CoreState.degree, hget v (mem_toFinset.mp hv), Option.getD_some]
  · rw [Std.ExtTreeMap.getElem?_empty, if_neg]
    rw [hmem]
    tauto
  · exact fun v hv hgone => absurd ((hmem v).mpr hv) hgone

end Step

namespace ArchitectureAnalysis

theorem coreDecompositionWith_eq {g : DeterministicGraph} (limits : ArchitectureLimits)
    (hroom : 16 * g.nodes.length + 5 ≤ u32Max) {pick : CoreState → Option GraphNodeId}
    (hpick : PicksLeast pick) :
    coreDecompositionWith pick ⟨g, limits⟩ = .ok (g.nodes.map fun v => ⟨v, g.coreNumber v⟩)
      ∧ ∀ v ∈ g.nodes, IsGreatest (coresOf g.near g.nodes.toFinset v) (g.coreNumber v) := by
  have hfits : ¬ ∃ node ∈ g.nodes, u32Max < (weakNeighbors g.edges node).size := by
    rintro ⟨v, -, hlarge⟩
    have hcard := (Finset.card_le_card (g.near_subset (v := v))).trans (toFinset_card_le g.nodes)
    rw [DeterministicGraph.size_weakNeighbors] at hlarge
    omega
  obtain ⟨state, hloop, hinv, hnone⟩ := peelLoop_spec hpick (peelInv_start g)
    ((Finset.card_le_card (Finset.filter_subset _ _)).trans (toFinset_card_le g.nodes))
  have hget : ∀ v, state.cores[v]? = if v ∈ g.nodes then some (g.coreNumber v) else none := by
    simpa [hnone] using hinv.cores
  refine ⟨?_, fun v hv => hinv.exact v hv (hnone v)⟩
  -- the entries of the map are the nodes, in their order
  have hkeys : state.cores.toList.map Prod.fst = g.nodes := by
    refine Pairwise.eq_of_mem_iff ?_ g.nodes_sorted fun v => ?_
    · rw [pairwise_map]
      exact state.cores.ordered_keys_toList.imp compare_lt_iff_lt.mp
    · simp [Std.ExtTreeMap.mem_iff_isSome_getElem?, hget]
  have hrows : state.cores.toList.map (fun entry => CoreMembership.mk entry.1 entry.2)
      = g.nodes.map fun v => ⟨v, g.coreNumber v⟩ := by
    rw [← hkeys, map_map]
    refine map_congr_left fun entry hentry => ?_
    have hcore := Std.ExtTreeMap.mem_toList_iff_getElem?_eq_some.mp hentry
    rw [hget] at hcore
    split at hcore
    · exact congrArg (CoreMembership.mk entry.1) (Option.some.inj hcore).symm
    · cases hcore
  simp only [coreDecompositionWith, encodeCoreMemberships, sealProposal, bind_eq_ok, refuseIf_eq_ok,
    pure_eq_ok, writeCount_eq_ok, length_map]
  have hlen : state.cores.toList.length = g.nodes.length := by rw [← hkeys, length_map]
  exact ⟨(), hfits, state, hloop, _, ⟨(), by omega, rfl⟩, _, ⟨(), by omega, rfl⟩, (), by omega, (),
    by omega, hrows⟩

/-- **Core numbers are exact**, whichever node of least degree goes first, where the
numbers can be encoded. -/
theorem coreDecomposition_exact {graph : DeterministicGraph} {limits : ArchitectureLimits}
    {analysis : ArchitectureAnalysis} (hroom : 16 * graph.nodes.length + 5 ≤ u32Max)
    (h : tryNew graph limits = .ok analysis) :
    ∃ core : GraphNodeId → ℕ,
      analysis.coreDecomposition = .ok (graph.nodes.map fun v => ⟨v, core v⟩)
      ∧ (∀ pick, PicksLeast pick → analysis.coreDecompositionWith pick = analysis.coreDecomposition)
      ∧ ∀ v ∈ graph.nodes, IsGreatest (coresOf graph.near graph.nodes.toFinset v) (core v) := by
  obtain ⟨-, -, rfl⟩ := tryNew_eq_ok.mp h
  obtain ⟨heq, hexact⟩ :=
    coreDecompositionWith_eq limits hroom picksLeast_leastNode
  refine ⟨graph.coreNumber, heq, fun pick hpick => ?_, hexact⟩
  exact (coreDecompositionWith_eq limits hroom hpick).1.trans heq.symm

theorem coreDecomposition_exact_ring : ∃ core : GraphNodeId → ℕ,
    ring.coreDecomposition = .ok (ring.graph.nodes.map fun v => ⟨v, core v⟩)
      ∧ (∀ pick, PicksLeast pick → ring.coreDecompositionWith pick = ring.coreDecomposition)
      ∧ ∀ v ∈ ring.graph.nodes,
        IsGreatest (coresOf ring.graph.near ring.graph.nodes.toFinset v) (core v) :=
  @coreDecomposition_exact _ ring.limits _ (by decide) (by rfl)

end ArchitectureAnalysis

end Frankengit.Graph
