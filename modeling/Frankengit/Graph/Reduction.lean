/-
Frankengit/Graph/Reduction.lean

Transitive reduction (`fgit-graph`, `architecture.rs`,
`ArchitectureAnalysis::transitive_reduction`): an edge is redundant if its end is
reached without it.

Each edge is tested against all the others, so of two edges with the same ends
both are redundant and the way is lost (`parallel_edges_lost`).  Exactly where no
two edges with nothing between their ends have the same ends, and the edges can be
encoded, those edges are left, which lead as far as all of them
(`transitiveReduction_exact`).
-/
import Frankengit.Graph.Core
import Frankengit.Lib.Saturate
import Mathlib.Order.Interval.Finset.Basic

namespace Frankengit.Graph

open List Relation Fallible Saturate Prod ReflTransGen

/-- Search breadth first, for at most `fuel` turns. -/
def searchPath (edges : List GraphEdge) (target : GraphNodeId) :
    ℕ → Finset GraphNodeId → List GraphNodeId → Bool
  | 0, _, _ => false
  | _ + 1, _, [] => false
  | fuel + 1, seen, node :: queue =>
    if node = target then true
    else
      let (seen, fresh) := mark seen [] ((targets edges node).insertionSort (· ≤ ·))
      searchPath edges target fuel seen (queue ++ fresh.reverse)

/-- Whether the edges without one lead from a node to another. -/
def hasPathExcluding (edges : List GraphEdge) (start target : GraphNodeId) (excluded : ℕ) : Bool :=
  searchPath (edges.eraseIdx excluded) target (edges.length + 2) {start} [start]

structure TransitiveReductionProposal where
  retainedEdges : List GraphEdge
  redundantEdges : List GraphEdge

/-- An edge, with its place, whose end is reached without it. -/
def redundant (edges : List GraphEdge) (entry : GraphEdge × ℕ) : Bool :=
  hasPathExcluding edges entry.1.fromNode entry.1.toNode entry.2

def reduction (edges : List GraphEdge) : TransitiveReductionProposal :=
  ⟨(edges.zipIdx.filter (!redundant edges ·)).map fst,
    (edges.zipIdx.filter (redundant edges)).map fst⟩

def ArchitectureAnalysis.transitiveReduction (analysis : ArchitectureAnalysis) :
    Except ArchitectureRefusal TransitiveReductionProposal := do
  let edges := analysis.graph.edges
  refuseIf (analysis.graph.directed = false) (.directedGraphRequired .transitiveReductionV1)
  refuseIf (hasDirectedCycle analysis.graph.nodes edges) .acyclicGraphRequired
  let value := reduction edges
  let retained ← encodeEdges "reduction_retained" value.retainedEdges
  let redundant ← encodeEdges "reduction_redundant" value.redundantEdges
  -- the trace has a tag and every redundant edge
  sealProposal (1 + 25 * value.redundantEdges.length) (retained + redundant) value

/-! ### The search -/

theorem searchPath_iff {edges : List GraphEdge} {start target : GraphNodeId}
    {nodes seen : Finset GraphNodeId} {queue : List GraphNodeId} {fuel : ℕ} (hseen : seen ⊆ nodes)
    (hnodes : ∀ edge ∈ edges, edge.toNode ∈ nodes)
    (hfuel : queue.length + nodes.card < fuel + seen.card) (hqueue : ∀ a ∈ queue, a ∈ seen)
    (h : Spread (EdgeStep edges) (· = start) (· ∈ seen) fun a => a ∈ seen ∧ a ∉ queue)
    (hsafe : target ∈ seen → target ∈ queue) :
    searchPath edges target fuel seen queue = true ↔
      ReflTransGen (EdgeStep edges) start target := by
  induction fuel generalizing seen queue with
  | zero =>
    have := Finset.card_le_card hseen
    omega
  | succ fuel ih =>
    cases queue with
    | nil =>
      refine ⟨nofun, fun hpath => ?_⟩
      have hall := (h.known_iff fun a ha => ⟨ha, not_mem_nil⟩).mpr ⟨start, rfl, hpath⟩
      exact absurd (hsafe hall) not_mem_nil
    | cons node queue =>
      rw [searchPath]
      split
      · next heq =>
        obtain ⟨_, rfl, hpath⟩ := h.reached node (hqueue node mem_cons_self)
        exact ⟨fun _ => heq ▸ hpath, fun _ => rfl⟩
      · next hne =>
        obtain ⟨fresh, heq, hcard, hmem⟩ :=
          mark_eq seen [] ((targets edges node).insertionSort (· ≤ ·))
        rw [append_nil] at heq
        rw [length_cons] at hfuel
        obtain ⟨hqueue', h'⟩ := turn h hqueue
          (fun y => by rw [mem_insertionSort, mem_targets]) hmem
          fun y => (show y ∈ queue ++ fresh.reverse ↔ _ by simp [or_comm])
        rw [heq]
        refine ih (Finset.union_subset hseen fun a ha => ?_) ?_ hqueue' h' fun ht => ?_
        · rw [mem_toFinset, mem_insertionSort, mem_targets] at ha
          obtain ⟨edge, hedge, -, rfl⟩ := ha
          exact hnodes edge hedge
        · rw [length_append, length_reverse, hcard]
          omega
        · have hput : target ∉ seen → target ∈ fresh := by
            intro hnot
            exact (hmem target).mpr ⟨by simpa [hnot] using ht, hnot⟩
          rw [mem_append, mem_reverse]
          by_cases hold : target ∈ seen
          · exact .inl ((mem_cons.mp (hsafe hold)).resolve_left (Ne.symm hne))
          · exact .inr (hput hold)

theorem hasPathExcluding_iff {edges : List GraphEdge} {start target : GraphNodeId} {excluded : ℕ} :
    hasPathExcluding edges start target excluded = true
      ↔ ReflTransGen (EdgeStep (edges.eraseIdx excluded)) start target := by
  have hcard : (insert start ((edges.eraseIdx excluded).map GraphEdge.toNode).toFinset).card
      ≤ edges.length + 1 := by
    refine (Finset.card_insert_le _ _).trans (Nat.succ_le_succ ((toFinset_card_le _).trans ?_))
    rw [length_map]
    exact length_eraseIdx_le _ _
  refine searchPath_iff (Finset.singleton_subset_iff.mpr (Finset.mem_insert_self _ _))
    (fun edge hedge => Finset.mem_insert_of_mem (mem_toFinset.mpr (mem_map_of_mem hedge)))
    (by rw [Finset.card_singleton, length_singleton]; omega) (by simp)
    ⟨by simp [refl], by simp, by simp⟩ (by simp)

/-! ### Edges with nothing between their ends -/

/-- An edge between the two, and nothing between them. -/
def Covers (edges : List GraphEdge) (a b : GraphNodeId) : Prop :=
  EdgeStep edges a b ∧ ∀ c, TransGen (EdgeStep edges) a c → ¬ TransGen (EdgeStep edges) c b

variable {edges : List GraphEdge} {edge : GraphEdge} {a b : GraphNodeId}

/-- Such edges lead as far as all of them. -/
theorem transGen_covers (hacyc : Acyclic edges) (h : TransGen (EdgeStep edges) a b) :
    TransGen (Covers edges) a b := by
  have hirrefl : Std.Irrefl (TransGen (EdgeStep edges)) := ⟨hacyc⟩
  have horder : IsStrictOrder GraphNodeId (TransGen (EdgeStep edges)) := {}
  -- the nodes in the order of the ways between them, where intervals are finite
  let _ : PartialOrder GraphNodeId := partialOrderOfSO (TransGen (EdgeStep edges))
  have hicc : ∀ a b : GraphNodeId, (Set.Icc a b).Finite := by
    intro a b
    refine (((edges.map GraphEdge.toNode).toFinset.finite_toSet).insert a).subset ?_
    rintro c ⟨rfl | hac, -⟩
    · exact Set.mem_insert _ _
    · obtain ⟨d, -, edge, hedge, -, rfl⟩ := TransGen.tail'_iff.mp hac
      exact Set.mem_insert_of_mem _ (mem_toFinset.mpr (mem_map_of_mem hedge))
  let _ : LocallyFiniteOrder GraphNodeId := .ofFiniteIcc hicc
  refine TransGen.mono (fun x y hxy => ?_) _ _ (transGen_covBy_of_lt h)
  obtain ⟨hlt, hnone⟩ := hxy
  refine ⟨?_, fun c hxc => hnone hxc⟩
  obtain ⟨c, hxc, hcy⟩ := TransGen.head'_iff.mp hlt
  rcases reflTransGen_iff_eq_or_transGen.mp hcy with rfl | hcy
  · exact hxc
  · exact absurd hcy (hnone (.single hxc))

section Reduction

variable (hnodup : edges.Nodup)
include hnodup

omit hnodup in
theorem mem_filter_zipIdx {p : GraphEdge × ℕ → Bool} {q : Prop}
    (hp : ∀ index, edges[index]? = some edge → (p (edge, index) = true ↔ q)) :
    edge ∈ (edges.zipIdx.filter p).map fst ↔ edge ∈ edges ∧ q := by
  rw [mem_map, mem_iff_getElem?]
  constructor
  · rintro ⟨⟨_, index⟩, hentry, rfl⟩
    obtain ⟨hentry, hkept⟩ := mem_filter.mp hentry
    have hget := mem_zipIdx_iff_getElem?.mp hentry
    exact ⟨⟨index, hget⟩, (hp index hget).mp hkept⟩
  · rintro ⟨⟨index, hget⟩, hq⟩
    exact ⟨(edge, index),
      mem_filter.mpr ⟨mem_zipIdx_iff_getElem?.mpr hget, (hp index hget).mpr hq⟩, rfl⟩

theorem nodup_filter_zipIdx {p : GraphEdge × ℕ → Bool} :
    ((edges.zipIdx.filter p).map fst).Nodup :=
  Nodup.sublist (filter_sublist.map fst) (by rwa [zipIdx_map_fst])

theorem redundant_eq_true {index : ℕ} (hget : edges[index]? = some edge) :
    redundant edges (edge, index) = true ↔
      ReflTransGen (EdgeStep (edges.erase edge)) edge.fromNode edge.toNode := by
  obtain ⟨hlt, rfl⟩ := List.getElem?_eq_some_iff.mp hget
  rw [redundant, hasPathExcluding_iff, ← hnodup.erase_getElem]

theorem mem_retained : edge ∈ (reduction edges).retainedEdges ↔ edge ∈ edges
    ∧ ¬ ReflTransGen (EdgeStep (edges.erase edge)) edge.fromNode edge.toNode :=
  mem_filter_zipIdx fun index hget => by
    rw [← redundant_eq_true hnodup hget, Bool.not_eq_true', Bool.not_eq_true]

/-- Without a retained edge there is no way between its ends. -/
theorem retained_minimal (hedge : edge ∈ (reduction edges).retainedEdges) :
    ¬ ReflTransGen (EdgeStep ((reduction edges).retainedEdges.erase edge))
      edge.fromNode edge.toNode := by
  intro hpath
  obtain ⟨-, hnot⟩ := (mem_retained hnodup).mp hedge
  refine hnot (mono ?_ _ _ hpath)
  rintro x y ⟨other, hother, hends⟩
  obtain ⟨hne, hother⟩ := (nodup_filter_zipIdx hnodup).mem_erase_iff.mp hother
  exact ⟨other, hnodup.mem_erase_iff.mpr ⟨hne, ((mem_retained hnodup).mp hother).1⟩, hends⟩

/-- There are as many redundant edges as edges that have a way around them. -/
theorem length_redundant : (reduction edges).redundantEdges.length
    = {e ∈ edges | ReflTransGen (EdgeStep (edges.erase e)) e.fromNode e.toNode}.ncard := by
  rw [reduction, ← toFinset_card_of_nodup (nodup_filter_zipIdx hnodup), ← Set.ncard_coe_finset]
  congr 1
  ext e
  rw [coe_toFinset, Set.mem_ofPred, Set.mem_ofPred]
  exact mem_filter_zipIdx fun index hget => redundant_eq_true hnodup hget

theorem edgeStep_retained_le : EdgeStep (reduction edges).retainedEdges ≤ EdgeStep edges := by
  rintro x y ⟨other, hother, hends⟩
  exact ⟨other, ((mem_retained hnodup).mp hother).1, hends⟩

omit hnodup in
theorem edgeStep_erase_le : EdgeStep (edges.erase edge) ≤ EdgeStep edges := by
  rintro x y ⟨other, hother, hends⟩
  exact ⟨other, mem_of_mem_erase hother, hends⟩

variable (hacyc : Acyclic edges)
include hacyc

/-- Two edges with the same ends and nothing between them are both redundant, and no
way is left. -/
theorem simple_of_reaches (hreach : ∀ a b, ReflTransGen (EdgeStep edges) a b →
      ReflTransGen (EdgeStep (reduction edges).retainedEdges) a b) {e e' : GraphEdge}
    (he : e ∈ edges) (he' : e' ∈ edges) (hfrom : e.fromNode = e'.fromNode)
    (hto : e.toNode = e'.toNode) (hcovers : Covers edges e.fromNode e.toNode) : e = e' := by
  have hsub := edgeStep_retained_le hnodup
  rcases reflTransGen_iff_eq_or_transGen.mp (hreach _ _ (.single ⟨e, he, rfl, rfl⟩))
    with heq | hpath
  · exact absurd (.single ⟨e, he, rfl, heq⟩) (hacyc e.fromNode)
  obtain ⟨_, ⟨kept, hkept, hstart, rfl⟩, hrest⟩ := TransGen.head'_iff.mp hpath
  rcases reflTransGen_iff_eq_or_transGen.mp hrest with hend | hrest
  · -- an edge with these ends was kept, so there is no other one
    obtain ⟨-, hnot⟩ := (mem_retained hnodup).mp hkept
    have honly : ∀ f ∈ edges, f.fromNode = e.fromNode → f.toNode = e.toNode → f = kept := by
      intro f hf hfFrom hfTo
      by_contra hne
      refine hnot (.single ⟨f, (mem_erase_of_ne hne).mpr hf, hfFrom.trans hstart.symm, ?_⟩)
      exact hfTo.trans hend
    exact (honly e he rfl rfl).trans (honly e' he' hfrom.symm hto.symm).symm
  · have hstep : EdgeStep edges e.fromNode kept.toNode := hsub _ _ ⟨kept, hkept, hstart, rfl⟩
    exact absurd (TransGen.mono hsub _ _ hrest) (hcovers.2 _ (.single hstep))

variable (hsimple : ∀ e ∈ edges, ∀ e' ∈ edges, e.fromNode = e'.fromNode →
  e.toNode = e'.toNode → Covers edges e.fromNode e.toNode → e = e')
include hsimple

/-- The way around an edge has a node between its ends. -/
theorem not_reaches_of_covers (hedge : edge ∈ edges)
    (hcovers : Covers edges edge.fromNode edge.toNode) :
    ¬ ReflTransGen (EdgeStep (edges.erase edge)) edge.fromNode edge.toNode := by
  intro hpath
  rcases reflTransGen_iff_eq_or_transGen.mp hpath with heq | hpath
  · exact hacyc _ (.single ⟨edge, hedge, rfl, heq⟩)
  obtain ⟨c, ⟨other, hother, hfrom, rfl⟩, hrest⟩ := TransGen.head'_iff.mp hpath
  have hother' := hnodup.mem_erase_iff.mp hother
  rcases reflTransGen_iff_eq_or_transGen.mp hrest with heq | hrest
  · exact hother'.1 (hsimple edge hedge other hother'.2 hfrom.symm heq hcovers).symm
  · exact hcovers.2 _ (.single ⟨other, hother'.2, hfrom, rfl⟩)
      (TransGen.mono edgeStep_erase_le _ _ hrest)

theorem retained_reaches (a b : GraphNodeId) :
    ReflTransGen (EdgeStep (reduction edges).retainedEdges) a b
      ↔ ReflTransGen (EdgeStep edges) a b := by
  refine ⟨mono (edgeStep_retained_le hnodup) _ _, fun hpath => ?_⟩
  rcases reflTransGen_iff_eq_or_transGen.mp hpath with rfl | hpath
  · exact .refl
  -- a way over any edges is one over edges with nothing between their ends, which are retained
  refine (TransGen.mono ?_ _ _ (transGen_covers hacyc hpath)).to_reflTransGen
  rintro _ _ ⟨⟨edge, hedge, rfl, rfl⟩, hnone⟩
  have hnot := not_reaches_of_covers hnodup hacyc hsimple hedge ⟨⟨edge, hedge, rfl, rfl⟩, hnone⟩
  exact ⟨edge, (mem_retained hnodup).mpr ⟨hedge, hnot⟩, rfl, rfl⟩

end Reduction

namespace ArchitectureAnalysis

/-- The edges of a reduction can be encoded, and its trace, which has the edges with a
way around them. -/
def ReductionEncodable (edges : List GraphEdge) : Prop :=
  8 + 24 * edges.length ≤ u32Max ∧ 1 + 25 *
    {e ∈ edges | ReflTransGen (EdgeStep (edges.erase e)) e.fromNode e.toNode}.ncard ≤ u32Max

theorem reduction_perm (edges : List GraphEdge) :
    ((reduction edges).retainedEdges ++ (reduction edges).redundantEdges).Perm edges := by
  rw [reduction, ← map_append]
  have hperm := (perm_append_comm.trans
    (filter_append_perm (redundant edges) edges.zipIdx)).map fst
  rwa [zipIdx_map_fst] at hperm

theorem transitiveReduction_eq_ok {analysis : ArchitectureAnalysis}
    {proposal : TransitiveReductionProposal} (hdirected : analysis.graph.directed = true)
    (hcycle : hasDirectedCycle analysis.graph.nodes analysis.graph.edges = false) :
    analysis.transitiveReduction = .ok proposal ↔
      reduction analysis.graph.edges = proposal ∧ ReductionEncodable analysis.graph.edges := by
  have hlen := (reduction_perm analysis.graph.edges).length_eq
  rw [length_append] at hlen
  simp only [transitiveReduction, hdirected, hcycle, ReductionEncodable,
    ← length_redundant analysis.graph.edges_nodup, encodeEdges, sealProposal, bind_eq_ok,
    refuseIf_eq_ok, pure_eq_ok, writeCount_eq_ok]
  constructor
  · rintro ⟨-, -, -, -, _, ⟨⟨⟩, -, rfl⟩, _, ⟨⟨⟩, -, rfl⟩, ⟨⟩, htrace, ⟨⟩, hresult, rfl⟩
    exact ⟨rfl, by omega, htrace⟩
  · rintro ⟨rfl, hresult, htrace⟩
    exact ⟨(), by simp, (), by simp, _, ⟨(), by omega, rfl⟩, _, ⟨(), by omega, rfl⟩, (), htrace, (),
      by omega, rfl⟩

theorem reductionEncodable_of_le {edges : List GraphEdge} (hnodup : edges.Nodup)
    (h : 8 + 25 * edges.length ≤ u32Max) : ReductionEncodable edges := by
  have hlen := (reduction_perm edges).length_eq
  rw [length_append, length_redundant hnodup] at hlen
  exact ⟨by omega, by omega⟩

/-- **The reduction leads as far as the graph, and no edge of it can go**, exactly
where two edges with nothing between their ends do not have the same ends and the
edges can be encoded. -/
theorem transitiveReduction_exact {graph : DeterministicGraph} {limits : ArchitectureLimits}
    {analysis : ArchitectureAnalysis} (hlimit : limits.edges ≤ u32Max)
    (h : tryNew graph limits = .ok analysis) (hdirected : graph.directed = true)
    (hacyc : Acyclic graph.edges) :
    (∃ proposal, analysis.transitiveReduction = .ok proposal
      ∧ (proposal.retainedEdges ++ proposal.redundantEdges).Perm graph.edges
      ∧ (∀ a b, ReflTransGen (EdgeStep proposal.retainedEdges) a b
        ↔ ReflTransGen (EdgeStep graph.edges) a b)
      ∧ ∀ edge ∈ proposal.retainedEdges,
        ¬ ∀ a b, ReflTransGen (EdgeStep (proposal.retainedEdges.erase edge)) a b
          ↔ ReflTransGen (EdgeStep graph.edges) a b) ↔
    (∀ e ∈ graph.edges, ∀ e' ∈ graph.edges, e.fromNode = e'.fromNode →
      e.toNode = e'.toNode → Covers graph.edges e.fromNode e.toNode → e = e')
    ∧ ReductionEncodable graph.edges := by
  obtain ⟨-, hedges, rfl⟩ := tryNew_eq_ok.mp h
  have hcycle : hasDirectedCycle graph.nodes graph.edges = false :=
    (hasDirectedCycle_eq_false graph.nodes_nodup (fun e he => (graph.admissible e he).fromNode)
      (fun e he => (graph.admissible e he).toNode) (hedges.trans hlimit)).mpr hacyc
  have hnodup := graph.edges_nodup
  constructor
  · rintro ⟨proposal, hproposal, -, hreach, -⟩
    obtain ⟨rfl, hencodable⟩ := (transitiveReduction_eq_ok hdirected hcycle).mp hproposal
    exact ⟨fun e he e' he' => simple_of_reaches hnodup hacyc (fun a b => (hreach a b).mpr) he he',
      hencodable⟩
  · rintro ⟨hsimple, hencodable⟩
    refine ⟨_, (transitiveReduction_eq_ok hdirected hcycle).mpr ⟨rfl, hencodable⟩,
      reduction_perm _, retained_reaches hnodup hacyc hsimple, fun edge hedge hsame => ?_⟩
    have hin := ((mem_retained hnodup).mp hedge).1
    exact retained_minimal hnodup hedge ((hsame _ _).mpr (.single ⟨edge, hin, rfl, rfl⟩))

/-- Three nodes in a row, and the edge from the first to the last. -/
def shortcut : ArchitectureAnalysis where
  graph :=
    { directed := true
      nodes := [⟨1⟩, ⟨2⟩, ⟨3⟩]
      edges := [triangleEdge 1 2, triangleEdge 1 3, triangleEdge 2 3]
      nodes_sorted := threeNodes_sorted
      edges_sorted := by decide
      admissible := by decide }
  limits := ⟨4096, 16384, 20⟩

theorem transitiveReduction_exact_shortcut :
    ∃ proposal, shortcut.transitiveReduction = .ok proposal
      ∧ (proposal.retainedEdges ++ proposal.redundantEdges).Perm shortcut.graph.edges
      ∧ (∀ a b, ReflTransGen (EdgeStep proposal.retainedEdges) a b
        ↔ ReflTransGen (EdgeStep shortcut.graph.edges) a b)
      ∧ ∀ edge ∈ proposal.retainedEdges,
        ¬ ∀ a b, ReflTransGen (EdgeStep (proposal.retainedEdges.erase edge)) a b
          ↔ ReflTransGen (EdgeStep shortcut.graph.edges) a b := by
  refine (@transitiveReduction_exact _ shortcut.limits _ (by decide) (by rfl) rfl ?_).mpr
    ⟨?_, reductionEncodable_of_le shortcut.graph.edges_nodup (by decide)⟩
  · exact (hasDirectedCycle_eq_false shortcut.graph.nodes_nodup
      (by decide) (by decide) (by decide)).mp (by decide +kernel)
  · have hends : ∀ e ∈ shortcut.graph.edges, ∀ e' ∈ shortcut.graph.edges,
        e.fromNode = e'.fromNode → e.toNode = e'.toNode → e = e' := by decide
    exact fun e he e' he' hfrom hto _ => hends e he e' he' hfrom hto

/-- Two edges with the same ends. -/
def doubled : ArchitectureAnalysis where
  graph :=
    { directed := true
      nodes := [⟨1⟩, ⟨2⟩]
      edges := [triangleEdge 1 2, ⟨⟨1⟩, ⟨2⟩, 2, toNat_le_u64Max 2⟩]
      nodes_sorted := by decide
      edges_sorted := by decide
      admissible := by decide }
  limits := ⟨4096, 16384, 20⟩

/-- **Both edges are given up, and the way from node 1 to node 2 with them.** -/
theorem parallel_edges_lost : Acyclic doubled.graph.edges
    ∧ doubled.transitiveReduction.toOption.map TransitiveReductionProposal.retainedEdges = some []
    ∧ ReflTransGen (EdgeStep doubled.graph.edges) ⟨1⟩ ⟨2⟩
    ∧ ¬ ReflTransGen (EdgeStep []) ⟨1⟩ ⟨2⟩ := by
  refine ⟨?_, ?_, .single ⟨_, mem_cons_self, rfl, rfl⟩, ?_⟩
  · exact (hasDirectedCycle_eq_false doubled.graph.nodes_nodup
      (by decide) (by decide) (by decide)).mp (by decide +kernel)
  · decide +kernel
  · intro h
    obtain ⟨_, ⟨_, hedge, -⟩, -⟩ := (h.cases_head).resolve_left (by decide)
    exact not_mem_nil hedge

end ArchitectureAnalysis

end Frankengit.Graph
