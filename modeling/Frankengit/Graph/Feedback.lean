/-
Frankengit/Graph/Feedback.lean

Feedback edge sets (`fgit-graph`, `architecture.rs`,
`ArchitectureAnalysis::feedback_edge_set`): the sets of edges are tried in the
order of their bit masks.  A set that is larger than the best one so far is
passed over; one that leaves no cycle replaces it if its list of edges is
smaller.

The lists are compared in edge order and not by length, so a shorter list may
come too late (`feedback_not_minimal`).  The search finds the least of the
smallest sets exactly when no set that it keeps before has a smaller list
(`feedbackEdgeSet_exact`).
-/
import Frankengit.Graph.Cycle

namespace Frankengit.Graph

open List Option Bool Nat Fallible

structure ArchitectureLimits where
  nodes : ℕ
  edges : ℕ
  feedbackSearchEdges : ℕ

/-- The algorithms that need a directed graph. -/
inductive ArchitectureAlgorithm where
  | feedbackEdgeSetV1 | transitiveReductionV1
deriving DecidableEq

inductive ArchitectureRefusal where
  | resourceLimit (resource : String) (observed limit : ℕ)
  | directedGraphRequired (algorithm : ArchitectureAlgorithm)
  | acyclicGraphRequired
  | feedbackSearchBound (observed limit : ℕ)
  | codec (refusal : CodecRefusal)
  | arithmeticOverflow
deriving DecidableEq

/-- The length of an encoded list of edges. -/
def encodeEdges (field : String) (edges : List GraphEdge) : Except ArchitectureRefusal ℕ := do
  writeCount .codec field edges.length
  return 4 + 24 * edges.length

/-- Digest the trace and the result of a proposal (`proposal_from_parts`); only their
lengths matter. -/
def sealProposal {α : Type} (trace result : ℕ) (value : α) : Except ArchitectureRefusal α := do
  writeCount .codec "architecture_digest.value" trace
  writeCount .codec "architecture_digest.value" result
  return value

structure FeedbackEdgeSetProposal where
  removedEdges : List GraphEdge
  candidatesExamined : ℕ

/-- A graph and the limits it is analysed under. -/
structure ArchitectureAnalysis where
  graph : DeterministicGraph
  limits : ArchitectureLimits

namespace ArchitectureAnalysis

/-- The edges whose bit in the mask is this one. -/
def edgesAt (edges : List GraphEdge) (mask : ℕ) (bit : Bool) : List GraphEdge :=
  edges.zipIdx.filterMap fun entry => if mask.testBit entry.2 = bit then some entry.1 else none

/-- One set of the search. -/
def consider (graph : DeterministicGraph) (selected : Option (List GraphEdge)) (mask : ℕ) :
    Option (List GraphEdge) :=
  let removed := edgesAt graph.edges mask true
  if selected.any fun best => best.length < removed.length then selected
  else
    let retained := edgesAt graph.edges mask false
    if !hasDirectedCycle graph.nodes retained && selected.all fun best => removed < best then
      some removed
    else selected

def feedbackEdgeSet (analysis : ArchitectureAnalysis) :
    Except ArchitectureRefusal FeedbackEdgeSetProposal := do
  if analysis.graph.directed = false then throw (.directedGraphRequired .feedbackEdgeSetV1)
  let edgeCount := analysis.graph.edges.length
  if analysis.limits.feedbackSearchEdges < edgeCount then
    throw (.feedbackSearchBound edgeCount analysis.limits.feedbackSearchEdges)
  -- a 64-bit one is shifted
  if 64 ≤ edgeCount then throw .arithmeticOverflow
  let candidateCount := 2 ^ edgeCount
  match (range candidateCount).foldl (consider analysis.graph) none with
  | some removedEdges =>
    let trace ← encodeEdges "feedback_removed" removedEdges
    let result ← encodeEdges "feedback_result" removedEdges
    sealProposal (1 + 8 + trace) (8 + result) ⟨removedEdges, candidateCount⟩
  | none => throw .arithmeticOverflow

/-! ### Sets of edges and masks -/

variable {g : DeterministicGraph} {mask : ℕ}

variable (g) in
/-- A set of edges, in edge order, without which there is no cycle. -/
def IsFeedback (removed : List GraphEdge) : Prop :=
  removed.Sublist g.edges ∧ Acyclic (g.edges.filter (· ∉ removed))

variable (g) in
/-- The least in edge order of the smallest such sets. -/
structure LeastFeedback (removed : List GraphEdge) : Prop where
  feedback : IsFeedback g removed
  minimal : ∀ other, IsFeedback g other → removed.length ≤ other.length
  least : ∀ other, IsFeedback g other → other.length = removed.length → removed ≤ other

variable (g) in
/-- The set of a mask is kept by the search: it leaves no cycle, and each set kept
before is at least as long and has a larger list. -/
def Kept (mask : ℕ) : Prop :=
  IsFeedback g (edgesAt g.edges mask true) ∧ ∀ earlier < mask, Kept earlier →
    (edgesAt g.edges mask true).length ≤ (edgesAt g.edges earlier true).length ∧
      edgesAt g.edges mask true < edgesAt g.edges earlier true

theorem kept_iff : Kept g mask ↔ IsFeedback g (edgesAt g.edges mask true) ∧
    ∀ earlier < mask, Kept g earlier →
      (edgesAt g.edges mask true).length ≤ (edgesAt g.edges earlier true).length ∧
        edgesAt g.edges mask true < edgesAt g.edges earlier true := by
  rw [Kept]

/-- The place of an edge is its own. -/
theorem edgesAt_eq_filter (g : DeterministicGraph) (mask : ℕ) (bit : Bool) :
    edgesAt g.edges mask bit
      = g.edges.filter fun edge => mask.testBit (g.edges.idxOf edge) = bit := by
  have hplace : edgesAt g.edges mask bit = g.edges.zipIdx.filterMap fun entry =>
      (some entry.1).filter fun edge => mask.testBit (g.edges.idxOf edge) = bit := by
    refine filterMap_congr fun entry hentry => ?_
    obtain ⟨hi, hedge⟩ := List.getElem?_eq_some_iff.mp (mem_zipIdx_iff_getElem?.mp hentry)
    rw [Option.filter_some, ← hedge, g.edges_nodup.idxOf_getElem]
    simp
  rw [hplace, ← filterMap_eq_filter, ← zipIdx_map_fst 0 g.edges, filterMap_map, zipIdx_map_fst]
  rfl

/-- What is not removed is retained. -/
theorem edgesAt_false (g : DeterministicGraph) (mask : ℕ) :
    edgesAt g.edges mask false = g.edges.filter (· ∉ edgesAt g.edges mask true) := by
  rw [edgesAt_eq_filter, edgesAt_eq_filter]
  refine filter_congr fun edge hedge => ?_
  simp [hedge]

theorem edgesAt_sublist (g : DeterministicGraph) (mask : ℕ) (bit : Bool) :
    (edgesAt g.edges mask bit).Sublist g.edges := by
  rw [edgesAt_eq_filter]
  exact filter_sublist

/-- Every set of edges has a mask. -/
theorem exists_mask {removed : List GraphEdge} (h : removed.Sublist g.edges) :
    ∃ mask < 2 ^ g.edges.length, edgesAt g.edges mask true = removed := by
  obtain ⟨mask, hmask, hbits⟩ : ∃ mask < 2 ^ g.edges.length, ∀ edge ∈ g.edges,
      mask.testBit (g.edges.idxOf edge) = true ↔ edge ∈ removed := by
    refine ⟨ofBits fun i : Fin g.edges.length => decide (g.edges[i] ∈ removed),
      ofBits_lt_two_pow _, fun edge hedge => ?_⟩
    rw [testBit_ofBits_lt _ _ (idxOf_lt_length_iff.mpr hedge)]
    simp
  refine ⟨mask, hmask, ?_⟩
  rw [edgesAt_eq_filter]
  refine (g.edges_sorted.filter _).eq_of_mem_iff (g.edges_sorted.sublist h) fun edge => ?_
  rw [mem_filter, decide_eq_true_eq]
  exact ⟨fun hedge => (hbits edge hedge.1).mp hedge.2,
    fun hedge => ⟨h.subset hedge, (hbits edge (h.subset hedge)).mpr hedge⟩⟩

/-! ### The search -/

section

variable (hroom : g.edges.length ≤ u32Max)
include hroom

/-- The test of the search says whether the set leaves no cycle. -/
theorem feedback_iff (mask : ℕ) : hasDirectedCycle g.nodes (edgesAt g.edges mask false) = false
      ↔ IsFeedback g (edgesAt g.edges mask true) := by
  have hsub := edgesAt_sublist g mask false
  rw [hasDirectedCycle_eq_false g.nodes_nodup
    (fun edge hedge => (g.admissible edge (hsub.subset hedge)).fromNode)
    (fun edge hedge => (g.admissible edge (hsub.subset hedge)).toNode)
    (hsub.length_le.trans hroom), edgesAt_false]
  exact ⟨fun h => ⟨edgesAt_sublist g mask true, h⟩, And.right⟩

/-- What one turn does: keep the best set, or take one that is not longer and
has a smaller list. -/
theorem consider_cases (selected : Option (List GraphEdge)) (mask : ℕ) :
    (consider g selected mask = selected ∧ (IsFeedback g (edgesAt g.edges mask true) →
      ∃ best, selected = some best ∧ (best.length < (edgesAt g.edges mask true).length
        ∨ best ≤ edgesAt g.edges mask true)))
    ∨ (consider g selected mask = some (edgesAt g.edges mask true)
      ∧ IsFeedback g (edgesAt g.edges mask true)
      ∧ ∀ best, selected = some best → (edgesAt g.edges mask true).length ≤ best.length
        ∧ edgesAt g.edges mask true < best) := by
  have hfb := feedback_iff hroom mask
  unfold consider
  dsimp only
  cases selected with
  | none =>
    rw [any_none, if_neg Bool.false_ne_true, all_none, Bool.and_true]
    split
    · next hok => exact .inr ⟨rfl, hfb.mp (by simpa using hok), nofun⟩
    · next hok => exact .inl ⟨rfl, fun h => absurd (hfb.mpr h) (by simpa using hok)⟩
  | some best =>
    simp only [any_some, all_some, decide_eq_true_eq]
    split
    · next hlong => exact .inl ⟨rfl, fun _ => ⟨best, rfl, .inl hlong⟩⟩
    · next hlong =>
      split
      · next hok =>
        rw [and_eq_true, not_eq_true', decide_eq_true_eq] at hok
        refine .inr ⟨rfl, hfb.mp hok.1, fun other hother => ?_⟩
        cases hother
        exact ⟨not_lt.mp hlong, hok.2⟩
      · next hok =>
        refine .inl ⟨rfl, fun h => ⟨best, rfl, .inr (not_lt.mp fun hlt => hok ?_)⟩⟩
        rw [and_eq_true, not_eq_true', decide_eq_true_eq]
        exact ⟨hfb.mpr h, hlt⟩

/-- What the search has after the masks below a bound: the last set it kept, if
it kept one. -/
structure Searched (g : DeterministicGraph) (bound : ℕ) (selected : Option (List GraphEdge)) :
    Prop where
  none : selected = none → ∀ mask < bound, ¬ Kept g mask
  kept : ∀ best, selected = some best →
    ∃ mask < bound, best = edgesAt g.edges mask true ∧ Kept g mask
  last : ∀ best, selected = some best → ∀ mask < bound, Kept g mask →
    best.length ≤ (edgesAt g.edges mask true).length ∧ best ≤ edgesAt g.edges mask true

theorem search_searched (bound : ℕ) :
    Searched g bound ((range bound).foldl (consider g) none) := by
  induction bound with
  | zero => exact ⟨fun _ _ h => absurd h (not_lt_zero _), nofun, nofun⟩
  | succ bound ih =>
    rw [range_succ, foldl_append, foldl_cons, foldl_nil]
    generalize (range bound).foldl (consider g) none = selected at ih
    rcases consider_cases hroom selected bound with ⟨hkeep, hbest⟩ | ⟨htake, hfb, hbetter⟩
    · -- the set of this mask is not kept
      have hnot : ¬ Kept g bound := by
        intro hkept
        obtain ⟨hfb, hbefore⟩ := kept_iff.mp hkept
        obtain ⟨best, hselected, hless⟩ := hbest hfb
        obtain ⟨mask, hmask, rfl, hkept⟩ := ih.kept best hselected
        obtain ⟨hlen, hlt⟩ := hbefore mask hmask hkept
        exact hless.elim (not_lt.mpr hlen) (not_le.mpr hlt)
      have hlt : ∀ mask < bound + 1, Kept g mask → mask < bound := by
        intro mask hmask hkept
        refine lt_of_le_of_ne (le_of_lt_succ hmask) ?_
        rintro rfl
        exact hnot hkept
      rw [hkeep]
      refine ⟨fun h mask hmask hkept => ih.none h mask (hlt mask hmask hkept) hkept,
        fun best h => ?_,
          fun best h mask hmask hkept => ih.last best h mask (hlt mask hmask hkept) hkept⟩
      obtain ⟨mask, hmask, hrest⟩ := ih.kept best h
      exact ⟨mask, by omega, hrest⟩
    · rw [htake]
      have hkept : Kept g bound := by
        refine kept_iff.mpr ⟨hfb, fun earlier hearlier hkept => ?_⟩
        cases selected with
        | none => exact absurd hkept (ih.none rfl earlier hearlier)
        | some best =>
          obtain ⟨hlen, hle⟩ := ih.last best rfl earlier hearlier hkept
          obtain ⟨hlen', hlt⟩ := hbetter best rfl
          exact ⟨hlen'.trans hlen, hlt.trans_le hle⟩
      refine ⟨nofun, fun best h => ?_, fun best h mask hmask hmaskKept => ?_⟩
      · cases h
        exact ⟨bound, lt_succ_self _, rfl, hkept⟩
      · cases h
        rcases Nat.lt_succ_iff_lt_or_eq.mp hmask with hlt | rfl
        · exact ((kept_iff.mp hkept).2 mask hlt hmaskKept).imp_right le_of_lt
        · exact ⟨le_rfl, le_rfl⟩

/-- The search ends with the least of the smallest sets, exactly when no set that
it keeps before has a smaller list. -/
theorem search_least_iff (hleast : LeastFeedback g (edgesAt g.edges mask true)) {bound : ℕ}
    (hbound : mask < bound) :
    (range bound).foldl (consider g) none = some (edgesAt g.edges mask true) ↔
      ∀ earlier < mask, Kept g earlier →
        edgesAt g.edges mask true ≤ edgesAt g.edges earlier true := by
  have hsearched := search_searched hroom bound
  refine ⟨fun h earlier hearlier hkept =>
    (hsearched.last _ h earlier (hearlier.trans hbound) hkept).2, fun hfirst => ?_⟩
  -- a set with this list is kept: the first one that is met
  obtain ⟨kept, hkeptBound, hkept, heq⟩ : ∃ kept < bound, Kept g kept ∧
      edgesAt g.edges kept true = edgesAt g.edges mask true := by
    by_cases hmask : Kept g mask
    · exact ⟨mask, hbound, hmask, rfl⟩
    · rw [kept_iff, and_iff_right hleast.feedback] at hmask
      push Not at hmask
      obtain ⟨earlier, hearlier, hkept, hnot⟩ := hmask
      have hle := hnot (hleast.minimal _ (kept_iff.mp hkept).1)
      exact ⟨earlier, hearlier.trans hbound, hkept, le_antisymm hle (hfirst earlier hearlier hkept)⟩
  cases hselected : (range bound).foldl (consider g) none with
  | none => exact absurd hkept (hsearched.none hselected kept hkeptBound)
  | some best =>
    obtain ⟨hlen, hle⟩ := hsearched.last best hselected kept hkeptBound hkept
    obtain ⟨_, -, rfl, hbest⟩ := hsearched.kept best hselected
    have hfb := (kept_iff.mp hbest).1
    rw [heq] at hlen hle
    rw [le_antisymm hle (hleast.least _ hfb (le_antisymm hlen (hleast.minimal _ hfb)))]

end

theorem LeastFeedback.unique {removed other : List GraphEdge} (h : LeastFeedback g removed)
    (h' : LeastFeedback g other) : removed = other := by
  have hlen := le_antisymm (h.minimal _ h'.feedback) (h'.minimal _ h.feedback)
  exact le_antisymm (h.least _ h'.feedback hlen.symm) (h'.least _ h.feedback hlen)

/-- There is a least one among the smallest sets. -/
theorem exists_leastFeedback (g : DeterministicGraph) :
    ∃ mask < 2 ^ g.edges.length, LeastFeedback g (edgesAt g.edges mask true) := by
  classical
  have hall : IsFeedback g g.edges := by
    refine ⟨List.Sublist.refl _, ?_⟩
    have hnone : g.edges.filter (· ∉ g.edges) = [] := filter_eq_nil_iff.mpr (by simp)
    rw [hnone]
    intro v hcycle
    obtain ⟨w, ⟨edge, hedge, -⟩, -⟩ := Relation.TransGen.head'_iff.mp hcycle
    exact not_mem_nil hedge
  obtain ⟨full, hfull, heq⟩ := exists_mask hall.1
  obtain ⟨mask, hmask, hmin⟩ := Finset.exists_min_image
    ((Finset.range (2 ^ g.edges.length)).filter fun m => IsFeedback g (edgesAt g.edges m true))
    (fun m => toLex ((edgesAt g.edges m true).length, edgesAt g.edges m true))
    ⟨full, Finset.mem_filter.mpr ⟨Finset.mem_range.mpr hfull, by rwa [heq]⟩⟩
  obtain ⟨hrange, hfb⟩ := Finset.mem_filter.mp hmask
  have hkey : ∀ other, IsFeedback g other →
      toLex ((edgesAt g.edges mask true).length, edgesAt g.edges mask true)
        ≤ toLex (other.length, other) := by
    intro other hother
    obtain ⟨m, hm, rfl⟩ := exists_mask hother.1
    exact hmin m (Finset.mem_filter.mpr ⟨Finset.mem_range.mpr hm, hother⟩)
  refine ⟨mask, Finset.mem_range.mp hrange, hfb, fun other hother => ?_, fun other hother h => ?_⟩
  · rcases (Prod.Lex.toLex_le_toLex.mp (hkey other hother)) with hlt | ⟨heq, -⟩
    · exact hlt.le
    · exact heq.le
  · rcases (Prod.Lex.toLex_le_toLex.mp (hkey other hother)) with hlt | ⟨-, hle⟩
    · exact absurd h.symm hlt.ne
    · exact hle

variable {analysis : ArchitectureAnalysis}

theorem feedbackEdgeSet_eq_ok (hdirected : analysis.graph.directed = true)
    (hsearch : analysis.graph.edges.length ≤ analysis.limits.feedbackSearchEdges)
    {proposal : FeedbackEdgeSetProposal} : analysis.feedbackEdgeSet = .ok proposal ↔
      analysis.graph.edges.length < 64 ∧
        proposal.candidatesExamined = 2 ^ analysis.graph.edges.length ∧
      (range (2 ^ analysis.graph.edges.length)).foldl (consider analysis.graph) none
        = some proposal.removedEdges := by
  have hbound : ¬ analysis.limits.feedbackSearchEdges < analysis.graph.edges.length :=
    not_lt.mpr hsearch
  simp only [feedbackEdgeSet, hdirected, true_eq_false, if_false, hbound]
  by_cases hwidth : 64 ≤ analysis.graph.edges.length
  · simp [hwidth]
  · rw [if_neg hwidth]
    cases hbest : (range (2 ^ analysis.graph.edges.length)).foldl
      (consider analysis.graph) none with
    | none => simp
    | some best =>
      -- fewer than 64 edges are always encoded
      obtain ⟨mask, -, rfl, -⟩ := (search_searched (by rw [u32Max]; omega) _).kept best hbest
      have hlen := (edgesAt_sublist analysis.graph mask true).length_le
      generalize edgesAt analysis.graph.edges mask true = best at hlen
      have hfits : best.length ≤ u32Max ∧ 1 + 8 + (4 + 24 * best.length) ≤ u32Max
          ∧ 8 + (4 + 24 * best.length) ≤ u32Max := by
        rw [u32Max]
        omega
      obtain ⟨removed, examined⟩ := proposal
      simp [encodeEdges, sealProposal, bind_eq_ok, writeCount_eq_ok, hfits, not_le.mp hwidth]
      tauto

/-- **The search finds the least of the smallest feedback edge sets**, exactly when
there are fewer than 64 edges and no set that it keeps before has a smaller list. -/
theorem feedbackEdgeSet_exact (analysis : ArchitectureAnalysis)
    (hdirected : analysis.graph.directed = true)
    (hsearch : analysis.graph.edges.length ≤ analysis.limits.feedbackSearchEdges) :
    (∃ proposal, analysis.feedbackEdgeSet = .ok proposal
      ∧ LeastFeedback analysis.graph proposal.removedEdges) ↔
    analysis.graph.edges.length < 64 ∧ ∀ mask < 2 ^ analysis.graph.edges.length,
      LeastFeedback analysis.graph (edgesAt analysis.graph.edges mask true) →
      ∀ earlier < mask, Kept analysis.graph earlier →
        edgesAt analysis.graph.edges mask true ≤ edgesAt analysis.graph.edges earlier true := by
  constructor
  · rintro ⟨proposal, hproposal, hleast⟩
    obtain ⟨hshift, -, hsearched⟩ := (feedbackEdgeSet_eq_ok hdirected hsearch).mp hproposal
    have hroom : analysis.graph.edges.length ≤ u32Max := hshift.le.trans (by decide)
    refine ⟨hshift, fun mask hmask hmaskLeast => ?_⟩
    have heq := hleast.unique hmaskLeast
    rw [heq] at hsearched
    exact (search_least_iff hroom hmaskLeast hmask).mp hsearched
  · rintro ⟨hshift, hfirst⟩
    have hroom : analysis.graph.edges.length ≤ u32Max := hshift.le.trans (by decide)
    obtain ⟨mask, hmask, hleast⟩ := exists_leastFeedback analysis.graph
    have hbest := (search_least_iff hroom hleast hmask).mpr (hfirst mask hmask hleast)
    exact ⟨⟨_, _⟩, (feedbackEdgeSet_eq_ok hdirected hsearch).mpr ⟨hshift, rfl, hbest⟩, hleast⟩

/-! ### A ring, and two rings that share an edge -/

/-- The edges of a graph of three nodes, as pairs. -/
def triangleEdge (a b : ℕ) : GraphEdge := ⟨⟨a⟩, ⟨b⟩, 1, one_le_u64Max⟩

theorem threeNodes_sorted : [(⟨1⟩ : GraphNodeId), ⟨2⟩, ⟨3⟩].Pairwise (· < ·) := by decide

/-- Three nodes in a ring. -/
def ring : ArchitectureAnalysis where
  graph :=
    { directed := true
      nodes := [⟨1⟩, ⟨2⟩, ⟨3⟩]
      edges := [triangleEdge 1 2, triangleEdge 2 3, triangleEdge 3 1]
      nodes_sorted := threeNodes_sorted
      edges_sorted := by decide
      admissible := by decide }
  limits := ⟨4096, 16384, 20⟩

theorem feedbackEdgeSet_exact_ring : ∃ proposal, ring.feedbackEdgeSet = .ok proposal
    ∧ LeastFeedback ring.graph proposal.removedEdges := by
  refine (feedbackEdgeSet_exact ring rfl (by decide)).mpr ⟨by decide, ?_⟩
  intro mask hmask hleast earlier hearlier hkept
  have hiff := fun m => feedback_iff (g := ring.graph) (by decide) m
  -- every set that leaves no cycle has an edge, and the first edge alone is the least of them
  have hall : ∀ m < 8,
    hasDirectedCycle ring.graph.nodes (edgesAt ring.graph.edges m false) = false →
      0 < (edgesAt ring.graph.edges m true).length
        ∧ [triangleEdge 1 2] ≤ edgesAt ring.graph.edges m true := by decide +kernel
  have hone : IsFeedback ring.graph [triangleEdge 1 2] := (hiff 1).mp (by decide +kernel)
  have hlen := le_antisymm (hall mask hmask ((hiff mask).mpr hleast.feedback)).1
    (hleast.minimal _ hone)
  exact (hleast.least _ hone hlen).trans
    (hall earlier (hearlier.trans hmask) ((hiff earlier).mpr (kept_iff.mp hkept).1)).2

/-- The ring with a shortcut from node 1 to node 3: node 3 is on both rings. -/
def twoRings : ArchitectureAnalysis where
  graph :=
    { directed := true
      nodes := [⟨1⟩, ⟨2⟩, ⟨3⟩]
      edges := [triangleEdge 1 2, triangleEdge 1 3, triangleEdge 2 3, triangleEdge 3 1]
      nodes_sorted := threeNodes_sorted
      edges_sorted := by decide
      admissible := by decide }
  limits := ⟨4096, 16384, 20⟩

/-- **The search returns two edges where one is enough.** -/
theorem feedback_not_minimal :
    (twoRings.feedbackEdgeSet.toOption.map FeedbackEdgeSetProposal.removedEdges)
        = some [triangleEdge 1 2, triangleEdge 1 3]
      ∧ IsFeedback twoRings.graph [triangleEdge 3 1] := by
  refine ⟨by decide +kernel, ?_⟩
  exact (feedback_iff (g := twoRings.graph) (by decide) 8).mp (by decide +kernel)

end ArchitectureAnalysis

end Frankengit.Graph
