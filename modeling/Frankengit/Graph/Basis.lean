/-
Frankengit/Graph/Basis.lean

Graphs with stable identities (`fgit-graph`, `algorithms.rs`).  A
`DeterministicGraph` is a list of nodes and a list of edges, each in rising
order; an edge is more than its two ends, so there may be several between
two nodes.  Edges of an undirected graph go from the lower end to the higher.
`from_canonical_parts` admits parts and is the one constructor of the source.

Of encoded results and traces only the lengths are modelled: they must fit in 32
bits (`writeCount`).
-/
import Frankengit.Types.Basic
import Frankengit.Lib.Fallible

namespace Frankengit.Graph

open List Fallible

/-! ### Nodes and edges -/

/-- The identity of a vertex. -/
structure GraphNodeId where
  value : ℕ

instance : LinearOrder GraphNodeId :=
  LinearOrder.lift' GraphNodeId.value fun a b h => by cases a; cases b; cases h; rfl

/-- An edge with its capacity, a 64-bit number. -/
@[ext] structure GraphEdge where
  fromNode : GraphNodeId
  toNode : GraphNodeId
  capacity : ℕ
  capacity_le : capacity ≤ u64Max

namespace GraphEdge

/-- The order of the source: by the two ends, then by capacity. -/
def key (edge : GraphEdge) : GraphNodeId ×ₗ GraphNodeId ×ₗ ℕ :=
  toLex (edge.fromNode, toLex (edge.toNode, edge.capacity))

theorem key_injective : Function.Injective key := by
  intro a b h
  simp only [key, EmbeddingLike.apply_eq_iff_eq, Prod.mk.injEq] at h
  exact GraphEdge.ext h.1 h.2.1 h.2.2

instance : LinearOrder GraphEdge := LinearOrder.lift' key key_injective

end GraphEdge

/-- Why an encoding is refused. -/
inductive CodecRefusal where
  | valueUnrepresentable (field : String) (observed limit : ℕ)
deriving DecidableEq

/-- A length or count that is written in 32 bits (`Encoder::write_count`). -/
def writeCount {ε : Type} (codec : CodecRefusal → ε) (field : String) (count : ℕ) :
    Except ε Unit :=
  refuseIf (u32Max < count) (codec (.valueUnrepresentable field count u32Max))

theorem writeCount_eq_ok {ε : Type} {codec : CodecRefusal → ε} {field : String} {count : ℕ}
    {u : Unit} : writeCount codec field count = .ok u ↔ count ≤ u32Max := by
  rw [writeCount, refuseIf_eq_ok, not_lt]

/-! ### Graphs -/

/-- An edge that a graph over these nodes may have. -/
structure Admissible (directed : Bool) (nodes : GraphNodeId → Prop) (edge : GraphEdge) : Prop where
  positive : 0 < edge.capacity
  fromNode : nodes edge.fromNode
  toNode : nodes edge.toNode
  oriented : directed = false → edge.fromNode ≤ edge.toNode

instance (directed : Bool) (nodes : GraphNodeId → Prop) [DecidablePred nodes] (edge : GraphEdge) :
    Decidable (Admissible directed nodes edge) :=
  decidable_of_iff (0 < edge.capacity ∧ nodes edge.fromNode ∧ nodes edge.toNode
      ∧ (directed = false → edge.fromNode ≤ edge.toNode))
    ⟨fun h => ⟨h.1, h.2.1, h.2.2.1, h.2.2.2⟩, fun h => ⟨h.1, h.2, h.3, h.4⟩⟩

structure DeterministicGraph where
  directed : Bool
  nodes : List GraphNodeId
  edges : List GraphEdge
  nodes_sorted : nodes.Pairwise (· < ·)
  edges_sorted : edges.Pairwise (· < ·)
  admissible : ∀ edge ∈ edges, Admissible directed (· ∈ nodes) edge

namespace DeterministicGraph

variable (g : DeterministicGraph)

theorem nodes_nodup : g.nodes.Nodup := g.nodes_sorted.imp ne_of_lt

theorem edges_nodup : g.edges.Nodup := g.edges_sorted.imp ne_of_lt

end DeterministicGraph

end Frankengit.Graph
