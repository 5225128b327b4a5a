import StreamGraph.Collective
import StreamGraph.Shard

/-!
What the traversals have in common. Every rank keeps the same table of labels, one slot for each
vertex; a rank proposes new labels from the edges it holds, all proposals are gathered, and every
rank applies all of them in the same order. In which order a rank comes across its edges is left
open (`Scan`).
-/

namespace StreamGraph

/-- One word for each vertex below the bound of a graph. -/
abbrev Labels := Array Int64

namespace Labels

def fill (bound : UInt64) (word : Int64) : Labels := Array.replicate bound.toNat word

/-- The word of a vertex; beyond the bound it is zero. -/
def of (labels : Labels) (vertex : VertexId) : Int64 := labels.getD vertex.toNat 0

/-- The labels with one word changed; beyond the bound nothing changes. -/
def put (labels : Labels) (vertex : VertexId) (word : Int64) : Labels :=
  labels.setIfInBounds vertex.toNat word

end Labels

/-- The edges of a shard in the order in which a rank comes across them, all of them and those of
each vertex. The order is not for a stage to choose. -/
structure Scan (shard : Shard) where
  edges : List Edge
  outEdges : VertexId → List (VertexId × Attrs)
  edges_perm : edges.Perm shard.edges
  outEdges_perm (source : VertexId) : (outEdges source).Perm (shard.outEdges source)

/-- By source and then by destination. -/
def Scan.ascending (shard : Shard) : Scan shard where
  edges := shard.edges
  outEdges := shard.outEdges
  edges_perm := .refl _
  outEdges_perm _ := .refl _

namespace Traversal

def propose (tag : Tag) (proposals : List Proposal) : Collective (List Proposal) :=
  Collective.allgatherFlat tag proposals

/-- Refuses the first source, in list order, that is no endpoint. -/
def checkSources (shard : Shard) (sources : List VertexId) : Except Failure Unit :=
  match sources.find? fun source => !source.isEndpoint shard.bound with
  | some source => .error (.vertexOutOfRange source shard.bound)
  | none => .ok ()

end Traversal

end StreamGraph
