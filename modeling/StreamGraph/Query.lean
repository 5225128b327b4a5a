import StreamGraph.Collective
import StreamGraph.Shard

/-!
Questions about the whole graph. Every rank answers for its own shard, and a collective
operation makes one answer of the parts, the same on every rank.
-/

namespace StreamGraph

namespace Query

def tag : Tag := 0x0300

def topTag : Tag := 0x0310

def vertexCount (shard : Shard) : Collective UInt64 :=
  Collective.sum tag (UInt64.ofNat shard.activeVertices)

def edgeCount (shard : Shard) : Collective UInt64 :=
  Collective.sum (tag.offset 2) (UInt64.ofNat shard.edgeCount)

/-- The number of outgoing edges of a vertex, on the rank that owns it, and nothing elsewhere. -/
def localDegree (shard : Shard) (vertex : VertexId) : Nat :=
  if shard.owns vertex then shard.outDegree vertex else 0

def degree (shard : Shard) (vertex : VertexId) : Collective UInt64 :=
  Collective.maximum 0 (tag.offset 4) (UInt64.ofNat (localDegree shard vertex))

/-- The order of high degrees: more edges first, and the higher number first among equals. -/
def higher (left right : VertexDegree) : Bool :=
  decide (right.degree < left.degree) ||
    (left.degree == right.degree && decide (right.vertex ≤ left.vertex))

def highest (count : Nat) (entries : List VertexDegree) : List VertexDegree :=
  (entries.mergeSort higher).take count

/-- The `count` vertices of highest degree in the whole graph, or all if there are fewer. -/
def topDegrees (shard : Shard) (count : Nat) : Collective (List VertexDegree) := do
  let mine := shard.degrees.map fun (vertex, degree) => ⟨vertex, UInt64.ofNat degree⟩
  return highest count (← Collective.allgatherFlat topTag (highest count mine))

def highestDegreeVertex (shard : Shard) : Collective (Option VertexId) := do
  return (← topDegrees shard 1).head?.map VertexDegree.vertex

end Query

structure GraphSummary where
  rank : Nat
  vertices : UInt64
  edges : UInt64
  deriving DecidableEq, Inhabited

def GraphSummary.collect (member : Member) (shard : Shard) : Collective GraphSummary := do
  let vertices ← Query.vertexCount shard
  let edges ← Query.edgeCount shard
  return ⟨member.rank, vertices, edges⟩

end StreamGraph
