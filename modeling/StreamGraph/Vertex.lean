/-!
Vertices are dense numbers. A graph over the bound `m` sizes its tables for the numbers below
`m`; number zero has a slot in every table but is never the end of an edge.
-/

namespace StreamGraph

abbrev VertexId := UInt64

/-- Whether an edge of a graph over `bound` may start or end at this vertex. -/
def VertexId.isEndpoint (vertex : VertexId) (bound : UInt64) : Bool :=
  decide (0 < vertex) && decide (vertex < bound)

theorem VertexId.isEndpoint_iff (vertex : VertexId) (bound : UInt64) :
    vertex.isEndpoint bound = true ↔ 0 < vertex.toNat ∧ vertex.toNat < bound.toNat := by
  simp [VertexId.isEndpoint, UInt64.lt_iff_toNat_lt]

/-- The vertex as it is shown to a programmer. -/
def VertexId.inspect (vertex : VertexId) : String :=
  "VertexId(" ++ toString vertex.toNat ++ ")"

end StreamGraph
