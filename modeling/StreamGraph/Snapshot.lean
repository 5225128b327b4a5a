import StreamGraph.Analytics.Traversal

/-!
The whole graph in one place, in compressed rows: the edges in order of their endpoints, and for
each vertex the position where its row begins. Analytics that need the neighbours of any vertex
gather every rank's edges and build the same snapshot everywhere.
-/

namespace StreamGraph

structure Snapshot where
  vertices : Nat
  /-- Where each vertex's row begins; the last entry is the end of the last row. -/
  offsets : Array Nat
  targets : Array VertexId
  weights : Array Int64
  deriving DecidableEq, Inhabited

namespace Snapshot

def tally (vertices : Nat) (edges : List Edge) : Array Nat :=
  edges.foldl (fun counts edge => counts.modify edge.src.toNat (· + 1))
    (Array.replicate vertices 0)

/-- The sums of all beginnings of a list of counts, from the empty one to the whole. -/
def runningSums (total : Nat) : List Nat → List Nat
  | [] => [total]
  | count :: counts => total :: runningSums (total + count) counts

/-- The snapshot of a list of edges; rows are sorted by destination. -/
def ofEdges (vertices : Nat) (edges : List Edge) : Snapshot :=
  let ordered := edges.mergeSort fun left right => EdgeKey.le left.key right.key
  { vertices
    offsets := (runningSums 0 (tally vertices ordered).toList).toArray
    targets := (ordered.map Edge.dst).toArray
    weights := (ordered.map Edge.weight).toArray }

def tag : Tag := 0x05a0

def gatherAlong {shard : Shard} (scan : Scan shard) : Collective Snapshot := do
  return ofEdges shard.bound.toNat (← Collective.allgatherFlat tag scan.edges)

/-- The snapshot of the edges of all ranks. -/
def gather (shard : Shard) : Collective Snapshot := gatherAlong (.ascending shard)

def edgeCount (snapshot : Snapshot) : Nat := snapshot.targets.size

def rowStart (snapshot : Snapshot) (vertex : Nat) : Nat := snapshot.offsets.getD vertex 0

def outDegree (snapshot : Snapshot) (vertex : Nat) : Nat :=
  snapshot.rowStart (vertex + 1) - snapshot.rowStart vertex

/-- The destinations of the edges that leave a vertex, ascending. -/
def neighbors (snapshot : Snapshot) (vertex : Nat) : List Nat :=
  (snapshot.targets.extract (snapshot.rowStart vertex) (snapshot.rowStart (vertex + 1))).toList.map
    UInt64.toNat

def weightedNeighbors (snapshot : Snapshot) (vertex : Nat) : List (Nat × Int64) :=
  (snapshot.neighbors vertex).zip
    (snapshot.weights.extract (snapshot.rowStart vertex)
      (snapshot.rowStart (vertex + 1))).toList

/-- Every edge between two different vertices, in both directions. -/
def links (snapshot : Snapshot) : List (Nat × Nat) :=
  (List.range snapshot.vertices).flatMap fun source =>
    ((snapshot.neighbors source).filter fun target => target ≠ source).flatMap fun target =>
      [(source, target), (target, source)]

def ascending (entries : List Nat) : List Nat :=
  (entries.mergeSort fun left right => decide (left ≤ right)).eraseReps

/-- For each vertex the vertices that an edge joins it to, whatever the direction; ascending, and
without the vertex itself. -/
def undirected (snapshot : Snapshot) : List (List Nat) :=
  let links := snapshot.links
  (List.range snapshot.vertices).map fun vertex =>
    ascending ((links.filter fun link => link.1 == vertex).map Prod.snd)

end Snapshot

end StreamGraph
