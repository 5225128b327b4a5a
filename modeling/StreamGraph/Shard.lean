import StreamGraph.Edge
import StreamGraph.Ownership
import StreamGraph.VertexMap

/-!
The part of the graph that one rank holds: the edges whose source it owns, in rows by source.
A row that loses its last edge disappears, so the rows are the vertices with outgoing edges.
The number of edges is kept beside the rows and follows every change.
-/

namespace StreamGraph

abbrev Row := VertexMap Attrs

structure Shard where
  rank : Nat
  partition : Partition
  /-- Every vertex is below this number. -/
  bound : UInt64
  rows : VertexMap Row
  edgeCount : Nat
  deriving Inhabited

namespace Shard

def empty (rank : Nat) (partition : Partition) (bound : UInt64) : Shard where
  rank := rank
  partition := partition
  bound := bound
  rows := .empty
  edgeCount := 0

/-- Whether the rank owns a vertex, and with it every edge that starts there. -/
def owns (shard : Shard) (vertex : VertexId) : Bool :=
  shard.partition.owner vertex == shard.rank

/-- Refuses an edge that may not be held here: first a source, then a destination that is no
endpoint, then a source of another rank. -/
def check (shard : Shard) (src dst : VertexId) : Except Failure Unit := do
  let owner ← shard.partition.ownerWithin src shard.bound
  if !dst.isEndpoint shard.bound then
    throw (.vertexOutOfRange dst shard.bound)
  if owner ≠ shard.rank then
    throw (.foreignSource src owner shard.rank)

def row (shard : Shard) (src : VertexId) : Row := (shard.rows.get? src).getD .empty

def get? (shard : Shard) (src dst : VertexId) : Option Attrs :=
  (shard.rows.get? src).bind fun row => row.get? dst

def contains (shard : Shard) (src dst : VertexId) : Bool := (shard.get? src dst).isSome

/-- Stores an edge over whatever its pair of endpoints had; answers what was replaced. -/
def insert (shard : Shard) (edge : Edge) : Except Failure (Option Attrs × Shard) := do
  shard.check edge.src edge.dst
  let replaced := shard.get? edge.src edge.dst
  let row := (shard.row edge.src).insert edge.dst edge.attrs
  return (replaced, { shard with
    rows := shard.rows.insert edge.src row
    edgeCount := shard.edgeCount + if replaced.isNone then 1 else 0 })

/-- Changes what a stored edge carries; without such an edge nothing happens. -/
def modify (shard : Shard) (src dst : VertexId) (change : Attrs → Attrs) : Shard :=
  match shard.get? src dst with
  | none => shard
  | some attrs =>
      { shard with rows := shard.rows.insert src ((shard.row src).insert dst (change attrs)) }

def remove (shard : Shard) (src dst : VertexId) : Option Attrs × Shard :=
  match shard.get? src dst with
  | none => (none, shard)
  | some attrs =>
      let row := (shard.row src).erase dst
      let rows := if row.isEmpty then shard.rows.erase src else shard.rows.insert src row
      (some attrs, { shard with rows := rows, edgeCount := shard.edgeCount - 1 })

/-- All edges, by source and then by destination. -/
def edges (shard : Shard) : List Edge :=
  shard.rows.toList.flatMap fun (src, row) =>
    row.toList.map fun (dst, attrs) => ⟨src, dst, attrs.weight, attrs.timestamp⟩

/-- Keeps the edges that pass a test; answers how many went. -/
def retain (shard : Shard) (keep : EdgeKey → Attrs → Bool) : Nat × Shard :=
  let removed := shard.edges.countP fun edge => !keep edge.key edge.attrs
  let rows := shard.rows.filterMap fun src row =>
    let kept := row.filter fun dst attrs => keep (src, dst) attrs
    if kept.isEmpty then none else some kept
  (removed, { shard with rows := rows, edgeCount := shard.edgeCount - removed })

def outEdges (shard : Shard) (src : VertexId) : List (VertexId × Attrs) :=
  (shard.row src).toList

def isEmpty (shard : Shard) : Bool := shard.edgeCount == 0

def outDegree (shard : Shard) (vertex : VertexId) : Nat := (shard.row vertex).size

def activeVertices (shard : Shard) : Nat := shard.rows.size

def degrees (shard : Shard) : List (VertexId × Nat) :=
  shard.rows.toList.map fun (vertex, row) => (vertex, row.size)

def clear (shard : Shard) : Shard := { shard with rows := .empty, edgeCount := 0 }

end Shard

end StreamGraph
