import StreamGraph.Analytics.Scalar
import StreamGraph.Snapshot

/-!
Betweenness on shortest paths, counted in edges. A search from each source counts the shortest
paths to every vertex and remembers the vertices before it on them; then, from the farthest
vertex back, each hands its share of the paths on to those before it. Each rank takes the sources
that it owns, and the results of all ranks are added up.
-/

namespace StreamGraph.Betweenness

variable {Scalar : Type} [Add Scalar] [Mul Scalar] [Div Scalar]
  [OfNat Scalar 0] [OfNat Scalar 1]

def tag : Tag := 0x0580

structure Search (Scalar : Type) where
  distances : Array (Option Nat)
  paths : Array Scalar
  /-- The vertices before each vertex on its shortest paths. -/
  before : Array (List Nat)
  queue : List Nat

/-- Looks at the edge from `source`, at distance `distance`, to `target`. -/
def look (source distance : Nat) (search : Search Scalar) (target : Nat) : Search Scalar :=
  let reached :=
    if search.distances.getD target none = none then
      { search with
        distances := search.distances.setIfInBounds target (some (distance + 1))
        queue := search.queue ++ [target] }
    else search
  -- parallel edges count as different paths
  if reached.distances.getD target none = some (distance + 1) then
    { reached with
      paths := addAt reached.paths target (reached.paths.getD source 0)
      before := reached.before.modify target (· ++ [source]) }
  else reached

/-- Looks at the edges of the vertices that wait, at most `steps` of them; answers also these
vertices in the order in which they waited. -/
def explore (snapshot : Snapshot) : Nat → Search Scalar → List Nat × Search Scalar
  | 0, search => ([], search)
  | steps + 1, search =>
      match search.queue with
      | [] => ([], search)
      | source :: queue =>
          let distance := (search.distances.getD source none).getD 0
          let next := (snapshot.neighbors source).foldl (look source distance)
            { search with queue }
          let (order, last) := explore snapshot steps next
          (source :: order, last)

def start (vertices source : Nat) : Search Scalar where
  distances := (Array.replicate vertices none).setIfInBounds source (some 0)
  paths := (Array.replicate vertices 0).setIfInBounds source 1
  before := Array.replicate vertices []
  queue := [source]

/-- Hands the share of one vertex on to the vertices before it. -/
def handBack (search : Search Scalar) (shares : Array Scalar) (target : Nat) : Array Scalar :=
  (search.before.getD target []).foldl (fun shares source =>
    addAt shares source (search.paths.getD source 0 / search.paths.getD target 0 *
      (1 + shares.getD target 0))) shares

def accumulate (snapshot : Snapshot) (totals : Array Scalar) (source : Nat) : Array Scalar :=
  let (order, search) := explore snapshot snapshot.vertices (start snapshot.vertices source)
  let shares := order.reverse.foldl (handBack search) (Array.replicate snapshot.vertices 0)
  order.reverse.foldl (fun totals vertex =>
    if vertex = source then totals else addAt totals vertex (shares.getD vertex 0)) totals

def fromSources (snapshot : Snapshot) (sources : List Nat) : Array Scalar :=
  sources.foldl (accumulate snapshot) (Array.replicate snapshot.vertices 0)

/-- The sources that a rank takes: the vertices with outgoing edges that it owns. -/
def ownSources (shard : Shard) (snapshot : Snapshot) : List Nat :=
  (List.range' 1 (snapshot.vertices - 1)).filter fun vertex =>
    decide (0 < snapshot.outDegree vertex) && shard.owns (UInt64.ofNat vertex)

def runAlong [Record Scalar] {shard : Shard} (scan : Scan shard) : Collective (List Scalar) := do
  let snapshot ← Snapshot.gatherAlong scan
  let mine : Array Scalar := fromSources snapshot (ownSources shard snapshot)
  Collective.reduceEach tag (· + ·) mine.toList

/-- The betweenness of each vertex in the graph of all ranks. -/
def run [Record Scalar] (shard : Shard) : Collective (List Scalar) := runAlong (.ascending shard)

end StreamGraph.Betweenness
