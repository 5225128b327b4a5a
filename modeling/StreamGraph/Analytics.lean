import StreamGraph.Analytics.Betweenness
import StreamGraph.Analytics.Coloring
import StreamGraph.Analytics.Components
import StreamGraph.Analytics.Levels
import StreamGraph.Analytics.PageRank
import StreamGraph.Analytics.ShortestPaths

/-!
The analytics stages by name. All of them only read the graph, and every rank gets the same
values, one for each vertex.
-/

namespace StreamGraph

inductive Algorithm where
  | bfs
  | cc
  | gc
  | sssp
  | pagerank
  | bc
  deriving DecidableEq, Inhabited

namespace Algorithm

/-- All stages, in the order in which they run. -/
def all : List Algorithm := [bfs, cc, gc, sssp, pagerank, bc]

def name : Algorithm → String
  | bfs => "bfs"
  | cc => "cc"
  | gc => "gc"
  | sssp => "sssp"
  | pagerank => "pagerank"
  | bc => "bc"

def needsSources : Algorithm → Bool
  | bfs => true
  | sssp => true
  | _ => false

def ofName (text : String) : Except Failure Algorithm :=
  match all.find? fun algorithm => algorithm.name == text with
  | some algorithm => .ok algorithm
  | none => .error (.unknownAlgorithm text)

/-- The stages of a list of names; `all` stands for all of them. -/
def ofNames : List String → Except Failure (List Algorithm)
  | [] => .ok []
  | text :: texts => do
      let first ← if text = "all" then .ok all else (ofName text).map fun algorithm => [algorithm]
      let others ← ofNames texts
      return first ++ others

end Algorithm

inductive VertexValues where
  | whole (values : List Int)
  | real (values : List Float)

/-- Runs a stage. Traversals start from `sources`; the other stages ignore them. -/
def Algorithm.run (algorithm : Algorithm) {shard : Shard} (scan : Scan shard)
    (sources : List VertexId) : Collective VertexValues := do
  if algorithm.needsSources && sources.isEmpty then
    throw (.invalidArgument (.noSources algorithm.name))
  let words (labels : Labels) := VertexValues.whole (labels.toList.map Int64.toInt)
  match algorithm with
  | .bfs => return words (← Levels.runAlong scan sources)
  | .sssp => return words (← ShortestPaths.runAlong scan sources)
  | .cc => return words (← Components.runAlong scan)
  | .gc => return .whole ((Coloring.run (← Snapshot.gatherAlong scan)).map Int.ofNat)
  | .pagerank =>
      let mass : Array Float ← PageRank.runAlong scan .standard
      return .real mass.toList
  | .bc => return .real (← Betweenness.runAlong scan)

end StreamGraph
