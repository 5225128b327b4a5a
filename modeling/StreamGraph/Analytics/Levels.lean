import StreamGraph.Analytics.Traversal

/-!
Breadth-first search, level by level. Each rank looks along the edges that leave the vertices of
the newest level which it owns; what no level has yet makes the next level on every rank.
-/

namespace StreamGraph.Levels

def tag : Tag := 0x0500

def unreached : Int64 := -1

structure Search where
  levels : Labels
  frontier : List VertexId
  depth : Int64

/-- Gives a vertex its level, unless it has one. -/
def reach (search : Search) (vertex : VertexId) (level : Int64) : Search :=
  if vertex.toNat < search.levels.size ∧ search.levels.of vertex = unreached then
    { search with
      levels := search.levels.put vertex level
      frontier := search.frontier ++ [vertex] }
  else search

def start (bound : UInt64) (sources : List VertexId) : Search :=
  sources.foldl (fun search source => reach search source 0) ⟨.fill bound unreached, [], 0⟩

variable {shard : Shard}

/-- The vertices that a rank finds along its own edges, ascending and each once. -/
def discover (scan : Scan shard) (search : Search) : List VertexId :=
  let found := (search.frontier.filter shard.owns).flatMap fun source =>
    (scan.outEdges source).filterMap fun (target, _) =>
      if search.levels.of target = unreached then some target else none
  (found.mergeSort fun left right => decide (left ≤ right)).eraseReps

/-- One level further; the answer when the newest level is empty. -/
def advance (scan : Scan shard) (search : Search) : Collective (Search ⊕ Labels) := do
  if search.frontier.isEmpty then
    return .inr search.levels
  let depth := search.depth + 1
  let proposals ← Traversal.propose tag ((discover scan search).map fun vertex => ⟨vertex, depth⟩)
  let next : Search := { search with frontier := [], depth }
  return .inl (proposals.foldl (fun search proposal =>
    reach search proposal.vertex proposal.value) next)

def runAlong (scan : Scan shard) (sources : List VertexId) : Collective Labels := do
  ExceptT.mk (pure (Traversal.checkSources shard sources))
  Collective.repeatUntil (advance scan) (start shard.bound sources)

/-- The least number of edges from a source to each vertex. -/
def run (shard : Shard) (sources : List VertexId) : Collective Labels :=
  runAlong (.ascending shard) sources

end StreamGraph.Levels
