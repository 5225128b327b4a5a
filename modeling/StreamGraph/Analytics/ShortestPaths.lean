import StreamGraph.Analytics.Traversal

/-!
Shortest paths from a set of sources, bucket by bucket. Vertices wait in buckets by their
distance; the lowest bucket is worked on until its edges shorten nothing inside it, and is then
settled. A negative weight counts as zero, and a distance stops at the greatest word.
-/

namespace StreamGraph.ShortestPaths

def tag : Tag := 0x0520

def unreached : Int64 := Int64.maxValue

def edgeLength (attrs : Attrs) : Int64 := max attrs.weight 0

/-- Vertices filed under the numbers of their buckets, the lowest bucket first. -/
abbrev Buckets := List (Int64 × List VertexId)

/-- Files a vertex, behind those that are in its bucket already. -/
def Buckets.file (number : Int64) (vertex : VertexId) : Buckets → Buckets
  | [] => [(number, [vertex])]
  | (other, vertices) :: rest =>
      if number < other then (number, [vertex]) :: (other, vertices) :: rest
      else if number = other then (other, vertices ++ [vertex]) :: rest
      else (other, vertices) :: Buckets.file number vertex rest

structure Search where
  distances : Labels
  /-- The vertices that wait; one whose distance has shrunk may still wait in its old bucket. -/
  buckets : Buckets
  settled : Array Bool

structure Bucket where
  search : Search
  number : Int64
  /-- The vertices whose edges have not been looked at since their distance changed. -/
  active : List VertexId
  /-- The vertices whose edges have been looked at. -/
  members : List VertexId

def ascending (vertices : List VertexId) : List VertexId :=
  (vertices.mergeSort fun left right => decide (left ≤ right)).eraseReps

def start (bound : UInt64) (sources : List VertexId) : Search :=
  sources.foldl (fun search source =>
    if search.distances.of source = 0 then search
    else { search with
      distances := search.distances.put source 0
      buckets := search.buckets.file 0 source })
    ⟨.fill bound unreached, [], Array.replicate bound.toNat false⟩

variable {shard : Shard}

/-- The shorter distances that a rank finds along its own edges. -/
def relax (scan : Scan shard) (bucket : Bucket) : List Proposal :=
  (bucket.active.filter shard.owns).flatMap fun source =>
    (scan.outEdges source).filterMap fun (target, attrs) =>
      let candidate := Saturation.add (bucket.search.distances.of source) (edgeLength attrs)
      if candidate < bucket.search.distances.of target then some ⟨target, candidate⟩ else none

/-- Takes a proposed distance over if it is shorter, and files the vertex under it. -/
def accept (width : Int64) (bucket : Bucket) (proposal : Proposal) : Bucket :=
  let search := bucket.search
  if proposal.vertex.toNat < search.distances.size ∧
      proposal.value < search.distances.of proposal.vertex then
    let distances := search.distances.put proposal.vertex proposal.value
    let number := proposal.value / width
    -- a distance inside the bucket is looked at again before the bucket is settled
    if number = bucket.number then
      { bucket with
        search := { search with distances }
        active := bucket.active ++ [proposal.vertex] }
    else
      { bucket with
        search := { search with distances, buckets := search.buckets.file number proposal.vertex } }
  else bucket

/-- One round within a bucket; the answer when no distance in it has changed. -/
def advanceBucket (scan : Scan shard) (width : Int64) (bucket : Bucket) :
    Collective (Bucket ⊕ Search) := do
  if bucket.active.isEmpty then
    return .inr { bucket.search with
      settled := bucket.members.foldl (fun settled vertex =>
        settled.setIfInBounds vertex.toNat true) bucket.search.settled }
  let proposals ← Traversal.propose tag (relax scan bucket)
  let waiting := { bucket with active := [], members := bucket.members ++ bucket.active }
  let next := proposals.foldl (accept width) waiting
  return .inl { next with active := ascending next.active }

def isCurrent (width : Int64) (search : Search) (number : Int64) (vertex : VertexId) : Bool :=
  !search.settled.getD vertex.toNat true && search.distances.of vertex / width == number

/-- Works on the lowest bucket; the answer when no vertex waits. -/
def advance (scan : Scan shard) (width : Int64) (search : Search) :
    Collective (Search ⊕ Labels) := do
  match search.buckets with
  | [] => return .inr search.distances
  | (number, filed) :: buckets =>
      let rest := { search with buckets }
      let active := ascending (filed.filter (isCurrent width search number))
      if active.isEmpty then
        return .inl rest
      let settled ← Collective.repeatUntil (advanceBucket scan width) ⟨rest, number, active, []⟩
      return .inl settled

def runWithAlong (scan : Scan shard) (sources : List VertexId) (width : Int64) :
    Collective Labels := do
  if width ≤ 0 then
    throw (.invalidArgument (.bucketWidth width))
  ExceptT.mk (pure (Traversal.checkSources shard sources))
  Collective.repeatUntil (advance scan width) (start shard.bound sources)

/-- The length of a shortest path from a source to each vertex, with buckets of the given
width. -/
def runWith (shard : Shard) (sources : List VertexId) (width : Int64) : Collective Labels :=
  runWithAlong (.ascending shard) sources width

def defaultWidthAlong (scan : Scan shard) : Collective Int64 := do
  let mine := scan.edges.foldl (fun longest edge => max longest (edgeLength edge.attrs)) 0
  let longest ← Collective.maximum Int64.minValue (tag.offset 8) mine
  return max (longest / 4) 1

/-- A quarter of the longest edge of the graph, and at least one. -/
def defaultWidth (shard : Shard) : Collective Int64 := defaultWidthAlong (.ascending shard)

def runAlong (scan : Scan shard) (sources : List VertexId) : Collective Labels := do
  runWithAlong scan sources (← defaultWidthAlong scan)

def run (shard : Shard) (sources : List VertexId) : Collective Labels :=
  runAlong (.ascending shard) sources

end StreamGraph.ShortestPaths
