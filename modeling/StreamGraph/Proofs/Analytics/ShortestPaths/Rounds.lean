import StreamGraph.Proofs.Analytics.ShortestPaths.Buckets

/-!
How long the buckets take. A vertex that is still active after some rounds within a bucket comes
behind as many others, so a bucket is settled within as many rounds as there are vertices. No edge
leads below the bucket that is worked on, so the numbers of the buckets ascend and run out.
-/

namespace StreamGraph.ShortestPaths

open Collective

variable {size : Nat} {bound : UInt64} {shards : Fin size → Shard}
  {scans : (rank : Fin size) → Scan (shards rank)} {width : Int64}

/-- A search whose tables have a slot for each vertex, and whose buckets are in order. -/
structure InOrder (bound : UInt64) (search : Search) : Prop where
  distances : search.distances.size = bound.toNat
  settled : search.settled.size = bound.toNat
  ascending : search.buckets.Ascending

/-- A bucket that has been worked on for some rounds: its active vertices belong to it, each comes
behind one vertex more than there were rounds, and all other buckets have higher numbers. -/
structure Working (bound : UInt64) (width : Int64) (rounds : Nat) (bucket : Bucket) : Prop where
  order : InOrder bound bucket.search
  above : bucket.search.buckets.Above bucket.number
  nodup : bucket.active.Nodup
  numbered (vertex : VertexId) (isActive : vertex ∈ bucket.active) :
    bucket.search.distances.of vertex / width = bucket.number
  behind (vertex : VertexId) (isActive : vertex ∈ bucket.active) :
    bucket.search.distances.Behind (rounds + 1) vertex

/-- The bucket while the edges of its active vertices are looked at. -/
def lookAt (bucket : Bucket) : Bucket :=
  { bucket with active := [], members := bucket.members ++ bucket.active }

/-- The bucket after a round. -/
def workOn (scans : (rank : Fin size) → Scan (shards rank)) (width : Int64) (bucket : Bucket) :
    Bucket :=
  let next := (proposals scans bucket).foldl (accept width) (lookAt bucket)
  { next with active := ascending next.active }

theorem accepted_workOn (scans : (rank : Fin size) → Scan (shards rank)) (width : Int64)
    (bucket : Bucket) :
    Accepted width (lookAt bucket) (workOn scans width bucket) (proposals scans bucket) := by
  have accepted := accepted_foldl width (lookAt bucket) (proposals scans bucket)
  exact { accepted with
    active := fun vertex isActive =>
      accepted.active vertex (Traversal.mem_ascending.1 isActive)
    stays := fun vertex wasActive =>
      Traversal.mem_ascending.2 (accepted.stays vertex wasActive)
    filed := fun vertex changed => (accepted.filed vertex changed).imp_left
      fun inBucket => ⟨inBucket.1, Traversal.mem_ascending.2 inBucket.2⟩ }

theorem number_workOn (bucket : Bucket) : (workOn scans width bucket).number = bucket.number :=
  (accepted_workOn scans width bucket).number

theorem distances_workOn (bucket : Bucket) :
    (workOn scans width bucket).search.distances =
      (proposals scans bucket).foldl Labels.lowered bucket.search.distances :=
  (accepted_workOn scans width bucket).distances

theorem sunk_workOn (scans : (rank : Fin size) → Scan (shards rank)) (width : Int64)
    (bucket : Bucket) : Labels.Sunk bucket.search.distances
      (workOn scans width bucket).search.distances (proposals scans bucket) := by
  rw [distances_workOn]
  exact Labels.sunk_foldl ..

/-- A vertex that is active after a round has been proposed a shorter distance in the bucket. -/
theorem woken_of_active {bucket : Bucket} {vertex : VertexId}
    (isActive : vertex ∈ (workOn scans width bucket).active) :
    ∃ proposal ∈ proposals scans bucket, proposal.vertex = vertex ∧
      vertex.toNat < bucket.search.distances.size ∧
      proposal.value.toInt < (bucket.search.distances.of vertex).toInt ∧
      proposal.value / width = bucket.number := by
  rcases (accepted_workOn scans width bucket).active vertex isActive with old | new
  · cases old
  · exact new

/-- Its distance after the round is one of the proposed ones, and that vertex has sunk. -/
theorem given_of_active {bucket : Bucket} {vertex : VertexId}
    (isActive : vertex ∈ (workOn scans width bucket).active) :
    ∃ proposal ∈ proposals scans bucket,
      (workOn scans width bucket).search.distances.of vertex = proposal.value ∧
        vertex.toNat < bucket.search.distances.size ∧
        ((workOn scans width bucket).search.distances.of vertex).toInt <
          (bucket.search.distances.of vertex).toInt := by
  have sunk := sunk_workOn scans width bucket
  obtain ⟨proposal, member, rfl, inside, shorter, _⟩ := woken_of_active isActive
  have heard := sunk.heard proposal member inside
  rcases sunk.given proposal.vertex with same | ⟨other, inProposals, _, _, value, less⟩
  · rw [same] at heard
    omega
  · exact ⟨other, inProposals, value, inside, less⟩

/-- No proposal leads below the bucket. -/
theorem Working.number_le (ready : StageReady bound shards) (positive : 0 < width.toInt)
    {rounds : Nat} {bucket : Bucket} (working : Working bound width rounds bucket)
    {proposal : Proposal} (member : proposal ∈ proposals scans bucket) :
    bucket.number.toInt ≤ (proposal.value / width).toInt := by
  obtain ⟨giver, isActive, notShorter⟩ := giver_of_mem_proposals ready member
  rw [← working.numbered giver isActive]
  exact number_mono positive notShorter

/-- A vertex that sinks does not sink below the bucket. -/
theorem Working.number_le_of_sunk (ready : StageReady bound shards) (positive : 0 < width.toInt)
    {rounds : Nat} {bucket : Bucket} (working : Working bound width rounds bucket)
    {vertex : VertexId} (changed : (workOn scans width bucket).search.distances.of vertex ≠
      bucket.search.distances.of vertex) :
    bucket.number.toInt ≤
        ((workOn scans width bucket).search.distances.of vertex / width).toInt ∧
      ((workOn scans width bucket).search.distances.of vertex / width).toInt ≤
        (bucket.search.distances.of vertex / width).toInt := by
  have sunk := sunk_workOn scans width bucket
  refine ⟨?_, number_mono positive (sunk.sinks vertex)⟩
  rcases sunk.given vertex with same | ⟨proposal, member, _, _, value, _⟩
  · exact absurd same changed
  · rw [value]
    exact working.number_le ready positive member

theorem Working.workOn (ready : StageReady bound shards) (positive : 0 < width.toInt)
    {rounds : Nat} {bucket : Bucket} (working : Working bound width rounds bucket) :
    Working bound width (rounds + 1) (workOn scans width bucket) := by
  have accepted := accepted_workOn scans width bucket
  have sunk := sunk_workOn scans width bucket
  constructor
  · constructor
    · exact sunk.size.trans working.order.distances
    · exact (congrArg Array.size accepted.settled).trans working.order.settled
    · exact accepted.ascending working.order.ascending
  · rw [number_workOn]
    apply accepted.above bucket.number working.above
    intro proposal member differ
    have apart : bucket.number.toInt ≠ (proposal.value / width).toInt :=
      fun equal => differ (Int64.toInt_inj.1 equal).symm
    have least := working.number_le ready positive member
    omega
  · exact Traversal.nodup_ascending _
  · intro vertex isActive
    obtain ⟨other, inProposals, value, _, _⟩ := given_of_active isActive
    obtain ⟨proposal, member, rfl, inside, _, filed⟩ := woken_of_active isActive
    have low := working.number_le ready positive inProposals
    have high := number_mono positive (sunk.heard proposal member inside)
    rw [value, filed] at high
    rw [number_workOn, value]
    exact Int64.toInt_inj.1 (Int.le_antisymm high low)
  · intro vertex isActive
    obtain ⟨proposal, member, value, inside, less⟩ := given_of_active isActive
    obtain ⟨giver, wasActive, notShorter⟩ := giver_of_mem_proposals ready member
    apply (working.behind giver wasActive).step sunk inside less
    rw [value]
    exact notShorter

theorem Working.rounds_lt {rounds : Nat} {bucket : Bucket}
    (working : Working bound width rounds bucket) (busy : bucket.active.isEmpty = false) :
    rounds < bound.toNat := by
  rcases List.exists_mem_of_ne_nil bucket.active (by simpa using busy) with ⟨vertex, isActive⟩
  have count := (working.behind vertex isActive).count_le
  rw [working.order.distances] at count
  exact count

/-- What becomes of a bucket in which no vertex is active. -/
def settle (bucket : Bucket) : Search :=
  { bucket.search with
    settled := bucket.members.foldl (fun settled vertex =>
      settled.setIfInBounds vertex.toNat true) bucket.search.settled }

theorem InOrder.settle {bucket : Bucket} (order : InOrder bound bucket.search) :
    InOrder bound (settle bucket) where
  distances := order.distances
  settled := (size_foldl (fun _ _ => Array.size_setIfInBounds) ..).trans order.settled
  ascending := order.ascending

/-- A search that ends within `left` more buckets: all of them have numbers that high. -/
structure Descending (bound : UInt64) (left : Nat) (search : Search) : Prop where
  order : InOrder bound search
  few (entry : Int64 × List VertexId) (member : entry ∈ search.buckets) :
    2 ^ 63 ≤ entry.1.toInt + left

/-- A source is taken up: it has distance zero and waits in the lowest bucket. -/
def takeUp (search : Search) (source : VertexId) : Search :=
  if search.distances.of source = 0 then search
  else { search with
    distances := search.distances.put source 0
    buckets := search.buckets.file 0 source }

theorem InOrder.takeUp {search : Search} (order : InOrder bound search) (source : VertexId) :
    InOrder bound (takeUp search source) := by
  unfold ShortestPaths.takeUp
  split
  · exact order
  · exact ⟨(Labels.size_put ..).trans order.distances, order.settled,
      Buckets.ascending_file 0 source order.ascending⟩

theorem InOrder.foldl {search : Search} (order : InOrder bound search)
    (sources : List VertexId) : InOrder bound (sources.foldl ShortestPaths.takeUp search) := by
  induction sources generalizing search with
  | nil => exact order
  | cons source others ih => exact ih (order.takeUp source)

theorem inOrder_start (bound : UInt64) (sources : List VertexId) :
    InOrder bound (start bound sources) := by
  have empty : InOrder bound ⟨.fill bound unreached, [], Array.replicate bound.toNat false⟩ :=
    ⟨Labels.size_fill .., Array.size_replicate, List.Pairwise.nil⟩
  exact empty.foldl sources

theorem descending_start (bound : UInt64) (sources : List VertexId) :
    Descending bound (2 ^ 64) (start bound sources) where
  order := inOrder_start bound sources
  few entry _ := by
    have least := entry.1.le_toInt
    omega

theorem InOrder.above_first {search : Search} (order : InOrder bound search) {number : Int64}
    {filed : List VertexId} {buckets : Buckets}
    (first : search.buckets = (number, filed) :: buckets) :
    InOrder bound { search with buckets } ∧ buckets.Above number := by
  have ascending := order.ascending
  rw [first] at ascending
  have parts := List.pairwise_cons.1 ascending
  exact ⟨⟨order.distances, order.settled, parts.2⟩, parts.1⟩

/-- The lowest bucket is taken out, and its current vertices become active. -/
theorem working_begin {search : Search} (order : InOrder bound search) {number : Int64}
    {filed : List VertexId} {buckets : Buckets}
    (first : search.buckets = (number, filed) :: buckets) :
    Working bound width 0 ⟨{ search with buckets }, number,
      ascending (filed.filter (isCurrent width search number)), []⟩ := by
  have rest := order.above_first first
  have current : ∀ vertex ∈ ascending (filed.filter (isCurrent width search number)),
      vertex.toNat < search.distances.size ∧ search.distances.of vertex / width = number := by
    intro vertex member
    have passes := (List.mem_filter.1 (Traversal.mem_ascending.1 member)).2
    unfold isCurrent at passes
    rw [Bool.and_eq_true, Bool.not_eq_true', beq_iff_eq] at passes
    refine ⟨?_, passes.2⟩
    rw [order.distances, ← order.settled]
    by_contra outside
    have settled := passes.1
    rw [Array.getD_eq_getD_getElem?, Array.getElem?_eq_none (Nat.le_of_not_lt outside)] at settled
    cases settled
  constructor
  · exact rest.1
  · exact rest.2
  · exact Traversal.nodup_ascending _
  · exact fun vertex member => (current vertex member).2
  · exact fun vertex member => Labels.behind_one (current vertex member).1

end StreamGraph.ShortestPaths
