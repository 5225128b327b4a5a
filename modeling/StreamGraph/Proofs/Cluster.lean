import StreamGraph.Cluster
import StreamGraph.Proofs.Division
import StreamGraph.Proofs.StreamOrder

/-!
The ranks' graphs beside one store. Ranks are in step with a store when they hold its parts and
agree with it on everything that is not divided: the settings, the threshold, the picker and the
number of batches. Eviction, insertion and the summary keep them in step; what the ranks count adds
up to the store's numbers, and their summaries show the whole store.
-/

namespace StreamGraph

variable {generator : Generator} {size : Nat}

namespace ClusterGraph

/-- What eviction does to one graph. -/
def dropOld (graph : ClusterGraph generator) (threshold : Int64) : Nat × ClusterGraph generator :=
  let retention := graph.retention.advance threshold
  let (removed, shard) := graph.shard.evictOlderThan retention.threshold
  (removed, { graph with shard, retention })

/-- What the updates that a graph has been handed do to it. -/
def takeIn (graph : ClusterGraph generator) (updates : List Update) :
    Except Failure MergeStats × ClusterGraph generator :=
  let ingestion := graph.shard.ingest graph.nextSort updates graph.nextMode
  match ingestion.outcome with
  | .error failure => (.error failure, { graph with shard := ingestion.shard })
  | .ok stats => (.ok stats, { graph with
      shard := ingestion.shard
      inserted := graph.inserted + 1 })

/-- The graph of a store that is not divided. -/
def unshared (generator : Generator) (bound : UInt64) (settings : GraphSettings) :
    ClusterGraph generator :=
  { empty generator .ascending ⟨0, 1⟩ bound settings with shard := .unshared bound }

/-- How the vertices of a store are shared out over a number of ranks. -/
def sharing (store : ClusterGraph generator) (size : Nat) : Partition :=
  store.settings.layout.build size store.shard.bound

/-- The ranks hold the parts of a store, up to the weights, and agree with it on everything else but
the orders that no rank chooses. -/
structure InStep (store : ClusterGraph generator) (graphs : Fin size → ClusterGraph generator) :
    Prop where
  member (rank : Fin size) : (graphs rank).member = ⟨rank, size⟩
  settings (rank : Fin size) : (graphs rank).settings = store.settings
  retention (rank : Fin size) : (graphs rank).retention = store.retention
  picker (rank : Fin size) : (graphs rank).picker = store.picker
  inserted (rank : Fin size) : (graphs rank).inserted = store.inserted
  everywhere (vertex : VertexId) : store.shard.partition.owner vertex = store.shard.rank
  parted : Shard.Parted (store.sharing size) store.shard
    fun rank => (graphs rank).shard

theorem inStep_empty (generator : Generator) (orders : Fin size → Orders) (bound : UInt64)
    (settings : GraphSettings) : InStep (unshared generator bound settings)
      fun rank => empty generator (orders rank) ⟨rank, size⟩ bound settings where
  member _ := rfl
  settings _ := rfl
  retention _ := rfl
  picker _ := rfl
  inserted _ := rfl
  everywhere vertex := Nat.mod_one vertex.toNat
  parted := Shard.parted_empty _ _

variable {store : ClusterGraph generator} {graphs : Fin size → ClusterGraph generator}

theorem parts_build (inhabited : 0 < size) (layout : Layout) (bound : UInt64) :
    (layout.build size bound).parts = size := by
  cases layout <;> exact Nat.max_eq_left inhabited

/-- The store has grown by a batch, `inserted` edges of it new, and each rank by its share, sorted
in an order of its own; everything else is as before. -/
structure Grown (before after : ClusterGraph generator)
    (parts nexts : Fin size → ClusterGraph generator) (edges : List Edge) (inserted : Nat) :
    Prop where
  taken : ∃ order, Shard.Takes before.shard after.shard before.nextMode
    (before.nextMode.arrange order (Routing.updatesOf edges)) inserted
  takenPart (rank : Fin size) : ∃ order insertedPart,
    Shard.Takes (parts rank).shard (nexts rank).shard before.nextMode (before.nextMode.arrange order
      ((before.sharing size).share rank (Routing.updatesOf edges))) insertedPart
  settings : after.settings = before.settings
  picker : after.picker = before.picker

namespace Grown

variable {after : ClusterGraph generator} {nexts : Fin size → ClusterGraph generator}
  {edges : List Edge} {inserted : Nat}

theorem counted (grown : Grown store after graphs nexts edges inserted) :
    after.shard.edgeCount = store.shard.edgeCount + inserted := by
  obtain ⟨_, taken⟩ := grown.taken
  exact taken.counted

theorem few (grown : Grown store after graphs nexts edges inserted) :
    inserted ≤ edges.length := by
  obtain ⟨order, taken⟩ := grown.taken
  have few := taken.few
  rwa [(store.nextMode.arrange_perm ..).length_eq, Routing.updatesOf, List.length_map] at few

theorem bound (grown : Grown store after graphs nexts edges inserted) :
    after.shard.bound = store.shard.bound := by
  obtain ⟨_, taken⟩ := grown.taken
  exact taken.place.bound

end Grown

namespace InStep

theorem owners (_ : InStep store graphs) (inhabited : 0 < size) :
    (store.sharing size).parts = size := parts_build inhabited _ _

theorem sharing_eq (inStep : InStep store graphs) (rank : Fin size) :
    (graphs rank).shard.partition = store.sharing size := inStep.parted.sharing rank

theorem nextMode (inStep : InStep store graphs) (rank : Fin size) :
    (graphs rank).nextMode = store.nextMode := by
  unfold ClusterGraph.nextMode
  rw [inStep.inserted, inStep.settings]

theorem dropOld (inStep : InStep store graphs) (threshold : Int64) :
    InStep (store.dropOld threshold).2 fun rank => ((graphs rank).dropOld threshold).2 where
  member := inStep.member
  settings := inStep.settings
  retention rank := by
    simp only [ClusterGraph.dropOld, inStep.retention]
  picker := inStep.picker
  inserted := inStep.inserted
  everywhere := inStep.everywhere
  parted := by
    simp only [ClusterGraph.dropOld, inStep.retention]
    exact inStep.parted.retain fun _ timestamp => decide (_ ≤ timestamp)

theorem sum_dropped (inStep : InStep store graphs) (inhabited : 0 < size) (threshold : Int64) :
    ∑ rank, ((graphs rank).dropOld threshold).1 = (store.dropOld threshold).1 := by
  simp only [ClusterGraph.dropOld, inStep.retention]
  exact inStep.parted.sum_removed (inStep.owners inhabited) inhabited
    fun _ timestamp => decide (_ ≤ timestamp)

/-- What all graphs have after a batch in range. -/
theorem takeIn (inStep : InStep store graphs) (inhabited : 0 < size) {edges : List Edge}
    (within : ∀ edge ∈ edges, edge.isWithin store.shard.bound = true) :
    ∃ (inserted : Nat) (stats : Fin size → MergeStats) (nexts : Fin size → ClusterGraph generator),
      (∀ rank, (graphs rank).takeIn ((store.sharing size).share rank (Routing.updatesOf edges)) =
        (.ok (stats rank), nexts rank)) ∧
      ∑ rank, (stats rank).inserted = inserted ∧
      Grown store (store.takeIn (Routing.updatesOf edges)).2 graphs nexts edges inserted ∧
      InStep (store.takeIn (Routing.updatesOf edges)).2 nexts := by
  have fresh : ∀ update ∈ Routing.updatesOf edges, update.done = false ∧ update.edge ∈ edges := by
    intro update member
    rcases List.mem_map.1 member with ⟨edge, inEdges, rfl⟩
    exact ⟨rfl, inEdges⟩
  have welcome : store.shard.Welcome (Routing.updatesOf edges) :=
    Shard.welcome_of_within rfl within fresh fun update _ => inStep.everywhere _
  have welcomePart : ∀ rank, (graphs rank).shard.Welcome
      ((store.sharing size).share rank (Routing.updatesOf edges)) := by
    intro rank
    apply Shard.welcome_of_within (inStep.parted.bounded rank) within
    · intro update member
      exact fresh update (List.mem_of_mem_filter member)
    · intro update member
      have own := (List.mem_filter.1 member).2
      rw [inStep.parted.numbered, inStep.sharing_eq]
      exact beq_iff_eq.1 own
  obtain ⟨whole, outcome, taken⟩ := Shard.takes_ingest store.nextSort store.nextMode welcome
  choose stats outcomes takenParts using fun rank =>
    Shard.takes_ingest (graphs rank).nextSort store.nextMode (welcomePart rank)
  have modes := fun rank => inStep.nextMode rank
  have after : (store.takeIn (Routing.updatesOf edges)).2 = { store with
      shard := (store.shard.ingest store.nextSort (Routing.updatesOf edges) store.nextMode).shard
      inserted := store.inserted + 1 } := by
    simp only [ClusterGraph.takeIn, outcome]
  rw [after]
  refine ⟨whole.inserted, stats, fun rank => { graphs rank with
      shard := ((graphs rank).shard.ingest (graphs rank).nextSort
        ((store.sharing size).share rank (Routing.updatesOf edges)) store.nextMode).shard
      inserted := (graphs rank).inserted + 1 }, fun rank => ?_,
    inStep.parted.sum_inserted (inStep.owners inhabited) inhabited taken takenParts, ?_, ?_⟩
  · simp only [ClusterGraph.takeIn, modes, outcomes]
  · exact ⟨⟨_, taken⟩, fun rank => ⟨_, _, takenParts rank⟩, rfl, rfl⟩
  · exact {
      member := inStep.member
      settings := inStep.settings
      retention := inStep.retention
      picker := inStep.picker
      inserted := fun rank => congrArg (· + 1) (inStep.inserted rank)
      everywhere := by
        rw [taken.place.partition, taken.place.rank]
        exact inStep.everywhere
      parted := by
        rw [sharing, taken.place.bound]
        exact inStep.parted.takes taken takenParts }

end InStep

theorem insert_eq (graph : ClusterGraph generator) (edges : List Edge) :
    graph.insert edges = (Routing.exchange graph.member graph.shard.partition graph.shard.bound
      (Routing.updatesOf edges)).run.bind fun
        | .error failure => .done (.error failure, graph)
        | .ok mine => match (graph.takeIn mine).1 with
          | .error _ => .done (graph.takeIn mine)
          | .ok _ => .barrier (.done (graph.takeIn mine)) := by
  unfold ClusterGraph.insert
  change Plan.bind _ _ = Plan.bind _ _
  congr 1
  funext arrived
  cases arrived with
  | error failure => rfl
  | ok mine =>
      simp only [takeIn]
      cases (graph.shard.ingest graph.nextSort mine graph.nextMode).outcome <;> rfl

open Plan

theorem within_flatten {bound : UInt64} {slices : Fin size → List Edge}
    (within : ∀ rank, ∀ edge ∈ slices rank, edge.isWithin bound = true) :
    ∀ edge ∈ (List.ofFn slices).flatten, edge.isWithin bound = true := by
  intro edge member
  rcases List.mem_flatten.1 member with ⟨slice, inSlices, inSlice⟩
  rcases List.mem_ofFn.1 inSlices with ⟨rank, rfl⟩
  exact within rank edge inSlice

/-- The graph is a rank's part of a group that shares out the vertices below a bound. -/
structure Placed (partition : Partition) (bound : UInt64) (rank : Fin size)
    (graph : ClusterGraph generator) : Prop where
  member : graph.member = ⟨rank, size⟩
  numbered : graph.shard.rank = rank
  sharing : graph.shard.partition = partition
  bounded : graph.shard.bound = bound

/-- All graphs are parts of one group; what they hold and remember may be anything. -/
def Aligned (partition : Partition) (bound : UInt64)
    (graphs : Fin size → ClusterGraph generator) : Prop :=
  ∀ rank, Placed partition bound rank (graphs rank)

namespace Aligned

variable {partition : Partition} {bound : UInt64}

/-- Once the updates have arrived and each rank has taken its own in, all ranks wait for each
other. -/
theorem performs_insert (aligned : Aligned partition bound graphs) {slices : Fin size → List Edge}
    {arrived : Fin size → List Update} {operations : List Operation}
    (exchanged : Performs (fun rank : Fin size => (Routing.exchange ⟨rank, size⟩ partition bound
      (Routing.updatesOf (slices rank))).run) operations fun rank => .ok (arrived rank))
    {stats : Fin size → MergeStats} {nexts : Fin size → ClusterGraph generator}
    (taken : ∀ rank, (graphs rank).takeIn (arrived rank) = (.ok (stats rank), nexts rank)) :
    Performs (fun rank => (graphs rank).insert (slices rank)) (operations ++ [.barrier])
      fun rank => (.ok (stats rank), nexts rank) := by
  simp only [insert_eq, (aligned _).member, (aligned _).sharing, (aligned _).bounded]
  apply performs_bind exchanged
  simp only [taken]
  exact .barrier _ (.done _)

/-- When an edge is out of range on some rank, the batch comes in on none. -/
theorem lockstep_insert_rejected (aligned : Aligned partition bound graphs)
    (few : size + 1 < UInt64.size) (parts : partition.parts = size)
    (slices : Fin size → List Edge) {culprit : Fin size} {edge : Edge}
    (member : edge ∈ slices culprit) (outside : edge.isWithin bound = false) :
    ∃ failures : Fin size → Failure,
      (∀ rank, (∃ vertex, failures rank = .vertexOutOfRange vertex bound) ∨
        ∃ peer, failures rank = .peerRejected peer) ∧
      Lockstep (fun rank => (graphs rank).insert (slices rank)) fun rank =>
        (.error (failures rank), graphs rank) := by
  obtain ⟨failures, causes, refused⟩ := Routing.together_exchange_rejected few parts
    bound (fun rank => Routing.updatesOf (slices rank)) (List.mem_map_of_mem member) outside
  refine ⟨failures, causes, ?_⟩
  simp only [insert_eq, (aligned _).member, (aligned _).sharing, (aligned _).bounded]
  exact lockstep_bind refused (.done _)

end Aligned

theorem lockstep_evict (graphs : Fin size → ClusterGraph generator) (threshold : Int64) :
    Lockstep (fun rank => (graphs rank).evict threshold)
      fun rank => (graphs rank).dropOld threshold :=
  .barrier (.done _)

namespace InStep

theorem aligned (inStep : InStep store graphs) :
    Aligned (store.sharing size) store.shard.bound graphs := fun rank =>
  ⟨inStep.member rank, inStep.parted.numbered rank, inStep.sharing_eq rank,
    inStep.parted.bounded rank⟩

/-- A batch in range comes in on all ranks. -/
theorem lockstep_insert (inStep : InStep store graphs) (inhabited : 0 < size)
    {slices : Fin size → List Edge}
    (within : ∀ rank, ∀ edge ∈ slices rank, edge.isWithin store.shard.bound = true)
    (fits : ∀ rank, Fits (slices rank)) :
    ∃ (inserted : Nat) (stats : Fin size → MergeStats) (nexts : Fin size → ClusterGraph generator),
      Lockstep (fun rank => (graphs rank).insert (slices rank))
        (fun rank => (.ok (stats rank), nexts rank)) ∧
      ∑ rank, (stats rank).inserted = inserted ∧
      Grown store (store.takeIn (Routing.updatesOf (List.ofFn slices).flatten)).2 graphs nexts
        (List.ofFn slices).flatten inserted ∧
      InStep (store.takeIn (Routing.updatesOf (List.ofFn slices).flatten)).2 nexts := by
  obtain ⟨inserted, stats, nexts, taken, sums, grown, next⟩ :=
    inStep.takeIn inhabited (within_flatten within)
  refine ⟨inserted, stats, nexts, ?_, sums, grown, next⟩
  have exchanged := Routing.together_exchange_slices inhabited (inStep.owners inhabited)
    store.shard.bound within fits
  obtain ⟨operations, performs⟩ := exchanged
  exact ⟨_, inStep.aligned.performs_insert performs taken⟩

/-- When an edge is out of range on some rank, the batch comes in on none. -/
theorem lockstep_insert_rejected (inStep : InStep store graphs) (inhabited : 0 < size)
    (few : size + 1 < UInt64.size) (slices : Fin size → List Edge) {culprit : Fin size}
    {edge : Edge} (member : edge ∈ slices culprit)
    (outside : edge.isWithin store.shard.bound = false) :
    ∃ failures : Fin size → Failure,
      (∀ rank, (∃ vertex, failures rank = .vertexOutOfRange vertex store.shard.bound) ∨
        ∃ peer, failures rank = .peerRejected peer) ∧
      Lockstep (fun rank => (graphs rank).insert (slices rank)) fun rank =>
        (.error (failures rank), graphs rank) :=
  inStep.aligned.lockstep_insert_rejected few (inStep.owners inhabited) slices member
    outside

theorem foldl_counts (counts : Fin size → Nat) :
    (List.ofFn fun rank => UInt64.ofNat (counts rank)).foldl (· + ·) 0 =
      UInt64.ofNat (∑ rank, counts rank) := by
  have added := Collective.foldl_ofNat (List.ofFn counts) 0
  rw [List.map_ofFn, List.sum_ofFn, Nat.zero_add] at added
  exact added

/-- Every rank's summary shows the whole store. -/
theorem together_summary (inStep : InStep store graphs) (inhabited : 0 < size) :
    Collective.Together (fun rank => (graphs rank).summary) fun rank =>
      .ok ⟨rank, UInt64.ofNat store.shard.activeVertices, UInt64.ofNat store.shard.edgeCount⟩ := by
  have vertices := Collective.together_reduced inhabited (some 0) Query.tag (· + ·)
    fun rank => UInt64.ofNat (graphs rank).shard.activeVertices
  have edges := Collective.together_reduced inhabited (some 0) (Query.tag.offset 2) (· + ·)
    fun rank => UInt64.ofNat (graphs rank).shard.edgeCount
  have owners := inStep.owners inhabited
  simp only [Collective.combine, foldl_counts,
    inStep.parted.sum_activeVertices owners inhabited] at vertices
  simp only [Collective.combine, foldl_counts,
    inStep.parted.sum_edgeCount owners inhabited] at edges
  apply Collective.together_bind vertices
  apply Collective.together_bind edges
  simp only [inStep.member]
  exact Collective.together_pure _

end InStep

end ClusterGraph

end StreamGraph
