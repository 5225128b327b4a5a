import StreamGraph.Proofs.Division.Weights
import StreamGraph.Proofs.Trial.Batch

/-!
The number of ranks does not change the graph. The runs of one rank and of many are compared
through a store that is not divided and goes through the same batches without any message: after
every batch the ranks of either run hold its parts, show its size, and have together evicted and
inserted what it has. Every rank sorts its updates in an order of its own, so a weight is the same
only if what the stream brings to its pair is a word. The stages are left out here; they only read
the graph.
-/

namespace StreamGraph

namespace ClusterGraph

variable {generator : Generator} {size : Nat} {store : ClusterGraph generator}
  {graphs : Fin size → ClusterGraph generator}

/-- Ranks in step with a store after a stream; they have its weights where these are words whatever
the order. -/
structure Holds (streamed : List Edge) (store : ClusterGraph generator)
    (graphs : Fin size → ClusterGraph generator) : Prop extends InStep store graphs where
  weighed : Shard.Weighed streamed (store.sharing size) store.shard fun rank => (graphs rank).shard

theorem holds_empty (generator : Generator) (orders : Fin size → Orders) (bound : UInt64)
    (settings : GraphSettings) : Holds [] (unshared generator bound settings)
      fun rank => empty generator (orders rank) ⟨rank, size⟩ bound settings where
  toInStep := inStep_empty generator orders bound settings
  weighed := Shard.weighed_empty _ _

namespace Holds

variable {streamed : List Edge}

theorem dropBefore (holds : Holds streamed store graphs) (threshold : Option Int64) :
    Holds streamed (store.dropBefore threshold).2
      fun rank => ((graphs rank).dropBefore threshold).2 where
  toInStep := holds.toInStep.dropBefore threshold
  weighed := by
    cases threshold with
    | none => exact holds.weighed
    | some threshold =>
        simp only [ClusterGraph.dropBefore, dropOld, holds.retention]
        exact holds.weighed.retain fun _ attrs => decide (_ ≤ attrs.timestamp)

theorem grown (holds : Holds streamed store graphs) {next : ClusterGraph generator}
    {nexts : Fin size → ClusterGraph generator} {edges : List Edge} {inserted : Nat}
    (grown : Grown store next graphs nexts edges inserted) (inStep : InStep next nexts) :
    Holds (streamed ++ edges) next nexts where
  toInStep := inStep
  weighed := by
    obtain ⟨order, taken⟩ := grown.taken
    rw [sharing, grown.settings, grown.bound]
    exact holds.weighed.takes ⟨order, inserted, taken⟩ grown.takenPart

end Holds

end ClusterGraph

namespace Trial

variable {generator : Generator} {size : Nat} {store : ClusterGraph generator}
  {graphs : Fin size → ClusterGraph generator}

open Plan Routing

/-- What a rank's reports have in common with those of a store, and what they add up to. -/
structure SameHistory (whole : List BatchReport) (parts : Fin size → List BatchReport) : Prop where
  batches (rank : Fin size) : (parts rank).map BatchReport.batch = whole.map BatchReport.batch
  thresholds (rank : Fin size) :
    (parts rank).map BatchReport.threshold = whole.map BatchReport.threshold
  vertices (rank : Fin size) : (parts rank).map (fun report => report.summary.vertices) =
    whole.map fun report => report.summary.vertices
  edges (rank : Fin size) : (parts rank).map (fun report => report.summary.edges) =
    whole.map fun report => report.summary.edges
  evicted (index : Nat) : ∑ rank, ((parts rank).map BatchReport.evicted).getD index 0 =
    (whole.map BatchReport.evicted).getD index 0
  inserted (index : Nat) : ∑ rank, ((parts rank).map BatchReport.inserted).getD index 0 =
    (whole.map BatchReport.inserted).getD index 0

theorem sameHistory_nil : SameHistory [] fun _ : Fin size => [] where
  batches _ := rfl
  thresholds _ := rfl
  vertices _ := rfl
  edges _ := rfl
  evicted _ := Finset.sum_const_zero
  inserted _ := Finset.sum_const_zero

theorem SameHistory.cons {whole : List BatchReport} {parts : Fin size → List BatchReport}
    (same : SameHistory whole parts) (index : Nat) (threshold : Option Int64)
    {evicted inserted : Fin size → Nat} {evictedWhole insertedWhole : Nat}
    (sumEvicted : ∑ rank, evicted rank = evictedWhole)
    (sumInserted : ∑ rank, inserted rank = insertedWhole) (store : ClusterGraph generator) :
    SameHistory (report index threshold evictedWhole insertedWhole store 0 :: whole) fun rank =>
      report index threshold (evicted rank) (inserted rank) store rank :: parts rank where
  batches rank := congrArg (index :: ·) (same.batches rank)
  thresholds rank := congrArg (threshold :: ·) (same.thresholds rank)
  vertices rank := congrArg (UInt64.ofNat store.shard.activeVertices :: ·) (same.vertices rank)
  edges rank := congrArg (UInt64.ofNat store.shard.edgeCount :: ·) (same.edges rank)
  evicted index := by
    cases index with
    | zero => exact sumEvicted
    | succ index => exact same.evicted index
  inserted index := by
    cases index with
    | zero => exact sumInserted
    | succ index => exact same.inserted index

/-- Every rank has its share of each batch. -/
def slicesOf (size rank : Nat) (batches : List Batch) : List Batch :=
  batches.map fun batch => ⟨Dataset.shareOf size rank batch.edges, batch.newest⟩

/-- What a batch does to a store, without messages. -/
def storeAfterBatch (settings : RunSettings) (store : ClusterGraph generator) (batch : Batch) :
    ClusterGraph generator :=
  ((store.dropBefore (thresholdAt settings batch)).2.takeIn (updatesOf batch.edges)).2

def storeAfter (settings : RunSettings) (store : ClusterGraph generator) (batches : List Batch) :
    ClusterGraph generator :=
  batches.foldl (storeAfterBatch settings) store

/-- What would be reported of a store that goes through batches. -/
def storeReports (settings : RunSettings) :
    Nat → ClusterGraph generator → List Batch → List BatchReport
  | _, _, [] => []
  | index, store, batch :: batches =>
      let dropped := store.dropBefore (thresholdAt settings batch)
      let next := storeAfterBatch settings store batch
      report index (thresholdAt settings batch) dropped.1
          (next.shard.edgeCount - dropped.2.shard.edgeCount) next 0 ::
        storeReports settings (index + 1) next batches

theorem batches_storeReports (settings : RunSettings) (index : Nat) (store : ClusterGraph generator)
    (batches : List Batch) : (storeReports settings index store batches).map BatchReport.batch =
      List.range' index batches.length := by
  induction batches generalizing index store with
  | nil => rfl
  | cons batch batches ih => exact congrArg (index :: ·) (ih (index + 1) _)

/-- Without stages the ranks come through all batches, in step with the store. -/
theorem lockstep_playBatches (inhabited : 0 < size) {settings : RunSettings}
    (plain : settings.algorithms = []) (batches : List Batch) (index : Nat) {streamed : List Edge}
    (holds : ClusterGraph.Holds streamed store graphs) (sinks : Fin size → Sink)
    (room : ∀ rank, (sinks rank).room = none)
    (within : ∀ batch ∈ batches, ∀ edge ∈ batch.edges, edge.isWithin store.shard.bound = true)
    (fits : ∀ batch ∈ batches, Fits batch.edges) :
    ∃ (reports : Fin size → List BatchReport) (states : Fin size → State generator),
      Lockstep (fun rank => playBatches settings index ⟨graphs rank, sinks rank⟩
          (slicesOf size rank batches)) (fun rank => (.ok (reports rank), states rank)) ∧
      SameHistory (storeReports settings index store batches) reports ∧
      ClusterGraph.Holds (streamed ++ batches.flatMap Batch.edges)
        (storeAfter settings store batches) fun rank => (states rank).graph := by
  induction batches generalizing index store graphs sinks streamed with
  | nil =>
      rw [List.flatMap_nil, List.append_nil]
      exact ⟨fun _ => [], _, .done _, sameHistory_nil, holds⟩
  | cons batch batches ih =>
      have here : batch ∈ batch :: batches := List.mem_cons_self ..
      have kept := holds.dropBefore (thresholdAt settings batch)
      have keptBound : (store.dropBefore (thresholdAt settings batch)).2.shard.bound =
          store.shard.bound := store.bound_dropBefore _
      have inRange := within batch here
      rw [← keptBound] at inRange
      have part := fun rank : Fin size => Dataset.sublist_shareOf inhabited rank batch.edges
      have inserts := kept.lockstep_insert inhabited
        (fun rank edge member => inRange edge ((part rank).subset member))
        (fun rank => (fits batch here).sublist (part rank))
      rw [Dataset.flatten_ofFn_shareOf inhabited] at inserts
      rcases inserts with ⟨inserted, stats, nexts, inserts, sums, grown, next⟩
      obtain ⟨laterSinks, laterRoom, played⟩ := lockstep_playBatch inhabited settings index
        (fun rank => ⟨Dataset.shareOf size rank batch.edges, batch.newest⟩) room (fun _ => rfl)
        (ClusterGraph.lockstep_evictBefore graphs _) inserts (by rw [plain]; exact .done _) next
      have nextBound : (storeAfterBatch settings store batch).shard.bound = store.shard.bound :=
        grown.bound.trans keptBound
      obtain ⟨reports, states, later, same, final⟩ := ih (index + 1) (kept.grown grown next)
        laterSinks laterRoom
        (by
          intro other member
          rw [grown.bound, keptBound]
          exact within other (List.mem_cons_of_mem _ member))
        (fun other member => fits other (List.mem_cons_of_mem _ member))
      have added : (storeAfterBatch settings store batch).shard.edgeCount -
          (store.dropBefore (thresholdAt settings batch)).2.shard.edgeCount = inserted := by
        have counted := grown.counted
        rw [storeAfterBatch]
        omega
      rw [List.append_assoc, ← List.flatMap_cons] at final
      refine ⟨fun rank => _ :: reports rank, states,
        lockstep_bind played (lockstep_bind later (.done _)), ?_, final⟩
      simp only [storeReports, added]
      exact same.cons index (thresholdAt settings batch)
        (holds.sum_droppedBefore inhabited _) sums _

/-- Shares the coordinator's data set out and plays its first batches, from an empty graph. -/
def playShared (generator : Generator) (orders : Orders) (settings : RunSettings) (member : Member)
    (passed : Option Dataset) (played : Nat) :
    Plan (Except Failure (List BatchReport) × Option Shard) := do
  match ← (Dataset.distribute member passed settings.batches).run with
  | .error failure => return (.error failure, none)
  | .ok dataset =>
      let graph := ClusterGraph.empty generator orders member dataset.bound settings.graph
      let (reports, state) ← playBatches settings 0 ⟨graph, .empty none⟩
        (dataset.batches.take played)
      return (reports, some state.graph.shard)

/-- The parts hold different pairs of endpoints, together those of the whole store, and with the
same timestamps. The weight of a pair is the same too, if the absolute weights that the stream
brings to it add up to a word. -/
structure SameGraph (stream : List Edge) (whole : Shard) (parts : Fin size → Shard) : Prop where
  apart (first second : Fin size) (src dst : VertexId)
    (inFirst : (parts first).contains src dst = true)
    (inSecond : (parts second).contains src dst = true) : first = second
  keys (src dst : VertexId) : whole.contains src dst = true ↔
    ∃ rank, (parts rank).contains src dst = true
  timestamps (rank : Fin size) (src dst : VertexId) (attrs : Attrs)
    (stored : (parts rank).get? src dst = some attrs) :
    (whole.get? src dst).map Attrs.timestamp = some attrs.timestamp
  weights (rank : Fin size) (src dst : VertexId) (attrs : Attrs)
    (light : (heftAt (src, dst) stream : Int) ≤ Saturation.greatest)
    (stored : (parts rank).get? src dst = some attrs) : whole.get? src dst = some attrs

/-- Two groups, one of them of one rank, that hold the same store after the same edges. -/
theorem sameGraph_of_holds (inhabited : 0 < size) {streamed rest : List Edge}
    {alone : Fin 1 → ClusterGraph generator} (holdsAlone : ClusterGraph.Holds streamed store alone)
    (holds : ClusterGraph.Holds streamed store graphs) :
    SameGraph (streamed ++ rest) (alone 0).shard fun rank => (graphs rank).shard := by
  have stored := fun rank => holds.parted.stored_iff rank
  have ownAlone (src : VertexId) : (store.sharing 1).owner src = (0 : Fin 1) := by
    have inside := Partition.owner_lt (holdsAlone.owners Nat.one_pos ▸ Nat.one_pos) src
    rw [holdsAlone.owners Nat.one_pos] at inside
    exact Nat.lt_one_iff.1 inside
  have storedAlone (src dst : VertexId) : ((alone 0).shard.get? src dst).isSome = true ↔
      (store.shard.get? src dst).isSome = true := by
    rw [holdsAlone.parted.stored_iff 0 src dst]
    exact and_iff_left (ownAlone src)
  constructor
  case apart =>
    intro first second src dst inFirst inSecond
    have ownFirst := ((stored first src dst).1 inFirst).2
    have ownSecond := ((stored second src dst).1 inSecond).2
    exact Fin.ext (ownFirst.symm.trans ownSecond)
  case keys =>
    intro src dst
    simp only [Shard.contains, storedAlone, stored]
    constructor
    · intro present
      have inside := Partition.owner_lt (holds.owners inhabited ▸ inhabited) src
      rw [holds.owners inhabited] at inside
      exact ⟨⟨_, inside⟩, present, rfl⟩
    · rintro ⟨_, present, _⟩
      exact present
  case timestamps =>
    intro rank src dst attrs found
    have own := ((stored rank src dst).1 (by rw [found]; rfl)).2
    have dated := holds.parted.dated rank src dst
    have datedAlone := holdsAlone.parted.dated 0 src dst
    rw [if_pos own, found] at dated
    rw [if_pos (ownAlone src)] at datedAlone
    exact datedAlone.trans dated.symm
  case weights =>
    intro rank src dst attrs light found
    have own := ((stored rank src dst).1 (by rw [found]; rfl)).2
    rw [heftAt_append] at light
    have same := holds.weighed.same (src, dst) (by omega) rank own
    have sameAlone := holdsAlone.weighed.same (src, dst) (by omega) 0 (ownAlone src)
    exact sameAlone.trans (same.symm.trans found)

theorem settles_playShared (inhabited : 0 < size) {settings : RunSettings}
    (plain : settings.algorithms = []) {stream : List Edge} {dataset : Dataset}
    (loaded : Dataset.ofEdges stream settings.batches settings.bound = some (.ok dataset))
    (within : ∀ edge ∈ stream, edge.isWithin dataset.bound = true) (bounded : dataset.bound ≠ 0)
    (fits : dataset.Fits) (passed : Fin size → Option Dataset)
    (given : passed ⟨0, inhabited⟩ = some dataset) (generator : Generator)
    (orders : Fin size → Orders) (played : Nat) :
    ∃ (reports : Fin size → List BatchReport) (graphs : Fin size → ClusterGraph generator),
      (Plan.group fun rank => playShared generator (orders rank) settings ⟨rank, size⟩ (passed rank)
        played).Settles (List.ofFn fun rank => (.ok (reports rank), some (graphs rank).shard)) ∧
      SameHistory (storeReports settings 0 (.unshared generator dataset.bound settings.graph)
        (dataset.batches.take played)) reports ∧
      ClusterGraph.Holds ((dataset.batches.take played).flatMap Batch.edges)
        (storeAfter settings (.unshared generator dataset.bound settings.graph)
          (dataset.batches.take played)) graphs := by
  obtain ⟨count, flat⟩ := Dataset.ofEdges_eq_ok loaded
  have inStream : ∀ batch ∈ dataset.batches.take played, batch.edges.Sublist stream := by
    intro batch member
    rw [← flat, Dataset.edges, List.flatMap_def]
    exact List.sublist_flatten_of_mem (List.mem_map_of_mem (List.mem_of_mem_take member))
  obtain ⟨reports, states, plays, same, final⟩ := lockstep_playBatches inhabited plain
    (dataset.batches.take played) 0
    (ClusterGraph.holds_empty generator orders dataset.bound settings.graph)
    (fun _ => .empty none) (fun _ => rfl)
    (fun batch member edge inBatch => within edge ((inStream batch member).subset inBatch))
    (fun batch member => fits.batch (List.mem_of_mem_take member))
  have distributed := Dataset.together_distribute inhabited fits bounded passed given
  rw [count] at distributed
  refine ⟨reports, fun rank => (states rank).graph, ?_, same, final⟩
  apply lockstep_settles inhabited
  apply lockstep_bind distributed
  have slices : ∀ rank : Fin size, (dataset.sharedOut size rank).batches.take played =
      slicesOf size rank (dataset.batches.take played) := by
    intro rank
    rw [Dataset.sharedOut, slicesOf, List.map_take]
  simp only [slices]
  exact lockstep_bind plays (.done _)

/-- After every batch the ranks hold together what one rank would hold alone, and report it,
whatever the orders in which any of them sorts its updates. -/
theorem rank_count_does_not_change_the_graph (inhabited : 0 < size) {settings : RunSettings}
    (plain : settings.algorithms = []) {stream : List Edge} {dataset : Dataset}
    (loaded : Dataset.ofEdges stream settings.batches settings.bound = some (.ok dataset))
    (within : ∀ edge ∈ stream, edge.isWithin dataset.bound = true) (bounded : dataset.bound ≠ 0)
    (fits : dataset.Fits) (passed : Fin size → Option Dataset)
    (given : passed ⟨0, inhabited⟩ = some dataset) (generator : Generator) (order : Orders)
    (orders : Fin size → Orders) (played : Nat) :
    ∃ (alone : List BatchReport) (whole : Shard)
        (reports : Fin size → List BatchReport) (shards : Fin size → Shard),
      (Plan.group fun rank : Fin 1 => playShared generator order settings ⟨rank, 1⟩ (some dataset)
        played).Settles [(.ok alone, some whole)] ∧
      (Plan.group fun rank => playShared generator (orders rank) settings ⟨rank, size⟩ (passed rank)
        played).Settles (List.ofFn fun rank => (.ok (reports rank), some (shards rank))) ∧
      alone.map BatchReport.batch = List.range (min played settings.batches) ∧
      SameHistory alone reports ∧ SameGraph stream whole shards := by
  obtain ⟨alone, graph, settlesAlone, sameAlone, holdsAlone⟩ :=
    settles_playShared Nat.one_pos plain loaded within bounded fits (fun _ => some dataset) rfl
      generator (fun _ => order) played
  obtain ⟨reports, graphs, settles, same, holds⟩ :=
    settles_playShared inhabited plain loaded within bounded fits passed given generator orders
      played
  refine ⟨alone 0, (graph 0).shard, reports, _, settlesAlone, settles, ?_, ?_, ?_⟩
  · rw [sameAlone.batches, batches_storeReports, List.length_take,
      (Dataset.ofEdges_eq_ok loaded).1, List.range_eq_range']
  · exact {
      batches := fun rank => (same.batches rank).trans (sameAlone.batches 0).symm
      thresholds := fun rank => (same.thresholds rank).trans (sameAlone.thresholds 0).symm
      vertices := fun rank => (same.vertices rank).trans (sameAlone.vertices 0).symm
      edges := fun rank => (same.edges rank).trans (sameAlone.edges 0).symm
      evicted := fun index => by
        rw [same.evicted, ← sameAlone.evicted, Fin.sum_univ_one]
      inserted := fun index => by
        rw [same.inserted, ← sameAlone.inserted, Fin.sum_univ_one] }
  · have flat := (Dataset.ofEdges_eq_ok loaded).2
    rw [Dataset.edges, ← List.take_append_drop played dataset.batches, List.flatMap_append] at flat
    rw [← flat]
    exact sameGraph_of_holds inhabited holdsAlone holds

/-- Two batches with a window that drops the first edge before the second batch. -/
def windowed : RunSettings where
  algorithms := []
  path := ""
  batches := 2
  window := ⟨5, true⟩
  trials := 1
  bound := some 4
  graph := .standard

def threeEdges : Dataset := ⟨4, [⟨[⟨1, 2, 3, 0⟩], 0⟩, ⟨[⟨2, 1, -3, 9⟩, ⟨3, 1, 1, 8⟩], 9⟩]⟩

theorem two_ranks_hold_what_one_would :
    ∃ (alone : List BatchReport) (whole : Shard)
        (reports : Fin 2 → List BatchReport) (shards : Fin 2 → Shard),
      (Plan.group fun rank : Fin 1 => playShared .standard .ascending windowed ⟨rank, 1⟩
        (some threeEdges) 2).Settles [(.ok alone, some whole)] ∧
      (Plan.group fun rank : Fin 2 => playShared .standard .ascending windowed ⟨rank, 2⟩
        (some threeEdges) 2).Settles
          (List.ofFn fun rank => (.ok (reports rank), some (shards rank))) ∧
      alone.map BatchReport.batch = [0, 1] ∧ SameHistory alone reports ∧
      SameGraph [⟨1, 2, 3, 0⟩, ⟨2, 1, -3, 9⟩, ⟨3, 1, 1, 8⟩] whole shards :=
  @rank_count_does_not_change_the_graph 2 (by decide) windowed rfl
    [⟨1, 2, 3, 0⟩, ⟨2, 1, -3, 9⟩, ⟨3, 1, 1, 8⟩] threeEdges (by rfl) (by decide) (by decide)
    ⟨by decide, by decide⟩ (fun _ => some threeEdges) rfl .standard .ascending
    (fun _ => .ascending) 2

end Trial

end StreamGraph
