import StreamGraph.Proofs.Cluster
import StreamGraph.Proofs.Message.Traffic
import StreamGraph.Proofs.Shard.History

/-!
A batch comes in on all ranks or on none. Whatever the graphs of a group have been through, each of
them still lies in its own place and shares out the vertices as the others do, because no call
changes that, whether it succeeds or fails and whatever it hears. So the ranks that send a batch and
the ranks that take it in judge its edges alike: what one of them has let through, no other refuses.
-/

namespace StreamGraph

open Relation

variable {generator : Generator} {size : Nat}

namespace ClusterGraph

open Plan

/-- A call that may change a graph. -/
inductive GraphCall where
  | evict (threshold : Int64)
  | insert (edges : List Edge)
  | pickSources
  | analyze (algorithm : Algorithm)

/-- What a call leaves, whether it succeeds or fails. -/
def perform (graph : ClusterGraph generator) : GraphCall → Plan (ClusterGraph generator)
  | .evict threshold => do return (← graph.evict threshold).2
  | .insert edges => do return (← graph.insert edges).2
  | .pickSources => do return (← graph.pickSources).2
  | .analyze algorithm => do return (← graph.analyze algorithm).2

/-- What the graphs of a group can come to by calls that end on all ranks with nothing on the way.
The ranks need not make the same calls, need not be told the same but for the layout, and need not
meet their updates and their edges in the same orders. -/
inductive Reachable (layout : Layout) (bound : UInt64) : (Fin size → ClusterGraph generator) → Prop
  | start (orders : Fin size → Orders) (settings : Fin size → GraphSettings)
      (shared : ∀ rank, (settings rank).layout = layout) : Reachable layout bound fun rank =>
        .empty generator (orders rank) ⟨rank, size⟩ bound (settings rank)
  | call {graphs nexts : Fin size → ClusterGraph generator} (before : Reachable layout bound graphs)
      (calls : Fin size → GraphCall)
      (run : ReflTransGen Group.Step (Plan.group fun rank => (graphs rank).perform (calls rank))
        ⟨.empty, List.ofFn fun rank => .done (nexts rank)⟩) :
      Reachable layout bound nexts

/-- The exchange that an insertion begins with. -/
def bring (graph : ClusterGraph generator) (edges : List Edge) : Collective (List Update) :=
  Routing.exchange graph.member graph.shard.partition graph.shard.bound (Routing.updatesOf edges)

/-- What a call can leave, whatever it hears: an eviction drops what is too old, an insertion takes
in what has come unless it is refused, and all else touches the picker at most. -/
inductive Leaves (graph : ClusterGraph generator) : GraphCall → ClusterGraph generator → Prop
  | evicted (threshold : Int64) : Leaves graph (.evict threshold) (graph.dropOld threshold).2
  | refused (edges : List Edge) : Leaves graph (.insert edges) graph
  | taken (edges : List Edge) (mine : List Update) :
      Leaves graph (.insert edges) (graph.takeIn mine).2
  | picked (picker : SourcePicker generator) : Leaves graph .pickSources { graph with picker }
  | analyzed (algorithm : Algorithm) (picker : SourcePicker generator) :
      Leaves graph (.analyze algorithm) { graph with picker }

section Leaves

variable (graph : ClusterGraph generator)

theorem finds_insert (edges : List Edge) :
    (graph.insert edges).Finds fun found => graph.Leaves (.insert edges) found.2 := by
  rw [insert_eq]
  apply (finds_any _).bind
  intro arrived _
  cases arrived with
  | error failure => exact .refused edges
  | ok mine =>
      dsimp only
      split
      · exact .taken edges mine
      · exact .taken edges mine

theorem finds_pickSources :
    graph.pickSources.Finds fun found => graph.Leaves .pickSources found.2 := by
  unfold pickSources
  split
  · exact (finds_any _).bind fun picked _ => .picked picked.2
  · exact (finds_any _).bind fun _ _ => .picked graph.picker

theorem finds_analyze (algorithm : Algorithm) :
    (graph.analyze algorithm).Finds fun found => graph.Leaves (.analyze algorithm) found.2 := by
  unfold analyze
  split
  · apply graph.finds_pickSources.bind
    rintro ⟨chosen, after⟩ leaves
    have analyzed : graph.Leaves (.analyze algorithm) after := by
      cases leaves with
      | picked picker => exact .analyzed algorithm picker
    cases chosen with
    | error failure => exact analyzed
    | ok sources => exact (finds_any _).bind fun _ _ => analyzed
  · exact (finds_any _).bind fun _ _ => .analyzed algorithm graph.picker

theorem finds_perform (call : GraphCall) : (graph.perform call).Finds (graph.Leaves call) := by
  cases call with
  | evict threshold => exact .evicted threshold
  | insert edges => exact (graph.finds_insert edges).bind fun _ leaves => leaves
  | pickSources => exact graph.finds_pickSources.bind fun _ leaves => leaves
  | analyze algorithm => exact (graph.finds_analyze algorithm).bind fun _ leaves => leaves

end Leaves

/-- The graph has stayed where it was, with a shard as sound as before. -/
structure Stays (before after : ClusterGraph generator) : Prop where
  member : after.member = before.member
  shard : Shard.Kept before.shard after.shard

theorem stays_takeIn (graph : ClusterGraph generator) (updates : List Update) :
    Stays graph (graph.takeIn updates).2 := by
  have kept := Shard.kept_ingest graph.shard graph.nextSort updates graph.nextMode
  unfold takeIn
  dsimp only
  split
  · exact ⟨rfl, kept⟩
  · exact ⟨rfl, kept⟩

theorem stays_dropOld (graph : ClusterGraph generator) (threshold : Int64) :
    Stays graph (graph.dropOld threshold).2 where
  member := rfl
  shard := Shard.kept_retain graph.shard fun _ attrs =>
    decide ((graph.retention.advance threshold).threshold ≤ attrs.timestamp)

/-- Every call leaves the graph where it is. -/
theorem Leaves.stays {graph next : ClusterGraph generator} {call : GraphCall}
    (leaves : graph.Leaves call next) : Stays graph next := by
  cases leaves with
  | evicted threshold => exact graph.stays_dropOld threshold
  | refused edges => exact ⟨rfl, .refl _⟩
  | taken edges mine => exact graph.stays_takeIn mine
  | picked picker => exact ⟨rfl, .refl _⟩
  | analyzed algorithm picker => exact ⟨rfl, .refl _⟩

section Placed

variable {partition : Partition} {bound : UInt64} {rank : Fin size}
  {graph next : ClusterGraph generator}

theorem Placed.stays (placed : Placed partition bound rank graph) (stays : Stays graph next) :
    Placed partition bound rank next where
  member := stays.member.trans placed.member
  numbered := stays.shard.place.rank.trans placed.numbered
  sharing := stays.shard.place.partition.trans placed.sharing
  bounded := stays.shard.place.bound.trans placed.bounded

theorem Placed.bring_eq (placed : Placed partition bound rank graph) (edges : List Edge) :
    graph.bring edges =
      Routing.exchange ⟨rank, size⟩ partition bound (Routing.updatesOf edges) := by
  rw [bring, placed.member, placed.sharing, placed.bounded]

/-- What a rank owns of edges in range may be held there. -/
theorem Placed.welcome (placed : Placed partition bound rank graph) {edges : List Edge}
    (within : ∀ edge ∈ edges, edge.isWithin bound = true) :
    graph.shard.Welcome (partition.share rank (Routing.updatesOf edges)) := by
  apply Shard.welcome_of_within placed.bounded within
  · intro update member
    rcases List.mem_map.1 (List.mem_of_mem_filter member) with ⟨edge, inEdges, rfl⟩
    exact ⟨rfl, inEdges⟩
  · intro update member
    rw [placed.numbered, placed.sharing]
    exact beq_iff_eq.1 (List.mem_filter.1 member).2

theorem Placed.takeIn_of_within (placed : Placed partition bound rank graph) {edges : List Edge}
    (within : ∀ edge ∈ edges, edge.isWithin bound = true) : ∃ stats next,
      graph.takeIn (partition.share rank (Routing.updatesOf edges)) = (.ok stats, next) := by
  obtain ⟨stats, outcome, _⟩ := Shard.takes_ingest graph.nextSort graph.nextMode
    (placed.welcome within)
  unfold ClusterGraph.takeIn
  dsimp only
  rw [outcome]
  exact ⟨stats, _, rfl⟩

end Placed

namespace Aligned

variable {partition : Partition} {bound : UInt64} {graphs : Fin size → ClusterGraph generator}

/-- Whatever an exchange has brought to a rank, the rank can take in. -/
theorem ingest_of_exchanged (aligned : Aligned partition bound graphs) (inhabited : 0 < size)
    (few : size + 1 < UInt64.size) (parts : partition.parts = size) {slices : Fin size → List Edge}
    (fits : ∀ rank, Fits (slices rank)) {arrived : Fin size → List Update}
    (settles : (Plan.group fun rank => ((graphs rank).bring (slices rank)).run).Settles
      (List.ofFn fun rank => .ok (arrived rank))) (rank : Fin size) (order : KeySort)
    (mode : IngestMode) :
    ∃ stats, ((graphs rank).shard.ingest order (arrived rank) mode).outcome = .ok stats := by
  simp only [(aligned _).bring_eq] at settles
  have within : ∀ rank, ∀ edge ∈ slices rank, edge.isWithin bound = true := by
    intro culprit edge member
    by_contra outside
    obtain ⟨failures, _, refused⟩ := Routing.together_exchange_rejected few parts bound
      (fun rank => Routing.updatesOf (slices rank)) (List.mem_map_of_mem member)
      (Bool.eq_false_iff.2 outside)
    have same := List.ofFn_injective (settles.unique (lockstep_settles inhabited refused))
    cases congrFun same culprit
  have exchanged := Routing.together_exchange_slices inhabited parts bound within fits
  have same := List.ofFn_injective (settles.unique (lockstep_settles inhabited exchanged))
  rw [Except.ok.inj (congrFun same rank)]
  obtain ⟨stats, outcome, _⟩ :=
    Shard.takes_ingest order mode ((aligned rank).welcome (within_flatten within))
  exact ⟨stats, outcome⟩

end Aligned

namespace Reachable

variable {layout : Layout} {bound : UInt64} {graphs : Fin size → ClusterGraph generator}

theorem leaves_of_run {nexts : Fin size → ClusterGraph generator} {calls : Fin size → GraphCall}
    (run : ReflTransGen Group.Step (Plan.group fun rank => (graphs rank).perform (calls rank))
      ⟨.empty, List.ofFn fun rank => .done (nexts rank)⟩) (rank : Fin size) :
    (graphs rank).Leaves (calls rank) (nexts rank) := by
  have finds := fun rank => ((graphs rank).finds_perform (calls rank)).steps ⟨rank, size⟩
  exact Group.findings_pass finds run rank

theorem aligned (reachable : Reachable layout bound graphs) :
    Aligned (layout.build size bound) bound graphs := by
  induction reachable with
  | start orders settings shared =>
      intro rank
      have sharing : (settings rank).layout.build size bound = layout.build size bound := by
        rw [shared]
      exact ⟨rfl, rfl, sharing, rfl⟩
  | call before calls run ih => exact fun rank => (ih rank).stays (leaves_of_run run rank).stays

theorem sound (reachable : Reachable layout bound graphs) (rank : Fin size) :
    (graphs rank).shard.Sound := by
  induction reachable with
  | start orders settings shared => exact Shard.sound_empty ..
  | call before calls run ih => exact (leaves_of_run run rank).stays.shard.sound ih

theorem of_lockstep (inhabited : 0 < size) (before : Reachable layout bound graphs)
    (calls : Fin size → GraphCall) {nexts : Fin size → ClusterGraph generator}
    (lockstep : Lockstep (fun rank => (graphs rank).perform (calls rank)) nexts) :
    Reachable layout bound nexts :=
  before.call calls (run_of_lockstep inhabited lockstep)

/-- A batch with an end out of range is refused on all ranks and changes none of their graphs. Any
other batch comes in on all ranks, each taking in what it owns, and then all wait for each other.
What an exchange has brought to a rank never fails to go in there, in either mode and in whatever
order. -/
theorem batches_come_in_everywhere_or_nowhere (inhabited : 0 < size)
    (few : size + 1 < UInt64.size) (reachable : Reachable layout bound graphs)
    (slices : Fin size → List Edge) :
    ((∃ rank, ∃ edge ∈ slices rank, edge.isWithin bound = false) →
      ∃ failures : Fin size → Failure,
        (Plan.group fun rank => (graphs rank).insert (slices rank)).Settles
          (List.ofFn fun rank => (.error (failures rank), graphs rank))) ∧
    ((∀ rank, ∀ edge ∈ slices rank, edge.isWithin bound = true) → (∀ rank, Fits (slices rank)) →
      ∃ (stats : Fin size → MergeStats) (nexts : Fin size → ClusterGraph generator)
        (operations : List Operation),
        (∀ rank, (graphs rank).takeIn ((layout.build size bound).share rank
          (Routing.updatesOf (List.ofFn slices).flatten)) = (.ok (stats rank), nexts rank)) ∧
        Performs (fun rank => (graphs rank).insert (slices rank)) (operations ++ [.barrier])
          (fun rank => (.ok (stats rank), nexts rank)) ∧
        (Plan.group fun rank => (graphs rank).insert (slices rank)).Settles
          (List.ofFn fun rank => (.ok (stats rank), nexts rank))) ∧
    ((∀ rank, Fits (slices rank)) → ∀ arrived : Fin size → List Update,
      (Plan.group fun rank => ((graphs rank).bring (slices rank)).run).Settles
        (List.ofFn fun rank => .ok (arrived rank)) →
      ∀ rank order mode, ∃ stats,
        ((graphs rank).shard.ingest order (arrived rank) mode).outcome = .ok stats) := by
  have aligned := reachable.aligned
  have parts := parts_build inhabited layout bound
  refine ⟨?_, ?_, ?_⟩
  · rintro ⟨culprit, edge, member, outside⟩
    obtain ⟨failures, _, refused⟩ :=
      aligned.lockstep_insert_rejected few parts slices member outside
    exact ⟨failures, lockstep_settles inhabited refused⟩
  · intro within fits
    obtain ⟨operations, exchanged⟩ :=
      Routing.together_exchange_slices inhabited parts bound within fits
    choose stats nexts taken using
      fun rank => (aligned rank).takeIn_of_within (within_flatten within)
    have performs := aligned.performs_insert exchanged taken
    exact ⟨stats, nexts, operations, taken, performs, lockstep_settles inhabited ⟨_, performs⟩⟩
  · intro fits arrived settles
    exact aligned.ingest_of_exchanged inhabited few parts fits settles

/-- The first batch of these graphs replaces. -/
def replacing : GraphSettings := { GraphSettings.standard with snapshotFirst := true }

/-- Two graphs that have dropped what is older than five. -/
def pair (rank : Fin 2) : ClusterGraph .standard :=
  ((empty .standard .ascending ⟨rank, 2⟩ 4 replacing).dropOld 5).2

theorem reachable_pair : Reachable .cyclic 4 pair := by
  have before : Reachable .cyclic 4 fun rank : Fin 2 =>
      empty .standard .ascending ⟨rank, 2⟩ 4 replacing :=
    .start (fun _ => .ascending) (fun _ => replacing) fun _ => rfl
  have evicts := lockstep_evict
    (fun rank : Fin 2 => empty .standard .ascending ⟨rank, 2⟩ 4 replacing) 5
  exact before.of_lockstep (by decide) (fun _ => .evict 5) (lockstep_bind evicts (.done _))

def soundSlices : Fin 2 → List Edge
  | 0 => [⟨1, 2, 5, 9⟩, ⟨2, 3, 1, 9⟩]
  | 1 => [⟨2, 1, 1, 9⟩]

def unsoundSlices : Fin 2 → List Edge
  | 0 => [⟨1, 2, 5, 9⟩, ⟨2, 3, 1, 9⟩]
  | 1 => [⟨2, 9, 1, 9⟩]

theorem pair_takes_all_or_nothing :
    (∃ failures : Fin 2 → Failure,
      (Plan.group fun rank => (pair rank).insert (unsoundSlices rank)).Settles
        (List.ofFn fun rank => (.error (failures rank), pair rank))) ∧
    (∃ (stats : Fin 2 → MergeStats) (nexts : Fin 2 → ClusterGraph .standard),
      (Plan.group fun rank => (pair rank).insert (soundSlices rank)).Settles
        (List.ofFn fun rank => (.ok (stats rank), nexts rank))) ∧
    ∀ (rank : Fin 2) (order : KeySort) (mode : IngestMode), ∃ stats, ((pair rank).shard.ingest order
      ((Partition.cyclic 2).share rank
        (Routing.updatesOf (List.ofFn soundSlices).flatten)) mode).outcome = .ok stats := by
  have few : 2 + 1 < UInt64.size := by decide
  have inhabited : 0 < 2 := by decide
  have within : ∀ rank, ∀ edge ∈ soundSlices rank, edge.isWithin 4 = true := by decide
  have fits : ∀ rank, Fits (soundSlices rank) := by decide
  obtain ⟨refuses, _, _⟩ :=
    batches_come_in_everywhere_or_nowhere inhabited few reachable_pair unsoundSlices
  obtain ⟨_, accepts, ingests⟩ :=
    batches_come_in_everywhere_or_nowhere inhabited few reachable_pair soundSlices
  refine ⟨refuses ⟨1, by decide⟩, ?_, ?_⟩
  · obtain ⟨stats, nexts, _, _, _, settles⟩ := accepts within fits
    exact ⟨stats, nexts, settles⟩
  · apply ingests fits
    simp only [(reachable_pair.aligned _).bring_eq]
    exact lockstep_settles inhabited
      (Routing.together_exchange_slices inhabited rfl 4 within fits)

end Reachable

end ClusterGraph

end StreamGraph
