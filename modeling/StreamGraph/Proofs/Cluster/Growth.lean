import StreamGraph.Proofs.Cluster.Atomicity
import StreamGraph.Proofs.Merge.Refusal

/-!
How a graph grows and shrinks. What an exchange brings to a rank is never marked, whatever the rank
hears; so an ingestion that succeeds has taken everything in, in either mode, and its count of new
edges is what the shard has more. An eviction counts what the shard has less. Nothing is asked of
the other ranks here: each graph keeps its own books.
-/

namespace StreamGraph

open Relation

variable {generator : Generator} {size : Nat}

namespace Update

/-- None of the updates is marked. -/
def Unmarked (updates : List Update) : Prop := ∀ update ∈ updates, update.done = false

end Update

namespace Routing

open Collective Update

theorem unmarked_run {runs : OwnerRuns} (fresh : Unmarked runs.updates) (rank : Nat) :
    Unmarked (runs.run rank) := fun update member =>
  fresh update (List.mem_of_mem_drop (List.mem_of_mem_take member))

theorem unmarked_split {partition : Partition} {bound : UInt64} {slice : List Update}
    {runs : OwnerRuns} (fresh : Unmarked slice) (sorted : partition.split bound slice = .ok runs) :
    Unmarked runs.updates := by
  unfold Partition.split at sorted
  split at sorted
  · cases sorted
  · cases sorted
    exact fun update member => fresh update (List.mem_mergeSort.1 member)

theorem gets_agree {Value : Type} (member : Member) (tag : Tag) (mine : Except Failure Value) :
    (agree member tag mine).Gets fun value => mine = .ok value := by
  apply (gets_any _).bind
  intro lowest _
  cases mine with
  | error failure => exact gets_throw failure
  | ok value =>
      dsimp only
      split
      · exact gets_throw _
      · exact gets_pure rfl

/-- The rank keeps its own updates as they are, and others travel without marks. -/
theorem gets_route (member : Member) (root : Nat) {runs : Option OwnerRuns}
    (fresh : ∀ own, runs = some own → Unmarked own.updates) (tag : Tag) :
    (route member root runs tag).Gets Unmarked := by
  have freshOwn : Unmarked (runs.getD (.none member.size)).updates := by
    cases runs with
    | none => exact nofun
    | some own => exact fresh own rfl
  apply (gets_any _).bind
  intro arrived _
  split
  · exact gets_pure (unmarked_run freshOwn root)
  · apply gets_pure
    intro update member
    rcases List.mem_map.1 member with ⟨edge, _, rfl⟩
    rfl

theorem gets_routeAll (member : Member) {runs : OwnerRuns} (fresh : Unmarked runs.updates)
    (tag : Tag) (roots : List Nat) : (routeAll member runs tag roots).Gets Unmarked := by
  induction roots with
  | nil => exact gets_pure nofun
  | cons root others ih =>
      have freshHere : ∀ own, (if root = member.rank then some runs else none) = some own →
          Unmarked own.updates := by
        intro own passed
        split at passed
        · cases passed
          exact fresh
        · cases passed
      apply (gets_route member root freshHere tag).bind
      intro first freshFirst
      apply ih.bind
      intro later freshLater
      apply gets_pure
      intro update member
      rcases List.mem_append.1 member with inFirst | inLater
      · exact freshFirst update inFirst
      · exact freshLater update inLater

/-- What an exchange brings is not marked, whatever the rank hears. -/
theorem gets_exchange (member : Member) (partition : Partition) (bound : UInt64)
    {slice : List Update} (fresh : Unmarked slice) :
    (exchange member partition bound slice).Gets Unmarked := by
  apply (gets_any _).bind
  intro _ _
  apply (gets_agree member _ _).bind
  intro runs sorted
  exact gets_routeAll member (unmarked_split fresh sorted) _ _

end Routing

namespace Shard

/-- The shard has got some new edges, and lost none. -/
structure Grows (before after : Shard) (inserted : Nat) : Prop where
  counted : after.edgeCount = before.edgeCount + inserted
  stored (key : EdgeKey) (known : (before.entries key).isSome = true) :
    (after.entries key).isSome = true

theorem welcome_of_ingest {shard : Shard} {order : KeySort} {updates : List Update}
    {mode : IngestMode} {stats : MergeStats} (fresh : Update.Unmarked updates)
    (succeeds : (shard.ingest order updates mode).outcome = .ok stats) : shard.Welcome updates :=
  fun update member => ⟨fresh update member, admits_of_ingest succeeds update member⟩

theorem isSome_result (mode : IngestMode) (updates : List Update) {old : Option Attrs}
    (known : old.isSome = true) : (mode.result updates old).isSome = true := by
  cases mode with
  | incremental =>
      rw [IngestMode.result]
      split
      · exact known
      · rfl
  | snapshot => rw [IngestMode.result, Option.isSome_or, known, Bool.or_true]

theorem grows_of_ingest {shard : Shard} {order : KeySort} {updates : List Update}
    {mode : IngestMode} {stats : MergeStats} (fresh : Update.Unmarked updates)
    (succeeds : (shard.ingest order updates mode).outcome = .ok stats) :
    Grows shard (shard.ingest order updates mode).shard stats.inserted := by
  rcases takes_ingest order mode (welcome_of_ingest fresh succeeds) with ⟨counted, outcome, takes⟩
  rw [succeeds] at outcome
  cases outcome
  constructor
  · exact takes.counted
  · intro key known
    rw [entries, takes.stored]
    exact isSome_result mode _ known

end Shard

namespace ClusterGraph

open Plan

/-- An insertion that succeeds, whatever the rank has heard, counts the new edges of its graph. -/
theorem finds_insert_grows (graph : ClusterGraph generator) (edges : List Edge) :
    (graph.insert edges).Finds fun found => ∀ stats, found.1 = .ok stats →
      Shard.Grows graph.shard found.2.shard stats.inserted := by
  have fresh : Update.Unmarked (Routing.updatesOf edges) := by
    intro update member
    rcases List.mem_map.1 member with ⟨edge, _, rfl⟩
    rfl
  have taken : ∀ mine, Update.Unmarked mine → ∀ stats, (graph.takeIn mine).1 = .ok stats →
      Shard.Grows graph.shard (graph.takeIn mine).2.shard stats.inserted := by
    intro mine freshMine stats succeeds
    unfold takeIn at succeeds ⊢
    dsimp only at succeeds ⊢
    cases outcome : (graph.shard.ingest graph.nextSort mine graph.nextMode).outcome with
    | error failure =>
        rw [outcome] at succeeds
        cases succeeds
    | ok counted =>
        rw [outcome] at succeeds
        cases succeeds
        exact Shard.grows_of_ingest freshMine outcome
  rw [insert_eq]
  apply Finds.bind (Routing.gets_exchange _ _ _ fresh)
  intro arrived freshArrived
  cases arrived with
  | error failure => exact nofun
  | ok mine =>
      dsimp only
      split
      · exact taken mine (freshArrived mine rfl)
      · exact taken mine (freshArrived mine rfl)

/-- An eviction counts the edges that its graph has lost. -/
theorem finds_evict_shrinks (graph : ClusterGraph generator) (sound : graph.shard.Sound)
    (threshold : Int64) : (graph.evict threshold).Finds fun found =>
      found.1 + found.2.shard.edgeCount = graph.shard.edgeCount :=
  sound.removed_add fun _ attrs =>
    decide ((graph.retention.advance threshold).threshold ≤ attrs.timestamp)

end ClusterGraph

end StreamGraph
