import StreamGraph.Proofs.Analysis
import StreamGraph.Proofs.Trial.Batch

/-!
A whole run on all ranks. Whatever the settings, the stages and the batches, the ranks take part
in the same operations until all of them have reports, or all are refused: because an edge is out
of range on some rank, or because no source was found. Nothing is asked of the edges, but that
what the ranks put together has bytes that a word can count.
-/

namespace StreamGraph

variable {generator : Generator} {size : Nat} {store : ClusterGraph generator}
  {graphs : Fin size → ClusterGraph generator}

open Plan

/-- The edges that some ranks have in their batches, all together. -/
def streamed (batches : Fin size → List Batch) : Nat :=
  ∑ rank, ((batches rank).map fun batch => batch.edges.length).sum

theorem streamed_cons (batch : Fin size → Batch) (batches : Fin size → List Batch) :
    streamed (fun rank => batch rank :: batches rank) =
      (List.ofFn fun rank => (batch rank).edges).flatten.length + streamed batches := by
  unfold streamed
  simp only [List.map_cons, List.sum_cons, Finset.sum_add_distrib, Collective.length_flatten_ofFn]

namespace ClusterGraph

/-- What goes and what stays are what was there. -/
theorem removed_dropBefore (graph : ClusterGraph generator) (sound : graph.shard.Sound)
    (threshold : Option Int64) : (graph.dropBefore threshold).1 +
      (graph.dropBefore threshold).2.shard.edgeCount = graph.shard.edgeCount := by
  cases threshold with
  | none => exact Nat.zero_add _
  | some threshold =>
      exact sound.removed_add fun _ attrs =>
        decide ((graph.retention.advance threshold).threshold ≤ attrs.timestamp)

end ClusterGraph

namespace Trial

/-- What a run of a group can hold: the edges of all ranks together, and when stages run a word
for each vertex, have bytes that a word can count. -/
structure Storable (size : Nat) (settings : RunSettings) (bound : UInt64) (edges : Nat) : Prop where
  ranks : size * 16 < UInt64.size
  edges : edges * 32 < UInt64.size
  vertices : settings.algorithms ≠ [] → bound.toNat * 8 < UInt64.size

/-- The reports of a batch show what is stored after it, and account for the change. -/
structure Books (before after : Nat) (reports : Fin size → BatchReport) : Prop where
  shown (rank : Fin size) : (reports rank).summary.edges = UInt64.ofNat after
  balance : after + ∑ rank, (reports rank).evicted = before + ∑ rank, (reports rank).inserted

/-- How a batch ends: all ranks have reports, and are in step with a store that has at most the
new edges more than before; or all ranks are refused. -/
inductive Ends (before : ClusterGraph generator) (streamed : Nat) :
    (Fin size → Except Failure BatchReport) → (Fin size → ClusterGraph generator) → Prop
  | reported (reports : Fin size → BatchReport) {final : ClusterGraph generator}
      {graphs : Fin size → ClusterGraph generator} (inStep : ClusterGraph.InStep final graphs)
      (bound : final.shard.bound = before.shard.bound)
      (count : final.shard.edgeCount ≤ before.shard.edgeCount + streamed)
      (books : Books before.shard.edgeCount final.shard.edgeCount reports) :
      Ends before streamed (fun rank => .ok (reports rank)) graphs
  | refused (failures : Fin size → Failure) (graphs : Fin size → ClusterGraph generator)
      (refusals : ∀ rank, (failures rank).IsRefusal) :
      Ends before streamed (fun rank => .error (failures rank)) graphs

/-- A batch comes in on all ranks when its edges are in range on all of them. -/
theorem lockstep_batch_within (inhabited : 0 < size) {settings : RunSettings} {edges : Nat}
    (storable : Storable size settings store.shard.bound edges)
    (inStep : ClusterGraph.InStep store graphs) (index : Nat) (batches : Fin size → Batch)
    {threshold : Option Int64}
    (thresholds : ∀ rank, thresholdAt settings (batches rank) = threshold)
    (within : ∀ rank, ∀ edge ∈ (batches rank).edges, edge.isWithin store.shard.bound = true)
    (enough : store.shard.edgeCount +
      (List.ofFn fun rank => (batches rank).edges).flatten.length ≤ edges)
    (sinks : Fin size → Sink) :
    ∃ (outcomes : Fin size → Except Failure BatchReport) (last : Fin size → ClusterGraph generator),
      Lockstep (fun rank => playBatch settings index (batches rank) ⟨graphs rank, sinks rank⟩)
        (fun rank => ending (sinks rank) (outcomes rank) (last rank)) ∧
      Ends store (List.ofFn fun rank => (batches rank).edges).flatten.length outcomes last := by
  have bytes := storable.edges
  have fits : ∀ rank, Fits (batches rank).edges := by
    intro rank
    have member : (batches rank).edges ∈ List.ofFn fun rank => (batches rank).edges :=
      List.mem_ofFn.2 ⟨rank, rfl⟩
    have part := Collective.length_le_length_flatten member
    have width : Record.size Edge = 32 := rfl
    rw [Fits, width]
    omega
  have evicts := ClusterGraph.lockstep_evictBefore graphs threshold
  have keptBound := store.bound_dropBefore threshold
  have dropped := store.removed_dropBefore inStep.parted.sound threshold
  rw [← keptBound] at within
  obtain ⟨inserted, stats, taken, inserts, sums, grown, next⟩ :=
    (inStep.dropBefore threshold).lockstep_insert inhabited within fits
  generalize (ClusterGraph.takeIn (store.dropBefore threshold).2 (Routing.updatesOf
    (List.ofFn fun rank => (batches rank).edges).flatten)).2 = final at grown next
  have counted := grown.counted
  have few := grown.few
  have bound := grown.bound.trans keptBound
  have gathers : final.shard.edgeCount * 32 < UInt64.size := by omega
  obtain ⟨outcomes, picker, one, analyzes⟩ := next.lockstep_analyzeAll inhabited storable.ranks
    gathers settings.algorithms (by rw [bound]; exact storable.vertices)
  cases one with
  | answered =>
      have plays := lockstep_playBatch_noted inhabited settings index batches sinks thresholds
        evicts inserts analyzes (next.repicked picker)
      have count : final.shard.edgeCount ≤ store.shard.edgeCount +
          (List.ofFn fun rank => (batches rank).edges).flatten.length := by omega
      have evicted := inStep.sum_droppedBefore inhabited threshold
      have balance : final.shard.edgeCount + ∑ rank, ((graphs rank).dropBefore threshold).1 =
          store.shard.edgeCount + ∑ rank, (stats rank).inserted := by omega
      exact ⟨_, _, plays, .reported _ (next.repicked picker) bound count ⟨fun _ => rfl, balance⟩⟩
  | refused failures refusals =>
      have plays : Lockstep
          (fun rank => playBatch settings index (batches rank) ⟨graphs rank, sinks rank⟩)
          fun rank => (.error (failures rank), ⟨(taken rank).repicked picker, sinks rank⟩) := by
        unfold playBatch
        simp only [thresholds]
        exact lockstep_bind evicts (lockstep_bind inserts (lockstep_bind analyzes (.done _)))
      exact ⟨fun rank => .error (failures rank), _, plays, .refused failures _ refusals⟩

/-- A batch is refused on all ranks when an edge is out of range on one of them. -/
theorem lockstep_batch_outside (inhabited : 0 < size) (few : size + 1 < UInt64.size)
    (settings : RunSettings) (inStep : ClusterGraph.InStep store graphs) (index : Nat)
    (batches : Fin size → Batch) {threshold : Option Int64}
    (thresholds : ∀ rank, thresholdAt settings (batches rank) = threshold) {culprit : Fin size}
    {edge : Edge} (member : edge ∈ (batches culprit).edges)
    (outside : edge.isWithin store.shard.bound = false) (sinks : Fin size → Sink) :
    ∃ (failures : Fin size → Failure) (last : Fin size → ClusterGraph generator),
      Lockstep (fun rank => playBatch settings index (batches rank) ⟨graphs rank, sinks rank⟩)
        (fun rank => (.error (failures rank), ⟨last rank, sinks rank⟩)) ∧
      ∀ rank, (failures rank).IsRefusal := by
  have evicts := ClusterGraph.lockstep_evictBefore graphs threshold
  rw [← store.bound_dropBefore threshold] at outside
  obtain ⟨failures, causes, refuses⟩ := (inStep.dropBefore threshold).lockstep_insert_rejected
    inhabited few (fun rank => (batches rank).edges) member outside
  have refusals : ∀ rank, (failures rank).IsRefusal := by
    intro rank
    rcases causes rank with ⟨vertex, cause⟩ | ⟨peer, cause⟩
    · rw [cause]
      trivial
    · rw [cause]
      trivial
  have plays : Lockstep
      (fun rank => playBatch settings index (batches rank) ⟨graphs rank, sinks rank⟩) fun rank =>
        (.error (failures rank), ⟨((graphs rank).dropBefore threshold).2, sinks rank⟩) := by
    unfold playBatch
    simp only [thresholds]
    exact lockstep_bind evicts (lockstep_bind refuses (.done _))
  exact ⟨failures, _, plays, refusals⟩

theorem lockstep_batch (inhabited : 0 < size) {settings : RunSettings} {edges : Nat}
    (storable : Storable size settings store.shard.bound edges)
    (inStep : ClusterGraph.InStep store graphs) (index : Nat) (batches : Fin size → Batch)
    {newest : Int64} (stamps : ∀ rank, (batches rank).newest = newest)
    (enough : store.shard.edgeCount +
      (List.ofFn fun rank => (batches rank).edges).flatten.length ≤ edges)
    (sinks : Fin size → Sink) :
    ∃ (outcomes : Fin size → Except Failure BatchReport) (last : Fin size → ClusterGraph generator),
      Lockstep (fun rank => playBatch settings index (batches rank) ⟨graphs rank, sinks rank⟩)
        (fun rank => ending (sinks rank) (outcomes rank) (last rank)) ∧
      Ends store (List.ofFn fun rank => (batches rank).edges).flatten.length outcomes last := by
  have thresholds : ∀ rank, thresholdAt settings (batches rank) =
      thresholdAt settings ⟨[], newest⟩ := by
    intro rank
    unfold thresholdAt Batch.threshold
    rw [stamps]
  by_cases within : ∀ rank, ∀ edge ∈ (batches rank).edges,
      edge.isWithin store.shard.bound = true
  · exact lockstep_batch_within inhabited storable inStep index batches thresholds within enough
      sinks
  · simp only [not_forall, Bool.not_eq_true] at within
    obtain ⟨culprit, edge, member, outside⟩ := within
    have few : size + 1 < UInt64.size := by
      have ranks := storable.ranks
      omega
    obtain ⟨failures, last, plays, refusals⟩ := lockstep_batch_outside inhabited few settings
      inStep index batches thresholds member outside sinks
    exact ⟨fun rank => .error (failures rank), last, plays, .refused failures last refusals⟩

/-- Batch after batch, up to the first that is refused, all ranks do the same. -/
theorem lockstep_batches (inhabited : 0 < size) {settings : RunSettings} {edges : Nat}
    (storable : Storable size settings store.shard.bound edges)
    (inStep : ClusterGraph.InStep store graphs) (index : Nat) (stamps : List Int64)
    (batches : Fin size → List Batch) (stamped : ∀ rank, (batches rank).map Batch.newest = stamps)
    (enough : store.shard.edgeCount + streamed batches ≤ edges)
    {sinks : Fin size → Sink} (room : ∀ rank, (sinks rank).room = none) :
    ∃ (outcomes : Fin size → Except Failure (List BatchReport)) (last : Fin size → State generator),
      Lockstep (fun rank => playBatches settings index ⟨graphs rank, sinks rank⟩ (batches rank))
        (fun rank => (outcomes rank, last rank)) ∧
      (∀ rank, (last rank).sink.room = none) ∧ Unanimous outcomes := by
  induction stamps generalizing index store graphs batches sinks with
  | nil =>
      have noBatch : ∀ rank, batches rank = [] := fun rank => List.map_eq_nil_iff.1 (stamped rank)
      simp only [noBatch]
      exact ⟨_, _, .done _, room, .answered fun _ => []⟩
  | cons newest stamps ih =>
      choose first others splits firstStamp otherStamps using fun rank =>
        List.map_eq_cons_iff.1 (stamped rank)
      have asCons : batches = fun rank => first rank :: others rank := funext splits
      rw [asCons, streamed_cons] at enough
      obtain ⟨played, kept, plays, ends⟩ := lockstep_batch inhabited storable inStep index first
        firstStamp (by omega) sinks
      have wrote := fun rank => noted_of_room (room rank) (played rank)
      have laterRoom := fun rank => (wrote rank).2
      simp only [ending, (wrote _).1] at plays
      simp only [splits]
      cases ends with
      | reported reports next bound count books =>
          rw [← bound] at storable
          obtain ⟨outcomes, last, goesOn, lastRoom, one⟩ := ih storable next (index + 1) others
            otherStamps (by omega) laterRoom
          exact ⟨_, last, lockstep_bind plays (lockstep_bind goesOn (.done _)), lastRoom,
            one.map fun rank rest => reports rank :: rest⟩
      | refused failures _ refusals =>
          exact ⟨_, _, lockstep_bind plays (.done _), laterRoom, .refused failures refusals⟩

/-- What the data sets of all ranks have in common: the bound, and the newest timestamps of the
batches. The edges can be any. -/
structure Shared (bound : UInt64) (stamps : List Int64) (datasets : Fin size → Dataset) : Prop where
  bounded (rank : Fin size) : (datasets rank).bound = bound
  stamped (rank : Fin size) : (datasets rank).batches.map Batch.newest = stamps

/-- A data set that the coordinator shares out is shared. -/
theorem shared_sharedOut (dataset : Dataset) :
    Shared dataset.bound (dataset.batches.map Batch.newest)
      fun rank : Fin size => dataset.sharedOut size rank where
  bounded _ := rfl
  stamped rank := by
    rw [Dataset.sharedOut, List.map_map]
    rfl

/-- All trials, each from an empty graph. -/
theorem lockstep_trials (inhabited : 0 < size) {settings : RunSettings} {bound : UInt64}
    {stamps : List Int64} {datasets : Fin size → Dataset} (shared : Shared bound stamps datasets)
    (storable : Storable size settings bound (streamed fun rank => (datasets rank).batches))
    (orders : Fin size → Nat → Orders) (count trial : Nat) {sinks : Fin size → Sink}
    (room : ∀ rank, (sinks rank).room = none) :
    ∃ (outcomes : Fin size → Except Failure (List TrialReport)) (later : Fin size → Sink),
      Lockstep
        (fun rank => playTrials generator (orders rank) settings ⟨rank, size⟩ (datasets rank) count
          trial (sinks rank))
        (fun rank => (outcomes rank, later rank)) ∧ Unanimous outcomes := by
  induction count generalizing trial sinks with
  | zero => exact ⟨_, sinks, .done _, .answered fun _ => []⟩
  | succ count ih =>
      obtain ⟨played, last, plays, lastRoom, one⟩ := lockstep_batches inhabited storable
        (ClusterGraph.inStep_empty generator (fun rank => orders rank trial) bound settings.graph) 0
        stamps (fun rank => (datasets rank).batches) shared.stamped
        (Nat.le_of_eq (Nat.zero_add _)) room
      unfold playTrials
      simp only [shared.bounded]
      cases one with
      | answered batches =>
          obtain ⟨outcomes, later, goesOn, one⟩ := ih (trial + 1) lastRoom
          exact ⟨_, later, lockstep_bind plays (lockstep_bind goesOn (.done _)),
            one.map fun rank others => ⟨trial, batches rank⟩ :: others⟩
      | refused failures refusals =>
          exact ⟨_, _, lockstep_bind plays (.done _), .refused failures refusals⟩

/-- The ranks perform the same operations, and then all of them have reports or all of them are
refused; under every schedule of their messages they come to that end. -/
theorem all_ranks_stay_in_step (inhabited : 0 < size) (settings : RunSettings) {bound : UInt64}
    {stamps : List Int64} {datasets : Fin size → Dataset} (shared : Shared bound stamps datasets)
    (storable : Storable size settings bound (streamed fun rank => (datasets rank).batches))
    (generator : Generator) (orders : Fin size → Nat → Orders) (sinks : Fin size → Sink)
    (room : ∀ rank, (sinks rank).room = none) :
    ∃ (operations : List Operation) (outcomes : Fin size → Except Failure (List TrialReport))
        (later : Fin size → Sink),
      Performs
        (fun rank => run generator (orders rank) settings ⟨rank, size⟩ (datasets rank) (sinks rank))
        operations (fun rank => (outcomes rank, later rank)) ∧
      (Plan.group fun rank =>
        run generator (orders rank) settings ⟨rank, size⟩ (datasets rank) (sinks rank)).Settles
          (List.ofFn fun rank => (outcomes rank, later rank)) ∧
      Unanimous outcomes := by
  obtain ⟨outcomes, later, lockstep, one⟩ :=
    lockstep_trials inhabited shared storable orders settings.trials 0 room
  have settles := lockstep_settles inhabited lockstep
  rcases lockstep with ⟨operations, performs⟩
  exact ⟨operations, outcomes, later, performs, settles, one⟩

/-- Two trials of all stages, with traversals from a vertex that is drawn. -/
def everyStage : RunSettings where
  algorithms := Algorithm.all
  path := ""
  batches := 2
  window := ⟨5, true⟩
  trials := 2
  bound := some 4
  graph := .standard

/-- The second batch has an edge to vertex zero, but only on rank one. -/
def oneOutside : Fin 2 → Dataset
  | 0 => ⟨4, [⟨[⟨1, 2, 3, 0⟩], 1⟩, ⟨[⟨2, 3, 1, 8⟩], 9⟩]⟩
  | 1 => ⟨4, [⟨[⟨2, 1, -3, 1⟩], 1⟩, ⟨[⟨3, 0, 1, 9⟩], 9⟩]⟩

theorem two_ranks_stay_in_step :
    ∃ (operations : List Operation) (outcomes : Fin 2 → Except Failure (List TrialReport))
        (later : Fin 2 → Sink),
      Performs
        (fun rank => run .standard (fun _ => .ascending) everyStage ⟨rank, 2⟩ (oneOutside rank)
          (.empty none))
        operations (fun rank => (outcomes rank, later rank)) ∧
      (Plan.group fun rank : Fin 2 =>
        run .standard (fun _ => .ascending) everyStage ⟨rank, 2⟩ (oneOutside rank)
          (.empty none)).Settles
          (List.ofFn fun rank => (outcomes rank, later rank)) ∧
      Unanimous outcomes := by
  have shared : Shared 4 [1, 9] oneOutside := ⟨by decide, by decide⟩
  exact all_ranks_stay_in_step (by decide) everyStage shared ⟨by decide, by decide, by decide⟩
    .standard (fun _ _ => .ascending) (fun _ => .empty none) fun _ => rfl

end Trial

end StreamGraph
