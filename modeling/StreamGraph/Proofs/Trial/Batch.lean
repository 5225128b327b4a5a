import StreamGraph.Proofs.Cluster
import StreamGraph.Trial

/-!
One batch on all ranks. The old edges go, the new ones come in, and if the stages run on all ranks
the summaries are written: then all ranks report, and they are in step with the store that has
been through the same batch. What follows a list of batches is split here at the first of them.
-/

namespace StreamGraph

variable {generator : Generator} {size : Nat} {store : ClusterGraph generator}
  {graphs : Fin size → ClusterGraph generator}

open Plan

namespace ClusterGraph

/-- What the eviction of a batch does to one graph; without a threshold nothing goes. -/
def dropBefore (graph : ClusterGraph generator) : Option Int64 → Nat × ClusterGraph generator
  | none => (0, graph)
  | some threshold => graph.dropOld threshold

theorem bound_dropBefore (graph : ClusterGraph generator) (threshold : Option Int64) :
    (graph.dropBefore threshold).2.shard.bound = graph.shard.bound := by
  cases threshold <;> rfl

theorem lockstep_evictBefore (graphs : Fin size → ClusterGraph generator)
    (threshold : Option Int64) :
    Lockstep (fun rank => Trial.evictBefore threshold (graphs rank)) fun rank =>
      (((graphs rank).dropBefore threshold).1, ((graphs rank).dropBefore threshold).2) := by
  cases threshold with
  | none => exact .done _
  | some threshold => exact lockstep_evict graphs threshold

namespace InStep

theorem dropBefore (inStep : InStep store graphs) (threshold : Option Int64) :
    InStep (store.dropBefore threshold).2 fun rank => ((graphs rank).dropBefore threshold).2 := by
  cases threshold with
  | none => exact inStep
  | some threshold => exact inStep.dropOld threshold

theorem sum_droppedBefore (inStep : InStep store graphs) (inhabited : 0 < size)
    (threshold : Option Int64) :
    ∑ rank, ((graphs rank).dropBefore threshold).1 = (store.dropBefore threshold).1 := by
  cases threshold with
  | none => exact Finset.sum_const_zero
  | some threshold => exact inStep.sum_dropped inhabited threshold

end InStep

end ClusterGraph

namespace Trial

/-- What a rank reports when its summary shows a store. -/
def report (index : Nat) (threshold : Option Int64) (evicted inserted : Nat)
    (store : ClusterGraph generator) (rank : Nat) : BatchReport :=
  ⟨index, threshold, evicted, inserted,
    ⟨rank, UInt64.ofNat store.shard.activeVertices, UInt64.ofNat store.shard.edgeCount⟩⟩

/-- What a rank makes of the outcome of a batch: a report whose line finds no room is lost. -/
def noted (sink : Sink) (outcome : Except Failure BatchReport) :
    Except Failure BatchReport × Sink :=
  match outcome with
  | .error failure => (.error failure, sink)
  | .ok report =>
      let (written, after) := sink.write (Interchange.write report.summary)
      (written.map fun _ => report, after)

theorem noted_of_room {sink : Sink} (room : sink.room = none)
    (outcome : Except Failure BatchReport) :
    (noted sink outcome).1 = outcome ∧ (noted sink outcome).2.room = none := by
  cases outcome with
  | error failure => exact ⟨rfl, room⟩
  | ok report =>
      unfold noted Sink.write
      rw [room]
      exact ⟨rfl, rfl⟩

theorem outcome_of_noted {sink : Sink} {outcome : Except Failure BatchReport}
    {report : BatchReport} (kept : (noted sink outcome).1 = .ok report) : outcome = .ok report := by
  cases outcome with
  | error failure => cases kept
  | ok other =>
      unfold noted at kept
      dsimp only at kept
      cases written : (sink.write (Interchange.write other.summary)).1 with
      | error failure =>
          rw [written] at kept
          cases kept
      | ok _ =>
          rw [written] at kept
          exact kept

/-- What a rank is left with when a batch has ended: its graph, and a sink that has taken the line
of its report if there was room. -/
def ending (sink : Sink) (outcome : Except Failure BatchReport) (graph : ClusterGraph generator) :
    Except Failure BatchReport × State generator :=
  ((noted sink outcome).1, ⟨graph, (noted sink outcome).2⟩)

/-- All ranks come to the writing of a batch if the stages run on all of them. -/
theorem lockstep_playBatch_noted (inhabited : 0 < size) (settings : RunSettings) (index : Nat)
    (batches : Fin size → Batch) {threshold : Option Int64} (sinks : Fin size → Sink)
    {evicted : Fin size → Nat} {kept taken last : Fin size → ClusterGraph generator}
    {stats : Fin size → MergeStats} {final : ClusterGraph generator}
    (thresholds : ∀ rank, thresholdAt settings (batches rank) = threshold)
    (evicts : Lockstep (fun rank => evictBefore threshold (graphs rank))
      fun rank => (evicted rank, kept rank))
    (inserts : Lockstep (fun rank => (kept rank).insert (batches rank).edges)
      fun rank => (.ok (stats rank), taken rank))
    (analyzes : Lockstep (fun rank => (taken rank).analyzeAll settings.algorithms)
      fun rank => (.ok (), last rank))
    (inStep : ClusterGraph.InStep final last) :
    Lockstep (fun rank => playBatch settings index (batches rank) ⟨graphs rank, sinks rank⟩)
      fun rank => ending (sinks rank)
        (.ok (report index threshold (evicted rank) (stats rank).inserted final rank))
        (last rank) := by
  unfold playBatch
  simp only [thresholds]
  apply lockstep_bind evicts
  apply lockstep_bind inserts
  apply lockstep_bind analyzes
  apply lockstep_bind (inStep.together_summary inhabited)
  exact .done _

/-- All ranks come through a batch if the stages run on all of them and there is room for their
lines. -/
theorem lockstep_playBatch (inhabited : 0 < size) (settings : RunSettings) (index : Nat)
    (batches : Fin size → Batch) {threshold : Option Int64} {sinks : Fin size → Sink}
    {evicted : Fin size → Nat} {kept taken last : Fin size → ClusterGraph generator}
    {stats : Fin size → MergeStats} {final : ClusterGraph generator}
    (room : ∀ rank, (sinks rank).room = none)
    (thresholds : ∀ rank, thresholdAt settings (batches rank) = threshold)
    (evicts : Lockstep (fun rank => evictBefore threshold (graphs rank))
      fun rank => (evicted rank, kept rank))
    (inserts : Lockstep (fun rank => (kept rank).insert (batches rank).edges)
      fun rank => (.ok (stats rank), taken rank))
    (analyzes : Lockstep (fun rank => (taken rank).analyzeAll settings.algorithms)
      fun rank => (.ok (), last rank))
    (inStep : ClusterGraph.InStep final last) :
    ∃ later : Fin size → Sink, (∀ rank, (later rank).room = none) ∧
      Lockstep (fun rank => playBatch settings index (batches rank) ⟨graphs rank, sinks rank⟩)
        fun rank => (.ok (report index threshold (evicted rank) (stats rank).inserted final rank),
          ⟨last rank, later rank⟩) := by
  have plays := lockstep_playBatch_noted inhabited settings index batches sinks thresholds evicts
    inserts analyzes inStep
  have wrote := fun rank => noted_of_room (room rank)
    (.ok (report index threshold (evicted rank) (stats rank).inserted final rank))
  simp only [ending, (wrote _).1] at plays
  exact ⟨_, fun rank => (wrote rank).2, plays⟩

/-- What follows a list of batches follows its first batch, by way of the others unless the first
fails. -/
theorem playBatches_bind {Outcome : Type} (settings : RunSettings) (index : Nat)
    (state : State generator) (batch : Batch) (batches : List Batch)
    (after : Except Failure (List BatchReport) × State generator → Plan Outcome) :
    (playBatches settings index state (batch :: batches)).bind after =
      (playBatch settings index batch state).bind fun played =>
        match played.1 with
        | .error failure => after (.error failure, played.2)
        | .ok report => (playBatches settings (index + 1) played.2 batches).bind fun others =>
            after (others.1.map (report :: ·), others.2) := by
  apply (bind_assoc ..).trans
  congr 1
  funext played
  rcases played with ⟨failure | report, state⟩
  · rfl
  · exact bind_assoc ..

end Trial

end StreamGraph
