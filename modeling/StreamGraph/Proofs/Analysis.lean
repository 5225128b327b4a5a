import StreamGraph.Proofs.Analytics.Stages
import StreamGraph.Proofs.Cluster
import StreamGraph.Proofs.SourcePicker

/-!
The stages on ranks that are in step with a store. They only read the shards; the picker goes on,
and does so alike on all ranks, whether or not a source was found.
-/

namespace StreamGraph.ClusterGraph

open Plan

variable {generator : Generator} {size : Nat} {store : ClusterGraph generator}
  {graphs : Fin size → ClusterGraph generator}

/-- The graph with its picker in another state. -/
def repicked (graph : ClusterGraph generator) (picker : SourcePicker generator) :
    ClusterGraph generator :=
  { graph with picker }

namespace InStep

theorem repicked (inStep : InStep store graphs) (picker : SourcePicker generator) :
    InStep (store.repicked picker) fun rank => (graphs rank).repicked picker where
  member := inStep.member
  settings := inStep.settings
  retention := inStep.retention
  picker _ := rfl
  inserted := inStep.inserted
  everywhere := inStep.everywhere
  parted := inStep.parted

theorem repicked_self (inStep : InStep store graphs) (rank : Fin size) :
    graphs rank = (graphs rank).repicked store.picker := by
  rw [← inStep.picker rank]
  rfl

/-- The stages can run on the parts of a store that is not too large for its edges to be
gathered. -/
theorem stageReady (inStep : InStep store graphs) (inhabited : 0 < size)
    (ranks : size * 16 < UInt64.size) (edges : store.shard.edgeCount * 32 < UInt64.size)
    (vertices : store.shard.bound.toNat * 8 < UInt64.size) :
    StageReady store.shard.bound fun rank => (graphs rank).shard where
  bounded := inStep.parted.bounded
  sound := inStep.parted.soundPart
  ranks := ranks
  edges := by
    have counts : ∀ rank, (graphs rank).shard.edges.length = (graphs rank).shard.edgeCount :=
      fun rank => (inStep.parted.soundPart rank).length_edges
    simp only [counts, inStep.parted.sum_edgeCount (inStep.owners inhabited) inhabited]
    exact edges
  vertices := vertices

theorem lockstep_pickSources (inStep : InStep store graphs) (inhabited : 0 < size)
    (ranks : size * 16 < UInt64.size) :
    ∃ chosen picker, Verdict chosen ∧ (∀ sources, chosen = .ok sources → sources ≠ []) ∧
      Lockstep (fun rank => (graphs rank).pickSources)
        fun rank => (chosen, (graphs rank).repicked picker) := by
  have selections : ∀ rank,
      (graphs rank).settings.selection = store.settings.selection := by
    intro rank
    rw [inStep.settings]
  unfold pickSources
  simp only [selections, inStep.picker]
  cases store.settings.selection with
  | random =>
      obtain ⟨chosen, picker, verdict, picks⟩ := SourcePicker.lockstep_choose inhabited
        inStep.parted.bounded store.picker
      refine ⟨_, picker, ?_, ?_, lockstep_bind picks (.done _)⟩
      · cases verdict with
        | answer vertex => exact .answer [vertex]
        | refusal failure isRefusal => exact .refusal failure isRefusal
      · intro sources chosenIs
        cases verdict with
        | answer vertex =>
            cases chosenIs
            exact List.cons_ne_nil vertex []
        | refusal => cases chosenIs
  | highestDegree =>
      obtain ⟨vertex, highest⟩ := Query.together_highestDegreeVertex inhabited ranks
        fun rank => (graphs rank).shard
      cases vertex with
      | none =>
          refine ⟨_, store.picker, .refusal (.noUsableSource 1) trivial, ?_,
            lockstep_bind highest ?_⟩
          · intro sources chosenIs
            cases chosenIs
          · simp only [← inStep.repicked_self]
            exact .done _
      | some vertex =>
          refine ⟨_, store.picker, .answer [vertex], ?_, lockstep_bind highest ?_⟩
          · intro sources chosenIs
            cases chosenIs
            exact List.cons_ne_nil vertex []
          · simp only [← inStep.repicked_self]
            exact .done _

end InStep

theorem lockstep_runFrom {bound : UInt64} (graphs : Fin size → ClusterGraph generator)
    (ready : StageReady bound fun rank => (graphs rank).shard) (inhabited : 0 < size)
    (algorithm : Algorithm) (sources : List VertexId)
    (given : algorithm.needsSources = true → sources.isEmpty = false) :
    ∃ outcomes, Unanimous outcomes ∧
      Lockstep (fun rank => (graphs rank).runFrom algorithm sources) outcomes := by
  obtain ⟨outcomes, one, runs⟩ := Algorithm.agreed_run ready inhabited
    (fun rank => (graphs rank).scan) algorithm sources given
  refine ⟨outcomes, one, lockstep_bind runs ?_⟩
  cases one with
  | answered answers => exact .barrier (.done _)
  | refused failures refusals => exact .done _

namespace InStep

theorem lockstep_analyze (inStep : InStep store graphs) (inhabited : 0 < size)
    (ranks : size * 16 < UInt64.size) (edges : store.shard.edgeCount * 32 < UInt64.size)
    (vertices : store.shard.bound.toNat * 8 < UInt64.size) (algorithm : Algorithm) :
    ∃ outcomes picker, Unanimous outcomes ∧
      Lockstep (fun rank => (graphs rank).analyze algorithm)
        fun rank => (outcomes rank, (graphs rank).repicked picker) := by
  have ready := inStep.stageReady inhabited ranks edges vertices
  unfold analyze
  cases needs : algorithm.needsSources with
  | true =>
      obtain ⟨chosen, picker, verdict, nonempty, picks⟩ :=
        inStep.lockstep_pickSources inhabited ranks
      cases verdict with
      | answer sources =>
          have given : sources.isEmpty = false := by
            simpa using nonempty sources rfl
          obtain ⟨outcomes, one, runs⟩ := lockstep_runFrom
            (fun rank => (graphs rank).repicked picker) ready inhabited algorithm sources
            fun _ => given
          exact ⟨outcomes, picker, one, lockstep_bind picks (lockstep_bind runs (.done _))⟩
      | refusal failure isRefusal =>
          exact ⟨_, picker, .refused (fun _ => failure) fun _ => isRefusal,
            lockstep_bind picks (.done _)⟩
  | false =>
      obtain ⟨outcomes, one, runs⟩ := lockstep_runFrom graphs ready inhabited algorithm []
        fun needed => absurd (needed.symm.trans needs) (by decide)
      refine ⟨outcomes, store.picker, one, lockstep_bind runs ?_⟩
      simp only [← inStep.repicked_self]
      exact .done _

/-- All ranks run the stages up to the same one. -/
theorem lockstep_analyzeAll (inStep : InStep store graphs) (inhabited : 0 < size)
    (ranks : size * 16 < UInt64.size) (edges : store.shard.edgeCount * 32 < UInt64.size)
    (algorithms : List Algorithm)
    (vertices : algorithms ≠ [] → store.shard.bound.toNat * 8 < UInt64.size) :
    ∃ outcomes picker, Unanimous outcomes ∧
      Lockstep (fun rank => (graphs rank).analyzeAll algorithms)
        fun rank => (outcomes rank, (graphs rank).repicked picker) := by
  induction algorithms generalizing store graphs with
  | nil =>
      refine ⟨_, store.picker, .answered fun _ => (), ?_⟩
      simp only [← inStep.repicked_self]
      exact .done _
  | cons algorithm others ih =>
      obtain ⟨outcomes, picker, one, analyzes⟩ := inStep.lockstep_analyze inhabited ranks edges
        (vertices (List.cons_ne_nil algorithm others)) algorithm
      cases one with
      | answered answers =>
          obtain ⟨outcomes, last, one, goesOn⟩ := ih (inStep.repicked picker) edges
            fun _ => vertices (List.cons_ne_nil algorithm others)
          exact ⟨outcomes, last, one, lockstep_bind analyzes goesOn⟩
      | refused failures refusals =>
          exact ⟨_, picker, .refused failures refusals, lockstep_bind analyzes (.done _)⟩

end InStep

end StreamGraph.ClusterGraph
