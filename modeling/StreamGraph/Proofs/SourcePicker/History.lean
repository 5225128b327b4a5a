import StreamGraph.Proofs.Analysis
import StreamGraph.Proofs.SourcePicker.Candidates

/-!
Choices between batches. A history says which batches a graph is given, when old edges are dropped
and when a source is chosen. It can be played on one store, where a choice is simply its outcome,
and on the ranks of a group, each of which gets its own slice of every batch. The choices are the
same; a batch that is refused changes nothing on either side.
-/

namespace StreamGraph

open Plan

variable {generator : Generator} {size : Nat}

namespace ClusterGraph

/-- What a graph goes through. -/
inductive Event (Batch : Type) where
  | evict (threshold : Int64)
  | insert (batch : Batch)
  | choose

def Event.map {First Second : Type} (change : First → Second) : Event First → Event Second
  | evict threshold => .evict threshold
  | insert batch => .insert (change batch)
  | choose => .choose

/-- The slices of a batch one after the other. -/
def wholeBatch (slices : Fin size → List Edge) : List Edge := (List.ofFn slices).flatten

/-- One rank goes through an event, and answers what it has chosen. -/
def undergo (graph : ClusterGraph generator) : Event (List Edge) →
    Plan (List (Except Failure VertexId) × ClusterGraph generator)
  | .evict threshold => do
      let (_, after) ← graph.evict threshold
      return ([], after)
  | .insert edges => do
      let (_, after) ← graph.insert edges
      return ([], after)
  | .choose => do
      let (chosen, picker) ← graph.picker.choose graph.shard
      return ([chosen], graph.repicked picker)

def undergoAll (graph : ClusterGraph generator) : List (Event (List Edge)) →
    Plan (List (Except Failure VertexId) × ClusterGraph generator)
  | [] => return ([], graph)
  | event :: events => do
      let (first, after) ← graph.undergo event
      let (later, last) ← after.undergoAll events
      return (first ++ later, last)

/-- What an event does to a store, without messages. -/
noncomputable def afterEvent (store : ClusterGraph generator) : Event (List Edge) →
    List (Except Failure VertexId) × ClusterGraph generator
  | .evict threshold => ([], (store.dropOld threshold).2)
  | .insert edges =>
      ([], if ∀ edge ∈ edges, edge.isWithin store.shard.bound = true then
        (store.takeIn (Routing.updatesOf edges)).2 else store)
  | .choose =>
      let outcome := store.picker.outcome store.shard.links store.shard.bound
      ([outcome.1], store.repicked outcome.2)

noncomputable def afterHistory (store : ClusterGraph generator) : List (Event (List Edge)) →
    List (Except Failure VertexId) × ClusterGraph generator
  | [] => ([], store)
  | event :: events =>
      let first := store.afterEvent event
      let later := first.2.afterHistory events
      (first.1 ++ later.1, later.2)

/-- The same store, to be shared out in another way. -/
def laidOut (store : ClusterGraph generator) (layout : Layout) : ClusterGraph generator :=
  { store with settings := { store.settings with layout } }

theorem takeIn_laidOut (store : ClusterGraph generator) (layout : Layout) (updates : List Update) :
    ((store.laidOut layout).takeIn updates).2 = (store.takeIn updates).2.laidOut layout := by
  have mode : (store.laidOut layout).nextMode = store.nextMode := rfl
  have sort : (store.laidOut layout).nextSort = store.nextSort := rfl
  have shard : (store.laidOut layout).shard = store.shard := rfl
  unfold takeIn
  simp only [mode, sort, shard]
  cases (store.shard.ingest store.nextSort updates store.nextMode).outcome with
  | error failure => rfl
  | ok stats => rfl

namespace InStep

variable {store : ClusterGraph generator} {layout : Layout}
  {graphs : Fin size → ClusterGraph generator}

/-- A batch comes in on all ranks or on none. -/
theorem lockstep_undergo_insert (inStep : InStep (store.laidOut layout) graphs)
    (inhabited : 0 < size) (few : size + 1 < UInt64.size) {slices : Fin size → List Edge}
    (fits : ∀ rank, Fits (slices rank)) :
    ∃ nexts, Lockstep (fun rank => (graphs rank).undergo (.insert (slices rank)))
        (fun rank => ((store.afterEvent (.insert (wholeBatch slices))).1, nexts rank)) ∧
      InStep ((store.afterEvent (.insert (wholeBatch slices))).2.laidOut layout) nexts := by
  unfold afterEvent
  by_cases within : ∀ edge ∈ wholeBatch slices, edge.isWithin store.shard.bound = true
  · have eachWithin : ∀ rank, ∀ edge ∈ slices rank,
        edge.isWithin (store.laidOut layout).shard.bound = true := by
      intro rank edge member
      exact within edge (Collective.mem_flatten_ofFn.2 ⟨rank, member⟩)
    rcases inStep.lockstep_insert inhabited eachWithin fits with
      ⟨_, stats, nexts, inserts, _, _, next⟩
    rw [takeIn_laidOut] at next
    use nexts
    simp only [if_pos within]
    exact ⟨lockstep_bind inserts (.done _), next⟩
  · have outside := within
    simp only [not_forall] at outside
    rcases outside with ⟨edge, member, outside⟩
    rcases Collective.mem_flatten_ofFn.1 member with ⟨culprit, inSlice⟩
    rcases inStep.lockstep_insert_rejected inhabited few slices inSlice
      (Bool.eq_false_iff.2 outside) with ⟨failures, _, refused⟩
    use graphs
    simp only [if_neg within]
    exact ⟨lockstep_bind refused (.done _), inStep⟩

/-- An event leaves the ranks in step with the store that it has happened to. -/
theorem lockstep_undergo (inStep : InStep (store.laidOut layout) graphs) (inhabited : 0 < size)
    (few : size + 1 < UInt64.size) (event : Event (Fin size → List Edge))
    (fits : ∀ slices, event = .insert slices → ∀ rank, Fits (slices rank)) :
    ∃ nexts, Lockstep
        (fun rank => (graphs rank).undergo (event.map fun slices => slices rank))
        (fun rank => ((store.afterEvent (event.map wholeBatch)).1, nexts rank)) ∧
      InStep ((store.afterEvent (event.map wholeBatch)).2.laidOut layout) nexts := by
  cases event with
  | evict threshold =>
      use fun rank => ((graphs rank).dropOld threshold).2
      constructor
      · exact lockstep_bind (lockstep_evict graphs threshold) (.done _)
      · exact inStep.dropOld threshold
  | insert slices => exact inStep.lockstep_undergo_insert inhabited few (fits slices rfl)
  | choose =>
      have chooses := SourcePicker.lockstep_choose_outcome inStep.parted inhabited
        (inStep.owners inhabited) store.picker
      use fun rank => (graphs rank).repicked
        (store.picker.outcome store.shard.links store.shard.bound).2
      constructor
      · unfold undergo
        simp only [Event.map, inStep.picker]
        exact lockstep_bind chooses (.done _)
      · exact inStep.repicked _

theorem lockstep_undergoAll (inhabited : 0 < size) (few : size + 1 < UInt64.size)
    (events : List (Event (Fin size → List Edge)))
    (fits : ∀ slices, .insert slices ∈ events → ∀ rank, Fits (slices rank))
    (inStep : InStep (store.laidOut layout) graphs) :
    ∃ nexts, Lockstep
        (fun rank => (graphs rank).undergoAll (events.map (Event.map fun slices => slices rank)))
        (fun rank => ((store.afterHistory (events.map (Event.map wholeBatch))).1, nexts rank)) ∧
      InStep ((store.afterHistory (events.map (Event.map wholeBatch))).2.laidOut layout) nexts := by
  induction events generalizing store graphs with
  | nil =>
      use graphs
      exact ⟨.done _, inStep⟩
  | cons event events ih =>
      rcases inStep.lockstep_undergo inhabited few event
        (fun slices here => fits slices (here ▸ List.mem_cons_self ..)) with
        ⟨middles, first, between⟩
      rcases ih (fun slices later => fits slices (List.mem_cons_of_mem _ later)) between with
        ⟨nexts, others, last⟩
      use nexts
      constructor
      · exact lockstep_bind first (lockstep_bind others (.done _))
      · exact last

end InStep

end ClusterGraph

namespace SourcePicker

open ClusterGraph

/-- On every group that holds a graph, all ranks choose the first candidate that an edge leaves, and
their pickers go on alike; without room for an edge they fail before anything is drawn or said. So
whatever batches and evictions come between choices, all groups choose the same. -/
theorem first_usable_candidate_is_chosen (generator : Generator) :
    (∀ (graph : Shard) (size : Nat) (partition : Partition) (parts : Fin size → Shard),
      0 < size → partition.parts = size → Shard.Divided partition graph parts →
      ∀ picker : SourcePicker generator,
        (Plan.group fun rank => picker.choose (parts rank)).Settles
          (List.ofFn fun _ : Fin size => picker.outcome graph.links graph.bound)) ∧
    (∀ (shard : Shard) (picker : SourcePicker generator), shard.bound ≤ 1 →
      picker.choose shard = .done (.error (.noUsableSource 0), picker)) ∧
    ∀ (store : ClusterGraph generator) (history : List (Event (List Edge))),
      (∀ edges, .insert edges ∈ history → Fits edges) →
      ∀ (size : Nat) (layout : Layout) (graphs : Fin size → ClusterGraph generator),
        0 < size → size + 1 < UInt64.size → InStep (store.laidOut layout) graphs →
        ∀ events : List (Event (Fin size → List Edge)),
          events.map (Event.map wholeBatch) = history →
          ∃ nexts : Fin size → ClusterGraph generator,
            (Plan.group fun rank =>
              (graphs rank).undergoAll (events.map (Event.map fun slices => slices rank))).Settles
              (List.ofFn fun rank => ((store.afterHistory history).1, nexts rank)) ∧
            InStep ((store.afterHistory history).2.laidOut layout) nexts := by
  constructor
  · intro graph size partition parts inhabited owners divided picker
    exact lockstep_settles inhabited
      (lockstep_choose_outcome divided.toParted inhabited owners picker)
  constructor
  · intro shard picker narrow
    unfold choose
    rw [if_pos narrow]
    rfl
  · intro store history fits size layout graphs inhabited few inStep events whole
    have slicesFit : ∀ slices, .insert slices ∈ events → ∀ rank, Fits (slices rank) := by
      intro slices member rank
      have inHistory : .insert (wholeBatch slices) ∈ history := by
        rw [← whole]
        exact List.mem_map_of_mem (f := Event.map wholeBatch) member
      apply (fits _ inHistory).sublist
      exact List.sublist_flatten_of_mem (List.mem_ofFn.2 ⟨rank, rfl⟩)
    rcases inStep.lockstep_undergoAll inhabited few events slicesFit with ⟨nexts, plays, last⟩
    rw [whole] at plays last
    exact ⟨nexts, lockstep_settles inhabited plays, last⟩

/-- Two ranks are given the two islands, and drop what is older than four between two choices. -/
def islandTale : List (Event (Fin 2 → List Edge)) :=
  [.insert fun rank => if rank = 0 then Shard.islandEdges.take 4 else Shard.islandEdges.drop 4,
    .choose, .evict 4, .choose]

def islandStore : ClusterGraph .standard := .unshared .standard 7 ⟨.block, true, .random, 42⟩

theorem afterHistory_islandTale :
    (islandStore.afterHistory (islandTale.map (Event.map wholeBatch))).1 = [.ok 1, .ok 3] := by
  have whole : wholeBatch (fun rank : Fin 2 => if rank = 0 then Shard.islandEdges.take 4
      else Shard.islandEdges.drop 4) = Shard.islandEdges := by decide
  have within : ∀ edge ∈ Shard.islandEdges, edge.isWithin islandStore.shard.bound = true := by
    decide
  simp only [islandTale, List.map, Event.map, afterHistory, afterEvent, whole, if_pos within]
  generalize grown : (islandStore.takeIn (Routing.updatesOf Shard.islandEdges)).2 = store
  have first : store.picker.outcome store.shard.links store.shard.bound =
      (.ok 1, store.picker.drawn store.shard.bound 3) := by
    have candidate : Generator.standard.candidate store.shard.bound store.picker.state 2 = 1 := by
      rw [← grown]
      decide +kernel
    rw [← candidate, ← grown]
    exact outcome_of_first (by decide) (by decide +kernel) (by decide +kernel)
  rw [first]
  generalize thinned : ((store.repicked (store.picker.drawn store.shard.bound 3)).dropOld 4).2 =
    later
  have second : later.picker.outcome later.shard.links later.shard.bound =
      (.ok 3, later.picker.drawn later.shard.bound 4) := by
    have candidate : Generator.standard.candidate later.shard.bound later.picker.state 3 = 3 := by
      rw [← thinned, ← grown]
      decide +kernel
    rw [← candidate, ← thinned, ← grown]
    exact outcome_of_first (by decide) (by decide +kernel) (by decide +kernel)
  rw [second]
  rfl

open Shard in
theorem islands_have_first_candidates :
    (Plan.group fun rank : Fin 3 =>
      (ofSeed .standard 42).choose (twoIslands.cut (.cyclic 3) rank)).Settles
      (List.ofFn fun _ : Fin 3 => (.ok 1, (ofSeed .standard 42).drawn 7 3)) ∧
    (ofSeed .standard 42).choose (Shard.empty 0 (.cyclic 1) 1) =
      .done (.error (.noUsableSource 0), ofSeed .standard 42) ∧
    ∃ nexts : Fin 2 → ClusterGraph .standard,
      (Plan.group fun rank : Fin 2 =>
        (ClusterGraph.empty .standard .ascending ⟨rank, 2⟩ 7
          ⟨.block, true, .random, 42⟩).undergoAll
          (islandTale.map (Event.map fun slices => slices rank))).Settles
        (List.ofFn fun rank => ([.ok 1, .ok 3], nexts rank)) := by
  rcases first_usable_candidate_is_chosen .standard with ⟨anywhere, narrow, always⟩
  constructor
  · have settles := anywhere twoIslands 3 (.cyclic 3) _ (by decide) rfl hosted_threeCyclic.divided
      (ofSeed .standard 42)
    have first : (ofSeed .standard 42).outcome twoIslands.links twoIslands.bound =
        (.ok (Generator.standard.candidate 7 (ofSeed .standard 42).state 2),
          (ofSeed .standard 42).drawn 7 3) :=
      outcome_of_first (by decide) (by decide +kernel) (by decide +kernel)
    have candidate : Generator.standard.candidate 7 (ofSeed .standard 42).state 2 = 1 := by
      decide +kernel
    rw [first, candidate] at settles
    exact settles
  constructor
  · exact narrow _ _ (by decide)
  · have fits : ∀ edges, .insert edges ∈ islandTale.map (Event.map wholeBatch) → Fits edges := by
      intro edges member
      simp only [islandTale, List.map, Event.map, List.mem_cons, Event.insert.injEq, reduceCtorEq,
        List.not_mem_nil, or_false] at member
      rw [member]
      decide
    rcases always islandStore (islandTale.map (Event.map wholeBatch)) fits 2 .block _ (by decide)
      (by decide) (inStep_empty .standard (fun _ => .ascending) 7 ⟨.block, true, .random, 42⟩)
      islandTale rfl with ⟨nexts, settles, _⟩
    rw [afterHistory_islandTale] at settles
    exact ⟨nexts, settles⟩

end SourcePicker

end StreamGraph
