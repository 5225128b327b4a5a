import StreamGraph.Proofs.Merge.BulkLoad

/-!
What a refused ingestion leaves. A merge looks at all updates before it touches the shard, so a
refused merge leaves shard and updates as they were; and since folding in and storing new edges
never move a shard, nothing that passed this look can be refused later. A load looks at each update
when its turn comes, and keeps what came before the first that it may not hold. Both stop at the
same update, for the same reason.
-/

namespace StreamGraph

namespace Shard

/-- The first update that may not be held here, and the reason. -/
structure Fault (shard : Shard) (updates front : List Update) (bad : Update) (back : List Update)
    (failure : Failure) : Prop where
  split : updates = front ++ bad :: back
  admits : shard.Admits front
  refused : shard.check bad.edge.src bad.edge.dst = .error failure

theorem firstFault_eq_none_iff (shard : Shard) (updates : List Update) :
    shard.firstFault updates = none ↔ shard.Admits updates := by
  rw [firstFault, List.findSome?_eq_none_iff]
  constructor
  · intro faultless update member
    have passed := faultless update member
    unfold Allowed
    cases checked : shard.check update.edge.src update.edge.dst with
    | ok => rfl
    | error failure =>
        rw [checked] at passed
        cases passed
  · intro admits update member
    rw [admits update member]

theorem exists_fault {shard : Shard} {updates : List Update} {failure : Failure}
    (found : shard.firstFault updates = some failure) :
    ∃ front bad back, Fault shard updates front bad back failure := by
  obtain ⟨front, bad, back, split, refused, passed⟩ := List.findSome?_eq_some_iff.1 found
  refine ⟨front, bad, back, split, ?_, ?_⟩
  · exact (shard.firstFault_eq_none_iff front).1 (List.findSome?_eq_none_iff.2 passed)
  · cases checked : shard.check bad.edge.src bad.edge.dst with
    | ok =>
        rw [checked] at refused
        cases refused
    | error cause =>
        rw [checked] at refused
        cases refused
        rfl

theorem merge_of_fault {shard : Shard} {updates : List Update} {failure : Failure} (order : KeySort)
    (found : shard.firstFault updates = some failure) :
    shard.merge order updates = ⟨shard, updates, .error failure⟩ := by
  rw [merge, found]

/-- A load keeps what came before the fault, and touches nothing behind it. -/
theorem Fault.bulkLoad_eq {shard : Shard} {updates front back : List Update} {bad : Update}
    {failure : Failure} (fault : Fault shard updates front bad back failure) :
    shard.bulkLoad updates = ⟨shard.after (stores front),
      front.map Update.markDone ++ bad :: back, .error failure⟩ := by
  have place := (shard.kept_after (stores front)).place
  have refused : (shard.after (stores front)).insert bad.edge = .error failure := by
    apply insert_of_check
    rw [place.check_eq, fault.refused]
  rw [fault.split, bulkLoad_append fault.admits, bulkLoad, refused]
  rfl

section SecondPass

variable (shard : Shard) (order : KeySort) (updates : List Update)

/-- What folding updates in where there is an edge leaves: the shard and the updates by runs. -/
def folded : Shard × List (List Update) × Nat :=
  shard.absorbRuns (runs (order.sort updates))

/-- The edges that a merge stores then, one for each pair of endpoints that was not there. -/
def newEdges : List Edge :=
  (runs ((shard.folded order updates).2.1.flatten.filter fun update => !update.done)).filterMap
    freshEdge

theorem flatten_folded :
    (shard.folded order updates).2.1.flatten.map Update.markDone =
      (order.sort updates).map Update.markDone := by
  rw [folded, marked_absorbRuns, flatten_runs]

/-- A new edge has the ends of some update. -/
theorem exists_update_of_newEdges {edge : Edge} (member : edge ∈ shard.newEdges order updates) :
    ∃ update ∈ updates, update.edge.src = edge.src ∧ update.edge.dst = edge.dst := by
  obtain ⟨run, inRuns, made⟩ := List.mem_filterMap.1 member
  obtain ⟨first, head, rfl⟩ := Option.map_eq_some_iff.1 made
  have inOpen := mem_of_mem_runs inRuns (List.mem_of_head? head)
  have inMarked := List.mem_map_of_mem (f := Update.markDone) (List.mem_filter.1 inOpen).1
  rw [flatten_folded] at inMarked
  obtain ⟨update, inOrdered, same⟩ := List.mem_map.1 inMarked
  have edges : update.markDone.edge = first.markDone.edge := by rw [same]
  change update.edge = first.edge at edges
  exact ⟨update, (order.perm updates).subset inOrdered, by rw [edges], by rw [edges]⟩

theorem allowed_newEdges (admits : shard.Admits updates) :
    ∀ edge ∈ shard.newEdges order updates,
      (shard.folded order updates).1.Allowed edge.src edge.dst := by
  intro edge member
  obtain ⟨update, inUpdates, src, dst⟩ := shard.exists_update_of_newEdges order updates member
  have place : SamePlace shard (shard.folded order updates).1 := (kept_absorbRuns ..).place
  rw [place.allowed_iff, ← src, ← dst]
  exact admits update inUpdates

end SecondPass

theorem insertAll_of_allowed {shard : Shard} {edges : List Edge}
    (allowed : ∀ edge ∈ edges, shard.Allowed edge.src edge.dst) :
    (shard.insertAll edges).2 = .ok edges.length := by
  induction edges generalizing shard with
  | nil => rfl
  | cons edge rest ih =>
      have later : ∀ other ∈ rest, (shard.put edge).Allowed other.src other.dst := by
        intro other member
        rw [(shard.samePlace_put edge).allowed_iff]
        exact allowed other (List.mem_cons_of_mem _ member)
      rw [insertAll, insert_of_allowed (allowed edge (List.mem_cons_self ..))]
      dsimp only
      rw [ih later]
      rfl

/-- Whatever the first look has let through, storing the new edges does not fail. -/
theorem outcome_second_pass {shard : Shard} {updates : List Update} (order : KeySort)
    (admits : shard.Admits updates) :
    ((shard.folded order updates).1.insertAll (shard.newEdges order updates)).2 =
      .ok (shard.newEdges order updates).length :=
  insertAll_of_allowed (shard.allowed_newEdges order updates admits)

theorem merge_of_admits {shard : Shard} {updates : List Update} (order : KeySort)
    (admits : shard.Admits updates) :
    shard.merge order updates =
      ⟨((shard.folded order updates).1.insertAll (shard.newEdges order updates)).1,
        (shard.folded order updates).2.1.flatten.map Update.markDone,
        .ok ⟨(shard.folded order updates).2.2, (shard.newEdges order updates).length,
          updates.length⟩⟩ := by
  have all : ((shard.folded order updates).2.1.flatten.map Update.markDone).countP
      (fun update => update.done) = updates.length := by
    rw [flatten_folded, countP_markDone, (order.perm updates).length_eq]
  have passes : shard.merge order updates =
      ⟨((shard.folded order updates).1.insertAll (shard.newEdges order updates)).1,
        (shard.folded order updates).2.1.flatten.map Update.markDone,
        ((shard.folded order updates).1.insertAll
          (shard.newEdges order updates)).2.map fun inserted =>
          ⟨(shard.folded order updates).2.2, inserted,
            ((shard.folded order updates).2.1.flatten.map Update.markDone).countP
              fun update => update.done⟩⟩ := by
    rw [merge, (firstFault_eq_none_iff ..).2 admits]
    rfl
  rw [passes, outcome_second_pass order admits, all]
  rfl

/-- In both modes the first fault decides. -/
theorem outcome_ingest_eq_error_iff (shard : Shard) (order : KeySort) (updates : List Update)
    (mode : IngestMode) (failure : Failure) :
    (shard.ingest order updates mode).outcome = .error failure ↔
      shard.firstFault updates = some failure := by
  cases found : shard.firstFault updates with
  | some cause =>
      have refused : (shard.ingest order updates mode).outcome = .error cause := by
        obtain ⟨front, bad, back, fault⟩ := exists_fault found
        cases mode with
        | incremental => exact congrArg Ingestion.outcome (merge_of_fault order found)
        | snapshot => exact congrArg Ingestion.outcome fault.bulkLoad_eq
      rw [refused, Except.error.injEq, Option.some_inj]
  | none =>
      have admits := (shard.firstFault_eq_none_iff updates).1 found
      have accepted : ∃ stats, (shard.ingest order updates mode).outcome = .ok stats := by
        cases mode with
        | incremental => exact ⟨_, congrArg Ingestion.outcome (merge_of_admits order admits)⟩
        | snapshot => exact ⟨_, congrArg Ingestion.outcome (bulkLoad_of_admits admits)⟩
      obtain ⟨stats, outcome⟩ := accepted
      rw [outcome]
      exact ⟨nofun, nofun⟩

/-- An ingestion that succeeds was allowed to hold every update. -/
theorem admits_of_ingest {shard : Shard} {order : KeySort} {updates : List Update}
    {mode : IngestMode} {stats : MergeStats}
    (succeeds : (shard.ingest order updates mode).outcome = .ok stats) :
    shard.Admits updates := by
  rw [← firstFault_eq_none_iff]
  cases found : shard.firstFault updates with
  | none => rfl
  | some failure =>
      rw [(shard.outcome_ingest_eq_error_iff order updates mode failure).2 found] at succeeds
      cases succeeds

/-- When some update may not be held here, a merge and a load fail for the first of them. The merge
leaves everything as it was, the load what it has stored and marked until then. When all may be
held, both succeed, and so does what a merge does after it has changed the shard. -/
theorem refused_ingestions_leave_a_known_state (shard : Shard) (order : KeySort)
    (updates : List Update) :
    ((∃ update ∈ updates, ∃ failure,
        shard.check update.edge.src update.edge.dst = .error failure) →
      ∃ front bad back failure, Fault shard updates front bad back failure ∧
        shard.merge order updates = ⟨shard, updates, .error failure⟩ ∧
        shard.bulkLoad updates = ⟨shard.after (stores front),
          front.map Update.markDone ++ bad :: back, .error failure⟩) ∧
    (shard.Admits updates →
      ((shard.folded order updates).1.insertAll (shard.newEdges order updates)).2 =
          .ok (shard.newEdges order updates).length ∧
        shard.merge order updates =
          ⟨((shard.folded order updates).1.insertAll (shard.newEdges order updates)).1,
            (shard.folded order updates).2.1.flatten.map Update.markDone,
            .ok ⟨(shard.folded order updates).2.2, (shard.newEdges order updates).length,
              updates.length⟩⟩) ∧
    ∀ failure, (shard.merge order updates).outcome = .error failure ↔
      (shard.bulkLoad updates).outcome = .error failure := by
  refine ⟨?_, ?_, ?_⟩
  · rintro ⟨update, member, cause, refused⟩
    cases found : shard.firstFault updates with
    | none =>
        have allowed := (shard.firstFault_eq_none_iff updates).1 found update member
        rw [Allowed, refused] at allowed
        cases allowed
    | some failure =>
        obtain ⟨front, bad, back, fault⟩ := exists_fault found
        exact ⟨front, bad, back, failure, fault, merge_of_fault order found, fault.bulkLoad_eq⟩
  · intro admits
    exact ⟨outcome_second_pass order admits, merge_of_admits order admits⟩
  · intro failure
    have merges := shard.outcome_ingest_eq_error_iff order updates .incremental failure
    have loads := shard.outcome_ingest_eq_error_iff order updates .snapshot failure
    exact merges.trans loads.symm

/-- On rank one of two: an update to a new pair, one to a stored pair, one with a foreign source,
and one out of range. -/
def mixed : List Update :=
  [{ edge := ⟨3, 2, 4, 8⟩ }, { edge := ⟨1, 2, 6, 9⟩ }, { edge := ⟨2, 1, 1, 1⟩ },
    { edge := ⟨1, 9, 1, 1⟩ }]

/-- One edge on rank one of two. -/
def oddShard : Shard := (Shard.empty 1 (.cyclic 2) 4).after [.insert ⟨1, 2, 10, 5⟩]

theorem odd_shard_refuses_a_foreign_source :
    oddShard.merge .stable mixed = ⟨oddShard, mixed, .error (.foreignSource 2 0 1)⟩ ∧
    (oddShard.bulkLoad mixed).shard.edges = [⟨1, 2, 6, 9⟩, ⟨3, 2, 4, 8⟩] ∧
    (oddShard.bulkLoad mixed).updates.map (fun update => update.done) =
      [true, true, false, false] ∧
    (oddShard.bulkLoad mixed).outcome = .error (.foreignSource 2 0 1) ∧
    oddShard.Admits (mixed.take 2) ∧
    ∃ stats, (oddShard.merge .stable (mixed.take 2)).outcome = .ok stats := by
  have refused : ∃ update ∈ mixed, ∃ failure,
      oddShard.check update.edge.src update.edge.dst = .error failure :=
    ⟨{ edge := ⟨2, 1, 1, 1⟩ }, by decide, .foreignSource 2 0 1, rfl⟩
  have admits : oddShard.Admits (mixed.take 2) := by decide
  have outcome : (oddShard.merge .stable mixed).outcome = .error (.foreignSource 2 0 1) := by cbv
  obtain ⟨refuses, _, alike⟩ := refused_ingestions_leave_a_known_state oddShard .stable mixed
  obtain ⟨_, accepts, _⟩ := refused_ingestions_leave_a_known_state oddShard .stable (mixed.take 2)
  obtain ⟨_, _, _, failure, _, merged, _⟩ := refuses refused
  obtain ⟨_, succeeded⟩ := accepts admits
  refine ⟨?_, ?_, ?_, (alike _).1 outcome, admits, _, congrArg Ingestion.outcome succeeded⟩
  · have reason : failure = .foreignSource 2 0 1 :=
      Except.error.inj ((congrArg Ingestion.outcome merged).symm.trans outcome)
    rw [merged, reason]
  · cbv
  · cbv

end Shard

end StreamGraph
