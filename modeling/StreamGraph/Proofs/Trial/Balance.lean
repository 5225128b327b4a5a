import StreamGraph.Proofs.Cluster.Census
import StreamGraph.Proofs.Trial.Lockstep
import StreamGraph.Proofs.Trial.RankCount

/-!
The books of a trial. What a summary shows after a batch is what the ranks have reported as coming
in, less what they have reported as going, up to that batch. Lines may get lost on some ranks, and
then not all ranks come to the end; but a rank that has failed never reports, so when all ranks
report, all of them have been in step from batch to batch. Each batch balances, and the balance of
a trial is that of its batches, one after the other.
-/

namespace StreamGraph

variable {generator : Generator} {size : Nat} {store : ClusterGraph generator}
  {graphs : Fin size → ClusterGraph generator}

open Plan Relation

namespace Trial

/-- What a rank reports as come in, less what it reports as gone. -/
def net (reports : List BatchReport) : Int :=
  (reports.map fun report => (report.inserted : Int) - report.evicted).sum

@[simp] theorem net_nil : net [] = 0 := rfl

theorem net_cons (report : BatchReport) (reports : List BatchReport) :
    net (report :: reports) = (report.inserted - report.evicted) + net reports := List.sum_cons

/-- After each batch, the number of edges that any rank shows is what all ranks have reported up
to it, on top of what was there. -/
def Balanced (start : Nat) (reports : Fin size → List BatchReport) : Prop :=
  ∀ (index : Nat) (rank : Fin size) (report : BatchReport), (reports rank)[index]? = some report →
    (report.summary.edges.toNat : Int) = start + ∑ other, net ((reports other).take (index + 1))

theorem balanced_nil (start : Nat) : Balanced start fun _ : Fin size => [] := nofun

/-- A batch whose books are right goes before the others. -/
theorem Balanced.cons {before after : Nat} {first : Fin size → BatchReport}
    {reports : Fin size → List BatchReport} (books : Books before after first)
    (fits : after < UInt64.size) (later : Balanced after reports) :
    Balanced before fun rank => first rank :: reports rank := by
  have change : (after : Int) =
      before + ∑ rank, ((first rank).inserted - (first rank).evicted : Int) := by
    have balance := books.balance
    rw [Finset.sum_sub_distrib, ← Nat.cast_sum, ← Nat.cast_sum]
    omega
  intro index rank report found
  cases index with
  | zero =>
      cases found
      simp only [List.take_succ_cons, List.take_zero, net_cons, net_nil, add_zero, books.shown,
        UInt64.toNat_ofNat_of_lt' fits, change]
  | succ index =>
      have rest := later index rank report found
      simp only [List.take_succ_cons, net_cons, Finset.sum_add_distrib]
      omega

/-- Ranks that all end well have gone in step through their batches, and their reports balance.
What they do afterwards can be anything, as long as a rank does not end well after a failure. -/
theorem balanced_batches {Outcome : Type} (inhabited : 0 < size) {settings : RunSettings}
    {edges : Nat} (storable : Storable size settings store.shard.bound edges)
    (inStep : ClusterGraph.InStep store graphs) (index : Nat) (stamps : List Int64)
    (batches : Fin size → List Batch) (stamped : ∀ rank, (batches rank).map Batch.newest = stamps)
    (enough : store.shard.edgeCount + streamed batches ≤ edges) (sinks : Fin size → Sink)
    (after : Fin size → Except Failure (List BatchReport) × State generator → Plan Outcome)
    (good : Outcome → Prop)
    (fails : ∀ rank failure state, (after rank (.error failure, state)).Finds fun found =>
      ¬ good found)
    {found : Fin size → Outcome} (goods : ∀ rank, good (found rank))
    (ends : (Plan.group fun rank => (playBatches settings index ⟨graphs rank, sinks rank⟩
      (batches rank)).bind (after rank)).Ends (List.ofFn fun rank => some (found rank))) :
    ∃ (reports : Fin size → List BatchReport) (last : Fin size → State generator),
      (Plan.group fun rank => after rank (.ok (reports rank), last rank)).Ends
        (List.ofFn fun rank => some (found rank)) ∧
      Balanced store.shard.edgeCount reports := by
  induction stamps generalizing index store graphs batches sinks after with
  | nil =>
      have noBatch : ∀ rank, batches rank = [] := fun rank => List.map_eq_nil_iff.1 (stamped rank)
      simp only [noBatch] at ends
      exact ⟨fun _ => [], _, ends, balanced_nil _⟩
  | cons newest stamps ih =>
      choose first others splits firstStamp otherStamps using fun rank =>
        List.map_eq_cons_iff.1 (stamped rank)
      have asCons : batches = fun rank => first rank :: others rank := funext splits
      rw [asCons, streamed_cons] at enough
      obtain ⟨outcomes, last, plays, outcome⟩ := lockstep_batch inhabited storable inStep index
        first firstStamp (by omega) sinks
      simp only [splits, playBatches_bind] at ends
      rw [ends_iff_of_lockstep inhabited plays] at ends
      -- a rank that came to the end has kept its report
      have kept : ∀ rank, ∃ report, (noted (sinks rank) (outcomes rank)).1 = .ok report := by
        intro rank
        cases played : (noted (sinks rank) (outcomes rank)).1 with
        | ok report => exact ⟨report, rfl⟩
        | error failure =>
            have finds := fails rank failure ⟨last rank, (noted (sinks rank) (outcomes rank)).2⟩
            apply absurd (goods rank)
            apply found_of_ends (fun found => ¬ good found) rank _ ends
            simpa only [ending, played] using finds
      cases outcome with
      | refused failures _ _ =>
          obtain ⟨_, reported⟩ := kept ⟨0, inhabited⟩
          cases reported
      | reported reports next bound count books =>
          have same : ∀ rank, (noted (sinks rank) (.ok (reports rank))).1 = .ok (reports rank) := by
            intro rank
            obtain ⟨report, written⟩ := kept rank
            rwa [← outcome_of_noted written] at written
          simp only [ending, same] at ends
          rw [← bound] at storable
          obtain ⟨laterReports, final, onward, later⟩ := ih storable next (index + 1) others
            otherStamps (by omega) _
            (fun rank found => after rank (found.1.map (reports rank :: ·), found.2))
            (fun rank failure state => fails rank failure state) ends
          have bytes := storable.edges
          exact ⟨_, final, onward, later.cons books (by omega)⟩

/-- What is reported of a trial, if it has been played. -/
def batchesOf (reports : List TrialReport) (number : Nat) : List BatchReport :=
  (reports[number]?.map TrialReport.batches).getD []

/-- What follows some trials follows the batches of the first, by way of the others unless one of
these fails. -/
theorem playTrials_bind {Outcome : Type} (orders : Nat → Orders) (settings : RunSettings)
    (member : Member) (dataset : Dataset) (count trial : Nat) (sink : Sink)
    (after : Except Failure (List TrialReport) × Sink → Plan Outcome) :
    (playTrials generator orders settings member dataset (count + 1) trial sink).bind after =
      (playBatches settings 0 ⟨ClusterGraph.empty generator (orders trial) member dataset.bound
        settings.graph, sink⟩ dataset.batches).bind fun played =>
          match played.1 with
          | .error failure => after (.error failure, played.2.sink)
          | .ok batches => (playTrials generator orders settings member dataset count (trial + 1)
              played.2.sink).bind fun others =>
                after (others.1.map (⟨trial, batches⟩ :: ·), others.2) := by
  apply (bind_assoc ..).trans
  congr 1
  funext played
  rcases played with ⟨failure | batches, state⟩
  · rfl
  · exact bind_assoc ..

/-- The same for all trials: each begins with nothing stored, and its reports balance. -/
theorem balanced_trials {Outcome : Type} (inhabited : 0 < size) {settings : RunSettings}
    {bound : UInt64} {stamps : List Int64} {datasets : Fin size → Dataset}
    (shared : Shared bound stamps datasets)
    (storable : Storable size settings bound (streamed fun rank => (datasets rank).batches))
    (orders : Fin size → Nat → Orders) (count trial : Nat) (sinks : Fin size → Sink)
    (after : Fin size → Except Failure (List TrialReport) × Sink → Plan Outcome)
    (good : Outcome → Prop)
    (fails : ∀ rank failure sink, (after rank (.error failure, sink)).Finds fun found =>
      ¬ good found)
    {found : Fin size → Outcome} (goods : ∀ rank, good (found rank))
    (ends : (Plan.group fun rank => (playTrials generator (orders rank) settings ⟨rank, size⟩
      (datasets rank) count trial (sinks rank)).bind (after rank)).Ends
        (List.ofFn fun rank => some (found rank))) :
    ∃ (reports : Fin size → List TrialReport) (later : Fin size → Sink),
      (Plan.group fun rank => after rank (.ok (reports rank), later rank)).Ends
        (List.ofFn fun rank => some (found rank)) ∧
      ∀ number, Balanced 0 fun rank => batchesOf (reports rank) number := by
  induction count generalizing trial sinks after with
  | zero => exact ⟨fun _ => [], sinks, ends, fun _ => balanced_nil 0⟩
  | succ count ih =>
      simp only [playTrials_bind, shared.bounded] at ends
      obtain ⟨reports, last, onward, balanced⟩ := balanced_batches inhabited storable
        (ClusterGraph.inStep_empty generator (fun rank => orders rank trial) bound settings.graph) 0
        stamps (fun rank => (datasets rank).batches) shared.stamped
        (Nat.le_of_eq (Nat.zero_add _)) sinks _ good
        (fun rank failure state => fails rank failure state.sink) goods ends
      obtain ⟨others, later, toEnd, rest⟩ := ih (trial + 1) _
        (fun rank found => after rank (found.1.map (⟨trial, reports rank⟩ :: ·), found.2))
        (fun rank failure sink => fails rank failure sink) onward
      refine ⟨_, later, toEnd, fun number => ?_⟩
      cases number with
      | zero => exact balanced
      | succ number => exact rest number

theorem balanced_run (inhabited : 0 < size) {settings : RunSettings} {bound : UInt64}
    {stamps : List Int64} {datasets : Fin size → Dataset} (shared : Shared bound stamps datasets)
    (storable : Storable size settings bound (streamed fun rank => (datasets rank).batches))
    (orders : Fin size → Nat → Orders) (sinks : Fin size → Sink)
    {reports : Fin size → List TrialReport} {later : Fin size → Sink}
    (ends : (Plan.group fun rank => run generator (orders rank) settings ⟨rank, size⟩
      (datasets rank) (sinks rank)).Ends
        (List.ofFn fun rank => some (.ok (reports rank), later rank))) (number : Nat) :
    Balanced 0 fun rank => batchesOf (reports rank) number := by
  have played : (Plan.group fun rank => (playTrials generator (orders rank) settings ⟨rank, size⟩
      (datasets rank) settings.trials 0 (sinks rank)).bind .done).Ends
        (List.ofFn fun rank => some (.ok (reports rank), later rank)) := by
    simp only [bind_done]
    exact ends
  obtain ⟨others, last, toEnd, balanced⟩ := balanced_trials inhabited shared storable
    orders settings.trials 0 sinks (fun _ => .done) (fun found => ∃ reports, found.1 = .ok reports)
    (fun _ _ _ => nofun) (fun rank => ⟨reports rank, rfl⟩) played
  have same : reports = others := by
    funext rank
    apply found_of_ends (fun found => ∀ answer, found.1 = .ok answer → answer = others rank) rank
      _ toEnd (reports rank) rfl
    intro answer equal
    exact (Except.ok.inj equal).symm
  rw [same]
  exact balanced number

open ClusterGraph in
/-- In every state that calls can bring a group to, the queries answer on every rank with what the
group holds, and a batch that comes in, or an eviction, changes that by what the ranks report. When
all ranks come to the end of their trials, under whatever schedule, each summary shows what all of
them have reported up to then. -/
theorem counts_are_exact_and_balance (inhabited : 0 < size) :
    (∀ (layout : Layout) (bound : UInt64) (graphs : Fin size → ClusterGraph generator),
      Reachable layout bound graphs →
      Counted graphs ∧
      (∀ (slices : Fin size → List Edge) (stats : Fin size → MergeStats)
          (nexts : Fin size → ClusterGraph generator),
        ReflTransGen Group.Step (Plan.group fun rank => (graphs rank).insert (slices rank))
          ⟨.empty, List.ofFn fun rank => .done (.ok (stats rank), nexts rank)⟩ →
        Reachable layout bound nexts ∧
        (held nexts).ncard = (held graphs).ncard + ∑ rank, (stats rank).inserted ∧
        (heldSources graphs).ncard ≤ (heldSources nexts).ncard) ∧
      ∀ (thresholds : Fin size → Int64) (removed : Fin size → Nat)
          (nexts : Fin size → ClusterGraph generator),
        ReflTransGen Group.Step (Plan.group fun rank => (graphs rank).evict (thresholds rank))
          ⟨.empty, List.ofFn fun rank => .done (removed rank, nexts rank)⟩ →
        Reachable layout bound nexts ∧
        ∑ rank, removed rank + (held nexts).ncard = (held graphs).ncard) ∧
    ∀ (settings : RunSettings) (bound : UInt64) (stamps : List Int64)
        (datasets : Fin size → Dataset), Shared bound stamps datasets →
      Storable size settings bound (streamed fun rank => (datasets rank).batches) →
      ∀ (orders : Fin size → Nat → Orders) (sinks : Fin size → Sink)
          (reports : Fin size → List TrialReport) (later : Fin size → Sink),
        (Plan.group fun rank => run generator (orders rank) settings ⟨rank, size⟩ (datasets rank)
          (sinks rank)).Ends (List.ofFn fun rank => some (.ok (reports rank), later rank)) →
        ∀ number, Balanced 0 fun rank => batchesOf (reports rank) number := by
  constructor
  · intro layout bound graphs reachable
    refine ⟨reachable.counted inhabited, ?_, ?_⟩
    · intro slices stats nexts run
      exact reachable.grows_of_insert run
    · intro thresholds removed nexts run
      exact reachable.shrinks_of_evict run
  · intro settings bound stamps datasets shared storable orders sinks reports later ends
    exact balanced_run inhabited shared storable orders sinks ends

open ClusterGraph Reachable in
theorem two_ranks_balance :
    (∃ (stats : Fin 2 → MergeStats) (taken : Fin 2 → ClusterGraph .standard)
        (removed : Fin 2 → Nat) (last : Fin 2 → ClusterGraph .standard),
      (Plan.group fun rank => (pair rank).insert (soundSlices rank)).Settles
        (List.ofFn fun rank => (.ok (stats rank), taken rank)) ∧
      (Plan.group fun rank => (taken rank).evict 9).Settles
        (List.ofFn fun rank => (removed rank, last rank)) ∧
      Counted pair ∧ Counted taken ∧ Counted last ∧
      (held taken).ncard = (held pair).ncard + ∑ rank, (stats rank).inserted ∧
      ∑ rank, removed rank + (held last).ncard = (held taken).ncard) ∧
    ∃ (reports : Fin 2 → List TrialReport) (later : Fin 2 → Sink),
      (Plan.group fun rank : Fin 2 => run .standard (fun _ => .ascending) windowed ⟨rank, 2⟩
        (threeEdges.sharedOut 2 rank) (.empty none)).Settles
          (List.ofFn fun rank => (.ok (reports rank), later rank)) ∧
      (∀ rank, (batchesOf (reports rank) 0).length = 2) ∧
      ∀ number, Balanced 0 fun rank => batchesOf (reports rank) number := by
  have inhabited : 0 < 2 := by decide
  obtain ⟨calls, trials⟩ := @counts_are_exact_and_balance .standard 2 inhabited
  constructor
  · have inStep : InStep ((unshared .standard 4 replacing).dropOld 5).2 pair :=
      (inStep_empty .standard (fun _ => .ascending) 4 replacing).dropOld 5
    have within : ∀ rank, ∀ edge ∈ soundSlices rank, edge.isWithin 4 = true := by decide
    have fits : ∀ rank, Fits (soundSlices rank) := by decide
    obtain ⟨_, stats, taken, inserts, _, _, _⟩ := inStep.lockstep_insert inhabited within fits
    have evicts := lockstep_evict taken 9
    obtain ⟨before, insertion, _⟩ := calls .cyclic 4 pair reachable_pair
    obtain ⟨between, grown, _⟩ := insertion _ stats taken (run_of_lockstep inhabited inserts)
    obtain ⟨during, _, eviction⟩ := calls _ _ taken between
    obtain ⟨later, shrunk⟩ := eviction (fun _ => 9) _ _ (run_of_lockstep inhabited evicts)
    exact ⟨stats, taken, _, _, lockstep_settles inhabited inserts,
      lockstep_settles inhabited evicts, before, during, (calls _ _ _ later).1, grown, shrunk⟩
  · have plain : windowed.algorithms = [] := rfl
    obtain ⟨reports, states, played, same, _⟩ := lockstep_playBatches inhabited plain
      threeEdges.batches 0 (holds_empty .standard (fun _ => .ascending) 4 windowed.graph)
      (fun _ => .empty none) (fun _ => rfl) (by decide) (by decide)
    have runs : Lockstep (fun rank : Fin 2 => run .standard (fun _ => .ascending) windowed
        ⟨rank, 2⟩ (threeEdges.sharedOut 2 rank) (.empty none)) fun rank =>
          (.ok [⟨0, reports rank⟩], (states rank).sink) := lockstep_bind played (.done _)
    have settles := lockstep_settles inhabited runs
    have ends := settles.can_end
    rw [List.map_ofFn] at ends
    refine ⟨fun rank => [⟨0, reports rank⟩], _, settles, ?_, ?_⟩
    · intro rank
      have lengths := congrArg List.length (same.batches rank)
      rw [List.length_map, List.length_map] at lengths
      exact lengths
    · exact trials windowed 4 _ _ (shared_sharedOut threeEdges) ⟨by decide, by decide, by decide⟩
        _ _ _ _ ends

end Trial

end StreamGraph
