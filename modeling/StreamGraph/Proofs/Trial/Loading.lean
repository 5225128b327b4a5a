import StreamGraph.Proofs.Dataset.Admission
import StreamGraph.Trial

/-!
When there is nothing to play. Whether the ranks get a data set is decided by what the coordinator
has announced, and by nothing that only one rank knows; so all of them get their shares or all of
them fail, at the same operation and with nothing left on the way. A coordinator whose loading
failed announces as much, and no rank goes beyond that announcement. But a coordinator whose loading
breaks off announces nothing, and all others wait for it.
-/

namespace StreamGraph

open Collective

variable {generator : Generator} {size : Nat}

namespace Dataset

/-- What the coordinator's data set comes to for the whole group. -/
def verdict (passed : Option Dataset) (count : Nat) : Except LayoutFault Dataset :=
  match passed with
  | none => .error .noDataset
  | some dataset =>
      if dataset.bound = 0 then .error .noDataset
      else if dataset.batches.length = count then .ok dataset
      else .error (.batches dataset.batches.length count)

/-- What a rank gets: its share, or the fault of all. -/
def received (verdict : Except LayoutFault Dataset) (rank : Fin size) : Except Failure Dataset :=
  match verdict with
  | .error fault => .error (.layout fault)
  | .ok dataset => .ok (dataset.sharedOut size rank)

theorem verdict_eq_ok_iff {passed : Option Dataset} {count : Nat} {dataset : Dataset} :
    verdict passed count = .ok dataset ↔
      passed = some dataset ∧ dataset.bound ≠ 0 ∧ dataset.batches.length = count := by
  cases passed with
  | none => simp [verdict]
  | some whole =>
      rw [verdict, Option.some_inj]
      by_cases unbounded : whole.bound = 0
      · rw [if_pos unbounded]
        constructor
        · exact nofun
        · rintro ⟨rfl, bounded, _⟩
          exact absurd unbounded bounded
      · rw [if_neg unbounded]
        by_cases expected : whole.batches.length = count
        · rw [if_pos expected, Except.ok.injEq]
          constructor
          · rintro rfl
            exact ⟨rfl, unbounded, expected⟩
          · exact And.left
        · rw [if_neg expected]
          constructor
          · exact nofun
          · rintro ⟨rfl, _, length⟩
            exact absurd length expected

/-- A bound of zero is all that the ranks hear of a data set that is not there. -/
theorem performs_distribute_nothing (inhabited : 0 < size) {passed : Fin size → Option Dataset}
    (nothing : ((passed ⟨0, inhabited⟩).map Dataset.bound).getD 0 = 0) (count : Nat) :
    Plan.Performs (fun rank => (distribute ⟨rank, size⟩ (passed rank) count).run)
      [.broadcast announceTag 0] fun _ => .error (.layout .noDataset) := by
  apply Plan.performs_bind (performs_broadcastOne announceTag ⟨0, inhabited⟩ _)
  have own : (⟨0, size⟩ : Member).isCoordinator = true := rfl
  simp only [Plan.heardOne_eq, own, if_true, nothing]
  exact .done _

/-- The coordinator's data set decides for all ranks. -/
theorem together_distribute_verdict (inhabited : 0 < size) {passed : Fin size → Option Dataset}
    (fits : ∀ dataset, passed ⟨0, inhabited⟩ = some dataset → dataset.Fits) (count : Nat) :
    Together (fun rank => distribute ⟨rank, size⟩ (passed rank) count)
      (received (verdict (passed ⟨0, inhabited⟩) count)) := by
  cases given : passed ⟨0, inhabited⟩ with
  | none => exact ⟨_, performs_distribute_nothing inhabited (by rw [given]; rfl) count⟩
  | some dataset =>
      rw [verdict]
      by_cases unbounded : dataset.bound = 0
      · rw [if_pos unbounded]
        have nothing : ((passed ⟨0, inhabited⟩).map Dataset.bound).getD 0 = 0 := by
          rw [given]
          exact unbounded
        exact ⟨_, performs_distribute_nothing inhabited nothing count⟩
      · rw [if_neg unbounded]
        by_cases expected : dataset.batches.length = count
        · rw [if_pos expected, ← expected]
          exact together_distribute inhabited (fits dataset given) unbounded passed given
        · rw [if_neg expected]
          apply together_announced inhabited (fits dataset given).stamps unbounded passed given
          simp only [ne_eq, expected, not_false_eq_true, if_true]
          exact together_answers fun _ => rfl

/-- What breaks the loading of a file off: the last vertex, where no bound is given. -/
theorem load_eq_none_iff {path : String} {contents : Except IoFault Bytes} {count : Nat}
    {bound : Option UInt64} :
    load path contents count bound = none ↔ ∃ edges, readFile path contents = .ok edges ∧
      0 < count ∧ bound = none ∧ ∃ edge ∈ edges, edge.src = lastVertex ∨ edge.dst = lastVertex := by
  unfold load
  cases readFile path contents with
  | error failure => simp
  | ok edges =>
      rcases Nat.eq_zero_or_pos count with rfl | positive
      · simp [ofEdges]
      · simp only [ofEdges_eq_none_iff positive, sumsFit_iff, Except.ok.injEq, exists_eq_left',
          positive, true_and, Classical.not_imp, not_forall, not_and_or, not_not]

end Dataset

namespace Trial

section RunFile

variable {settings : RunSettings} {contents : Fin size → Except IoFault Bytes}
  (orders : Fin size → Nat → Orders) (sinks : Fin size → Sink)

/-- A rank that is not the coordinator does not look into its file. -/
theorem runFile_other {rank : Nat} (other : rank ≠ 0) (orders : Nat → Orders)
    (contents : Except IoFault Bytes) (sink : Sink) :
    runFile generator orders settings contents ⟨rank, size⟩ sink =
      runLoaded generator orders settings ⟨rank, size⟩ none sink := by
  have notCoordinator : (⟨rank, size⟩ : Member).isCoordinator = false := by
    rw [Member.isCoordinator, beq_eq_false_iff_ne]
    exact other
  rw [runFile, notCoordinator]
  rfl

/-- A coordinator whose loading failed keeps its failure for itself; the others learn that there is
no data set, and nobody takes another step. -/
theorem performs_runFile_failed (inhabited : 0 < size) {failure : Failure}
    (failed : Dataset.load settings.path (contents ⟨0, inhabited⟩) settings.batches
      settings.bound = some (.error failure)) :
    Plan.Performs
      (fun rank =>
        runFile generator (orders rank) settings (contents rank) ⟨rank, size⟩ (sinks rank))
      [.broadcast Dataset.announceTag 0] fun rank =>
        (.error (if rank = ⟨0, inhabited⟩ then failure else .layout .noDataset), sinks rank) := by
  have plans : (fun rank => runFile generator (orders rank) settings (contents rank) ⟨rank, size⟩
      (sinks rank)) = fun rank => runLoaded generator (orders rank) settings ⟨rank, size⟩
        (if rank = ⟨0, inhabited⟩ then some (.error failure) else none) (sinks rank) := by
    funext rank
    by_cases coordinator : rank = ⟨0, inhabited⟩
    · subst coordinator
      unfold runFile
      rw [failed, if_pos rfl]
      rfl
    · rw [if_neg coordinator]
      exact runFile_other (fun zero => coordinator (Fin.ext zero)) ..
  rw [plans]
  apply Plan.performs_bind
    (Dataset.performs_distribute_nothing inhabited (by rw [if_pos rfl]; rfl) settings.batches)
  apply Plan.performs_nothing
  intro rank
  by_cases coordinator : rank = ⟨0, inhabited⟩
  · rw [if_pos coordinator, if_pos coordinator]
    rfl
  · rw [if_neg coordinator, if_neg coordinator]
    rfl

/-- The first that any other rank does is to wait for what the coordinator announces. -/
theorem steps_runFile_other {rank : Nat} (other : rank ≠ 0) (orders : Nat → Orders)
    (contents : Except IoFault Bytes) (sink : Sink) :
    ∃ next, (runFile generator orders settings contents ⟨rank, size⟩ sink).steps ⟨rank, size⟩ =
      .await 0 Dataset.announceTag 8 next := by
  have begins : ∃ (values : List UInt64) (next : _), runLoaded generator orders settings
      ⟨rank, size⟩ none sink = .broadcast _ Dataset.announceTag 0 values next := ⟨_, _, rfl⟩
  rcases begins with ⟨values, next, same⟩
  have hears : Plan.broadcastSteps ⟨rank, size⟩ Dataset.announceTag 0 values =
      Exchange.receiveRecords 0 Dataset.announceTag := if_neg other
  rw [runFile_other other, same, Plan.steps, hears]
  exact ⟨_, rfl⟩

/-- A coordinator whose loading breaks off has announced nothing, and all others wait for its
announcement. -/
theorem stuck_runFile (inhabited : 0 < size)
    (breaks : Dataset.load settings.path (contents ⟨0, inhabited⟩) settings.batches
      settings.bound = none) :
    (Plan.group fun rank => runFile generator (orders rank) settings (contents rank) ⟨rank, size⟩
      (sinks rank)).Stuck := by
  have gone : (runFile generator (orders ⟨0, inhabited⟩) settings (contents ⟨0, inhabited⟩)
      ⟨0, size⟩ (sinks ⟨0, inhabited⟩)).steps ⟨0, size⟩ = .broken := by
    unfold runFile
    rw [breaks]
    rfl
  apply Group.stuck_of_waiting
  · exact List.mem_ofFn.2 ⟨⟨0, inhabited⟩, gone⟩
  · intro process member
    rcases List.mem_ofFn.1 member with ⟨rank, rfl⟩
    by_cases coordinator : rank = ⟨0, inhabited⟩
    · subst coordinator
      exact Or.inl gone
    · have other : rank.val ≠ 0 := fun zero => coordinator (Fin.ext zero)
      exact Or.inr ⟨_, _, _, steps_runFile_other other ..⟩

end RunFile

/-- Whatever the ranks pass, they all get their shares or all fail. Whatever is in their files, a
coordinator whose loading fails ends the run for all of them before its first trial; but if its
loading breaks off, which the last vertex brings about, then all others wait for ever. -/
theorem loading_fails_everywhere_or_nowhere (inhabited : 0 < size) :
    (∀ (passed : Fin size → Option Dataset) (count : Nat),
      (∀ dataset, passed ⟨0, inhabited⟩ = some dataset → dataset.Fits) →
      ∃ outcomes : Fin size → Except Failure Dataset,
        (Plan.group fun rank =>
          (Dataset.distribute ⟨rank, size⟩ (passed rank) count).run).Settles
            (List.ofFn outcomes) ∧
        ((∀ rank, ∃ dataset, outcomes rank = .ok dataset) ∨
          ∀ rank, ∃ failure, outcomes rank = .error failure) ∧
        ((∀ rank, ∃ dataset, outcomes rank = .ok dataset) ↔
          ∃ dataset, passed ⟨0, inhabited⟩ = some dataset ∧ dataset.bound ≠ 0 ∧
            dataset.batches.length = count)) ∧
    ∀ (generator : Generator) (orders : Fin size → Nat → Orders) (settings : RunSettings)
      (contents : Fin size → Except IoFault Bytes) (sinks : Fin size → Sink),
      (∀ failure, Dataset.load settings.path (contents ⟨0, inhabited⟩) settings.batches
          settings.bound = some (.error failure) →
        ∃ results : Fin size → Except Failure (List TrialReport) × Sink,
          (∀ rank, results rank =
            (.error (if rank = ⟨0, inhabited⟩ then failure else .layout .noDataset), sinks rank)) ∧
          Plan.Performs
            (fun rank =>
              runFile generator (orders rank) settings (contents rank) ⟨rank, size⟩ (sinks rank))
            [.broadcast Dataset.announceTag 0] results ∧
          (Plan.group fun rank => runFile generator (orders rank) settings (contents rank)
            ⟨rank, size⟩ (sinks rank)).Settles (List.ofFn results)) ∧
      (Dataset.load settings.path (contents ⟨0, inhabited⟩) settings.batches settings.bound =
          none →
        (Plan.group fun rank => runFile generator (orders rank) settings (contents rank)
          ⟨rank, size⟩ (sinks rank)).Stuck) ∧
      (Dataset.load settings.path (contents ⟨0, inhabited⟩) settings.batches settings.bound =
          none ↔
        ∃ edges, Dataset.readFile settings.path (contents ⟨0, inhabited⟩) = .ok edges ∧
          0 < settings.batches ∧ settings.bound = none ∧
          ∃ edge ∈ edges, edge.src = Dataset.lastVertex ∨ edge.dst = Dataset.lastVertex) := by
  constructor
  · intro passed count fits
    have settles := Plan.lockstep_settles inhabited
      (Dataset.together_distribute_verdict inhabited fits count)
    have decided := @Dataset.verdict_eq_ok_iff (passed ⟨0, inhabited⟩) count
    apply Exists.intro
    apply And.intro settles
    cases came : Dataset.verdict (passed ⟨0, inhabited⟩) count with
    | ok dataset =>
        have shared : ∀ rank : Fin size, ∃ share, Dataset.received (.ok dataset) rank = .ok share :=
          fun _ => ⟨_, rfl⟩
        exact ⟨Or.inl shared, fun _ => ⟨dataset, decided.1 came⟩, fun _ => shared⟩
    | error fault =>
        apply And.intro (Or.inr fun _ => ⟨_, rfl⟩)
        constructor
        · intro shared
          rcases shared ⟨0, inhabited⟩ with ⟨_, impossible⟩
          cases impossible
        · rintro ⟨dataset, whole⟩
          rw [decided.2 whole] at came
          cases came
  · intro generator orders settings contents sinks
    refine ⟨?_, stuck_runFile orders sinks inhabited, Dataset.load_eq_none_iff⟩
    intro failure failed
    have performs := @performs_runFile_failed generator size settings contents orders sinks
      inhabited failure failed
    exact ⟨_, fun _ => rfl, performs, Plan.lockstep_settles inhabited ⟨_, performs⟩⟩

/-- Settings that ask for three batches of a file. -/
def threeBatches : RunSettings where
  algorithms := []
  path := "absent.txt"
  batches := 3
  window := ⟨5, true⟩
  trials := 1
  bound := none
  graph := .standard

/-- A data set of one batch at rank zero, and another at rank one, where nobody asks for it. -/
def oneBatch : Fin 2 → Option Dataset
  | 0 => some ⟨3, [⟨[⟨1, 2, 3, 0⟩], 0⟩]⟩
  | 1 => some ⟨0, []⟩

theorem two_ranks_are_released : 0 < 2 ∧
    (∃ outcomes : Fin 2 → Except Failure Dataset,
      (Plan.group fun rank : Fin 2 =>
        (Dataset.distribute ⟨rank, 2⟩ (oneBatch rank) threeBatches.batches).run).Settles
          (List.ofFn outcomes) ∧
      ∀ rank, ∃ failure, outcomes rank = .error failure) ∧
    (Plan.group fun rank : Fin 2 => runFile .standard (fun _ => .ascending) threeBatches
      (if rank = 0 then .error .noSuchFile else .ok []) ⟨rank, 2⟩ (.empty none)).Settles
        [(.error (.io .noSuchFile), .empty none), (.error (.layout .noDataset), .empty none)] := by
  have inhabited : 0 < 2 := by decide
  rcases loading_fails_everywhere_or_nowhere inhabited with ⟨distributed, played⟩
  have fits : ∀ dataset, oneBatch ⟨0, inhabited⟩ = some dataset → dataset.Fits := by
    intro dataset given
    cases given
    exact ⟨by decide, by decide⟩
  rcases distributed oneBatch threeBatches.batches fits with ⟨outcomes, settles, alike, shared⟩
  have mismatch : ¬ ∀ rank, ∃ dataset, outcomes rank = .ok dataset := by
    rw [shared]
    rintro ⟨dataset, given, _, length⟩
    cases given
    revert length
    decide
  rcases played .standard (fun _ _ => .ascending) threeBatches
    (fun rank => if rank = 0 then .error .noSuchFile else .ok []) (fun _ => .empty none)
    with ⟨fails, -⟩
  rcases fails (.io .noSuchFile) rfl with ⟨results, known, _, ends⟩
  rw [funext known] at ends
  exact ⟨inhabited, ⟨outcomes, settles, alike.resolve_left mismatch⟩, ends⟩

/-- The bytes of a file whose only edge starts at the last vertex. -/
def lastVertexLine : Bytes := Utf8.encode "18446744073709551615 1 1 1\n".toList

/-- Nobody hears of a file that has the last vertex in it: neither rank ever comes to a result. -/
theorem last_vertex_blocks_the_group :
    Dataset.load threeBatches.path (.ok lastVertexLine) threeBatches.batches none = none ∧
    (Plan.group fun rank : Fin 2 => runFile .standard (fun _ => .ascending) threeBatches
      (.ok lastVertexLine) ⟨rank, 2⟩ (.empty none)).Stuck := by
  have breaks : Dataset.load threeBatches.path (.ok lastVertexLine) threeBatches.batches none =
      none := by decide +kernel
  exact ⟨breaks, stuck_runFile (fun _ _ => .ascending) (fun _ => .empty none) (by decide) breaks⟩

end Trial

end StreamGraph
