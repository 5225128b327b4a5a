import StreamGraph.Proofs.Cluster.Growth
import StreamGraph.Proofs.Dataset.Positions
import StreamGraph.Proofs.Trial.Batch

/-!
What the window keeps. Dropping what is older than one threshold and then what is older than another
is dropping once what is older than the later of the two, so thresholds may come in any order and
more than once. A graph remembers the highest threshold that it has passed and nothing else about
them; batches in between can bring edges that are too old already, and the next eviction takes these
too. A batch without edges asks for the least threshold of all, which changes nothing.
-/

namespace StreamGraph

open Relation

variable {generator : Generator} {size : Nat}

namespace Saturation

theorem max_le_iff (first second word : Int64) :
    max first second ≤ word ↔ first ≤ word ∧ second ≤ word :=
  Std.LawfulOrderMax.toLawfulOrderSup.max_le_iff first second word

theorem toInt_abs_nonneg (word : Int64) : 0 ≤ (abs word).toInt := by
  rw [abs, toInt_clamp]
  simp only [least, greatest]
  omega

theorem max_minValue (word : Int64) : max word Int64.minValue = word := by
  apply Int64.le_antisymm
  · exact (max_le_iff ..).2 ⟨Int64.le_refl word, Int64.minValue_le word⟩
  · exact ((max_le_iff ..).1 (Int64.le_refl _)).1

/-- Nothing is below the least word. -/
theorem sub_minValue {word : Int64} (positive : 0 ≤ word.toInt) :
    sub Int64.minValue word = Int64.minValue := by
  have start : Int64.minValue.toInt = least := rfl
  rw [← Int64.toInt_inj, toInt_sub, start]
  simp only [least, greatest]
  omega

end Saturation

namespace VertexMap

theorem filter_filter {Value : Type} (map : VertexMap Value)
    (first second : VertexId → Value → Bool) : (map.filter first).filter second =
      map.filter fun key value => first key value && second key value := by
  simp only [filter, List.filter_filter, Bool.and_comm]

end VertexMap

namespace Shard

section Retain

variable (shard : Shard) (first second : EdgeKey → Attrs → Bool)

theorem edges_retain_retain : ((shard.retain first).2.retain second).2.edges =
    (shard.retain fun key attrs => first key attrs && second key attrs).2.edges := by
  simp only [edges_retain, List.filter_filter, Bool.and_comm]

theorem rows_retain_retain : ((shard.retain first).2.retain second).2.rows =
    (shard.retain fun key attrs => first key attrs && second key attrs).2.rows := by
  apply VertexMap.ext_get?
  intro src
  simp only [retain, VertexMap.get?_filterMap]
  cases shard.rows.get? src with
  | none => rfl
  | some row =>
      have fused := row.filter_filter (fun dst attrs => first (src, dst) attrs)
        fun dst attrs => second (src, dst) attrs
      simp only [Option.bind_some, ← fused]
      split
      · next nothing =>
          -- a row that is empty after the first test stays empty under the second
          have empty : ((row.filter fun dst attrs => first (src, dst) attrs).filter
              fun dst attrs => second (src, dst) attrs).isEmpty = true := by
            rw [VertexMap.isEmpty_iff] at nothing ⊢
            intro dst
            rw [VertexMap.get?_filter, nothing]
            rfl
          rw [if_pos empty]
          rfl
      · rfl

/-- What one test drops and then another is what both drop at once. -/
theorem removed_retain_retain :
    (shard.retain first).1 + ((shard.retain first).2.retain second).1 =
      (shard.retain fun key attrs => first key attrs && second key attrs).1 := by
  have early := shard.removed_add_length first
  have late := (shard.retain first).2.removed_add_length second
  have atOnce := shard.removed_add_length fun key attrs => first key attrs && second key attrs
  rw [edges_retain_retain] at late
  omega

theorem retain_retain : ((shard.retain first).2.retain second).2 =
    (shard.retain fun key attrs => first key attrs && second key attrs).2 := by
  have rows := shard.rows_retain_retain first second
  have counts : ((shard.retain first).2.retain second).2.edgeCount =
      (shard.retain fun key attrs => first key attrs && second key attrs).2.edgeCount := by
    have removed := shard.removed_retain_retain first second
    calc shard.edgeCount - (shard.retain first).1 - ((shard.retain first).2.retain second).1
        = shard.edgeCount - ((shard.retain first).1 + ((shard.retain first).2.retain second).1) :=
          Nat.sub_sub ..
      _ = shard.edgeCount -
            (shard.retain fun key attrs => first key attrs && second key attrs).1 := by rw [removed]
  exact congrArg₂ (fun rows edgeCount => { shard with rows, edgeCount }) rows counts

end Retain

/-- Drops what is older than one threshold, and then what is older than another; counts both. -/
def evictInTurn (shard : Shard) (first second : Int64) : Nat × Shard :=
  let (early, between) := shard.evictOlderThan first
  let (late, after) := between.evictOlderThan second
  (early + late, after)

/-- The later of two thresholds is all that counts. -/
theorem evictInTurn_eq (shard : Shard) (first second : Int64) :
    shard.evictInTurn first second = shard.evictOlderThan (max first second) := by
  have both : shard.evictOlderThan (max first second) = shard.retain fun _ attrs =>
      decide (first ≤ attrs.timestamp) && decide (second ≤ attrs.timestamp) := by
    simp only [evictOlderThan, Saturation.max_le_iff, Bool.decide_and]
  rw [both]
  apply Prod.ext
  · exact shard.removed_retain_retain (fun _ attrs => decide (first ≤ attrs.timestamp))
      fun _ attrs => decide (second ≤ attrs.timestamp)
  · exact shard.retain_retain (fun _ attrs => decide (first ≤ attrs.timestamp))
      fun _ attrs => decide (second ≤ attrs.timestamp)

theorem evictInTurn_comm (shard : Shard) (first second : Int64) :
    shard.evictInTurn second first = shard.evictInTurn first second := by
  have same : max second first = max first second := by
    apply Int64.le_antisymm
    · rw [Saturation.max_le_iff]
      exact ((Saturation.max_le_iff first second _).1 (Int64.le_refl _)).symm
    · rw [Saturation.max_le_iff]
      exact ((Saturation.max_le_iff second first _).1 (Int64.le_refl _)).symm
  rw [evictInTurn_eq, evictInTurn_eq, same]

/-- The second time, nothing is left to drop. -/
theorem evict_again (shard : Shard) (threshold : Int64) :
    (shard.evictOlderThan threshold).2.evictOlderThan threshold =
      (0, (shard.evictOlderThan threshold).2) := by
  have twice := shard.evictInTurn_eq threshold threshold
  have same : max threshold threshold = threshold := if_pos (Int64.le_refl _)
  rw [same] at twice
  apply Prod.ext
  · have counts := congrArg Prod.fst twice
    exact Nat.add_eq_left.1 counts
  · have shards := congrArg Prod.snd twice
    exact shards

theorem entries_evictOlderThan (shard : Shard) (threshold : Int64) (key : EdgeKey)
    (attrs : Attrs) : (shard.evictOlderThan threshold).2.entries key = some attrs ↔
      shard.entries key = some attrs ∧ threshold ≤ attrs.timestamp := by
  rw [evictOlderThan, entries_retain, Option.filter_eq_some_iff, decide_eq_true_eq]

theorem removed_evictOlderThan (shard : Shard) (threshold : Int64) :
    (shard.evictOlderThan threshold).1 =
      {key | ∃ attrs, shard.entries key = some attrs ∧ attrs.timestamp < threshold}.ncard := by
  have removed := shard.removed_eq_ncard fun _ attrs => decide (threshold ≤ attrs.timestamp)
  simp only [decide_eq_false_iff_not, Int64.not_le] at removed
  exact removed

end Shard

namespace ClusterGraph

/-- The threshold that a call passes, if it is an eviction. -/
def GraphCall.thresholds : GraphCall → List Int64
  | .evict threshold => [threshold]
  | .insert _ | .pickSources | .analyze _ => []

/-- What the graphs of a group can come to by calls that end on all ranks with nothing on the way,
with the thresholds that each of them has passed until then. -/
inductive Windowed (bound : UInt64) :
    (Fin size → ClusterGraph generator) → (Fin size → List Int64) → Prop
  | start (orders : Fin size → Orders) (settings : Fin size → GraphSettings) :
      Windowed bound (fun rank => .empty generator (orders rank) ⟨rank, size⟩ bound (settings rank))
        fun _ => []
  | call {graphs nexts : Fin size → ClusterGraph generator} {passed : Fin size → List Int64}
      (before : Windowed bound graphs passed) (calls : Fin size → GraphCall)
      (run : ReflTransGen Group.Step (Plan.group fun rank => (graphs rank).perform (calls rank))
        ⟨.empty, List.ofFn fun rank => .done (nexts rank)⟩) :
      Windowed bound nexts fun rank => passed rank ++ (calls rank).thresholds

/-- Only an eviction moves the threshold, and it takes the greater one. -/
theorem Leaves.threshold {graph next : ClusterGraph generator} {call : GraphCall}
    (leaves : graph.Leaves call next) :
    next.retention.threshold = call.thresholds.foldl max graph.retention.threshold := by
  cases leaves with
  | evicted threshold => rfl
  | refused edges => rfl
  | taken edges mine =>
      unfold takeIn
      dsimp only
      split <;> rfl
  | picked picker => rfl
  | analyzed algorithm picker => rfl

namespace Windowed

variable {bound : UInt64} {graphs : Fin size → ClusterGraph generator}
  {passed : Fin size → List Int64}

theorem threshold (windowed : Windowed bound graphs passed) (rank : Fin size) :
    (graphs rank).retention.threshold = (passed rank).foldl max Int64.minValue := by
  induction windowed with
  | start orders settings => rfl
  | call before calls run ih =>
      rw [(Reachable.leaves_of_run run rank).threshold, ih, List.foldl_append]

theorem sound (windowed : Windowed bound graphs passed) (rank : Fin size) :
    (graphs rank).shard.Sound := by
  induction windowed with
  | start orders settings => exact Shard.sound_empty ..
  | call before calls run ih => exact (Reachable.leaves_of_run run rank).stays.shard.sound ih

theorem of_lockstep (inhabited : 0 < size) (before : Windowed bound graphs passed)
    (calls : Fin size → GraphCall) {nexts : Fin size → ClusterGraph generator}
    (lockstep : Plan.Lockstep (fun rank => (graphs rank).perform (calls rank)) nexts) :
    Windowed bound nexts fun rank => passed rank ++ (calls rank).thresholds :=
  before.call calls (Plan.run_of_lockstep inhabited lockstep)

end Windowed

/-- What an eviction comes to after some thresholds, of which its own is the last: it drops what is
older than the highest of them, and nothing else. -/
structure Evicted (before : ClusterGraph generator) (passed : List Int64) (removed : Nat)
    (after : ClusterGraph generator) : Prop where
  highest : IsGreatest {threshold | threshold ∈ passed} after.retention.threshold
  stored (key : EdgeKey) (attrs : Attrs) : after.shard.entries key = some attrs ↔
    before.shard.entries key = some attrs ∧ after.retention.threshold ≤ attrs.timestamp
  dropped : removed = {key | ∃ attrs, before.shard.entries key = some attrs ∧
    attrs.timestamp < after.retention.threshold}.ncard
  counted : removed + after.shard.edgeCount = before.shard.edgeCount

theorem Windowed.evicted {bound : UInt64} {graphs : Fin size → ClusterGraph generator}
    {passed : Fin size → List Int64} (windowed : Windowed bound graphs passed) (rank : Fin size)
    (threshold : Int64) :
    Evicted (graphs rank) (passed rank ++ [threshold]) ((graphs rank).dropOld threshold).1
      ((graphs rank).dropOld threshold).2 := by
  constructor
  case highest =>
    have nonempty : passed rank ++ [threshold] ≠ [] := by simp
    have last : ((graphs rank).dropOld threshold).2.retention.threshold =
        (passed rank ++ [threshold]).foldl max Int64.minValue := by
      rw [List.foldl_append, ← windowed.threshold rank]
      rfl
    rw [last]
    exact Saturation.foldl_max_minValue_spec nonempty
  case stored =>
    exact (graphs rank).shard.entries_evictOlderThan
      ((graphs rank).retention.advance threshold).threshold
  case dropped =>
    exact (graphs rank).shard.removed_evictOlderThan
      ((graphs rank).retention.advance threshold).threshold
  case counted =>
    exact (windowed.sound rank).removed_add fun _ attrs =>
      decide (((graphs rank).retention.advance threshold).threshold ≤ attrs.timestamp)

end ClusterGraph

namespace RunRequest

theorem exists_of_bind {First Second : Type} {found : Except Failure First}
    {next : First → Except Failure Second} {result : Second}
    (succeeds : (found >>= next) = .ok result) :
    ∃ value, found = .ok value ∧ next value = .ok result := by
  cases found with
  | error failure => cases succeeds
  | ok value => exact ⟨value, rfl, succeeds⟩

/-- A request that is accepted keeps its window. -/
theorem window_of_settings {request : RunRequest} {settings : RunSettings}
    (accepted : request.settings = .ok settings) :
    settings.window = .ofSigned request.window := by
  unfold RunRequest.settings at accepted
  obtain ⟨algorithms, _, accepted⟩ := exists_of_bind accepted
  obtain ⟨batches, _, accepted⟩ := exists_of_bind accepted
  by_cases noWidth : request.window = 0
  · rw [if_pos noWidth] at accepted
    cases accepted
  · rw [if_neg noWidth] at accepted
    obtain ⟨trials, _, accepted⟩ := exists_of_bind accepted
    cases given : request.bound with
    | none =>
        rw [given] at accepted
        cases accepted
        rfl
    | some bound =>
        rw [given] at accepted
        obtain ⟨word, _, accepted⟩ := exists_of_bind accepted
        cases accepted
        rfl

end RunRequest

namespace Trial

/-- Whatever window a request has, a batch that has no timestamp asks for the least threshold. -/
theorem threshold_of_idle {request : RunRequest} {settings : RunSettings}
    (accepted : request.settings = .ok settings) {batch : Batch}
    (idle : batch.newest = Int64.minValue) :
    batch.threshold settings.window.width = Int64.minValue := by
  rw [Batch.threshold, idle, RunRequest.window_of_settings accepted]
  exact Saturation.sub_minValue (Saturation.toInt_abs_nonneg request.window)

/-- The threshold that ranks derive from a batch without timestamps. -/
def idleThreshold (settings : RunSettings) : Option Int64 :=
  if settings.window.deletes then some Int64.minValue else none

theorem thresholdAt_of_idle {request : RunRequest} {settings : RunSettings}
    (accepted : request.settings = .ok settings) {batch : Batch}
    (idle : batch.newest = Int64.minValue) :
    thresholdAt settings batch = idleThreshold settings := by
  rw [thresholdAt, threshold_of_idle accepted idle, idleThreshold]

theorem retention_dropBefore_idle (settings : RunSettings) (graph : ClusterGraph generator) :
    (graph.dropBefore (idleThreshold settings)).2.retention = graph.retention := by
  unfold idleThreshold
  split
  · exact congrArg Retention.mk (Saturation.max_minValue graph.retention.threshold)
  · rfl

/-- A batch without edges is nothing but that on every rank. -/
theorem sharedOut_of_empty {stream : List Edge} {count : Nat} {bound : Option UInt64}
    {dataset : Dataset} (loaded : Dataset.ofEdges stream count bound = some (.ok dataset))
    {index : Nat} {whole : Batch} (found : dataset.batches[index]? = some whole)
    (nothing : whole.edges = []) (rank : Fin size) :
    (dataset.sharedOut size rank).batches[index]? = some ⟨[], Int64.minValue⟩ := by
  have inhabited : 0 < size := Nat.lt_of_le_of_lt (Nat.zero_le _) rank.isLt
  have newest := ((Dataset.cutFrom_of_ofEdges loaded).newest whole
    (List.mem_of_getElem? found)).1 nothing
  have share : Dataset.shareOf size rank [] = [] :=
    List.sublist_nil.1 (Dataset.sublist_shareOf inhabited rank [])
  simp only [Dataset.sharedOut, List.getElem?_map, found, Option.map_some, nothing, newest, share]

end Trial

namespace ClusterGraph

/-- An eviction ends on all ranks, and each of them keeps the edges that are not older than the
highest of all thresholds that it has passed so far. Two thresholds in turn, whichever comes first,
do what the later one does alone. A batch without edges never moves the threshold. -/
theorem evictions_follow_the_highest_threshold (inhabited : 0 < size) :
    (∀ (bound : UInt64) (graphs : Fin size → ClusterGraph generator)
        (passed : Fin size → List Int64), Windowed bound graphs passed →
      ∀ thresholds : Fin size → Int64,
      ∃ (removed : Fin size → Nat) (nexts : Fin size → ClusterGraph generator),
        (Plan.group fun rank => (graphs rank).evict (thresholds rank)).Settles
          (List.ofFn fun rank => (removed rank, nexts rank)) ∧
        Windowed bound nexts (fun rank => passed rank ++ [thresholds rank]) ∧
        ∀ rank, Evicted (graphs rank) (passed rank ++ [thresholds rank]) (removed rank)
          (nexts rank)) ∧
    (∀ (shard : Shard) (first second : Int64),
      shard.evictInTurn first second = shard.evictOlderThan (max first second) ∧
      shard.evictInTurn second first = shard.evictOlderThan (max first second) ∧
      (shard.evictOlderThan first).2.evictOlderThan first =
        (0, (shard.evictOlderThan first).2)) ∧
    ∀ (request : RunRequest) (settings : RunSettings), request.settings = .ok settings →
      (∀ batches : Fin size → Batch, (∀ rank, (batches rank).newest = Int64.minValue) →
        (∀ rank, (batches rank).threshold settings.window.width = Int64.minValue) ∧
        ∀ graphs : Fin size → ClusterGraph generator,
          ∃ (removed : Fin size → Nat) (nexts : Fin size → ClusterGraph generator),
            (Plan.group fun rank => Trial.evictBefore (Trial.thresholdAt settings (batches rank))
              (graphs rank)).Settles (List.ofFn fun rank => (removed rank, nexts rank)) ∧
            ∀ rank, (nexts rank).retention = (graphs rank).retention) ∧
      ∀ (stream : List Edge) (dataset : Dataset),
        Dataset.ofEdges stream settings.batches settings.bound = some (.ok dataset) →
        ∀ (index : Nat) (whole : Batch), dataset.batches[index]? = some whole →
          whole.edges = [] → ∀ rank : Fin size,
            (dataset.sharedOut size rank).batches[index]? = some ⟨[], Int64.minValue⟩ := by
  refine ⟨?_, ?_, ?_⟩
  · intro bound graphs passed windowed thresholds
    have evicts : Plan.Lockstep (fun rank => (graphs rank).evict (thresholds rank))
        fun rank => (graphs rank).dropOld (thresholds rank) := .barrier (.done _)
    have performs : Plan.Lockstep (fun rank => (graphs rank).perform (.evict (thresholds rank)))
        fun rank => ((graphs rank).dropOld (thresholds rank)).2 :=
      Plan.lockstep_bind evicts (.done _)
    exact ⟨_, _, Plan.lockstep_settles inhabited evicts,
      windowed.of_lockstep inhabited (fun rank => .evict (thresholds rank)) performs,
      fun rank => windowed.evicted rank (thresholds rank)⟩
  · intro shard first second
    have turned := shard.evictInTurn_comm first second
    rw [shard.evictInTurn_eq first second] at turned
    exact ⟨shard.evictInTurn_eq first second, turned, shard.evict_again first⟩
  · intro request settings accepted
    constructor
    · intro batches idle
      refine ⟨fun rank => Trial.threshold_of_idle accepted (idle rank), ?_⟩
      intro graphs
      have evicts := lockstep_evictBefore graphs (Trial.idleThreshold settings)
      simp only [Trial.thresholdAt_of_idle accepted (idle _)]
      exact ⟨_, _, Plan.lockstep_settles inhabited evicts,
        fun rank => Trial.retention_dropBefore_idle settings (graphs rank)⟩
    · intro stream dataset loaded index whole found nothing rank
      exact Trial.sharedOut_of_empty loaded found nothing rank

open Reachable in
theorem windowed_pair : Windowed 4 pair fun _ => [5] := by
  have before : Windowed 4 (fun rank : Fin 2 => empty .standard .ascending ⟨rank, 2⟩ 4 replacing)
      fun _ => [] := .start (fun _ => .ascending) fun _ => replacing
  have evicts :=
    lockstep_evict (fun rank : Fin 2 => empty .standard .ascending ⟨rank, 2⟩ 4 replacing) 5
  exact before.of_lockstep (by decide) (fun _ => .evict 5) (Plan.lockstep_bind evicts (.done _))

/-- A batch with two edges that are too old for the window of the pair. -/
def staleSlices : Fin 2 → List Edge
  | 0 => [⟨1, 2, 5, 9⟩, ⟨2, 3, 1, 4⟩]
  | 1 => [⟨2, 1, 1, 4⟩]

/-- The widest window there is. -/
def widest : RunRequest where
  algorithms := ["cc"]
  path := ""
  batches := 2
  window := Int64.minValue
  trials := 1
  bound := none
  graph := .standard

def widestSettings : RunSettings where
  algorithms := [.cc]
  path := ""
  batches := 2
  window := ⟨Int64.maxValue, true⟩
  trials := 1
  bound := none
  graph := .standard

/-- One edge in two batches: the first of them is empty. -/
def sparse : Dataset := ⟨3, [⟨[], Int64.minValue⟩, ⟨[⟨1, 2, 1, 7⟩], 7⟩]⟩

/-- Edges of all ages in two rows. -/
def aging : Shard := (Shard.empty 0 (.cyclic 1) 4).after
  [.insert ⟨1, 2, 5, 1⟩, .insert ⟨1, 3, 5, 6⟩, .insert ⟨2, 3, 5, Int64.minValue⟩]

open Reachable in
theorem pair_evicts_what_comes_too_late :
    (∃ (taken : Fin 2 → ClusterGraph .standard) (removed : Fin 2 → Nat)
        (last : Fin 2 → ClusterGraph .standard),
      Windowed 4 taken (fun _ => [5]) ∧
      (Plan.group fun rank => (taken rank).evict 3).Settles
        (List.ofFn fun rank => (removed rank, last rank)) ∧
      (∀ rank, Evicted (taken rank) [5, 3] (removed rank) (last rank)) ∧
      ∑ rank, removed rank = 2) ∧
    (aging.evictInTurn 6 2 = aging.evictOlderThan 6 ∧ (aging.evictOlderThan 6).1 = 2) ∧
    widest.settings = .ok widestSettings ∧
    (∀ rank : Fin 2, ((sparse.sharedOut 2 rank).batches[0]?) = some ⟨[], Int64.minValue⟩) ∧
    Trial.thresholdAt widestSettings ⟨[], Int64.minValue⟩ = some Int64.minValue := by
  have inhabited : 0 < 2 := by decide
  have within : ∀ rank, ∀ edge ∈ staleSlices rank, edge.isWithin 4 = true := by decide
  have fits : ∀ rank, Fits (staleSlices rank) := by decide
  have accepted : widest.settings = .ok widestSettings := by rfl
  have loaded : Dataset.ofEdges [⟨1, 2, 1, 7⟩] 2 none = some (.ok sparse) := by rfl
  have inStep : InStep ((unshared .standard 4 replacing).dropOld 5).2 pair :=
    (inStep_empty .standard (fun _ => .ascending) 4 replacing).dropOld 5
  obtain ⟨_, stats, taken, inserts, _, _, took⟩ := inStep.lockstep_insert inhabited within fits
  have windowed : Windowed 4 taken fun _ => [5] :=
    windowed_pair.of_lockstep inhabited (fun rank => .insert (staleSlices rank))
      (Plan.lockstep_bind inserts (.done _))
  obtain ⟨evicts, turns, idles⟩ := evictions_follow_the_highest_threshold inhabited
  obtain ⟨removed, last, settles, _, evicted⟩ := evicts 4 taken _ windowed fun _ => 3
  obtain ⟨idle, empty⟩ := idles widest widestSettings accepted
  refine ⟨⟨taken, removed, last, windowed, settles, evicted, ?_⟩, ⟨?_, by decide⟩, accepted, ?_, ?_⟩
  · have others := Plan.lockstep_settles inhabited (lockstep_evict taken 3)
    have same := List.ofFn_injective (settles.unique others)
    have counts : ∀ rank, removed rank = ((taken rank).dropOld 3).1 := fun rank =>
      congrArg Prod.fst (congrFun same rank)
    simp only [counts, took.sum_dropped inhabited 3]
    decide
  · exact (turns aging 6 2).1
  · exact empty _ sparse loaded 0 _ rfl rfl
  · rw [Trial.thresholdAt, (idle (fun _ => ⟨[], Int64.minValue⟩) fun _ => rfl).1 0]
    rfl

end ClusterGraph

end StreamGraph
