import StreamGraph.Proofs.Routing.Refusal

/-!
The runs of a split batch. Sorting and counting pass over a batch one after the other, and a run is
cut out at the sum of the counts before it. The two agree: a run is the updates that its rank owns,
as they stood in the batch, each cut stays inside, and the runs follow each other without a gap. A
batch is refused for its first end out of range, and for nothing else.
-/

namespace StreamGraph

namespace OwnerRuns

/-- Where the run of a rank begins. -/
def start (runs : OwnerRuns) (rank : Nat) : Nat := (runs.counts.take rank).foldl (· + ·) 0

theorem start_eq_sum (runs : OwnerRuns) (rank : Nat) :
    runs.start rank = (runs.counts.take rank).sum :=
  List.sum_eq_foldl_nat.symm

theorem start_succ (runs : OwnerRuns) {rank : Nat} (inside : rank < runs.counts.length) :
    runs.start (rank + 1) = runs.start rank + runs.counts.getD rank 0 := by
  rw [start_eq_sum, start_eq_sum, List.take_succ_eq_append_getElem inside, List.sum_append,
    List.sum_singleton, List.getD_eq_getElem _ _ inside]

theorem start_le_sum (runs : OwnerRuns) (rank : Nat) : runs.start rank ≤ runs.counts.sum := by
  have parts := congrArg List.sum (List.take_append_drop rank runs.counts)
  rw [List.sum_append] at parts
  rw [start_eq_sum]
  omega

/-- The first runs, one behind the other, are the front of the updates. -/
theorem flatMap_run (runs : OwnerRuns) {ranks : Nat} (few : ranks ≤ runs.counts.length) :
    (List.range ranks).flatMap runs.run = runs.updates.take (runs.start ranks) := by
  induction ranks with
  | zero => rfl
  | succ rank ih =>
      have last : runs.run rank =
          (runs.updates.drop (runs.start rank)).take (runs.counts.getD rank 0) := rfl
      rw [List.range_succ, List.flatMap_append, List.flatMap_singleton, ih (by omega), last,
        runs.start_succ (by omega), List.take_add]

end OwnerRuns

namespace Partition

theorem exists_outside_of_first {bound : UInt64} {updates : List Update} {vertex : VertexId}
    (first : FirstOutside bound updates vertex) :
    ∃ update ∈ updates, update.edge.isWithin bound = false := by
  induction first with
  | source outside => exact ⟨_, List.mem_cons_self .., by simp [Edge.isWithin, outside]⟩
  | target _ outside => exact ⟨_, List.mem_cons_self .., by simp [Edge.isWithin, outside]⟩
  | later _ _ ih =>
      obtain ⟨update, member, outside⟩ := ih
      exact ⟨update, List.mem_cons_of_mem _ member, outside⟩

theorem firstOutside_eq_some_iff {bound : UInt64} {updates : List Update} {vertex : VertexId} :
    firstOutside bound updates = some vertex ↔ FirstOutside bound updates vertex := by
  constructor
  · intro found
    have outsiders : ∃ update ∈ updates, update.edge.isWithin bound = false := by
      by_contra absent
      have within : ∀ update ∈ updates, update.edge.isWithin bound = true := by
        intro update member
        by_contra outside
        exact absent ⟨update, member, Bool.eq_false_iff.2 outside⟩
      rw [(firstOutside_eq_none_iff bound updates).2 within] at found
      cases found
    obtain ⟨first, isFirst⟩ := exists_firstOutside outsiders
    rw [firstOutside_of_first isFirst] at found
    cases found
    exact isFirst
  · exact firstOutside_of_first

/-- A split fails for the first end out of range, and for nothing else. -/
theorem split_eq_error_iff (partition : Partition) (bound : UInt64) (updates : List Update)
    (failure : Failure) : partition.split bound updates = .error failure ↔
      ∃ vertex, FirstOutside bound updates vertex ∧ failure = .vertexOutOfRange vertex bound := by
  simp only [← firstOutside_eq_some_iff]
  unfold split
  cases firstOutside bound updates with
  | none => simp
  | some vertex => simp [eq_comm]

/-- What a split leaves of a batch. Each rank's cut lies inside the updates and takes those that the
rank owns, in the order of the batch; the cuts follow each other, and nothing lies outside them. -/
structure InStableRuns (partition : Partition) (updates : List Update) (runs : OwnerRuns) :
    Prop where
  ranks : runs.counts.length = partition.parts
  total : runs.counts.sum = updates.length
  kept : runs.updates.Perm updates
  count (rank : Nat) (inside : rank < partition.parts) :
    runs.counts[rank]? = some (partition.share rank updates).length
  cut (rank : Nat) (inside : rank < partition.parts) :
    runs.start rank + runs.counts.getD rank 0 ≤ runs.updates.length
  run (rank : Nat) (inside : rank < partition.parts) :
    runs.run rank = partition.share rank updates
  whole : (List.range partition.parts).flatMap runs.run = runs.updates

/-- All updates are counted, since each of them has an owner. -/
theorem sum_counts {partition : Partition} (positive : 0 < partition.parts)
    (updates : List Update) :
    ((List.range partition.parts).map fun rank =>
      updates.countP fun update => partition.owner update.edge.src == rank).sum =
        updates.length := by
  rw [List.sum_eq_foldl_nat, foldl_counts fun update : Update => partition.owner update.edge.src,
    List.countP_eq_length]
  intro update _
  exact decide_eq_true (owner_lt positive update.edge.src)

theorem inStableRuns_of_split {partition : Partition} (positive : 0 < partition.parts)
    {bound : UInt64}
    {updates : List Update} {runs : OwnerRuns} (split : partition.split bound updates = .ok runs) :
    partition.InStableRuns updates runs := by
  have own := fun rank (inside : rank < partition.parts) => run_of_split split inside
  unfold Partition.split at split
  cases outside : firstOutside bound updates with
  | some vertex =>
      rw [outside] at split
      cases split
  | none =>
      rw [outside] at split
      injection split with same
      have counts : runs.counts = (List.range partition.parts).map fun rank =>
          updates.countP fun update => partition.owner update.edge.src == rank := by
        rw [← same]
      have kept : runs.updates.Perm updates := by
        rw [← same]
        exact List.mergeSort_perm updates _
      have ranks : runs.counts.length = partition.parts := by
        rw [counts, List.length_map, List.length_range]
      have total : runs.counts.sum = updates.length := by
        rw [counts, sum_counts positive]
      have within := kept.length_eq
      refine ⟨ranks, total, kept, ?_, ?_, own, ?_⟩
      · intro rank inside
        rw [counts, List.getElem?_map, List.getElem?_range inside, share,
          ← List.countP_eq_length_filter]
        rfl
      · intro rank inside
        have ends := runs.start_le_sum (rank + 1)
        rw [runs.start_succ (by omega)] at ends
        omega
      · have last : runs.start partition.parts = updates.length := by
          rw [runs.start_eq_sum, List.take_of_length_le ranks.le, total]
        rw [runs.flatMap_run ranks.ge, last, List.take_of_length_le within.le]

/-- A split fails exactly when an end is out of range, and then for the first such end. Any other
batch falls into runs, one for each rank, which are its stable partition by owner. -/
theorem owner_runs_are_the_stable_partition {partition : Partition} (positive : 0 < partition.parts)
    (bound : UInt64) (updates : List Update) :
    ((∃ failure, partition.split bound updates = .error failure) ↔
      ∃ update ∈ updates, update.edge.isWithin bound = false) ∧
    (∀ failure, partition.split bound updates = .error failure ↔
      ∃ vertex, FirstOutside bound updates vertex ∧ failure = .vertexOutOfRange vertex bound) ∧
    ((∀ update ∈ updates, update.edge.isWithin bound = true) →
      ∃ runs, partition.split bound updates = .ok runs ∧ partition.InStableRuns updates runs) := by
  refine ⟨?_, partition.split_eq_error_iff bound updates, ?_⟩
  · simp only [split_eq_error_iff]
    constructor
    · rintro ⟨_, vertex, first, _⟩
      exact exists_outside_of_first first
    · intro outside
      obtain ⟨vertex, first⟩ := exists_firstOutside outside
      exact ⟨_, vertex, first, rfl⟩
  · intro within
    obtain ⟨runs, split⟩ : ∃ runs, partition.split bound updates = .ok runs :=
      split_of_within within
    exact ⟨runs, split, inStableRuns_of_split positive split⟩

/-- Updates of three sources for five ranks, two of which own none of them. -/
def scattered : List Update :=
  [{ edge := ⟨3, 1, 7, 0⟩ }, { edge := ⟨1, 3, 1, 0⟩ }, { edge := ⟨2, 1, 4, 1⟩ },
    { edge := ⟨3, 2, -7, 2⟩ }, { edge := ⟨1, 3, 2, 3⟩ }]

theorem scattered_fall_into_runs :
    0 < (Partition.block 5 4).parts ∧
    (∃ runs, (Partition.block 5 4).split 4 scattered = .ok runs ∧
      (Partition.block 5 4).InStableRuns scattered runs ∧
      runs.run 3 = [{ edge := ⟨3, 1, 7, 0⟩ }, { edge := ⟨3, 2, -7, 2⟩ }] ∧ runs.run 4 = []) ∧
    (Partition.block 5 4).split 3 scattered = .error (.vertexOutOfRange 3 3) := by
  have positive : 0 < (Partition.block 5 4).parts := by decide
  obtain ⟨runs, split, stable⟩ :=
    (owner_runs_are_the_stable_partition positive 4 scattered).2.2 (by decide)
  refine ⟨positive, ⟨runs, split, stable, ?_, ?_⟩, ?_⟩
  · rw [stable.run 3 (by decide)]
    decide
  · rw [stable.run 4 (by decide)]
    decide
  · exact ((owner_runs_are_the_stable_partition positive 3 scattered).2.1 _).2
      ⟨3, .source (by decide), rfl⟩

end Partition

end StreamGraph
