import StreamGraph.Proofs.Analytics.ShortestPaths.Distances

/-!
Shortest paths on a group. The ranks work on the same bucket in the same rounds and settle it
together, one bucket after the other, until no vertex waits; then all of them have the distances.
How wide the buckets are decides only how much work a bucket is.
-/

namespace StreamGraph.ShortestPaths

open Collective

variable {size : Nat} {bound : UInt64} {shards : Fin size → Shard} {width : Int64}
  {sources : List VertexId}

theorem together_advanceBucket (ready : StageReady bound shards) (inhabited : 0 < size)
    (scans : (rank : Fin size) → Scan (shards rank)) (width : Int64) {bucket : Bucket}
    (nodup : bucket.active.Nodup) :
    Together (fun rank => advanceBucket (scans rank) width bucket) fun _ => .ok
      (if bucket.active.isEmpty then .inr (settle bucket)
        else .inl (workOn scans width bucket)) := by
  cases quiet : bucket.active.isEmpty with
  | true =>
      apply together_answers
      intro rank
      unfold advanceBucket
      rw [quiet]
      rfl
  | false =>
      have proposed := ready.together_propose inhabited tag
        (fun rank => relax (scans rank) bucket) fun rank => length_relax (scans rank) nodup
      unfold advanceBucket
      simp only [quiet]
      exact together_bind proposed (together_pure _)

/-- All ranks settle a bucket together. -/
theorem together_settle (ready : StageReady bound shards) (inhabited : 0 < size)
    (scans : (rank : Fin size) → Scan (shards rank)) (positive : 0 < width.toInt)
    (valid : ∀ source ∈ sources, source.isEndpoint bound = true) {bucket : Bucket}
    (working : Working bound width 0 bucket)
    (tracked : Tracked (linksOf shards) bound sources width bucket) :
    ∃ search, (InOrder bound search ∧ search.buckets.Above bucket.number ∧
        Charted (linksOf shards) bound sources width search) ∧
      Together (fun rank => repeatUntil (advanceBucket (scans rank) width) bucket)
        fun _ => .ok search := by
  apply together_repeatUntil (fun rank => advanceBucket (scans rank) width)
    (fun left current => ∃ rounds, rounds + left = bound.toNat ∧
      current.number = bucket.number ∧ Working bound width rounds current ∧
      Tracked (linksOf shards) bound sources width current)
    (fun search => InOrder bound search ∧ search.buckets.Above bucket.number ∧
      Charted (linksOf shards) bound sources width search)
  · rintro left current ⟨rounds, total, same, working, tracked⟩
    have round := together_advanceBucket ready inhabited scans width working.nodup
    cases quiet : current.active.isEmpty with
    | true =>
        rw [quiet, if_pos rfl] at round
        rw [← same]
        exact Or.inl ⟨settle current, ⟨working.order.settle, working.above,
          tracked.settle working (List.isEmpty_iff.1 quiet)⟩, round⟩
    | false =>
        rw [quiet, if_neg Bool.false_ne_true] at round
        have more := working.rounds_lt quiet
        exact Or.inr ⟨_, left - 1, by omega, ⟨rounds + 1, by omega,
          (number_workOn current).trans same, working.workOn ready positive,
          tracked_workOn ready positive valid working tracked⟩, round⟩
  · exact ⟨0, Nat.zero_add bound.toNat, rfl, working, tracked⟩
  · exact Traversal.bound_lt_roundLimit bound

/-- One bucket of a search: none is left and the distances are the shortest, or all ranks go on
with fewer buckets. -/
theorem together_advance (ready : StageReady bound shards) (inhabited : 0 < size)
    (scans : (rank : Fin size) → Scan (shards rank)) (positive : 0 < width.toInt)
    (valid : ∀ source ∈ sources, source.isEndpoint bound = true) {left : Nat} {search : Search}
    (descending : Descending bound left search)
    (charted : Charted (linksOf shards) bound sources width search) :
    (∃ distances, Shortest (linksOf shards) bound sources distances ∧
      Together (fun rank => advance (scans rank) width search)
        fun _ => .ok (.inr distances)) ∨
    ∃ next fewer, fewer < left ∧
      (Descending bound fewer next ∧ Charted (linksOf shards) bound sources width next) ∧
      Together (fun rank => advance (scans rank) width search) fun _ => .ok (.inl next) := by
  unfold advance
  cases first : search.buckets with
  | nil =>
      exact Or.inl ⟨search.distances, charted.shortest ready valid descending.order first,
        together_pure _⟩
  | cons head buckets =>
      rcases head with ⟨number, filed⟩
      apply Or.inr
      have enough := descending.few (number, filed) (by rw [first]; exact List.mem_cons_self ..)
      have limit := number.toInt_lt
      have later : ∀ next : Search, InOrder bound next → next.buckets.Above number →
          Descending bound (left - 1) next := by
        intro next order above
        refine ⟨order, fun entry member => ?_⟩
        have higher := above entry member
        dsimp only at enough
        omega
      have rest := descending.order.above_first first
      dsimp only at enough ⊢
      cases quiet : (ascending (filed.filter (isCurrent width search number))).isEmpty with
      | true =>
          exact ⟨{ search with buckets }, left - 1, by omega,
            ⟨later _ rest.1 rest.2, charted.skip first (List.isEmpty_iff.1 quiet)⟩,
            together_pure _⟩
      | false =>
          obtain ⟨settled, ⟨order, above, next⟩, ends⟩ := together_settle ready inhabited scans
            positive valid (working_begin descending.order first) (charted.begin first)
          exact ⟨settled, left - 1, by omega, ⟨later _ order above, next⟩,
            together_bind ends (together_pure _)⟩

theorem not_le_zero (positive : 0 < width.toInt) : ¬ width ≤ 0 := by
  rw [Int64.le_iff_toInt_le]
  exact Int.not_le.2 positive

/-- On valid sources all ranks find the distances, with buckets of any width. -/
theorem together_runWithAlong (ready : StageReady bound shards) (inhabited : 0 < size)
    (scans : (rank : Fin size) → Scan (shards rank)) (positive : 0 < width.toInt)
    (valid : ∀ source ∈ sources, source.isEndpoint bound = true) :
    ∃ distances, Shortest (linksOf shards) bound sources distances ∧
      Together (fun rank => runWithAlong (scans rank) sources width) fun _ => .ok distances := by
  obtain ⟨distances, shortest, ends⟩ := together_repeatUntil
    (fun rank => advance (scans rank) width)
    (fun left search => Descending bound left search ∧
      Charted (linksOf shards) bound sources width search)
    (Shortest (linksOf shards) bound sources)
    (fun _ _ invariant =>
      together_advance ready inhabited scans positive valid invariant.1 invariant.2)
    ⟨descending_start bound sources, charted_start (linksOf shards) width valid⟩ (by decide)
  refine ⟨distances, shortest, ?_⟩
  have accepted : ∀ rank, Traversal.checkSources (shards rank) sources = .ok () :=
    fun rank => Traversal.checkSources_of_valid (by rw [ready.bounded]; exact valid)
  unfold runWithAlong
  simp only [if_neg (not_le_zero positive), accepted, ready.bounded]
  exact ends

theorem max_one_positive (word : Int64) : 0 < (max word 1).toInt := by
  change 0 < (if word ≤ 1 then (1 : Int64) else word).toInt
  have one : (1 : Int64).toInt = 1 := rfl
  split
  · rw [one]
    exact Int.one_pos
  · next above =>
      rw [Int64.le_iff_toInt_le, one] at above
      omega

theorem together_defaultWidthAlong (inhabited : 0 < size)
    (scans : (rank : Fin size) → Scan (shards rank)) :
    ∃ width : Int64, 0 < width.toInt ∧
      Together (fun rank => defaultWidthAlong (scans rank)) fun _ => .ok width := by
  have longest := together_reduced inhabited (some Int64.minValue) (tag.offset 8)
    (fun left right : Int64 => if left < right then right else left)
    fun rank => (scans rank).edges.foldl
      (fun longest edge => max longest (edgeLength edge.attrs)) 0
  exact ⟨_, max_one_positive _, together_bind longest (together_pure _)⟩

theorem together_runAlong (ready : StageReady bound shards) (inhabited : 0 < size)
    (scans : (rank : Fin size) → Scan (shards rank))
    (valid : ∀ source ∈ sources, source.isEndpoint bound = true) :
    ∃ distances, Shortest (linksOf shards) bound sources distances ∧
      Together (fun rank => runAlong (scans rank) sources) fun _ => .ok distances := by
  obtain ⟨width, positive, agreed⟩ := together_defaultWidthAlong inhabited scans
  obtain ⟨distances, shortest, ends⟩ :=
    together_runWithAlong ready inhabited scans positive valid
  exact ⟨distances, shortest, together_bind agreed ends⟩

theorem alike_runAlong (ready : StageReady bound shards) (inhabited : 0 < size)
    (scans : (rank : Fin size) → Scan (shards rank)) (sources : List VertexId) :
    Alike fun rank => runAlong (scans rank) sources := by
  rcases Traversal.valid_or_outside bound sources with valid | ⟨source, first⟩
  · obtain ⟨distances, _, ends⟩ := together_runAlong ready inhabited scans valid
    exact alike_answer ends
  · obtain ⟨width, positive, agreed⟩ := together_defaultWidthAlong inhabited scans
    have refused : ∀ rank, (runWithAlong (scans rank) sources width).run =
        .done (.error (.vertexOutOfRange source bound)) := by
      intro rank
      rw [← ready.bounded rank] at first ⊢
      unfold runWithAlong
      simp only [if_neg (not_le_zero positive), Traversal.checkSources_of_outside first]
      rfl
    exact ⟨_, .refusal (.vertexOutOfRange source bound) trivial,
      together_bind agreed (together_answers refused)⟩

theorem finds_runWithAlong (positive : 0 < width.toInt)
    (valid : ∀ source ∈ sources, source.isEndpoint bound = true) :
    Shard.Finds bound (fun scan => runWithAlong scan sources width)
      fun links distances => Shortest links bound sources distances :=
  fun _ _ ready inhabited scans => together_runWithAlong ready inhabited scans positive valid

theorem finds_runAlong (valid : ∀ source ∈ sources, source.isEndpoint bound = true) :
    Shard.Finds bound (fun scan => runAlong scan sources)
      fun links distances => Shortest links bound sources distances :=
  fun _ _ ready inhabited scans => together_runAlong ready inhabited scans valid

/-- From valid sources, every group that holds a graph settles with the lengths of the shortest
paths, up to the greatest word: with buckets of any width, and with the width it would choose. -/
theorem buckets_of_any_width_find_shortest_paths {graph : Shard} (sound : graph.Sound)
    (edges : graph.edgeCount * 32 < UInt64.size) (vertices : graph.bound.toNat * 8 < UInt64.size)
    (sources : List VertexId)
    (valid : ∀ source ∈ sources, source.isEndpoint graph.bound = true) :
    ∃ distances, Shortest graph.links graph.bound sources distances ∧
      (∀ width : Int64, 1 ≤ width →
        graph.SettlesEverywhere (fun scan => runWithAlong scan sources width) distances) ∧
      graph.SettlesEverywhere (fun scan => runAlong scan sources) distances := by
  obtain ⟨distances, shortest⟩ := Shard.exists_good (finds_runAlong valid) sound edges vertices
  refine ⟨distances, shortest, fun width wide => ?_,
    Shard.settlesEverywhere (finds_runAlong valid) Shortest.unique edges vertices shortest⟩
  have positive : 0 < width.toInt := Int64.le_iff_toInt_le.1 wide
  exact Shard.settlesEverywhere (finds_runWithAlong positive valid) Shortest.unique edges vertices
    shortest

open Shard in
theorem islands_have_distances :
    ∃ distances, distances.size = 7 ∧ (distances.of 3).toInt = 1 ∧
      distances.of 4 = Int64.maxValue ∧ distances.of 6 = Int64.maxValue ∧
      (Plan.group fun rank : Fin 3 =>
        (runWith (twoIslands.cut (.cyclic 3) rank) [1, 1] 1).run).Settles
        (List.ofFn fun _ : Fin 3 => .ok distances) ∧
      (Plan.group fun rank : Fin 3 =>
        (runWith (twoIslands.cut (.cyclic 3) rank) [1, 1] 1000).run).Settles
        (List.ofFn fun _ : Fin 3 => .ok distances) ∧
      (Plan.group fun rank : Fin 2 =>
        (run (twoIslands.cut (.block 2 7) rank) [1, 1]).run).Settles
        (List.ofFn fun _ : Fin 2 => .ok distances) := by
  obtain ⟨distances, shortest, wide, chosen⟩ := buckets_of_any_width_find_shortest_paths
    sound_twoIslands (by decide) (by decide) [1, 1] (List.all_eq_true.1 (by decide))
  have near : twoIslands.links.IsDistance stretch [1, 1] 3 1 := by
    have first : twoIslands.links 1 2 ⟨-5, 0⟩ := by decide
    have second : twoIslands.links 2 3 ⟨1, 3⟩ := by decide
    refine ⟨((Links.Way.start (by decide)).step first).step second, fun total way => ?_⟩
    have longer : ∀ edge ∈ islandEdges, edge.dst = 3 → 1 ≤ stretch edge.attrs := by decide
    cases way with
    | start member => exact absurd member (by decide)
    | step _ link => exact Nat.le_add_left_of_le (longer _ (mem_islandEdges link) rfl)
  have far : twoIslands.links.IsDistance stretch [1, 1] 4 (1 + 9223372036854775807) := by
    have last : twoIslands.links 3 4 ⟨9223372036854775807, 4⟩ := by decide
    refine ⟨Links.Way.step near.1 last, fun total way => ?_⟩
    have only : ∀ edge ∈ islandEdges, edge.dst = 4 →
        edge.src = 3 ∧ stretch edge.attrs = 9223372036854775807 := by decide
    cases way with
    | start member => exact absurd member (by decide)
    | step before link =>
        obtain ⟨rfl, long⟩ := only _ (mem_islandEdges link) rfl
        exact Nat.add_le_add (near.2 before) (Nat.le_of_eq long.symm)
  exact ⟨distances, shortest.size, shortest.reached 3 1 near,
    Int64.toInt_inj.1 (shortest.reached 4 _ far),
    shortest.beyond 6 (by decide) (beyond_six (by decide)),
    wide 1 (by decide) _ _ _ hosted_threeCyclic fun _ => .ascending _,
    wide 1000 (by decide) _ _ _ hosted_threeCyclic fun _ => .ascending _,
    chosen _ _ _ hosted_twoBlocks fun _ => .ascending _⟩

end StreamGraph.ShortestPaths
