import StreamGraph.Analytics
import StreamGraph.Proofs.Analytics.Components
import StreamGraph.Proofs.Analytics.Fractions
import StreamGraph.Proofs.Analytics.Levels
import StreamGraph.Proofs.Analytics.ShortestPaths
import StreamGraph.Proofs.Snapshot
import StreamGraph.Proofs.Unanimity

/-!
All stages on all ranks. Whatever the stage and wherever it starts, the ranks take part in the
same operations; all of them have values in the end, or all of them were refused. The values of
the centralities are machine numbers, which are not shown to be the same on all ranks.
-/

namespace StreamGraph

open Collective

variable {size : Nat} {bound : UInt64} {shards : Fin size → Shard}

namespace PageRank

variable {Scalar : Type} [Add Scalar] [Sub Scalar] [Mul Scalar] [Div Scalar] [NatCast Scalar]
  [OfNat Scalar 0] [OfNat Scalar 1]

omit [Sub Scalar] [Mul Scalar] [OfNat Scalar 1] in
theorem size_spread {shard : Shard} (scan : Scan shard) (mass : Array Scalar)
    (flow : Outflow Scalar) (vertex : VertexId) :
    (spread scan mass flow vertex).arriving.size = flow.arriving.size := by
  unfold spread
  dsimp only
  split
  · rfl
  · exact size_foldl (fun _ _ => size_addAt ..) ..

omit [Sub Scalar] [Mul Scalar] [OfNat Scalar 1] in
theorem size_foldl_spread {shard : Shard} (scan : Scan shard) (mass : Array Scalar)
    (flow : Outflow Scalar) (vertices : List VertexId) :
    (vertices.foldl (spread scan mass) flow).arriving.size = flow.arriving.size := by
  induction vertices generalizing flow with
  | nil => rfl
  | cons vertex others ih => rw [List.foldl_cons, ih, size_spread]

omit [Sub Scalar] [Mul Scalar] [OfNat Scalar 1] in
theorem size_outflow {shard : Shard} (scan : Scan shard) (mass : Array Scalar) :
    (outflow scan mass).arriving.size = shard.bound.toNat := by
  rw [outflow, size_foldl_spread, Array.size_replicate]

variable [Record Scalar] [SizedRecord Scalar]

/-- A round needs nothing from the masses before it, which may differ from rank to rank. -/
theorem agreed_advance (ready : StageReady bound shards) (inhabited : 0 < size)
    (small : Record.size Scalar = 8) (scans : (rank : Fin size) → Scan (shards rank))
    (options : Options Scalar) (mass : Fin size → Array Scalar) :
    Agreed fun rank => advance (scans rank) options (mass rank) := by
  have arrived := together_reduceEach inhabited tag (· + ·)
    (fun rank => (outflow (scans rank) (mass rank)).arriving.toList)
    (by
      intro rank
      rw [Array.length_toList, size_outflow, ready.bounded])
    (by rw [small]; exact ready.vertices)
  have dangling := together_reduceFrom inhabited (some 0) (tag.offset 4) (· + ·) fun rank =>
    (outflow (scans rank) (mass rank)).dangling
  apply agreed_after arrived
  apply agreed_after dangling
  exact agreed_pure _

theorem agreed_rounds (ready : StageReady bound shards) (inhabited : 0 < size)
    (small : Record.size Scalar = 8) (scans : (rank : Fin size) → Scan (shards rank))
    (options : Options Scalar) (count : Nat) (mass : Fin size → Array Scalar) :
    Agreed fun rank => rounds (scans rank) options count (mass rank) := by
  induction count generalizing mass with
  | zero => exact agreed_pure mass
  | succ count ih =>
      exact agreed_bind (agreed_advance ready inhabited small scans options mass) ih

theorem agreed_runAlong (ready : StageReady bound shards) (inhabited : 0 < size)
    (small : Record.size Scalar = 8) (scans : (rank : Fin size) → Scan (shards rank))
    (options : Options Scalar) : Agreed fun rank => runAlong (scans rank) options := by
  unfold runAlong
  simp only [ready.bounded]
  by_cases narrow : bound ≤ 1
  · simp only [if_pos narrow]
    exact agreed_pure _
  · simp only [if_neg narrow]
    exact agreed_rounds ready inhabited small scans options options.rounds fun _ => start bound

end PageRank

namespace Betweenness

variable {Scalar : Type} [Add Scalar] [Mul Scalar] [Div Scalar] [OfNat Scalar 0] [OfNat Scalar 1]

theorem size_accumulate (snapshot : Snapshot) (totals : Array Scalar) (source : Nat) :
    (accumulate snapshot totals source).size = totals.size := by
  apply size_foldl
  intro totals vertex
  split
  · rfl
  · exact size_addAt ..

theorem length_fromSources (snapshot : Snapshot) (sources : List Nat) :
    (fromSources snapshot sources : Array Scalar).toList.length = snapshot.vertices := by
  rw [fromSources, Array.length_toList, size_foldl (size_accumulate snapshot),
    Array.size_replicate]

theorem agreed_runAlong [Record Scalar] [SizedRecord Scalar] (ready : StageReady bound shards)
    (inhabited : 0 < size) (small : Record.size Scalar = 8)
    (scans : (rank : Fin size) → Scan (shards rank)) :
    Agreed fun rank => (runAlong (scans rank) : Collective (List Scalar)) := by
  apply agreed_after (Snapshot.together_gatherAlong ready inhabited scans)
  have added := together_reduceEach inhabited tag (· + ·) (fun rank =>
    (fromSources (.ofEdges bound.toNat (List.ofFn fun rank => (scans rank).edges).flatten)
      (ownSources (shards rank) (.ofEdges bound.toNat
        (List.ofFn fun rank => (scans rank).edges).flatten)) : Array Scalar).toList)
    (fun rank => length_fromSources ..) (by rw [small]; exact ready.vertices)
  exact agreed_answers added

end Betweenness

namespace Algorithm

/-- Every stage agrees in whatever order the ranks come across their edges, if a traversal is given
where to start. -/
theorem agreed_run (ready : StageReady bound shards) (inhabited : 0 < size)
    (scans : (rank : Fin size) → Scan (shards rank)) (algorithm : Algorithm)
    (sources : List VertexId)
    (given : algorithm.needsSources = true → sources.isEmpty = false) :
    Agreed fun rank => algorithm.run (scans rank) sources := by
  have enough : (algorithm.needsSources && sources.isEmpty) = false := by
    cases needs : algorithm.needsSources with
    | true => exact given needs
    | false => rfl
  unfold run
  simp only [enough, Bool.false_eq_true, if_false]
  cases algorithm with
  | bfs =>
      exact agreed_bind (Levels.alike_runAlong ready inhabited scans sources).agreed
        fun _ => agreed_pure _
  | sssp =>
      exact agreed_bind (ShortestPaths.alike_runAlong ready inhabited scans sources).agreed
        fun _ => agreed_pure _
  | cc =>
      obtain ⟨labels, _, found⟩ := Components.together_runAlong ready inhabited scans
      exact agreed_after found (agreed_pure _)
  | gc => exact agreed_after (Snapshot.together_gatherAlong ready inhabited scans) (agreed_pure _)
  | pagerank =>
      exact agreed_bind (PageRank.agreed_runAlong ready inhabited rfl scans .standard)
        fun _ => agreed_pure _
  | bc =>
      exact agreed_bind (Betweenness.agreed_runAlong ready inhabited rfl scans)
        fun _ => agreed_pure _

end Algorithm

end StreamGraph
