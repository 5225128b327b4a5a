import Mathlib.Algebra.Order.BigOperators.Group.Finset
import StreamGraph.Proofs.Unanimity
import StreamGraph.SourcePicker

/-!
How all ranks come to the same source. Ranks whose generators are in the same state draw the same
candidates, and each candidate is judged by a maximum that all of them have; so they stop at the
same draw, with their generators again in the same state. The vertex of highest degree is found
among the entries of all ranks, which every rank puts into the same order.
-/

namespace StreamGraph

open Plan

variable {size : Nat} {bound : UInt64} {shards : Fin size → Shard}

namespace Query

/-- Each rank gathers one vertex at most. -/
theorem gatherable_highest (ranks : size * 16 < UInt64.size)
    (entries : Fin size → List VertexDegree) :
    Collective.Gatherable fun rank => highest 1 (entries rank) where
  ranks := by omega
  all := by
    have each : ∀ rank, (highest 1 (entries rank)).length ≤ 1 := by
      intro rank
      exact List.length_take_le 1 _
    have total : (List.ofFn fun rank => highest 1 (entries rank)).flatten.length ≤ size := by
      rw [Collective.length_flatten_ofFn]
      calc ∑ rank, (highest 1 (entries rank)).length ≤ ∑ _ : Fin size, 1 :=
            Finset.sum_le_sum fun rank _ => each rank
        _ = size := by simp
    exact lt_of_le_of_lt (Nat.mul_le_mul_right 16 total) ranks

theorem together_highestDegreeVertex (inhabited : 0 < size) (ranks : size * 16 < UInt64.size)
    (shards : Fin size → Shard) :
    ∃ vertex, Collective.Together (fun rank => highestDegreeVertex (shards rank))
      fun _ => .ok vertex := by
  have top : Collective.Together (fun rank => topDegrees (shards rank) 1) fun _ => .ok _ :=
    Collective.together_bind
      (Collective.together_allgatherFlat inhabited topTag _ (gatherable_highest ranks _))
      (Collective.together_pure _)
  exact ⟨_, Collective.together_bind top (Collective.together_pure _)⟩

end Query

namespace SourcePicker

variable {generator : Generator}

theorem lockstep_search (inhabited : 0 < size) (bounded : ∀ rank, (shards rank).bound = bound)
    (tries : Nat) (state : generator.State) :
    ∃ found after, Lockstep (fun rank => search (shards rank) tries state)
      fun _ => (.ok found, after) := by
  induction tries generalizing state with
  | zero => exact ⟨none, state, .done _⟩
  | succ tries ih =>
      have degree := Collective.together_reduced inhabited (some 0) tag
        (fun left right : UInt64 => if left < right then right else left)
        fun rank => UInt64.ofNat
          (Query.localDegree (shards rank) (generator.endpoint bound state).1)
      obtain ⟨found, after, later⟩ := ih (generator.endpoint bound state).2
      unfold search
      simp only [bounded]
      generalize Collective.combine _ _ _ _ = highest at degree
      by_cases useful : 0 < highest
      · refine ⟨some (generator.endpoint bound state).1, (generator.endpoint bound state).2,
          lockstep_bind degree ?_⟩
        simp only [if_pos useful]
        exact .done _
      · refine ⟨found, after, lockstep_bind degree ?_⟩
        simp only [if_neg useful]
        exact later

/-- All ranks choose the same vertex, or find none after the same number of tries. -/
theorem lockstep_choose (inhabited : 0 < size) (bounded : ∀ rank, (shards rank).bound = bound)
    (picker : SourcePicker generator) :
    ∃ chosen after, Verdict chosen ∧
      Lockstep (fun rank => picker.choose (shards rank)) fun _ => (chosen, after) := by
  unfold choose
  simp only [bounded]
  by_cases narrow : bound ≤ 1
  · simp only [if_pos narrow]
    exact ⟨_, picker, .refusal (.noUsableSource 0) trivial, .done _⟩
  · simp only [if_neg narrow]
    obtain ⟨found, after, searched⟩ := lockstep_search inhabited bounded picker.maxTries
      picker.state
    refine ⟨_, _, ?_, lockstep_bind searched (.done _)⟩
    cases found with
    | none => exact .refusal (.noUsableSource picker.maxTries) trivial
    | some vertex => exact .answer vertex

end SourcePicker

end StreamGraph
