import Mathlib.Algebra.BigOperators.Field
import Mathlib.Algebra.Order.Field.Rat
import Mathlib.Tactic.FieldSimp
import Mathlib.Tactic.Ring
import StreamGraph.Proofs.Analytics.Betweenness.Paths

/-!
What a vertex carries of the paths from a source. By definition it is a sum over all targets, of the
part of the shortest paths that lead through the vertex. It is also what the vertices of the next
layer hand back to it: each of them, for every path that ends there or goes on from there, the part
that came over this vertex.
-/

namespace StreamGraph.Betweenness

open Classical in
/-- The parts of the shortest paths from a source that lead through a vertex, added up over all
targets other than the source and the vertex itself. -/
noncomputable def carriedFrom (next : Nat → Nat → Prop) (vertices source vertex : Nat) : ℚ :=
  ∑ target ∈ Finset.range vertices with
      target ≠ source ∧ target ≠ vertex ∧ Reaches next source target,
    ({path ∈ shortest next source target | vertex ∈ path}.ncard : ℚ) /
      (shortest next source target).ncard

/-- What a vertex carries of the paths from some sources, each counted as often as it is listed. -/
noncomputable def betweenness (next : Nat → Nat → Prop) (vertices : Nat) (sources : List Nat)
    (vertex : Nat) : ℚ :=
  ((sources.filter (· ≠ vertex)).map fun source => carriedFrom next vertices source vertex).sum

variable {next : Nat → Nat → Prop} {source : Nat} {depth : Nat → Option Nat} {vertices : Nat}

theorem betweenness_cons (sources : List Nat) (vertex : Nat) :
    betweenness next vertices (source :: sources) vertex =
      (if vertex = source then 0 else carriedFrom next vertices source vertex) +
        betweenness next vertices sources vertex := by
  unfold betweenness
  rw [List.filter_cons]
  by_cases same : vertex = source
  · simp [same]
  · simp [same, Ne.symm same]

/-- The vertices that are in some layer. -/
def layered (depth : Nat → Option Nat) (vertices : Nat) : Finset Nat :=
  (Finset.range vertices).filter fun vertex => (depth vertex).isSome

/-- What a vertex carries, counted by ways to it and from it. -/
noncomputable def dependency (next : Nat → Nat → Prop) (depth : Nat → Option Nat)
    (vertices source vertex : Nat) : ℚ :=
  ∑ target ∈ (layered depth vertices).erase vertex,
    (between next depth vertices source vertex * between next depth vertices vertex target : ℚ) /
      between next depth vertices source target

/-- What a vertex carries of the paths that end at a vertex of the next layer or go on from
there. -/
noncomputable def due (next : Nat → Nat → Prop) (depth : Nat → Option Nat)
    (vertices source here there : Nat) : ℚ :=
  between next depth vertices source here / between next depth vertices source there *
    (1 + dependency next depth vertices source there)

theorem mem_layered {vertex : Nat} : vertex ∈ layered depth vertices ↔
    vertex < vertices ∧ ∃ layer, depth vertex = some layer := by
  rw [layered, Finset.mem_filter, Finset.mem_range, Option.isSome_iff_exists]

variable (layers : Layers next source depth)
  (within : ∀ here there, next here there → here < vertices ∧ there < vertices)

include layers within

/-- What a vertex of the next layer hands back to one before it. -/
theorem handed_back {here there layer : Nat} (known : depth here = some layer)
    (edge : Tight next depth here there) :
    ∑ target ∈ (layered depth vertices).erase here,
      (between next depth vertices source here * between next depth vertices there target : ℚ) /
        between next depth vertices source target = due next depth vertices source here there := by
  rcases edge.2 with ⟨other, same, further⟩
  rw [known, Option.some_inj] at same
  have inside : there ∈ layered depth vertices :=
    mem_layered.2 ⟨(within _ _ edge.1).2, _, further⟩
  have apart : there ≠ here := by
    intro equal
    rw [equal, known, Option.some_inj] at further
    omega
  have nonzero : (between next depth vertices source there : ℚ) ≠ 0 :=
    Nat.cast_ne_zero.2 (between_pos layers within further).ne'
  have nothing : (between next depth vertices there here : ℚ) = 0 := by
    rw [between_eq_zero apart, Nat.cast_zero]
    rw [level_eq known, level_eq further]
    omega
  rw [Finset.sum_erase, ← Finset.add_sum_erase _ _ inside, between_self, due, dependency, mul_add,
    Finset.mul_sum]
  · congr 1
    · ring
    · apply Finset.sum_congr rfl
      intro target _
      field_simp
  · rw [nothing, mul_zero, zero_div]

open Classical in
/-- What a vertex carries is what the vertices after it hand back. -/
theorem dependency_eq {here layer : Nat} (known : depth here = some layer) :
    dependency next depth vertices source here =
      ∑ there ∈ Finset.range vertices with Tight next depth here there,
        due next depth vertices source here there := by
  have split : dependency next depth vertices source here =
      ∑ target ∈ (layered depth vertices).erase here,
        ∑ there ∈ Finset.range vertices with Tight next depth here there,
          (between next depth vertices source here * between next depth vertices there target : ℚ) /
            between next depth vertices source target := by
    apply Finset.sum_congr rfl
    intro target member
    rcases Finset.mem_erase.1 member with ⟨apart, inLayer⟩
    rcases (mem_layered.1 inLayer).2 with ⟨last, reached⟩
    rw [between_onward (Ne.symm apart) known reached, Nat.cast_sum, Finset.mul_sum,
      Finset.sum_div]
  rw [split, Finset.sum_comm]
  apply Finset.sum_congr rfl
  intro there member
  exact handed_back layers within known (Finset.mem_filter.1 member).2

/-- For a vertex that paths from the source reach, the definition counts the same. -/
theorem carriedFrom_eq {vertex layer : Nat} (apart : vertex ≠ source)
    (known : depth vertex = some layer) :
    carriedFrom next vertices source vertex = dependency next depth vertices source vertex := by
  classical
  have start : depth source = some 0 := (layers.first source).2 rfl
  have nothing : (between next depth vertices vertex source : ℚ) = 0 := by
    rw [between_eq_zero apart, Nat.cast_zero]
    rw [level_eq start]
    exact Nat.zero_le _
  unfold carriedFrom dependency
  simp only [layers.reaches_iff]
  rw [Finset.sum_subset_zero_on_sdiff]
  · intro target member
    rw [Finset.mem_filter, Finset.mem_range] at member
    exact Finset.mem_erase.2 ⟨member.2.2.1, mem_layered.2 ⟨member.1, member.2.2.2⟩⟩
  · intro target member
    rw [Finset.mem_sdiff, Finset.mem_erase, mem_layered, Finset.mem_filter,
      Finset.mem_range] at member
    have first : target = source := by
      by_contra other
      exact member.2 ⟨member.1.2.1, other, member.1.1, member.1.2.2⟩
    rw [first, nothing, mul_zero, zero_div]
  · intro target member
    rcases (Finset.mem_filter.1 member).2.2.2 with ⟨last, reached⟩
    rw [ncard_through layers within known reached, ncard_shortest layers within reached,
      Nat.cast_mul]

omit within in
/-- A vertex that no path from the source reaches carries nothing. -/
theorem carriedFrom_beyond {vertex : Nat} (beyond : depth vertex = none) :
    carriedFrom next vertices source vertex = 0 := by
  apply Finset.sum_eq_zero
  intro target _
  rw [ncard_through_beyond layers beyond, Nat.cast_zero, zero_div]

end StreamGraph.Betweenness
