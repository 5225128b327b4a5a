import Mathlib.Algebra.Order.Floor.Div
import Mathlib.Data.List.Basic
import StreamGraph.Ownership

/-!
Every vertex below the bound has one owner, and each rank's list is exactly what it owns. The rule
that names the owner divides, and the rule that lists a rank's vertices multiplies and adds; that
the two agree is not seen from either, and none of the products and sums is cut off where it would
show. Owners in turn share the vertices out evenly, and runs follow each other in the order of the
ranks.
-/

namespace StreamGraph.Partition

theorem owner_lt {partition : Partition} (positive : 0 < partition.parts)
    (vertex : VertexId) : partition.owner vertex < partition.parts := by
  cases partition with
  | cyclic parts => exact Nat.mod_lt _ positive
  | block parts bound =>
      simp only [owner, Partition.parts] at positive ⊢
      omega

section Stepping

variable {start width : Nat} {bound : UInt64}

/-- A step is taken exactly if it stays below the bound. -/
theorem lt_turns_iff (positive : 0 < width) (turn : Nat) :
    turn < (bound.toNat - start + (width - 1)) / width ↔ start + turn * width < bound.toNat := by
  rw [Nat.lt_div_iff_mul_lt positive]
  omega

theorem toNat_step {turn : Nat} (below : start + turn * width < bound.toNat) :
    (UInt64.ofNat (start + turn * width)).toNat = start + turn * width :=
  UInt64.toNat_ofNat_of_lt' (Nat.lt_trans below bound.toNat_lt_size)

theorem mem_stepping (positive : 0 < width) (vertex : VertexId) :
    vertex ∈ stepping start width bound ↔
      vertex < bound ∧ ∃ turn, vertex.toNat = start + turn * width := by
  unfold stepping
  simp only [List.mem_map, List.mem_range, lt_turns_iff positive, UInt64.lt_iff_toNat_lt]
  constructor
  · intro reached
    rcases reached with ⟨turn, below, rfl⟩
    rw [toNat_step below]
    exact ⟨below, turn, rfl⟩
  · intro stepped
    rcases stepped with ⟨below, turn, same⟩
    rw [same] at below
    refine ⟨turn, below, ?_⟩
    rw [← same, UInt64.ofNat_toNat]

theorem ascending_stepping (positive : 0 < width) :
    (stepping start width bound).Pairwise (· < ·) := by
  unfold stepping
  rw [List.pairwise_map]
  apply List.Pairwise.imp_of_mem _ List.pairwise_lt_range
  intro first second inFirst inSecond before
  rw [List.mem_range, lt_turns_iff positive] at inFirst inSecond
  rw [UInt64.lt_iff_toNat_lt, toNat_step inFirst, toNat_step inSecond]
  exact Nat.add_lt_add_left (Nat.mul_lt_mul_of_pos_right before positive) start

theorem length_stepping :
    (stepping start width bound).length = (bound.toNat - start + (width - 1)) / width := by
  rw [stepping, List.length_map, List.length_range]

end Stepping

section Runs

variable {parts : Nat} {bound : UInt64}

theorem runLength_pos (parts : Nat) (bound : UInt64) : 0 < runLength parts bound :=
  Nat.lt_of_lt_of_le Nat.zero_lt_one (Nat.le_max_left ..)

theorem runLength_eq (parts : Nat) (bound : UInt64) :
    runLength parts bound = max 1 (bound.toNat ⌈/⌉ parts) := rfl

/-- The runs of all ranks cover all vertices. -/
theorem bound_le_runs (positive : 0 < parts) (bound : UInt64) :
    bound.toNat ≤ parts * runLength parts bound := by
  have covered : bound.toNat ≤ parts * (bound.toNat ⌈/⌉ parts) := le_smul_ceilDiv positive
  have length : bound.toNat ⌈/⌉ parts ≤ runLength parts bound := Nat.le_max_right ..
  exact Nat.le_trans covered (Nat.mul_le_mul_left parts length)

theorem runLength_lt (positive : 0 < parts) (bound : UInt64) :
    runLength parts bound < UInt64.size := by
  have whole : bound.toNat ⌈/⌉ parts ≤ bound.toNat :=
    (ceilDiv_le_iff_le_mul positive).2 (Nat.le_mul_of_pos_left _ positive)
  have one : 1 < UInt64.size := by decide
  rw [runLength_eq]
  exact Nat.max_lt.2 ⟨one, Nat.lt_of_le_of_lt whole bound.toNat_lt_size⟩

theorem toNat_min (left right : UInt64) : (min left right).toNat = min left.toNat right.toNat := by
  change (if left ≤ right then left else right).toNat = _
  by_cases before : left ≤ right
  · rw [if_pos before, Nat.min_eq_left (UInt64.le_iff_toNat_le.1 before)]
  · have after := Nat.le_of_lt (Nat.lt_of_not_le (mt UInt64.le_iff_toNat_le.2 before))
    rw [if_neg before, Nat.min_eq_right after]

/-- A number that is cut off at the greatest word is beyond every bound. -/
theorem toNat_min_clampUnsigned (value : Nat) (bound : UInt64) :
    (min (Saturation.clampUnsigned value) bound).toNat = min value bound.toNat := by
  have word := bound.toNat_lt_size
  rw [toNat_min, Saturation.toNat_clampUnsigned]
  omega

theorem toNat_runStart (parts : Nat) (bound : UInt64) (rank : Nat) :
    (runStart parts bound rank).toNat = min (rank * runLength parts bound) bound.toNat :=
  toNat_min_clampUnsigned _ _

/-- A run ends where the next one would begin. -/
theorem toNat_runStop {rank : Nat} (inside : rank < parts) (bound : UInt64) :
    (runStop parts bound rank).toNat = min ((rank + 1) * runLength parts bound) bound.toNat := by
  unfold runStop
  split
  · next last =>
      have covered := bound_le_runs (Nat.lt_of_le_of_lt (Nat.zero_le _) inside) bound
      rw [last, Nat.min_eq_right covered]
  · rw [toNat_min_clampUnsigned, toNat_runStart, Nat.succ_mul]
    omega

theorem mem_neighbours (rank : Nat) (vertex : VertexId) :
    vertex ∈ (block parts bound).owned rank bound ↔
      runStart parts bound rank ≤ vertex ∧ vertex < runStop parts bound rank := by
  have reached : (∃ turn, vertex.toNat = (runStart parts bound rank).toNat + turn * 1) ↔
      runStart parts bound rank ≤ vertex := by
    simp only [Nat.mul_one]
    rw [UInt64.le_iff_toNat_le]
    exact le_iff_exists_add.symm
  rw [owned, mem_stepping Nat.zero_lt_one, reached, and_comm]

theorem mem_run {rank : Nat} (inside : rank < parts) (vertex : VertexId) :
    vertex ∈ (block parts bound).owned rank bound ↔
      vertex < bound ∧ rank * runLength parts bound ≤ vertex.toNat ∧
        vertex.toNat < (rank + 1) * runLength parts bound := by
  rw [mem_neighbours, UInt64.le_iff_toNat_le, UInt64.lt_iff_toNat_lt, UInt64.lt_iff_toNat_lt,
    toNat_runStop inside, toNat_runStart]
  omega

/-- The owner by division is the rank whose run the vertex lies in. -/
theorem owner_block_iff {rank : Nat} (inside : rank < parts) {vertex : VertexId}
    (below : vertex < bound) : (block parts bound).owner vertex = rank ↔
      rank * runLength parts bound ≤ vertex.toNat ∧
        vertex.toNat < (rank + 1) * runLength parts bound := by
  have positive := runLength_pos parts bound
  have covered := bound_le_runs (Nat.lt_of_le_of_lt (Nat.zero_le _) inside) bound
  have beforeEnd : vertex.toNat / runLength parts bound < parts := by
    rw [Nat.div_lt_iff_lt_mul positive]
    exact Nat.lt_of_lt_of_le (UInt64.lt_iff_toNat_lt.1 below) covered
  have unclamped : (block parts bound).owner vertex = vertex.toNat / runLength parts bound := by
    rw [owner]
    omega
  rw [unclamped, Nat.div_eq_iff positive, Nat.succ_mul]
  omega

end Runs

/-- The lists of the ranks cover the vertices below a bound exactly. Each list is in order and
holds what its rank owns, so no vertex is on two lists, and none is on no list. -/
structure Covers (partition : Partition) (bound : UInt64) : Prop where
  owner (vertex : VertexId) : partition.owner vertex < partition.parts
  ascending (rank : Nat) (inside : rank < partition.parts) :
    (partition.owned rank bound).Pairwise (· < ·)
  owns (rank : Nat) (inside : rank < partition.parts) (vertex : VertexId) :
    vertex ∈ partition.owned rank bound ↔ vertex < bound ∧ partition.owner vertex = rank
  once (vertex : VertexId) (below : vertex < bound) :
    ∃! rank, rank < partition.parts ∧ vertex ∈ partition.owned rank bound

/-- No rank has two vertices more than another. -/
def Evenly (partition : Partition) (bound : UInt64) : Prop :=
  ∀ first < partition.parts, ∀ second < partition.parts,
    (partition.owned first bound).length ≤ (partition.owned second bound).length + 1

/-- The list of each rank is one run of neighbouring vertices, none is longer than needed, and the
runs follow each other. Their length is a word, and where they begin and end is not changed by the
size of a word. -/
structure InRuns (partition : Partition) (bound : UInt64) : Prop where
  length : runLength partition.parts bound < UInt64.size
  start (rank : Nat) (inside : rank < partition.parts) :
    (runStart partition.parts bound rank).toNat =
      min (rank * runLength partition.parts bound) bound.toNat
  stop (rank : Nat) (inside : rank < partition.parts) :
    (runStop partition.parts bound rank).toNat =
      min ((rank + 1) * runLength partition.parts bound) bound.toNat
  neighbours (rank : Nat) (inside : rank < partition.parts) (vertex : VertexId) :
    vertex ∈ partition.owned rank bound ↔ runStart partition.parts bound rank ≤ vertex ∧
      vertex < runStop partition.parts bound rank
  short (rank : Nat) (inside : rank < partition.parts) :
    (partition.owned rank bound).length ≤ max 1 (bound.toNat ⌈/⌉ partition.parts)
  inOrder (first second : Nat) (before : first < second) (inside : second < partition.parts) :
    ∀ earlier ∈ partition.owned first bound, ∀ later ∈ partition.owned second bound,
      earlier < later

theorem covers_of_owns (partition : Partition) {bound : UInt64} (positive : 0 < partition.parts)
    (ascending : ∀ rank < partition.parts, (partition.owned rank bound).Pairwise (· < ·))
    (owns : ∀ rank < partition.parts, ∀ vertex,
      vertex ∈ partition.owned rank bound ↔ vertex < bound ∧ partition.owner vertex = rank) :
    partition.Covers bound where
  owner := owner_lt positive
  ascending := ascending
  owns := owns
  once vertex below := by
    have inside := owner_lt positive vertex
    refine ⟨partition.owner vertex, ⟨inside, (owns _ inside vertex).2 ⟨below, rfl⟩⟩, ?_⟩
    intro rank listed
    exact ((owns rank listed.1 vertex).1 listed.2).2.symm

section Cyclic

variable {parts : Nat}

theorem owner_cyclic_iff {rank : Nat} (inside : rank < parts) (vertex : VertexId) :
    (cyclic parts).owner vertex = rank ↔ ∃ turn, vertex.toNat = rank + turn * parts := by
  rw [owner]
  constructor
  · intro same
    use vertex.toNat / parts
    rw [← same, Nat.mod_add_div']
  · intro stepped
    rcases stepped with ⟨turn, same⟩
    rw [same, Nat.add_mul_mod_self_right, Nat.mod_eq_of_lt inside]

theorem covers_cyclic (positive : 0 < parts) (bound : UInt64) : (cyclic parts).Covers bound := by
  apply covers_of_owns (cyclic parts) positive
  · intro rank _
    exact ascending_stepping positive
  · intro rank (inside : rank < parts) vertex
    rw [owned, mem_stepping positive, owner_cyclic_iff inside]

theorem evenly_cyclic (positive : 0 < parts) (bound : UInt64) : (cyclic parts).Evenly bound := by
  intro first _ second inSecond
  rw [Partition.parts] at inSecond
  simp only [owned, length_stepping]
  rw [← Nat.add_div_right _ positive]
  apply Nat.div_le_div_right
  omega

end Cyclic

section Block

variable {parts : Nat} {bound : UInt64}

theorem covers_block (positive : 0 < parts) : (block parts bound).Covers bound := by
  apply covers_of_owns (block parts bound) positive
  · intro rank _
    exact ascending_stepping Nat.zero_lt_one
  · intro rank (inside : rank < parts) vertex
    rw [mem_run inside]
    apply and_congr_right
    intro below
    exact (owner_block_iff inside below).symm

theorem inRuns_block (positive : 0 < parts) (bound : UInt64) :
    (block parts bound).InRuns bound where
  length := runLength_lt positive bound
  start rank _ := toNat_runStart parts bound rank
  stop _ inside := toNat_runStop inside bound
  neighbours rank _ vertex := mem_neighbours rank vertex
  short rank (inside : rank < parts) := by
    have length : max 1 (bound.toNat ⌈/⌉ (block parts bound).parts) = runLength parts bound :=
      (runLength_eq parts bound).symm
    rw [length, owned, length_stepping, toNat_runStart, toNat_runStop inside, Nat.sub_self,
      Nat.add_zero, Nat.div_one, Nat.succ_mul]
    omega
  inOrder first second before inside earlier inFirst later inSecond := by
    have ends := ((mem_run (Nat.lt_trans before inside) earlier).1 inFirst).2.2
    have begins := ((mem_run inside later).1 inSecond).2.1
    have apart := Nat.mul_le_mul_right (runLength parts bound) (Nat.succ_le_of_lt before)
    rw [UInt64.lt_iff_toNat_lt]
    exact Nat.lt_of_lt_of_le ends (Nat.le_trans apart begins)

end Block

/-- Whatever the number of ranks and the bound, the rule that names owners and the rule that lists
vertices describe one exact cover. -/
theorem every_vertex_is_listed_by_its_owner (parts : Nat) (bound : UInt64) :
    (∀ layout : Layout, (layout.build parts bound).parts = max parts 1 ∧
      (layout.build parts bound).Covers bound) ∧
    (Layout.cyclic.build parts bound).Evenly bound ∧
    (Layout.block.build parts bound).InRuns bound := by
  have positive : 0 < max parts 1 := Nat.lt_of_lt_of_le Nat.zero_lt_one (Nat.le_max_right ..)
  constructor
  · intro layout
    cases layout with
    | cyclic => exact ⟨rfl, covers_cyclic positive bound⟩
    | block => exact ⟨rfl, covers_block positive⟩
  · exact ⟨evenly_cyclic positive bound, inRuns_block positive bound⟩

/-- A run that would begin behind the greatest word begins at the bound. -/
example : runStart 9223372036854775809 18446744073709551615 9223372036854775808 =
    18446744073709551615 := by decide

end StreamGraph.Partition
