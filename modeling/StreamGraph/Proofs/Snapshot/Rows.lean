import Mathlib.Data.List.Permutation
import StreamGraph.Proofs.Snapshot

/-!
Compressed rows are the edges that they were made of. The beginnings of the rows go from nothing to
the number of edges without a step back; between two of them lies what leaves one vertex, in order,
so that all rows together have each edge once, as often as it was given. Without direction, the
rows are strictly ascending and symmetric.
-/

namespace StreamGraph

namespace Snapshot

variable {vertices vertex : Nat} {edges : List Edge}

theorem length_runningSums (total : Nat) (counts : List Nat) :
    (runningSums total counts).length = counts.length + 1 := by
  induction counts generalizing total with
  | nil => rfl
  | cons count counts ih => rw [runningSums, List.length_cons, ih, List.length_cons]

theorem size_offsets (vertices : Nat) (edges : List Edge) :
    (ofEdges vertices edges).offsets.size = vertices + 1 := by
  change (runningSums 0 (tally vertices (Edge.sorted edges)).toList).toArray.size = _
  rw [List.size_toArray, length_runningSums, tally_eq, List.length_map, List.length_range]

/-- A row begins behind the edges of all vertices before its own, and the last one ends there. -/
theorem toList_offsets (vertices : Nat) (edges : List Edge) :
    (ofEdges vertices edges).offsets.toList = (List.range (vertices + 1)).map fun vertex =>
      edges.countP fun edge => decide (edge.src.toNat < vertex) := by
  apply List.ext_getElem?
  intro vertex
  rw [Array.getElem?_toList, List.getElem?_map]
  by_cases inside : vertex < vertices + 1
  · rw [getElem?_offsets (Nat.le_of_lt_succ inside), (Edge.sorted_perm edges).countP_eq,
      List.getElem?_range inside]
    rfl
  · have outside : vertices + 1 ≤ vertex := Nat.le_of_not_lt inside
    rw [Array.getElem?_eq_none (by rw [size_offsets]; exact outside),
      List.getElem?_eq_none (by rw [List.length_range]; exact outside)]
    rfl

/-- One count for each vertex, at the place behind its own. -/
def shiftedTally (vertices : Nat) (edges : List Edge) : Array Nat :=
  edges.foldl (fun counts edge => counts.modify (edge.src.toNat + 1) (· + 1))
    (Array.replicate (vertices + 1) 0)

/-- Adds to each count what has become of the one before it, as far as `steps` places behind the
first. -/
def accumulate (steps : Nat) (counts : Array Nat) : Array Nat :=
  (List.range steps).foldl
    (fun sums place => sums.modify (place + 1) (· + sums.getD place 0)) counts

theorem accumulate_succ (steps : Nat) (counts : Array Nat) : accumulate (steps + 1) counts =
    (accumulate steps counts).modify (steps + 1) (· + (accumulate steps counts).getD steps 0) := by
  rw [accumulate, List.range_succ, List.foldl_append]
  rfl

theorem size_accumulate (steps : Nat) (counts : Array Nat) :
    (accumulate steps counts).size = counts.size := by
  induction steps with
  | zero => rfl
  | succ steps ih => rw [accumulate_succ, Array.size_modify, ih]

/-- A place that is reached holds the sum of all counts up to its own. -/
theorem getElem?_accumulate (steps : Nat) (counts : Array Nat) {index : Nat}
    (inside : index < counts.size) : (accumulate steps counts)[index]? =
      some (if index ≤ steps then (counts.toList.take (index + 1)).sum else counts[index]) := by
  have added : (counts.toList.take (index + 1)).sum =
      (counts.toList.take index).sum + counts[index] := List.sum_take_succ _ _ inside
  induction steps generalizing index with
  | zero =>
      rw [accumulate, List.range_zero, List.foldl_nil, Array.getElem?_eq_getElem inside]
      split
      · next first =>
          have nothing : (counts.toList.take index).sum = 0 := by
            rw [Nat.le_zero.1 first]
            rfl
          rw [added, nothing, Nat.zero_add]
      · rfl
  | succ steps ih =>
      rw [accumulate_succ, Array.getElem?_modify, ih inside added]
      by_cases here : steps + 1 = index
      · subst here
        have before : steps < counts.size := by omega
        have last := ih before (List.sum_take_succ _ _ before)
        rw [if_pos rfl, Option.map_some, if_neg (by omega), if_pos (Nat.le_refl _), added,
          Array.getD_eq_getD_getElem?, last, if_pos (Nat.le_refl _), Option.getD_some,
          Nat.add_comm]
      · rw [if_neg here]
        congr 2
        exact propext (by omega)

/-- The places where rows begin are what counting at shifted places and adding up in place come
to. -/
theorem offsets_eq_accumulate (vertices : Nat) (edges : List Edge) :
    (ofEdges vertices edges).offsets =
      accumulate vertices (shiftedTally vertices (Edge.sorted edges)) := by
  have counts : (shiftedTally vertices (Edge.sorted edges)).toList =
      (List.range (vertices + 1)).map fun place =>
        (Edge.sorted edges).countP fun edge => edge.src.toNat + 1 == place :=
    toList_counts (fun edge => edge.src.toNat + 1) (vertices + 1) (Edge.sorted edges)
  have size : (shiftedTally vertices (Edge.sorted edges)).size = vertices + 1 := by
    rw [← Array.length_toList, counts, List.length_map, List.length_range]
  apply Array.ext_getElem?
  intro vertex
  by_cases inside : vertex < vertices + 1
  · have reached : vertex ≤ vertices := Nat.le_of_lt_succ inside
    have upTo := foldl_counts (fun edge : Edge => edge.src.toNat + 1) (vertex + 1)
      (Edge.sorted edges)
    rw [getElem?_offsets reached, getElem?_accumulate _ _ (by rw [size]; exact inside),
      if_pos reached, counts, ← List.map_take, List.take_range,
      Nat.min_eq_left (Nat.succ_le_of_lt inside), List.sum_eq_foldl, upTo]
    simp only [Nat.add_lt_add_iff_right]
  · have outside : vertices + 1 ≤ vertex := Nat.le_of_not_lt inside
    rw [Array.getElem?_eq_none (by rw [size_offsets]; exact outside),
      Array.getElem?_eq_none (by rw [size_accumulate, size]; exact outside)]

theorem ascending_offsets (vertices : Nat) (edges : List Edge) :
    (ofEdges vertices edges).offsets.toList.Pairwise (· ≤ ·) := by
  rw [toList_offsets, List.pairwise_map]
  apply List.pairwise_lt_range.imp
  intro first second before
  apply List.countP_mono_left
  intro edge _ below
  exact decide_eq_true (Nat.lt_trans (of_decide_eq_true below) before)

theorem weightedNeighbors_perm (inside : vertex < vertices) :
    ((ofEdges vertices edges).weightedNeighbors vertex).Perm
      ((edges.filter fun edge => edge.src.toNat == vertex).map fun edge =>
        (edge.dst.toNat, edge.weight)) := by
  rw [weightedNeighbors_ofEdges inside]
  exact ((Edge.sorted_perm edges).filter _).map _

theorem pairwise_weightedNeighbors (inside : vertex < vertices) :
    ((ofEdges vertices edges).weightedNeighbors vertex).Pairwise
      fun left right => left.1 ≤ right.1 := by
  rw [weightedNeighbors_ofEdges inside, List.pairwise_map]
  apply ((Edge.pairwise_sorted edges).filter _).imp_of_mem
  intro left right inLeft inRight before
  have source := beq_iff_eq.1 (List.mem_filter.1 inLeft).2
  have sameSource := beq_iff_eq.1 (List.mem_filter.1 inRight).2
  rw [EdgeKey.le_iff] at before
  simp only [Edge.key] at before
  omega

theorem length_weightedNeighbors (inside : vertex < vertices) :
    ((ofEdges vertices edges).weightedNeighbors vertex).length =
      (ofEdges vertices edges).outDegree vertex := by
  rw [(weightedNeighbors_perm inside).length_eq, List.length_map, outDegree_ofEdges inside,
    List.countP_eq_length_filter]

/-- All rows together have every edge as often as it was given. -/
theorem rows_perm (within : ∀ edge ∈ edges, edge.src.toNat < vertices) :
    ((List.range vertices).flatMap fun vertex =>
        ((ofEdges vertices edges).weightedNeighbors vertex).map fun entry => (vertex, entry)).Perm
      (edges.map fun edge => (edge.src.toNat, edge.dst.toNat, edge.weight)) := by
  have row : ∀ vertex ∈ List.range vertices,
      ((ofEdges vertices edges).weightedNeighbors vertex).map (fun entry => (vertex, entry)) =
        ((Edge.sorted edges).filter fun edge => edge.src.toNat == vertex).map fun edge =>
          (edge.src.toNat, edge.dst.toNat, edge.weight) := by
    intro vertex inside
    rw [weightedNeighbors_ofEdges (List.mem_range.1 inside), List.map_map]
    apply List.map_congr_left
    intro edge member
    rw [beq_iff_eq.1 (List.mem_filter.1 member).2]
    rfl
  have all : (Edge.sorted edges).filter (fun edge => decide (edge.src.toNat < vertices)) =
      Edge.sorted edges := by
    rw [List.filter_eq_self]
    intro edge member
    exact decide_eq_true (within edge ((Edge.sorted_perm edges).mem_iff.1 member))
  have classes := flatMap_classes_perm (fun edge : Edge => edge.src.toNat) vertices
    (Edge.sorted edges)
  rw [all] at classes
  rw [List.flatMap_congr row, ← List.map_flatMap]
  exact (classes.trans (Edge.sorted_perm edges)).map _

/-- What compressed rows tell about the edges that they were made of. -/
structure Represents (vertices : Nat) (edges : List Edge) (snapshot : Snapshot) : Prop where
  counted : snapshot.edgeCount = edges.length
  sized : snapshot.offsets.size = vertices + 1
  starts : snapshot.offsets[0]? = some 0
  ascends : snapshot.offsets.toList.Pairwise (· ≤ ·)
  ends : snapshot.offsets[vertices]? = some edges.length
  row (vertex : Nat) (inside : vertex < vertices) : (snapshot.weightedNeighbors vertex).Perm
    ((edges.filter fun edge => edge.src.toNat == vertex).map fun edge =>
      (edge.dst.toNat, edge.weight))
  sorted (vertex : Nat) (inside : vertex < vertices) :
    (snapshot.weightedNeighbors vertex).Pairwise fun left right => left.1 ≤ right.1
  degree (vertex : Nat) (inside : vertex < vertices) :
    snapshot.outDegree vertex = (snapshot.weightedNeighbors vertex).length
  rows : ((List.range vertices).flatMap fun vertex =>
      (snapshot.weightedNeighbors vertex).map fun entry => (vertex, entry)).Perm
    (edges.map fun edge => (edge.src.toNat, edge.dst.toNat, edge.weight))

theorem represents_ofEdges (within : ∀ edge ∈ edges, edge.src.toNat < vertices) :
    Represents vertices edges (ofEdges vertices edges) where
  counted := by
    change ((Edge.sorted edges).map Edge.dst).toArray.size = _
    rw [List.size_toArray, List.length_map, (Edge.sorted_perm edges).length_eq]
  sized := size_offsets vertices edges
  starts := by
    rw [getElem?_offsets (Nat.zero_le _), Option.some_inj, List.countP_eq_zero]
    exact fun edge _ below => Nat.not_lt_zero _ (of_decide_eq_true below)
  ascends := ascending_offsets vertices edges
  ends := by
    rw [getElem?_offsets (Nat.le_refl _), (Edge.sorted_perm edges).countP_eq, Option.some_inj,
      List.countP_eq_length]
    exact fun edge given => decide_eq_true (within edge given)
  row _ inside := weightedNeighbors_perm inside
  sorted _ inside := pairwise_weightedNeighbors inside
  degree _ inside := (length_weightedNeighbors inside).symm
  rows := rows_perm within

/-- The rows without direction: each vertex has those that an edge joins it to, ascending. -/
structure Undirected (vertices : Nat) (edges : List Edge) (rows : List (List Nat)) : Prop where
  length : rows.length = vertices
  ascends (vertex : Nat) (row : List Nat) (found : rows[vertex]? = some row) :
    row.Pairwise (· < ·)
  joined (vertex : Nat) (row : List Nat) (found : rows[vertex]? = some row) (other : Nat) :
    other ∈ row ↔ other ≠ vertex ∧ ∃ edge ∈ edges, edge.Joins other vertex
  symmetric (first second : Nat) (firstRow secondRow : List Nat)
    (foundFirst : rows[first]? = some firstRow) (foundSecond : rows[second]? = some secondRow) :
    second ∈ firstRow ↔ first ∈ secondRow

theorem mem_row_undirected (within : ∀ edge ∈ edges, edge.src.toNat < vertices) {row : List Nat}
    (found : (ofEdges vertices edges).undirected[vertex]? = some row) (other : Nat) :
    other ∈ row ↔ other ≠ vertex ∧ ∃ edge ∈ edges, edge.Joins other vertex := by
  obtain ⟨inside, rfl⟩ := List.getElem?_eq_some_iff.1 found
  exact mem_undirected inside within

theorem undirected_ofEdges (within : ∀ edge ∈ edges, edge.src.toNat < vertices) :
    Undirected vertices edges (ofEdges vertices edges).undirected where
  length := length_undirected vertices edges
  ascends vertex row found := by
    obtain ⟨inside, rfl⟩ := List.getElem?_eq_some_iff.1 found
    simp only [undirected, List.getElem_map]
    exact pairwise_ascending _
  joined _ _ found other := mem_row_undirected within found other
  symmetric first second firstRow secondRow foundFirst foundSecond := by
    rw [mem_row_undirected within foundFirst, mem_row_undirected within foundSecond]
    constructor
    · rintro ⟨apart, edge, given, joins⟩
      exact ⟨apart.symm, edge, given, joins.symm⟩
    · rintro ⟨apart, edge, given, joins⟩
      exact ⟨apart.symm, edge, given, joins.symm⟩

/-- Compressed rows represent their edges, in every order the same where these differ in their
ends, and their rows without direction join what an edge joins. All groups that hold a graph gather
the same snapshot of it on all ranks. -/
theorem snapshots_represent_their_edges :
    (∀ (vertices : Nat) (edges : List Edge),
      (∀ edge ∈ edges, edge.src.toNat < vertices ∧ edge.dst.toNat < vertices) →
      Represents vertices edges (ofEdges vertices edges) ∧
      Undirected vertices edges (ofEdges vertices edges).undirected ∧
      ((edges.map Edge.key).Nodup → ∀ others, edges.Perm others →
        ofEdges vertices others = ofEdges vertices edges)) ∧
    ∀ graph : Shard, graph.edgeCount * 32 < UInt64.size →
      graph.SettlesEverywhere (fun scan => gatherAlong scan)
        (ofEdges graph.bound.toNat graph.edges) := by
  constructor
  · intro vertices edges within
    have leaves : ∀ edge ∈ edges, edge.src.toNat < vertices :=
      fun edge given => (within edge given).1
    exact ⟨represents_ofEdges leaves, undirected_ofEdges leaves,
      fun distinct others perm => (ofEdges_eq_of_perm perm distinct).symm⟩
  · intro graph few size partition parts hosted scans
    exact Plan.lockstep_settles hosted.inhabited (hosted.together_gatherAlong few scans)

/-- Edges with a loop, an edge given twice and an edge to the last vertex; the first two vertices
have nothing in their rows. -/
def knot : List Edge :=
  [⟨5, 2, 3, 0⟩, ⟨2, 6, -1, 4⟩, ⟨3, 3, 7, 1⟩, ⟨2, 5, 9, 2⟩, ⟨2, 6, 8, 4⟩]

open Shard in
theorem knot_and_islands_are_represented :
    (∀ edge ∈ knot, edge.src.toNat < 7 ∧ edge.dst.toNat < 7) ∧
    Represents 7 knot (ofEdges 7 knot) ∧ Undirected 7 knot (ofEdges 7 knot).undirected ∧
    (ofEdges 7 knot).offsets = #[0, 0, 0, 3, 4, 4, 5, 5] ∧
    (ofEdges 7 knot).undirected = [[], [], [5, 6], [], [], [2], [2]] ∧
    (islandEdges.map Edge.key).Nodup ∧
    ofEdges 7 islandEdges.reverse = ofEdges 7 islandEdges ∧
    twoIslands.edgeCount * 32 < UInt64.size ∧
    (Plan.group fun rank : Fin 3 => (gather (twoIslands.cut (.cyclic 3) rank)).run).Settles
      (List.ofFn fun _ : Fin 3 => .ok (ofEdges 7 islandEdges)) := by
  have within : ∀ edge ∈ knot, edge.src.toNat < 7 ∧ edge.dst.toNat < 7 := by decide
  have withinIslands : ∀ edge ∈ islandEdges, edge.src.toNat < 7 ∧ edge.dst.toNat < 7 := by decide
  have distinct : (islandEdges.map Edge.key).Nodup := by decide
  have few : twoIslands.edgeCount * 32 < UInt64.size := by decide
  obtain ⟨represented, everywhere⟩ := snapshots_represent_their_edges
  obtain ⟨represents, undirected, _⟩ := represented 7 knot within
  obtain ⟨_, _, anyOrder⟩ := represented 7 islandEdges withinIslands
  refine ⟨within, represents, undirected, ?_, ?_, distinct,
    anyOrder distinct _ islandEdges.reverse_perm.symm, few, ?_⟩
  · cbv
  · cbv
  · exact everywhere twoIslands few 3 (.cyclic 3) _ hosted_threeCyclic
      fun rank => .ascending (twoIslands.cut (.cyclic 3) rank)

end Snapshot

end StreamGraph
