import StreamGraph.Proofs.Analytics.Ways
import StreamGraph.Proofs.Merge
import StreamGraph.Snapshot

/-!
Compressed rows. The row of a vertex holds the destinations of the edges that leave it, in order,
however the edges were given; where edges differ in their endpoints, the whole snapshot is the same
for every order of them. Without direction, two vertices stand in each other's rows if an edge joins
them either way.
-/

namespace StreamGraph

/-- Edges in the order of their endpoints. -/
def Edge.sorted (edges : List Edge) : List Edge :=
  edges.mergeSort fun left right => EdgeKey.le left.key right.key

/-- An edge leads from one vertex to another, or back. -/
def Edge.Joins (edge : Edge) (first second : Nat) : Prop :=
  (edge.src.toNat = first ∧ edge.dst.toNat = second) ∨
    (edge.src.toNat = second ∧ edge.dst.toNat = first)

instance (edge : Edge) (first second : Nat) : Decidable (edge.Joins first second) :=
  inferInstanceAs (Decidable (_ ∨ _))

theorem Edge.Joins.symm {edge : Edge} {first second : Nat} (joins : edge.Joins first second) :
    edge.Joins second first := Or.symm joins

namespace Edge

variable {edges : List Edge}

theorem sorted_perm (edges : List Edge) : (sorted edges).Perm edges := List.mergeSort_perm ..

theorem pairwise_sorted (edges : List Edge) :
    (sorted edges).Pairwise fun left right => EdgeKey.le left.key right.key = true := by
  apply List.pairwise_mergeSort
  · intro first second third
    exact EdgeKey.le_trans _ _ _
  · intro first second
    exact EdgeKey.le_total _ _

theorem pairwise_sorted_src (edges : List Edge) :
    (sorted edges).Pairwise fun left right => left.src.toNat ≤ right.src.toNat := by
  apply (pairwise_sorted edges).imp
  intro left right before
  rw [EdgeKey.le_iff] at before
  simp only [key] at before
  omega

/-- Edges of which no two have the same ends come in one order. -/
theorem sorted_eq_of_perm {others : List Edge} (perm : edges.Perm others)
    (distinct : (edges.map key).Nodup) : sorted edges = sorted others := by
  have same : (sorted edges).Perm (sorted others) :=
    (sorted_perm edges).trans (perm.trans (sorted_perm others).symm)
  apply same.eq_of_pairwise _ (pairwise_sorted edges) (pairwise_sorted others)
  intro left right inLeft inRight before after
  have leftMember := (sorted_perm edges).mem_iff.1 inLeft
  have rightMember := perm.mem_iff.2 ((sorted_perm others).mem_iff.1 inRight)
  exact List.inj_on_of_nodup_map distinct leftMember rightMember
    (EdgeKey.le_antisymm _ _ before after)

end Edge

namespace Snapshot

variable {vertices vertex : Nat} {edges : List Edge}

/-- Counting edges one after the other, each at some place, counts the edges of every place. -/
theorem getElem?_foldl_tally (place : Edge → Nat) (edges : List Edge) (counts : Array Nat)
    (index : Nat) :
    (edges.foldl (fun counts edge => counts.modify (place edge) (· + 1)) counts)[index]? =
      counts[index]?.map (· + edges.countP fun edge => place edge == index) := by
  induction edges generalizing counts with
  | nil => simp
  | cons edge others ih =>
      rw [List.foldl_cons, ih, Array.getElem?_modify, List.countP_cons]
      by_cases here : place edge = index
      · rw [if_pos here, Option.map_map]
        congr 1
        funext count
        simp [here, Nat.add_assoc, Nat.add_comm]
      · simp [here]

theorem toList_counts (place : Edge → Nat) (places : Nat) (edges : List Edge) :
    (edges.foldl (fun counts edge => counts.modify (place edge) (· + 1))
        (Array.replicate places 0)).toList =
      (List.range places).map fun index => edges.countP fun edge => place edge == index := by
  apply List.ext_getElem?
  intro index
  rw [Array.getElem?_toList, getElem?_foldl_tally, Array.getElem?_replicate, List.getElem?_map]
  by_cases inside : index < places
  · simp [inside]
  · simp [inside]

theorem tally_eq (vertices : Nat) (edges : List Edge) : (tally vertices edges).toList =
    (List.range vertices).map fun vertex => edges.countP fun edge => edge.src.toNat == vertex :=
  toList_counts (fun edge => edge.src.toNat) vertices edges

theorem getElem?_runningSums (counts : List Nat) (total : Nat) {index : Nat}
    (inside : index ≤ counts.length) :
    (runningSums total counts)[index]? = some ((counts.take index).foldl (· + ·) total) := by
  induction counts generalizing total index with
  | nil =>
      rw [Nat.le_zero.1 inside]
      rfl
  | cons count counts ih =>
      cases index with
      | zero => rfl
      | succ index =>
          rw [runningSums, List.getElem?_cons_succ, ih _ (Nat.le_of_succ_le_succ inside)]
          rfl

theorem getElem?_offsets (inside : vertex ≤ vertices) :
    (ofEdges vertices edges).offsets[vertex]? =
      some ((Edge.sorted edges).countP fun edge => decide (edge.src.toNat < vertex)) := by
  change (runningSums 0 (tally vertices (Edge.sorted edges)).toList).toArray[vertex]? = _
  rw [List.getElem?_toArray, tally_eq, getElem?_runningSums _ _ (by simpa using inside),
    ← List.map_take, List.take_range, Nat.min_eq_left inside,
    foldl_counts fun edge : Edge => edge.src.toNat]

/-- A row begins behind the edges of all vertices before its own. -/
theorem rowStart_ofEdges (inside : vertex ≤ vertices) :
    (ofEdges vertices edges).rowStart vertex =
      (Edge.sorted edges).countP fun edge => decide (edge.src.toNat < vertex) := by
  rw [rowStart, Array.getD_eq_getD_getElem?, getElem?_offsets inside, Option.getD_some]

theorem rowStart_succ (inside : vertex < vertices) :
    (ofEdges vertices edges).rowStart (vertex + 1) = (ofEdges vertices edges).rowStart vertex +
      (Edge.sorted edges).countP fun edge => edge.src.toNat == vertex := by
  rw [rowStart_ofEdges inside, rowStart_ofEdges (Nat.le_of_lt inside),
    countP_below_succ fun edge : Edge => edge.src.toNat]

theorem outDegree_ofEdges (inside : vertex < vertices) : (ofEdges vertices edges).outDegree vertex =
    edges.countP fun edge => edge.src.toNat == vertex := by
  rw [outDegree, rowStart_succ inside, Nat.add_sub_cancel_left,
    (Edge.sorted_perm edges).countP_eq]

/-- What edges carry lies in rows as the edges do in their order. -/
theorem extract_row {Value : Type} (edges : List Edge) (field : Edge → Value)
    (inside : vertex < vertices) :
    ((((Edge.sorted edges).map field).toArray).extract ((ofEdges vertices edges).rowStart vertex)
        ((ofEdges vertices edges).rowStart (vertex + 1))).toList =
      ((Edge.sorted edges).filter fun edge => edge.src.toNat == vertex).map field := by
  have run := run_of_sorted (fun edge : Edge => edge.src.toNat) vertex
    (Edge.pairwise_sorted_src edges)
  rw [Array.toList_extract, List.extract_eq_take_drop, rowStart_succ inside,
    Nat.add_sub_cancel_left, rowStart_ofEdges (Nat.le_of_lt inside), ← List.map_drop,
    ← List.map_take, run]

/-- A row holds the destinations of the edges of its vertex, in order. -/
theorem neighbors_ofEdges (inside : vertex < vertices) :
    (ofEdges vertices edges).neighbors vertex =
      ((Edge.sorted edges).filter fun edge => edge.src.toNat == vertex).map fun edge =>
        edge.dst.toNat := by
  have row := extract_row edges Edge.dst inside
  change ((((Edge.sorted edges).map Edge.dst).toArray).extract _ _).toList.map UInt64.toNat = _
  rw [row, List.map_map]
  rfl

theorem weightedNeighbors_ofEdges (inside : vertex < vertices) :
    (ofEdges vertices edges).weightedNeighbors vertex =
      ((Edge.sorted edges).filter fun edge => edge.src.toNat == vertex).map fun edge =>
        (edge.dst.toNat, edge.weight) := by
  have row := extract_row edges Edge.weight inside
  change List.zip _ ((((Edge.sorted edges).map Edge.weight).toArray).extract _ _).toList = _
  rw [row, neighbors_ofEdges inside, List.zip_map']

theorem mem_neighbors (inside : vertex < vertices) {target : Nat} :
    target ∈ (ofEdges vertices edges).neighbors vertex ↔
      ∃ edge ∈ edges, edge.src.toNat = vertex ∧ edge.dst.toNat = target := by
  simp only [neighbors_ofEdges inside, List.mem_map, List.mem_filter, beq_iff_eq,
    (Edge.sorted_perm edges).mem_iff, and_assoc]

/-- Where edges differ in their ends, no destination comes twice in a row. -/
theorem nodup_neighbors (inside : vertex < vertices) (distinct : (edges.map Edge.key).Nodup) :
    ((ofEdges vertices edges).neighbors vertex).Nodup := by
  rw [neighbors_ofEdges inside]
  have keys : ((Edge.sorted edges).map Edge.key).Nodup :=
    ((Edge.sorted_perm edges).map Edge.key).nodup_iff.2 distinct
  apply List.Nodup.map_on
  · intro left leftMember right rightMember same
    simp only [List.mem_filter, beq_iff_eq] at leftMember rightMember
    apply List.inj_on_of_nodup_map keys leftMember.1 rightMember.1
    rw [Edge.key, Edge.key, UInt64.toNat_inj.1 same,
      UInt64.toNat_inj.1 (leftMember.2.trans rightMember.2.symm)]
  · exact keys.of_map.filter _

theorem ofEdges_eq_of_perm {others : List Edge} (perm : edges.Perm others)
    (distinct : (edges.map Edge.key).Nodup) : ofEdges vertices edges = ofEdges vertices others := by
  have same := Edge.sorted_eq_of_perm perm distinct
  unfold Edge.sorted at same
  unfold ofEdges
  rw [same]

theorem mem_ascending {entries : List Nat} {entry : Nat} :
    entry ∈ ascending entries ↔ entry ∈ entries := by
  rw [ascending, mem_eraseReps, List.mem_mergeSort]

theorem pairwise_mergeSort_le (entries : List Nat) :
    (entries.mergeSort fun left right => decide (left ≤ right)).Pairwise
      fun left right => decide (left ≤ right) = true := by
  apply List.pairwise_mergeSort
  · intro first second third before after
    exact decide_eq_true (Nat.le_trans (of_decide_eq_true before) (of_decide_eq_true after))
  · intro first second
    simpa using Nat.le_total first second

theorem nodup_ascending (entries : List Nat) : (ascending entries).Nodup :=
  nodup_eraseReps (fun _ _ before after =>
    Nat.le_antisymm (of_decide_eq_true before) (of_decide_eq_true after))
    (pairwise_mergeSort_le entries)

theorem pairwise_ascending (entries : List Nat) : (ascending entries).Pairwise (· < ·) := by
  have sorted : (ascending entries).Pairwise fun left right => decide (left ≤ right) = true :=
    (pairwise_mergeSort_le entries).sublist (eraseReps_sublist _)
  apply (sorted.and (nodup_ascending entries)).imp
  intro left right both
  exact Nat.lt_of_le_of_ne (of_decide_eq_true both.1) both.2

/-- Every edge between two vertices is listed in both directions, if it leaves a vertex that has a
row. -/
theorem mem_links (within : ∀ edge ∈ edges, edge.src.toNat < vertices) {source target : Nat} :
    (source, target) ∈ (ofEdges vertices edges).links ↔
      source ≠ target ∧ ∃ edge ∈ edges, edge.Joins source target := by
  have listed : (source, target) ∈ (ofEdges vertices edges).links ↔
      ∃ row < vertices, ∃ other ∈ (ofEdges vertices edges).neighbors row, other ≠ row ∧
        ((source = row ∧ target = other) ∨ (source = other ∧ target = row)) := by
    simp [links, ofEdges, and_assoc]
  rw [listed]
  constructor
  · intro link
    rcases link with ⟨row, inside, other, member, apart, ends⟩
    rcases (mem_neighbors inside).1 member with ⟨edge, given, leaves, arrives⟩
    rcases ends with forth | back
    · rw [forth.1, forth.2]
      exact ⟨apart.symm, edge, given, Or.inl ⟨leaves, arrives⟩⟩
    · rw [back.1, back.2]
      exact ⟨apart, edge, given, Or.inr ⟨leaves, arrives⟩⟩
  · intro joined
    rcases joined with ⟨apart, edge, given, joins⟩
    have inside := within edge given
    have member := (mem_neighbors inside).2 ⟨edge, given, rfl, rfl⟩
    rcases joins with forth | back
    · rw [forth.1, forth.2] at member
      exact ⟨source, forth.1 ▸ inside, target, member, apart.symm, Or.inl ⟨rfl, rfl⟩⟩
    · rw [back.1, back.2] at member
      exact ⟨target, back.1 ▸ inside, source, member, apart, Or.inr ⟨rfl, rfl⟩⟩

theorem length_undirected (vertices : Nat) (edges : List Edge) :
    (ofEdges vertices edges).undirected.length = vertices := by
  rw [undirected, List.length_map, List.length_range]
  rfl

section Undirected

variable (inside : vertex < (ofEdges vertices edges).undirected.length)

/-- Two vertices stand in each other's rows if an edge joins them. -/
theorem mem_undirected (within : ∀ edge ∈ edges, edge.src.toNat < vertices) {other : Nat} :
    other ∈ (ofEdges vertices edges).undirected[vertex] ↔
      other ≠ vertex ∧ ∃ edge ∈ edges, edge.Joins other vertex := by
  have row : other ∈ (ofEdges vertices edges).undirected[vertex] ↔
      (vertex, other) ∈ (ofEdges vertices edges).links := by
    simp [undirected, mem_ascending]
  rw [row, mem_links within]
  have turned : ∀ edge : Edge, edge.Joins vertex other ↔ edge.Joins other vertex :=
    fun edge => ⟨Edge.Joins.symm, Edge.Joins.symm⟩
  simp only [turned, ne_comm]

theorem nodup_undirected : ((ofEdges vertices edges).undirected[vertex]).Nodup := by
  simp only [undirected, List.getElem_map]
  exact nodup_ascending _

end Undirected

section Gathering

open Collective

variable {size : Nat} {bound : UInt64} {shards : Fin size → Shard}

theorem together_gatherAlong_of_few (inhabited : 0 < size)
    (bounded : ∀ rank, (shards rank).bound = bound)
    {scans : (rank : Fin size) → Scan (shards rank)}
    (few : Gatherable fun rank => (scans rank).edges) :
    Together (fun rank => gatherAlong (scans rank))
      fun _ => .ok (ofEdges bound.toNat (List.ofFn fun rank => (scans rank).edges).flatten) := by
  unfold gatherAlong
  simp only [bounded]
  exact together_bind (together_allgatherFlat inhabited tag _ few) (together_pure _)

/-- All ranks build the snapshot of the edges of all ranks. -/
theorem together_gatherAlong (ready : StageReady bound shards) (inhabited : 0 < size)
    (scans : (rank : Fin size) → Scan (shards rank)) :
    Together (fun rank => gatherAlong (scans rank))
      fun _ => .ok (ofEdges bound.toNat (List.ofFn fun rank => (scans rank).edges).flatten) :=
  together_gatherAlong_of_few inhabited ready.bounded
    (ready.gatherable (by decide) fun rank => (scans rank).edges_perm.length_eq.le)

end Gathering

end Snapshot

namespace Shard

variable {size : Nat} {graph : Shard} {partition : Partition} {parts : Fin size → Shard}

/-- An edge does not touch vertex zero. -/
theorem Sound.endpoints (sound : graph.Sound) {edge : Edge} (member : edge ∈ graph.edges) :
    edge.src.toNat ∈ Finset.Ico 1 graph.bound.toNat ∧
      edge.dst.toNat ∈ Finset.Ico 1 graph.bound.toNat := by
  have allowed := (allowed_iff ..).1
    (sound.allowed _ _ _ ((graph.mem_edges edge).1 member))
  rw [VertexId.isEndpoint_iff, VertexId.isEndpoint_iff] at allowed
  rw [Finset.mem_Ico, Finset.mem_Ico]
  exact ⟨allowed.1, allowed.2.1⟩

/-- The ranks have the edges of the graph, each of them once, whatever the order. -/
theorem Divided.scans_perm (divided : Divided partition graph parts)
    (owners : ∀ vertex, partition.owner vertex < size)
    (scans : (rank : Fin size) → Scan (parts rank)) :
    ((List.ofFn fun rank => (scans rank).edges).flatten).Perm graph.edges := by
  have nodup : ∀ shard : Shard, shard.edges.Nodup := fun shard => shard.nodup_edge_keys.of_map
  have stored : ∀ (rank : Fin size) (edge : Edge), edge ∈ (scans rank).edges ↔
      partition.owner edge.src = rank ∧ edge ∈ graph.edges := by
    intro rank edge
    rw [(scans rank).edges_perm.mem_iff, mem_edges, mem_edges, divided.stored]
    split
    · next own => simp [own]
    · next other => simp [other]
  apply (List.perm_ext_iff_of_nodup _ (nodup graph)).2
  · intro edge
    rw [Collective.mem_flatten_ofFn]
    simp only [stored]
    constructor
    · intro listed
      rcases listed with ⟨rank, _, member⟩
      exact member
    · intro member
      exact ⟨⟨_, owners edge.src⟩, rfl, member⟩
  · apply Collective.nodup_flatten_ofFn fun edge => partition.owner edge.src
    · intro rank
      exact (scans rank).edges_perm.nodup_iff.2 (nodup _)
    · intro rank edge member
      exact ((stored rank edge).1 member).1

/-- A group that holds a graph gathers its snapshot. -/
theorem Hosted.together_gatherAlong (hosted : Hosted graph partition parts)
    (edges : graph.edgeCount * 32 < UInt64.size) (scans : (rank : Fin size) → Scan (parts rank)) :
    Collective.Together (fun rank => Snapshot.gatherAlong (scans rank))
      fun _ => .ok (Snapshot.ofEdges graph.bound.toNat graph.edges) := by
  have perm := hosted.divided.scans_perm hosted.owner_lt scans
  have keys : (((List.ofFn fun rank => (scans rank).edges).flatten).map Edge.key).Nodup :=
    (perm.map Edge.key).nodup_iff.2 graph.nodup_edge_keys
  have few : Collective.Gatherable fun rank => (scans rank).edges := by
    constructor
    · have ranks := hosted.ranks
      omega
    · change ((List.ofFn fun rank => (scans rank).edges).flatten).length * 32 < UInt64.size
      rw [perm.length_eq, hosted.divided.sound.length_edges]
      exact edges
  rw [← Snapshot.ofEdges_eq_of_perm perm keys]
  exact Snapshot.together_gatherAlong_of_few hosted.inhabited hosted.divided.bounded few

end Shard

end StreamGraph
