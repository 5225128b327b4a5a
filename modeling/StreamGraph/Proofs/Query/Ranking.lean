import Mathlib.Algebra.Order.BigOperators.Group.Finset
import StreamGraph.Proofs.Hosting
import StreamGraph.Proofs.Shard.History
import StreamGraph.Query

/-!
The vertices of highest degree. One vertex stands above another if it has more edges, or as many
and a greater number, so vertices stand in one order only. A rank keeps the first of its own; a
vertex that is among the first of all has no more above it on its own rank, so it is kept, and the
first of what is gathered are the first of all.
-/

namespace StreamGraph.Query

/-- The order of high degrees between two different entries. -/
def Outranks (first second : VertexDegree) : Prop :=
  second.degree < first.degree ∨
    first.degree = second.degree ∧ second.vertex < first.vertex

instance : DecidableRel Outranks := fun first second =>
  inferInstanceAs (Decidable (second.degree < first.degree ∨
    first.degree = second.degree ∧ second.vertex < first.vertex))

theorem outranks_iff (first second : VertexDegree) : Outranks first second ↔
    second.degree.toNat < first.degree.toNat ∨
      first.degree.toNat = second.degree.toNat ∧ second.vertex.toNat < first.vertex.toNat := by
  unfold Outranks
  rw [UInt64.lt_iff_toNat_lt, UInt64.lt_iff_toNat_lt, UInt64.toNat_inj]

theorem outranks_asymmetric (first second : VertexDegree) (isAbove : Outranks first second) :
    ¬ Outranks second first := by
  rw [outranks_iff] at isAbove ⊢
  omega

theorem outranks_total {first second : VertexDegree} (different : first ≠ second) :
    Outranks first second ∨ Outranks second first := by
  rcases first with ⟨vertex, degree⟩
  rcases second with ⟨other, less⟩
  simp only [ne_eq, VertexDegree.mk.injEq, outranks_iff, ← UInt64.toNat_inj] at different ⊢
  omega

theorem outranks_trans {first second third : VertexDegree} (before : Outranks first second)
    (after : Outranks second third) : Outranks first third := by
  rw [outranks_iff] at before after ⊢
  omega

theorem higher_iff (first second : VertexDegree) :
    higher first second = true ↔ first = second ∨ Outranks first second := by
  rcases first with ⟨vertex, degree⟩
  rcases second with ⟨other, less⟩
  simp only [higher, outranks_iff, VertexDegree.mk.injEq, Bool.or_eq_true, Bool.and_eq_true,
    decide_eq_true_eq, beq_iff_eq, UInt64.lt_iff_toNat_lt, UInt64.le_iff_toNat_le,
    ← UInt64.toNat_inj]
  omega

/-- Different entries that are sorted stand in the order of high degrees. -/
theorem sorted_of_nodup {entries : List VertexDegree} (nodup : entries.Nodup) :
    (entries.mergeSort higher).Pairwise Outranks := by
  have sorted : (entries.mergeSort higher).Pairwise fun first second =>
      higher first second = true := by
    apply List.pairwise_mergeSort
    · intro first second third before after
      rw [higher_iff] at before after ⊢
      rcases before with rfl | before
      · exact after
      · rcases after with rfl | after
        · exact Or.inr before
        · exact Or.inr (outranks_trans before after)
    · intro first second
      rw [Bool.or_eq_true, higher_iff, higher_iff]
      by_cases same : first = second
      · exact Or.inl (Or.inl same)
      · exact (outranks_total same).imp Or.inr Or.inr
  have different : (entries.mergeSort higher).Nodup := (List.mergeSort_perm ..).nodup_iff.2 nodup
  exact (sorted.and different).imp fun both => ((higher_iff ..).1 both.1).resolve_left both.2

theorem mem_highest {entries : List VertexDegree} (nodup : entries.Nodup) {entry : VertexDegree}
    (member : entry ∈ entries) (count : Nat) : entry ∈ highest count entries ↔
      entries.countP (fun other => decide (Outranks other entry)) < count := by
  have perm := List.mergeSort_perm entries higher
  rw [← perm.countP_eq]
  exact mem_take_of_sorted outranks_asymmetric (sorted_of_nodup nodup) (perm.mem_iff.2 member) count

theorem mem_of_mem_highest {count : Nat} {entries : List VertexDegree} {entry : VertexDegree}
    (first : entry ∈ highest count entries) : entry ∈ entries :=
  List.mem_mergeSort.1 (List.mem_of_mem_take first)

variable {lists : List (List VertexDegree)}

theorem nodup_flatten_highest (nodup : lists.flatten.Nodup) (count : Nat) :
    (lists.map (highest count)).flatten.Nodup := by
  rw [List.nodup_flatten] at nodup ⊢
  constructor
  · intro list member
    obtain ⟨whole, inLists, rfl⟩ := List.mem_map.1 member
    have sorted : (whole.mergeSort higher).Nodup :=
      (List.mergeSort_perm ..).nodup_iff.2 (nodup.1 whole inLists)
    exact sorted.sublist (List.take_sublist ..)
  · rw [List.pairwise_map]
    exact nodup.2.imp fun apart entry inFirst inSecond =>
      apart (mem_of_mem_highest inFirst) (mem_of_mem_highest inSecond)

theorem mem_of_mem_flatten_highest {count : Nat} {entry : VertexDegree}
    (member : entry ∈ (lists.map (highest count)).flatten) : entry ∈ lists.flatten := by
  obtain ⟨_, inMap, first⟩ := List.mem_flatten.1 member
  obtain ⟨list, inLists, rfl⟩ := List.mem_map.1 inMap
  exact List.mem_flatten.2 ⟨list, inLists, mem_of_mem_highest first⟩

/-- An entry that is among the first of all is among the first of its own list. -/
theorem mem_flatten_highest (nodup : lists.flatten.Nodup) {count : Nat} {entry : VertexDegree}
    (first : entry ∈ highest count lists.flatten) :
    entry ∈ (lists.map (highest count)).flatten := by
  have member := mem_of_mem_highest first
  obtain ⟨list, inLists, inList⟩ := List.mem_flatten.1 member
  have part : list.Sublist lists.flatten := List.sublist_flatten_of_mem inLists
  have few := (mem_highest nodup member count).1 first
  have fewer : list.countP (fun other => decide (Outranks other entry)) ≤
      lists.flatten.countP fun other => decide (Outranks other entry) := part.countP_le
  have firstOfList : entry ∈ highest count list :=
    (mem_highest (nodup.sublist part) inList count).2 (Nat.lt_of_le_of_lt fewer few)
  exact List.mem_flatten.2 ⟨_, List.mem_map.2 ⟨list, inLists, rfl⟩, firstOfList⟩

/-- The first of the first ones of several lists are the first of all. -/
theorem highest_flatten (nodup : lists.flatten.Nodup) (count : Nat) :
    highest count (lists.map (highest count)).flatten = highest count lists.flatten := by
  -- what is gathered stands in the order of all, with some left out
  have sorted : (lists.map (highest count)).flatten.mergeSort higher =
      (lists.flatten.mergeSort higher).filter
        fun entry => decide (entry ∈ (lists.map (highest count)).flatten) := by
    apply eq_of_sorted outranks_asymmetric (sorted_of_nodup (nodup_flatten_highest nodup count))
      ((sorted_of_nodup nodup).filter _)
    intro entry
    rw [List.mem_filter, List.mem_mergeSort, List.mem_mergeSort, decide_eq_true_eq]
    exact ⟨fun member => ⟨mem_of_mem_flatten_highest member, member⟩, fun both => both.2⟩
  rw [highest, sorted]
  exact take_filter_of_kept fun entry first => decide_eq_true (mem_flatten_highest nodup first)

/-- The vertices of a shard that have edges, with their degrees. -/
def entries (shard : Shard) : List VertexDegree :=
  shard.degrees.map fun (vertex, degree) => ⟨vertex, UInt64.ofNat degree⟩

theorem mem_degrees {shard : Shard} (sound : shard.Sound) (vertex : VertexId) (degree : Nat) :
    (vertex, degree) ∈ shard.degrees ↔ 0 < degree ∧ degree = shard.outDegree vertex := by
  have rowOf : ∀ row, shard.rows.get? vertex = some row → shard.outDegree vertex = row.size := by
    intro row stored
    simp [Shard.outDegree, Shard.row, stored]
  unfold Shard.degrees
  rw [List.mem_map]
  constructor
  · rintro ⟨⟨other, row⟩, member, same⟩
    cases same
    have stored := (VertexMap.get?_eq_some_iff ..).2 member
    obtain ⟨dst, attrs, found⟩ :=
      (VertexMap.isEmpty_eq_false_iff row).1 (sound.rows _ row stored)
    exact ⟨List.length_pos_of_mem ((VertexMap.get?_eq_some_iff ..).1 found),
      (rowOf row stored).symm⟩
  · rintro ⟨positive, same⟩
    cases stored : shard.rows.get? vertex with
    | none =>
        have nothing : shard.outDegree vertex = 0 := by
          simp [Shard.outDegree, Shard.row, stored, VertexMap.size, VertexMap.empty]
        omega
    | some row =>
        exact ⟨(vertex, row), (VertexMap.get?_eq_some_iff ..).1 stored,
          by rw [same, rowOf row stored]⟩

theorem mem_entries {shard : Shard} (sound : shard.Sound) (entry : VertexDegree) :
    entry ∈ entries shard ↔ 0 < shard.outDegree entry.vertex ∧
      entry.degree = UInt64.ofNat (shard.outDegree entry.vertex) := by
  unfold entries
  rw [List.mem_map]
  constructor
  · rintro ⟨⟨vertex, degree⟩, member, rfl⟩
    obtain ⟨positive, rfl⟩ := (mem_degrees sound vertex degree).1 member
    exact ⟨positive, rfl⟩
  · rintro ⟨positive, same⟩
    exact ⟨(entry.vertex, shard.outDegree entry.vertex), (mem_degrees sound ..).2 ⟨positive, rfl⟩,
      congrArg (VertexDegree.mk entry.vertex) same.symm⟩

theorem nodup_entries (shard : Shard) : (entries shard).Nodup := by
  have vertices : ((entries shard).map VertexDegree.vertex).Nodup := by
    have same : (entries shard).map VertexDegree.vertex = shard.rows.toList.map Prod.fst := by
      simp [entries, Shard.degrees, Function.comp_def]
    rw [same]
    exact shard.rows.nodup_keys
  exact vertices.of_map

theorem length_entries_le {shard : Shard} (sound : shard.Sound) :
    (entries shard).length ≤ shard.edges.length := by
  rw [← shard.sum_degrees, entries, List.length_map, ← List.length_map Prod.snd]
  apply List.length_le_sum_of_one_le
  intro degree member
  obtain ⟨⟨vertex, _⟩, inDegrees, rfl⟩ := List.mem_map.1 member
  exact ((mem_degrees sound vertex _).1 inDegrees).1

theorem outDegree_le {shard : Shard} (sound : shard.Sound) (vertex : VertexId) :
    shard.outDegree vertex ≤ shard.edges.length := by
  by_cases positive : 0 < shard.outDegree vertex
  · rw [← shard.sum_degrees]
    exact List.le_sum_of_mem
      (List.mem_map.2 ⟨_, (mem_degrees sound vertex _).2 ⟨positive, rfl⟩, rfl⟩)
  · omega

section Groups

variable {size : Nat} {graph : Shard} {partition : Partition} {parts : Fin size → Shard}

/-- The ranks together have the vertices of the graph. -/
theorem mem_entries_parts (hosted : graph.Hosted partition parts) (entry : VertexDegree) :
    entry ∈ (List.ofFn fun rank => entries (parts rank)).flatten ↔ entry ∈ entries graph := by
  rw [Collective.mem_flatten_ofFn, mem_entries hosted.divided.sound]
  simp only [mem_entries (hosted.divided.soundPart _), hosted.divided.outDegree_part]
  constructor
  · rintro ⟨rank, member⟩
    split at member
    · exact member
    · exact absurd member.1 (Nat.lt_irrefl 0)
  · intro member
    exact ⟨⟨partition.owner entry.vertex, hosted.owner_lt entry.vertex⟩,
      by rw [if_pos rfl]; exact member⟩

/-- No two ranks have the same vertex. -/
theorem nodup_entries_parts (hosted : graph.Hosted partition parts) :
    (List.ofFn fun rank => entries (parts rank)).flatten.Nodup := by
  have owned : ∀ rank, ∀ entry ∈ entries (parts rank), partition.owner entry.vertex = rank := by
    intro rank entry member
    have positive := ((mem_entries (hosted.divided.soundPart rank) entry).1 member).1
    rw [hosted.divided.outDegree_part] at positive
    by_contra other
    rw [if_neg other] at positive
    exact Nat.lt_irrefl 0 positive
  exact Collective.nodup_flatten_ofFn (fun entry => partition.owner entry.vertex)
    (fun rank => nodup_entries (parts rank)) owned

/-- The vertices of the graph that have edges, by their rank. -/
def ranking (graph : Shard) : List VertexDegree := (entries graph).mergeSort higher

theorem highest_parts (hosted : graph.Hosted partition parts) (count : Nat) :
    highest count (List.ofFn fun rank => highest count (entries (parts rank))).flatten =
      (ranking graph).take count := by
  have nodup := nodup_entries_parts hosted
  have pruned := highest_flatten nodup count
  rw [List.map_ofFn] at pruned
  have same : (List.ofFn fun rank => entries (parts rank)).flatten.mergeSort higher =
      ranking graph := by
    apply eq_of_sorted outranks_asymmetric (sorted_of_nodup nodup)
      (sorted_of_nodup (nodup_entries graph))
    intro entry
    rw [List.mem_mergeSort, List.mem_mergeSort, mem_entries_parts hosted]
  exact pruned.trans (congrArg (List.take count) same)

theorem gatherable_parts (hosted : graph.Hosted partition parts)
    (edges : graph.edgeCount * 16 < UInt64.size) (count : Nat) :
    Collective.Gatherable fun rank => highest count (entries (parts rank)) where
  ranks := by
    have ranks := hosted.ranks
    omega
  all := by
    have each : ∀ rank, (highest count (entries (parts rank))).length ≤ (parts rank).edgeCount := by
      intro rank
      have sound := hosted.divided.soundPart rank
      rw [← sound.length_edges]
      refine Nat.le_trans ?_ (length_entries_le sound)
      rw [highest, List.length_take, List.length_mergeSort]
      exact Nat.min_le_right ..
    have total : (List.ofFn fun rank => highest count (entries (parts rank))).flatten.length ≤
        graph.edgeCount := by
      rw [Collective.length_flatten_ofFn,
        ← hosted.divided.sum_edgeCount hosted.owners hosted.inhabited]
      exact Finset.sum_le_sum fun rank _ => each rank
    exact lt_of_le_of_lt (Nat.mul_le_mul_right 16 total) edges

theorem together_topDegrees (hosted : graph.Hosted partition parts)
    (edges : graph.edgeCount * 16 < UInt64.size) (count : Nat) :
    Collective.Together (fun rank => topDegrees (parts rank) count)
      fun _ => .ok ((ranking graph).take count) := by
  rw [← highest_parts hosted count]
  exact Collective.together_bind (Collective.together_allgatherFlat hosted.inhabited topTag _
    (gatherable_parts hosted edges count)) (Collective.together_pure _)

theorem together_highestDegreeVertex_of_hosted (hosted : graph.Hosted partition parts)
    (edges : graph.edgeCount * 16 < UInt64.size) :
    Collective.Together (fun rank => highestDegreeVertex (parts rank))
      fun _ => .ok ((ranking graph).head?.map VertexDegree.vertex) := by
  have first : ((ranking graph).take 1).head? = (ranking graph).head? := by
    cases ranking graph <;> rfl
  rw [← first]
  exact Collective.together_bind (together_topDegrees hosted edges 1) (Collective.together_pure _)

end Groups

/-- The vertices of a graph that have edges, with the number of these: the vertex with most edges
first, and the greater number first among those with as many. -/
structure Ranks (links : Links) (entries : List VertexDegree) : Prop where
  complete (entry : VertexDegree) : entry ∈ entries ↔
    0 < entry.degree.toNat ∧ entry.degree.toNat = (links.targets entry.vertex).ncard
  ordered : entries.Pairwise Outranks

theorem Ranks.unique {links : Links} {left right : List VertexDegree} (first : Ranks links left)
    (second : Ranks links right) : left = right :=
  eq_of_sorted outranks_asymmetric first.ordered second.ordered fun entry =>
    (first.complete entry).trans (second.complete entry).symm

theorem outDegree_eq_targets (shard : Shard) (vertex : VertexId) :
    shard.outDegree vertex = (shard.links.targets vertex).ncard := by
  rw [Shard.outDegree_eq_ncard]
  simp only [Shard.entries, Option.isSome_iff_exists]
  rfl

theorem ranks_ranking {graph : Shard} (sound : graph.Sound)
    (edges : graph.edgeCount * 16 < UInt64.size) : Ranks graph.links (ranking graph) where
  complete entry := by
    have small : graph.outDegree entry.vertex < UInt64.size := by
      have few := outDegree_le sound entry.vertex
      rw [sound.length_edges] at few
      omega
    rw [ranking, List.mem_mergeSort, mem_entries sound, ← outDegree_eq_targets,
      ← UInt64.toNat_inj, UInt64.toNat_ofNat_of_lt' small]
    constructor
    · rintro ⟨leaves, same⟩
      exact ⟨same ▸ leaves, same⟩
    · rintro ⟨leaves, same⟩
      exact ⟨same ▸ leaves, same⟩
  ordered := sorted_of_nodup (nodup_entries graph)

theorem outDegree_pos_iff {shard : Shard} (sound : shard.Sound) (vertex : VertexId) :
    0 < shard.outDegree vertex ↔ ∃ dst attrs, shard.links vertex dst attrs := by
  have active := Set.ext_iff.1 sound.coe_sources vertex
  rw [Finset.mem_coe, sound.mem_sources] at active
  simp only [Option.isSome_iff_exists] at active
  exact active.symm

theorem ranking_eq_nil_iff {graph : Shard} (sound : graph.Sound) :
    ranking graph = [] ↔ ∀ src dst attrs, ¬ graph.links src dst attrs := by
  rw [List.eq_nil_iff_forall_not_mem]
  unfold ranking
  simp only [List.mem_mergeSort, mem_entries sound, outDegree_pos_iff sound]
  constructor
  · intro noLink src dst attrs link
    exact noLink ⟨src, UInt64.ofNat (graph.outDegree src)⟩ ⟨⟨dst, attrs, link⟩, rfl⟩
  · rintro noLink entry ⟨⟨dst, attrs, link⟩, _⟩
    exact noLink entry.vertex dst attrs link

/-- In every group that holds a graph all ranks settle with the first vertices of its ranking,
however many are asked for, and with the head of it as the vertex of highest degree; there is
none only when there are no edges. -/
theorem top_degrees_lead_the_ranking {graph : Shard} (sound : graph.Sound)
    (edges : graph.edgeCount * 16 < UInt64.size) :
    ∃ entries, Ranks graph.links entries ∧
      (entries.head?.map VertexDegree.vertex = none ↔
        ∀ src dst attrs, ¬ graph.links src dst attrs) ∧
      ∀ (size : Nat) (partition : Partition) (parts : Fin size → Shard),
        graph.Hosted partition parts →
          (∀ count, (Plan.group fun rank => (topDegrees (parts rank) count).run).Settles
            (List.ofFn fun _ : Fin size => .ok (entries.take count))) ∧
          (Plan.group fun rank => (highestDegreeVertex (parts rank)).run).Settles
            (List.ofFn fun _ : Fin size => .ok (entries.head?.map VertexDegree.vertex)) := by
  refine ⟨ranking graph, ranks_ranking sound edges, ?_, fun size partition parts hosted => ⟨?_, ?_⟩⟩
  · rw [Option.map_eq_none_iff, List.head?_eq_none_iff, ranking_eq_nil_iff sound]
  · exact fun count =>
      Plan.lockstep_settles hosted.inhabited (together_topDegrees hosted edges count)
  · exact Plan.lockstep_settles hosted.inhabited
      (together_highestDegreeVertex_of_hosted hosted edges)

open Shard in
theorem islands_have_ranking :
    (∀ count, (Plan.group fun rank : Fin 3 =>
      (topDegrees (twoIslands.cut (.cyclic 3) rank) count).run).Settles
      (List.ofFn fun _ : Fin 3 => .ok ([⟨2, 2⟩, ⟨1, 2⟩, ⟨6, 1⟩, ⟨3, 1⟩].take count))) ∧
    (Plan.group fun rank : Fin 2 =>
      (highestDegreeVertex (twoIslands.cut (.block 2 7) rank)).run).Settles
      (List.ofFn fun _ : Fin 2 => .ok (some 2)) := by
  have ranked : ranking twoIslands = [⟨2, 2⟩, ⟨1, 2⟩, ⟨6, 1⟩, ⟨3, 1⟩] := by
    apply eq_of_sorted outranks_asymmetric (sorted_of_nodup (nodup_entries _)) (by decide)
    intro entry
    have known : entries twoIslands = [⟨1, 2⟩, ⟨2, 2⟩, ⟨3, 1⟩, ⟨6, 1⟩] := rfl
    rw [List.mem_mergeSort, known]
    simp only [List.mem_cons, List.not_mem_nil, or_false]
    tauto
  obtain ⟨entries, ranks, _, everywhere⟩ :=
    top_degrees_lead_the_ranking sound_twoIslands (by decide)
  have same := ranks.unique (ranks_ranking sound_twoIslands (by decide))
  rw [ranked] at same
  subst same
  exact ⟨(everywhere _ _ _ hosted_threeCyclic).1, (everywhere _ _ _ hosted_twoBlocks).2⟩

end StreamGraph.Query
