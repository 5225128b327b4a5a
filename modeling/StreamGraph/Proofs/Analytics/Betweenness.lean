import StreamGraph.Proofs.Analytics.Betweenness.Accumulation

/-!
Betweenness by definition. What the searches add up is, for every vertex, the part of the shortest
paths that lead through it; and as a path to somewhere else begins with an edge, no source without
edges is missed. Each of the others has one owner, so the ranks together take them all once.
-/

namespace StreamGraph.Betweenness

/-- An edge leads from one vertex to another. -/
def Leads (edges : List Edge) (source target : Nat) : Prop :=
  ∃ edge ∈ edges, edge.src.toNat = source ∧ edge.dst.toNat = target

theorem rows_ofEdges {vertices : Nat} {edges : List Edge} (distinct : (edges.map Edge.key).Nodup)
    (within : ∀ edge ∈ edges, edge.src.toNat < vertices ∧ edge.dst.toNat < vertices) :
    Rows (Leads edges) (.ofEdges vertices edges) where
  within leads := by
    rcases leads with ⟨edge, member, leaves, arrives⟩
    rw [← leaves, ← arrives]
    exact within edge member
  listed inside there := Snapshot.mem_neighbors inside
  once inside := Snapshot.nodup_neighbors inside distinct

section Sources

variable {next : Nat → Nat → Prop} {vertices : Nat}

/-- Paths to another vertex begin with an edge. -/
theorem carriedFrom_stuck {source : Nat} (stuck : ∀ there, ¬ next source there) (vertex : Nat) :
    carriedFrom next vertices source vertex = 0 := by
  classical
  apply Finset.sum_eq_zero
  intro target member
  rcases (Finset.mem_filter.1 member).2 with ⟨apart, _, path, walk⟩
  cases walk with
  | stop _ => exact absurd rfl apart
  | step edge _ => exact absurd edge (stuck _)

/-- Sources without edges need not be searched from. -/
theorem betweenness_filter {kept : Nat → Bool} {sources : List Nat}
    (stuck : ∀ source ∈ sources, kept source = false → ∀ there, ¬ next source there)
    (vertex : Nat) : betweenness next vertices (sources.filter kept) vertex =
      betweenness next vertices sources vertex := by
  induction sources with
  | nil => rfl
  | cons source others ih =>
      have rest := ih fun other member => stuck other (List.mem_cons_of_mem _ member)
      rw [List.filter_cons]
      cases keep : kept source with
      | true => rw [if_pos rfl, betweenness_cons, betweenness_cons, rest]
      | false =>
          rw [if_neg Bool.false_ne_true, betweenness_cons, rest,
            carriedFrom_stuck (stuck source (List.mem_cons_self ..) keep), ite_self, zero_add]

/-- If each source has one owner, the owners together search from all of them. -/
theorem sum_betweenness {size : Nat} {owner : Nat → Nat} (owners : ∀ source, owner source < size)
    (sources : List Nat) (vertex : Nat) : ∑ rank : Fin size,
      betweenness next vertices (sources.filter fun source => owner source == rank) vertex =
    betweenness next vertices sources vertex := by
  induction sources with
  | nil => simp [betweenness]
  | cons source others ih =>
      have each : ∀ rank : Fin size, betweenness next vertices
          ((source :: others).filter fun source => owner source == rank) vertex =
          (if rank = ⟨owner source, owners source⟩ then
            if vertex = source then 0 else carriedFrom next vertices source vertex else 0) +
          betweenness next vertices (others.filter fun source => owner source == rank) vertex := by
        intro rank
        rw [List.filter_cons]
        by_cases own : rank = ⟨owner source, owners source⟩
        · have same : (owner source == rank) = true := by rw [own, beq_self_eq_true]
          rw [if_pos same, if_pos own, betweenness_cons]
        · have other : ¬ (owner source == rank) = true := by
            intro same
            exact own (Fin.ext (beq_iff_eq.1 same).symm)
          rw [if_neg other, if_neg own, zero_add]
      simp only [each, Finset.sum_add_distrib, ih, Finset.sum_ite_eq', Finset.mem_univ, if_true]
      rw [betweenness_cons]

end Sources

section Groups

variable {size : Nat} {graph : Shard} {partition : Partition} {parts : Fin size → Shard}

/-- What a rank adds up. -/
def share (graph shard : Shard) : List ℚ :=
  (fromSources (.ofEdges graph.bound.toNat graph.edges)
    (ownSources shard (.ofEdges graph.bound.toNat graph.edges))).toList

/-- The numbers that a group exchanges: what each rank adds up, and what this comes to. -/
def exchanged (graph : Shard) (parts : Fin size → Shard) : List ℚ :=
  (List.ofFn fun rank => share graph (parts rank)).flatten ++
    Collective.added graph.bound.toNat fun rank => share graph (parts rank)

theorem length_share (graph shard : Shard) : (share graph shard).length = graph.bound.toNat :=
  length_fromSources ..

theorem length_exchanged (graph : Shard) (parts : Fin size → Shard) :
    (exchanged graph parts).length = (size + 1) * graph.bound.toNat := by
  rw [exchanged, List.length_append, Collective.length_flatten_ofFn, Collective.added,
    List.length_map, List.length_range]
  simp only [length_share, Finset.sum_const, Finset.card_univ, Fintype.card_fin, smul_eq_mul,
    Nat.succ_mul]

theorem rows_graph (sound : graph.Sound) :
    Rows (Leads graph.edges) (.ofEdges graph.bound.toNat graph.edges) := by
  apply rows_ofEdges graph.nodup_edge_keys
  intro edge member
  have ends := sound.endpoints member
  exact ⟨(Finset.mem_Ico.1 ends.1).2, (Finset.mem_Ico.1 ends.2).2⟩

/-- The vertices that some rank searches from. -/
def searched (graph : Shard) : List Nat :=
  (List.range graph.bound.toNat).filter fun vertex =>
    decide (0 < (Snapshot.ofEdges graph.bound.toNat graph.edges).outDegree vertex)

theorem outDegree_pos_iff {vertex : Nat} (inside : vertex < graph.bound.toNat) :
    0 < (Snapshot.ofEdges graph.bound.toNat graph.edges).outDegree vertex ↔
      ∃ there, Leads graph.edges vertex there := by
  rw [Snapshot.outDegree_ofEdges inside, List.countP_pos_iff]
  unfold Leads
  simp

theorem mem_searched {vertex : Nat} : vertex ∈ searched graph ↔
    vertex < graph.bound.toNat ∧ ∃ there, Leads graph.edges vertex there := by
  rw [searched, List.mem_filter, List.mem_range, decide_eq_true_eq]
  exact and_congr_right outDegree_pos_iff

theorem filter_range {count : Nat} {kept : Nat → Bool} (zero : 0 ∉ (List.range count).filter kept) :
    (List.range count).filter kept = (List.range' 1 (count - 1)).filter kept := by
  cases count with
  | zero => rfl
  | succ last =>
      rw [List.range_eq_range', List.range'_succ, List.filter_cons] at zero ⊢
      rw [if_neg]
      · rfl
      · intro first
        rw [if_pos first] at zero
        exact zero (List.mem_cons_self ..)

/-- No edge leaves vertex zero, which the ranks leave out. -/
theorem ownSources_eq (divided : Shard.Divided partition graph parts) (rank : Fin size) :
    ownSources (parts rank) (.ofEdges graph.bound.toNat graph.edges) =
      (searched graph).filter fun source => partition.owner (UInt64.ofNat source) == rank := by
  have zero : 0 ∉ searched graph := by
    intro member
    rcases (mem_searched.1 member).2 with ⟨_, edge, given, leaves, _⟩
    have positive := (Finset.mem_Ico.1 (divided.sound.endpoints given).1).1
    omega
  have others : searched graph = (List.range' 1 (graph.bound.toNat - 1)).filter fun vertex =>
      decide (0 < (Snapshot.ofEdges graph.bound.toNat graph.edges).outDegree vertex) :=
    filter_range zero
  rw [others, List.filter_filter, ownSources]
  apply List.filter_congr
  intro vertex _
  rw [Shard.owns, divided.sharing, divided.numbered, Bool.and_comm]

theorem added_shares (hosted : graph.Hosted partition parts) :
    Collective.added graph.bound.toNat (fun rank => share graph (parts rank)) =
      (List.range graph.bound.toNat).map (betweenness (Leads graph.edges) graph.bound.toNat
        (List.range graph.bound.toNat)) := by
  apply List.map_congr_left
  intro vertex member
  have inside := List.mem_range.1 member
  have each : ∀ rank, (share graph (parts rank)).getD vertex 0 =
      betweenness (Leads graph.edges) graph.bound.toNat ((searched graph).filter fun source =>
        partition.owner (UInt64.ofNat source) == rank) vertex := by
    intro rank
    rw [share, toList_fromSources (rows_graph hosted.divided.sound), ownSources_eq hosted.divided,
      List.getD_eq_getElem?_getD, List.getElem?_map, List.getElem?_range]
    · rfl
    · exact inside
    · intro source member
      rw [ownSources_eq hosted.divided] at member
      exact (mem_searched.1 (List.mem_filter.1 member).1).1
  have stuck : ∀ source ∈ List.range graph.bound.toNat,
      decide (0 < (Snapshot.ofEdges graph.bound.toNat graph.edges).outDegree source) = false →
        ∀ there, ¬ Leads graph.edges source there := by
    intro source below noEdge there leads
    exact of_decide_eq_false noEdge ((outDegree_pos_iff (List.mem_range.1 below)).2 ⟨there, leads⟩)
  simp only [each]
  rw [sum_betweenness fun source => hosted.owner_lt (UInt64.ofNat source), searched,
    betweenness_filter stuck]

end Groups

/-- From whatever sources, the searches along different edges add up to the betweenness of every
vertex; and all groups that hold a graph settle with that from all its vertices. The numbers are
fractions; what a group needs for them is a record that brings over unchanged those that it
exchanges. -/
theorem searches_add_up_to_betweenness :
    (∀ (vertices : Nat) (edges : List Edge) (sources : List Nat), (edges.map Edge.key).Nodup →
      (∀ edge ∈ edges, edge.src.toNat < vertices ∧ edge.dst.toNat < vertices) →
      (∀ source ∈ sources, source < vertices) →
      (fromSources (.ofEdges vertices edges) sources).toList =
        (List.range vertices).map (betweenness (Leads edges) vertices sources)) ∧
    ∀ graph : Shard, graph.edgeCount * 32 < UInt64.size → graph.bound.toNat * 8 < UInt64.size →
      ∀ (size : Nat) (partition : Partition) (parts : Fin size → Shard),
        graph.Hosted partition parts →
        ∀ (scans : (rank : Fin size) → Scan (parts rank)) [Record ℚ] [SizedRecord ℚ],
          graph.bound.toNat * Record.size ℚ < UInt64.size →
          Record.Carries (exchanged graph parts) →
          (Plan.group fun rank => (runAlong (scans rank) : Collective (List ℚ)).run).Settles
            (List.ofFn fun _ : Fin size => .ok ((List.range graph.bound.toNat).map
              (betweenness (Leads graph.edges) graph.bound.toNat
                (List.range graph.bound.toNat)))) := by
  constructor
  · intro vertices edges sources distinct within starts
    exact toList_fromSources (rows_ofEdges distinct within) starts
  · intro graph edges _ size partition parts hosted scans record sized fits carries
    have gathered := hosted.together_gatherAlong edges scans
    have added := Collective.together_addEach hosted.inhabited tag
      (fun rank => share graph (parts rank)) (fun rank => length_share ..) fits
      (fun rank number member =>
        carries number (List.mem_append_left _ (Collective.mem_flatten_ofFn.2 ⟨rank, member⟩)))
      (fun number member => carries number (List.mem_append_right _ member))
    rw [added_shares hosted] at added
    exact Plan.lockstep_settles hosted.inhabited (Collective.together_bind gathered added)

open Shard in
theorem islands_have_betweenness :
    (List.range 5).map (betweenness
      (Leads [⟨1, 2, 1, 0⟩, ⟨1, 3, 1, 0⟩, ⟨2, 4, 1, 0⟩, ⟨3, 4, 1, 0⟩]) 5 [1, 1]) =
        [0, 0, 1, 1, 0] ∧
    ∃ _ : Record ℚ, (Plan.group fun rank : Fin 3 =>
      (run (twoIslands.cut (.cyclic 3) rank) : Collective (List ℚ)).run).Settles
        (List.ofFn fun _ : Fin 3 => .ok [0, 0, 0, 2, 0, 0, 0]) := by
  rcases searches_add_up_to_betweenness with ⟨anyEdges, everywhere⟩
  constructor
  · rw [← anyEdges 5 _ [1, 1] (by decide) (by decide) (by decide), Snapshot.ofEdges,
      List.mergeSort_of_pairwise (by decide)]
    decide +kernel
  · have few : (exchanged twoIslands fun rank : Fin 3 =>
        twoIslands.cut (.cyclic 3) rank).length ≤ UInt64.size := by
      rw [length_exchanged]
      decide
    rcases Record.exists_carries few with ⟨record, sized, words, carries⟩
    use record
    have settles := everywhere twoIslands (by decide) (by decide) 3 _ _ hosted_threeCyclic
      (fun _ => .ascending _) (by rw [words]; decide) carries
    have edges : twoIslands.edges = islandEdges := rfl
    have bound : twoIslands.bound.toNat = 7 := rfl
    have values : (List.range 7).map (betweenness (Leads islandEdges) 7 (List.range 7)) =
        [0, 0, 0, 2, 0, 0, 0] := by
      rw [← anyEdges 7 _ _ (by decide) (by decide) (by decide), Snapshot.ofEdges,
        List.mergeSort_of_pairwise (by decide)]
      decide +kernel
    rw [edges, bound, values] at settles
    exact settles

end StreamGraph.Betweenness
