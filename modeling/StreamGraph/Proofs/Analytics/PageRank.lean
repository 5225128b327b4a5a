import Mathlib.Tactic.LinearCombination
import StreamGraph.Proofs.Analytics.Fractions
import StreamGraph.Proofs.Analytics.Stages
import StreamGraph.Proofs.Ownership
import StreamGraph.Proofs.Snapshot

/-!
What becomes of the mass. Along the lists of owned vertices the ranks come across every edge of the
graph exactly once, and across every vertex without edges; so what arrives at a vertex, and what
finds no edge, are sums over the whole graph, and all ranks go from the same masses to the same.
Each round gives out what it takes in.
-/

namespace StreamGraph

/-- What the ranks add up, each over its own list, is added up over all lists together. -/
theorem sum_filter_ofFn {size : Nat} {Entry : Type} (lists : Fin size → List Entry)
    (kept : Entry → Bool) (amount : Entry → ℚ) :
    ∑ rank, (((lists rank).filter kept).map amount).sum =
      ((((List.ofFn lists).flatten).filter kept).map amount).sum := by
  rw [List.filter_flatten, List.map_flatten, List.sum_flatten, List.map_map, List.map_map,
    List.map_ofFn, List.sum_ofFn]
  rfl

namespace Shard

/-- The edges that leave a vertex, as they are listed among all edges. -/
theorem outEdges_perm (shard : Shard) (src : VertexId) :
    ((shard.outEdges src).map fun entry =>
      (⟨src, entry.1, entry.2.weight, entry.2.timestamp⟩ : Edge)).Perm
      (shard.edges.filter fun edge => edge.src == src) := by
  have once : ((shard.outEdges src).map Prod.fst).Nodup := (shard.row src).nodup_keys
  apply (List.perm_ext_iff_of_nodup _ (shard.nodup_edge_keys.of_map.filter _)).2
  · intro edge
    simp only [List.mem_map, Prod.exists, List.mem_filter, beq_iff_eq, mem_edges]
    constructor
    · intro listed
      rcases listed with ⟨dst, attrs, member, same⟩
      rw [← same]
      exact ⟨(shard.mem_outEdges ..).1 member, rfl⟩
    · intro stored
      use edge.dst, edge.attrs
      constructor
      · rw [mem_outEdges, ← stored.2]
        exact stored.1
      · rw [← stored.2]
        rfl
  · apply List.Nodup.of_map Edge.dst
    rw [List.map_map]
    exact once

theorem outDegree_eq_countP (shard : Shard) (src : VertexId) :
    shard.outDegree src = shard.edges.countP fun edge => edge.src == src := by
  rw [List.countP_eq_length_filter, ← (shard.outEdges_perm src).length_eq, List.length_map]
  rfl

end Shard

namespace PageRank

section Reference

/-- The number of edges that leave a vertex. -/
def degree (edges : List Edge) (vertex : Nat) : Nat :=
  edges.countP fun edge => edge.src.toNat == vertex

/-- What arrives at a vertex, if each vertex passes its mass on in equal shares. -/
def inflow (edges : List Edge) (mass : Nat → ℚ) (vertex : Nat) : ℚ :=
  ((edges.filter fun edge => edge.dst.toNat == vertex).map fun edge =>
    mass edge.src.toNat / degree edges edge.src.toNat).sum

/-- The mass of the vertices that no edge leaves; vertex zero is not one of them. -/
def stuck (edges : List Edge) (vertices : Nat) (mass : Nat → ℚ) : ℚ :=
  ∑ vertex ∈ Finset.Ico 1 vertices with degree edges vertex = 0, mass vertex

/-- The mass of a vertex after a round: its part of the fixed mass and of the mass that found no
edge, and what arrives. -/
def onward (edges : List Edge) (vertices : Nat) (damping : ℚ) (mass : Nat → ℚ) (vertex : Nat) : ℚ :=
  (1 - damping) / (vertices - 1 : Nat) +
    damping * stuck edges vertices mass / (vertices - 1 : Nat) + damping * inflow edges mass vertex

/-- The mass of each vertex after some rounds; all begin with the same. -/
def massAfter (edges : List Edge) (vertices : Nat) (damping : ℚ) : Nat → Nat → ℚ
  | 0 => fun _ => 1 / (vertices - 1 : Nat)
  | rounds + 1 => onward edges vertices damping (massAfter edges vertices damping rounds)

variable {edges : List Edge} {vertices : Nat}

/-- Amounts that are added up class by class are all added up. -/
theorem sum_classes (classOf : Edge → Nat) (amount : Edge → ℚ) {classes : Finset Nat}
    (classified : ∀ edge ∈ edges, classOf edge ∈ classes) :
    ∑ index ∈ classes, ((edges.filter fun edge => classOf edge == index).map amount).sum =
      (edges.map amount).sum := by
  induction edges with
  | nil => simp
  | cons edge others ih =>
      have here := classified edge (List.mem_cons_self ..)
      have split : ∀ index, (((edge :: others).filter fun edge => classOf edge == index).map
          amount).sum = (if classOf edge = index then amount edge else 0) +
            ((others.filter fun edge => classOf edge == index).map amount).sum := by
        intro index
        rw [List.filter_cons]
        by_cases same : classOf edge = index
        · simp [same]
        · simp [same]
      simp only [split]
      rw [Finset.sum_add_distrib, Finset.sum_ite_eq, if_pos here, List.map_cons, List.sum_cons,
        ih fun other member => classified other (List.mem_cons_of_mem _ member)]

/-- What the vertices with edges have arrives at some vertex. -/
theorem sum_inflow (within : ∀ edge ∈ edges, edge.src.toNat ∈ Finset.Ico 1 vertices ∧
      edge.dst.toNat ∈ Finset.Ico 1 vertices) (mass : Nat → ℚ) :
    ∑ vertex ∈ Finset.Ico 1 vertices, inflow edges mass vertex =
      ∑ vertex ∈ Finset.Ico 1 vertices with degree edges vertex ≠ 0, mass vertex := by
  have leaving : ∀ vertex, ((edges.filter fun edge => edge.src.toNat == vertex).map fun edge =>
      mass edge.src.toNat / degree edges edge.src.toNat).sum =
        if degree edges vertex ≠ 0 then mass vertex else 0 := by
    intro vertex
    have alike : ((edges.filter fun edge => edge.src.toNat == vertex).map fun edge =>
        mass edge.src.toNat / degree edges edge.src.toNat) =
        List.replicate (degree edges vertex) (mass vertex / degree edges vertex) := by
      rw [degree, List.countP_eq_length_filter, ← List.map_const']
      apply List.map_congr_left
      intro edge member
      rw [(beq_iff_eq.1 (List.mem_filter.1 member).2), degree, List.countP_eq_length_filter]
    rw [alike, List.sum_replicate, nsmul_eq_mul]
    split
    · next nonzero => exact mul_div_cancel₀ _ (Nat.cast_ne_zero.2 nonzero)
    · next zero => rw [not_not.1 zero, Nat.cast_zero, zero_mul]
  unfold inflow
  rw [sum_classes (fun edge => edge.dst.toNat) _ fun edge given => (within edge given).2,
    ← sum_classes (fun edge => edge.src.toNat) _ fun edge given => (within edge given).1,
    Finset.sum_filter]
  exact Finset.sum_congr rfl fun vertex _ => leaving vertex

/-- Each round gives out what it takes in. -/
theorem sum_massAfter (wide : 2 ≤ vertices)
    (within : ∀ edge ∈ edges, edge.src.toNat ∈ Finset.Ico 1 vertices ∧
      edge.dst.toNat ∈ Finset.Ico 1 vertices) (damping : ℚ) (rounds : Nat) :
    ∑ vertex ∈ Finset.Ico 1 vertices, massAfter edges vertices damping rounds vertex = 1 := by
  have many : ((vertices - 1 : Nat) : ℚ) ≠ 0 := by
    rw [Nat.cast_ne_zero]
    omega
  have even : ∀ amount : ℚ, ∑ _vertex ∈ Finset.Ico 1 vertices, amount / (vertices - 1 : Nat) =
      amount := by
    intro amount
    rw [Finset.sum_const, Nat.card_Ico, nsmul_eq_mul]
    exact mul_div_cancel₀ amount many
  induction rounds with
  | zero => exact even 1
  | succ rounds ih =>
      have parts := Finset.sum_filter_add_sum_filter_not (Finset.Ico 1 vertices)
        (fun vertex => degree edges vertex = 0) (massAfter edges vertices damping rounds)
      rw [ih] at parts
      simp only [massAfter, onward]
      rw [Finset.sum_add_distrib, Finset.sum_add_distrib, even, even, ← Finset.mul_sum,
        sum_inflow within]
      unfold stuck
      linear_combination damping * parts

end Reference

section Visiting

variable {shard : Shard}

/-- The ends of the edges that a rank comes across when it takes its vertices in turn. -/
def visited (scan : Scan shard) : List EdgeKey :=
  (shard.partition.owned shard.rank shard.bound).flatMap fun src =>
    (scan.outEdges src).map fun entry => (src, entry.1)

theorem arriving_foldl_spread (scan : Scan shard) (mass : Array ℚ) (vertices : List VertexId)
    (flow : Outflow ℚ) : (vertices.foldl (spread scan mass) flow).arriving =
      (vertices.flatMap fun src => (scan.outEdges src).map fun entry =>
        ((src, entry.1) : EdgeKey)).foldl (fun arriving key => addAt arriving key.2.toNat
          (mass.getD key.1.toNat 0 / (shard.outDegree key.1 : ℚ))) flow.arriving := by
  induction vertices generalizing flow with
  | nil => rfl
  | cons vertex others ih =>
      rw [List.foldl_cons, ih, List.flatMap_cons, List.foldl_append, List.foldl_map]
      congr 1
      unfold spread
      by_cases bare : shard.outDegree vertex = 0
      · have empty : scan.outEdges vertex = [] := by
          apply List.eq_nil_of_length_eq_zero
          rw [(scan.outEdges_perm vertex).length_eq]
          exact bare
        simp [bare, empty]
      · simp [bare]

theorem dangling_foldl_spread (scan : Scan shard) (mass : Array ℚ) (vertices : List VertexId)
    (flow : Outflow ℚ) : (vertices.foldl (spread scan mass) flow).dangling = flow.dangling +
      ((vertices.filter fun vertex => shard.outDegree vertex == 0).map fun vertex =>
        mass.getD vertex.toNat 0).sum := by
  induction vertices generalizing flow with
  | nil => simp
  | cons vertex others ih =>
      rw [List.foldl_cons, ih, List.filter_cons]
      unfold spread
      by_cases bare : shard.outDegree vertex = 0
      · simp [bare, add_assoc]
      · simp [bare]

theorem getD_arriving (scan : Scan shard) (mass : Array ℚ) {slot : Nat}
    (inside : slot < shard.bound.toNat) : (outflow scan mass).arriving.getD slot 0 =
      (((visited scan).filter fun key => key.2.toNat == slot).map fun key =>
        mass.getD key.1.toNat 0 / (shard.outDegree key.1 : ℚ)).sum := by
  rw [outflow, arriving_foldl_spread, getD_foldl_addAt, Array.getD_eq_getD_getElem?,
    Array.getElem?_replicate, if_pos inside, Option.getD_some, zero_add]
  · rfl
  · rw [Array.size_replicate]
    exact inside

theorem dangling_outflow (scan : Scan shard) (mass : Array ℚ) : (outflow scan mass).dangling =
    (((shard.partition.owned shard.rank shard.bound).filter fun vertex =>
      shard.outDegree vertex == 0).map fun vertex => mass.getD vertex.toNat 0).sum := by
  rw [outflow, dangling_foldl_spread, zero_add]

/-- A rank that takes all vertices that it owns comes across all its edges, once each. -/
theorem visited_perm (sound : shard.Sound) (covers : shard.partition.Covers shard.bound)
    (inside : shard.rank < shard.partition.parts) (scan : Scan shard) :
    (visited scan).Perm (shard.edges.map Edge.key) := by
  have owned := covers.owns shard.rank inside
  apply (List.perm_ext_iff_of_nodup _ shard.nodup_edge_keys).2
  · intro key
    simp only [visited, List.mem_flatMap, List.mem_map, Prod.exists, owned,
      (scan.outEdges_perm _).mem_iff, Shard.mem_outEdges, Shard.mem_edges]
    constructor
    · intro listed
      rcases listed with ⟨src, _, dst, attrs, stored, same⟩
      exact ⟨⟨src, dst, attrs.weight, attrs.timestamp⟩, stored, same⟩
    · intro stored
      rcases stored with ⟨edge, found, same⟩
      have allowed := (Shard.allowed_iff ..).1 (sound.allowed _ _ _ found)
      have below := ((VertexId.isEndpoint_iff ..).1 allowed.1).2
      exact ⟨edge.src, ⟨UInt64.lt_iff_toNat_lt.2 below, allowed.2.2⟩, edge.dst, edge.attrs, found,
        same⟩
  · rw [visited, List.nodup_flatMap]
    constructor
    · intro src _
      have once : ((shard.outEdges src).map Prod.fst).Nodup := (shard.row src).nodup_keys
      have others := ((scan.outEdges_perm src).map Prod.fst).nodup_iff.2 once
      apply List.Nodup.of_map Prod.snd
      rw [List.map_map]
      exact others
    · apply (covers.ascending shard.rank inside).imp
      intro left right before key inLeft inRight
      rcases List.mem_map.1 inLeft with ⟨_, _, first⟩
      rcases List.mem_map.1 inRight with ⟨_, _, second⟩
      have same : left = right := congrArg Prod.fst (first.trans second.symm)
      exact UInt64.ne_of_lt before same

end Visiting

section Vectors

/-- One number for each vertex, and none for vertex zero. -/
def vector (vertices : Nat) (mass : Nat → ℚ) : Array ℚ :=
  Array.ofFn fun vertex : Fin vertices => if vertex.val = 0 then 0 else mass vertex

variable {vertices : Nat} {mass : Nat → ℚ}

theorem size_vector : (vector vertices mass).size = vertices := Array.size_ofFn

theorem getD_vector {vertex : Nat} (inside : vertex ∈ Finset.Ico 1 vertices) :
    (vector vertices mass).getD vertex 0 = mass vertex := by
  rw [Finset.mem_Ico] at inside
  have notZero : vertex ≠ 0 := by omega
  rw [Array.getD_eq_getD_getElem?, vector, Array.getElem?_ofFn, dif_pos inside.2,
    Option.getD_some, if_neg notZero]

theorem getD_vector_zero : (vector vertices mass).getD 0 0 = 0 := by
  rw [Array.getD_eq_getD_getElem?, vector, Array.getElem?_ofFn]
  split
  · rw [Option.getD_some, if_pos rfl]
  · rfl

theorem sum_vector : (vector vertices mass).toList.sum =
    ∑ vertex ∈ Finset.Ico 1 vertices, mass vertex := by
  have slots := Fin.sum_univ_eq_sum_range (fun vertex => if vertex = 0 then 0 else mass vertex)
    vertices
  have inside : Finset.Ico 1 vertices ⊆ Finset.range vertices := by
    intro vertex member
    exact Finset.mem_range.2 (Finset.mem_Ico.1 member).2
  rw [vector, Array.toList_ofFn, List.sum_ofFn, slots, ← Finset.sum_subset inside]
  · apply Finset.sum_congr rfl
    intro vertex member
    rw [if_neg (Nat.one_le_iff_ne_zero.1 (Finset.mem_Ico.1 member).1)]
  · intro vertex below outside
    rw [Finset.mem_range] at below
    rw [Finset.mem_Ico] at outside
    rw [if_pos (by omega)]

theorem start_eq_vector (bound : UInt64) : (start bound : Array ℚ) =
    vector bound.toNat fun _ => 1 / (bound.toNat - 1 : Nat) := by
  apply Array.ext_getElem?
  intro vertex
  rw [start, vector, Array.getElem?_setIfInBounds, Array.size_replicate, Array.getElem?_replicate,
    Array.getElem?_ofFn]
  by_cases zero : vertex = 0
  · simp [zero]
  · simp [zero, Ne.symm zero]

/-- What is settled in a round in which the given amounts arrive. -/
theorem settle_vector (vertices : Nat) (mass : Nat → ℚ) (options : Options ℚ) (base : ℚ)
    (arrived : Nat → ℚ) :
    settle options base (vector vertices mass) ((List.range vertices).map arrived).toArray =
      vector vertices fun vertex => base + options.damping * arrived vertex := by
  apply Array.ext_getElem?
  intro vertex
  rw [settle, Array.getElem?_mapIdx, vector, vector, Array.getElem?_ofFn, Array.getElem?_ofFn]
  by_cases inside : vertex < vertices
  · by_cases zero : vertex = 0
    · simp [zero]
    · simp [inside, zero]
  · simp [inside]

end Vectors

/-- The numbers that a rank sends. -/
def Outflow.numbers (flow : Outflow ℚ) : List ℚ := flow.dangling :: flow.arriving.toList

/-- The numbers that a group exchanges in a round: what each rank passes on of the masses, and what
this comes to. -/
def exchanged {size : Nat} {parts : Fin size → Shard}
    (scans : (rank : Fin size) → Scan (parts rank))
    (edges : List Edge) (vertices : Nat) (mass : Nat → ℚ) : List ℚ :=
  (List.ofFn fun rank => (outflow (scans rank) (vector vertices mass)).numbers).flatten ++
    stuck edges vertices mass :: (List.range vertices).map (inflow edges mass)

theorem covers_build (layout : Layout) (parts : Nat) (bound : UInt64) :
    (layout.build parts bound).Covers bound := by
  have positive : 0 < max parts 1 := Nat.lt_of_lt_of_le Nat.zero_lt_one (Nat.le_max_right ..)
  cases layout with
  | cyclic => exact Partition.covers_cyclic positive bound
  | block => exact Partition.covers_block positive

section Groups

variable {size : Nat} {graph : Shard} {partition : Partition} {parts : Fin size → Shard}

theorem outDegree_eq_degree (graph : Shard) (vertex : VertexId) :
    graph.outDegree vertex = degree graph.edges vertex.toNat := by
  rw [Shard.outDegree_eq_countP, degree]
  apply List.countP_congr
  intro edge _
  simp [UInt64.toNat_inj]

variable (divided : Shard.Divided partition graph parts) (owners : partition.parts = size)
  (covers : partition.Covers graph.bound)

include divided owners covers

/-- The lists of the ranks together hold every vertex once. -/
theorem owned_perm : ((List.ofFn fun rank : Fin size =>
    (partition.owned rank graph.bound).map UInt64.toNat).flatten).Perm
      (List.range graph.bound.toNat) := by
  have owns : ∀ (rank : Fin size) (vertex : VertexId),
      vertex ∈ partition.owned rank graph.bound ↔
        vertex < graph.bound ∧ partition.owner vertex = rank :=
    fun rank => covers.owns rank (owners ▸ rank.isLt)
  apply (List.perm_ext_iff_of_nodup _ List.nodup_range).2
  · intro vertex
    simp only [Collective.mem_flatten_ofFn, List.mem_map, owns, List.mem_range]
    constructor
    · intro listed
      rcases listed with ⟨rank, id, owned, same⟩
      rw [← same]
      exact UInt64.lt_iff_toNat_lt.1 owned.1
    · intro below
      have small : (UInt64.ofNat vertex).toNat = vertex :=
        UInt64.toNat_ofNat_of_lt' (Nat.lt_trans below graph.bound.toNat_lt_size)
      have inside := covers.owner (UInt64.ofNat vertex)
      rw [owners] at inside
      use ⟨_, inside⟩, UInt64.ofNat vertex
      rw [UInt64.lt_iff_toNat_lt, small]
      exact ⟨⟨below, rfl⟩, rfl⟩
  · apply Collective.nodup_flatten_ofFn fun vertex => partition.owner (UInt64.ofNat vertex)
    · intro rank
      apply List.Nodup.map
      · intro left right
        exact UInt64.toNat_inj.1
      · exact (covers.ascending rank (owners ▸ rank.isLt)).imp UInt64.ne_of_lt
    · intro rank vertex member
      rcases List.mem_map.1 member with ⟨id, owned, same⟩
      rw [← same, UInt64.ofNat_toNat]
      exact ((owns rank id).1 owned).2

/-- What the ranks pass on to a vertex is what arrives there along the edges of the graph. -/
theorem sum_arriving (scans : (rank : Fin size) → Scan (parts rank)) (mass : Nat → ℚ) {slot : Nat}
    (inside : slot < graph.bound.toNat) :
    ∑ rank, (outflow (scans rank) (vector graph.bound.toNat mass)).arriving.getD slot 0 =
      inflow graph.edges mass slot := by
  have each : ∀ rank,
      (outflow (scans rank) (vector graph.bound.toNat mass)).arriving.getD slot 0 =
        (((scans rank).edges.filter fun edge => edge.dst.toNat == slot).map fun edge =>
          mass edge.src.toNat / degree graph.edges edge.src.toNat).sum := by
    intro rank
    have inRange : (parts rank).rank < (parts rank).partition.parts := by
      rw [divided.numbered, divided.sharing, owners]
      exact rank.isLt
    have partCovers : (parts rank).partition.Covers (parts rank).bound := by
      rw [divided.sharing, divided.bounded]
      exact covers
    have keys := visited_perm (divided.soundPart rank) partCovers inRange (scans rank)
    have listed : (parts rank).edges.Perm (scans rank).edges := (scans rank).edges_perm.symm
    rw [getD_arriving _ _ (by rw [divided.bounded]; exact inside),
      ((keys.filter _).map _).sum_eq, List.filter_map, List.map_map,
      ((listed.filter _).map _).sum_eq]
    congr 1
    apply List.map_congr_left
    intro edge member
    have stored := ((scans rank).mem_edges edge).1 (List.mem_filter.1 member).1
    rw [divided.stored] at stored
    split at stored
    · next own =>
        have ends := divided.sound.endpoints ((graph.mem_edges edge).2 stored)
        have leaving : (parts rank).outDegree edge.src = degree graph.edges edge.src.toNat := by
          rw [divided.outDegree_part, if_pos own, outDegree_eq_degree]
        simp only [Function.comp_apply, Edge.key, getD_vector ends.1, leaving]
    · cases stored
  have owner_lt : ∀ vertex, partition.owner vertex < size := fun vertex =>
    owners ▸ covers.owner vertex
  have all := divided.scans_perm owner_lt scans
  simp only [each]
  rw [sum_filter_ofFn, ((all.filter _).map _).sum_eq]
  rfl

/-- The mass that finds no edge on any rank is that of the vertices which no edge of the graph
leaves. -/
theorem sum_dangling (scans : (rank : Fin size) → Scan (parts rank)) (mass : Nat → ℚ) :
    ∑ rank, (outflow (scans rank) (vector graph.bound.toNat mass)).dangling =
      stuck graph.edges graph.bound.toNat mass := by
  have each : ∀ rank, (outflow (scans rank) (vector graph.bound.toNat mass)).dangling =
      ((((partition.owned rank graph.bound).map UInt64.toNat).filter fun vertex =>
        degree graph.edges vertex == 0).map fun vertex =>
          (vector graph.bound.toNat mass).getD vertex 0).sum := by
    intro rank
    rw [dangling_outflow, divided.sharing, divided.numbered, divided.bounded, List.filter_map,
      List.map_map]
    congr 2
    apply List.filter_congr
    intro vertex member
    have own := ((covers.owns rank (owners ▸ rank.isLt) vertex).1 member).2
    rw [divided.outDegree_part, if_pos own, outDegree_eq_degree]
    rfl
  have inside : (Finset.Ico 1 graph.bound.toNat).filter (degree graph.edges · = 0) ⊆
      (Finset.range graph.bound.toNat).filter (degree graph.edges · = 0) := by
    apply Finset.filter_subset_filter
    intro vertex member
    exact Finset.mem_range.2 (Finset.mem_Ico.1 member).2
  have listed : ((List.range graph.bound.toNat).filter fun vertex =>
      degree graph.edges vertex == 0).toFinset =
        (Finset.range graph.bound.toNat).filter (degree graph.edges · = 0) := by
    ext vertex
    simp
  simp only [each]
  rw [sum_filter_ofFn, (((owned_perm divided owners covers).filter _).map _).sum_eq,
    ← List.sum_toFinset _ (List.nodup_range.filter _), listed, stuck, ← Finset.sum_subset inside]
  · apply Finset.sum_congr rfl
    intro vertex member
    exact getD_vector (Finset.mem_filter.1 member).1
  · intro vertex listed outside
    have zero : vertex = 0 := by
      simp only [Finset.mem_filter, Finset.mem_range, Finset.mem_Ico] at listed outside
      by_contra notZero
      exact outside ⟨⟨Nat.one_le_iff_ne_zero.2 notZero, listed.1⟩, listed.2⟩
    rw [zero, getD_vector_zero]

section Round

variable [Record ℚ] [SizedRecord ℚ] (scans : (rank : Fin size) → Scan (parts rank))
  {mass : Nat → ℚ}
  (carries : Record.Carries (exchanged scans graph.edges graph.bound.toNat mass))

include carries

omit [SizedRecord ℚ] divided owners covers in
theorem carries_numbers (rank : Fin size) :
    Record.Carries (outflow (scans rank) (vector graph.bound.toNat mass)).numbers := by
  intro number member
  apply carries
  exact List.mem_append_left _ (Collective.mem_flatten_ofFn.2 ⟨rank, member⟩)

theorem together_arriving (inhabited : 0 < size)
    (fits : graph.bound.toNat * Record.size ℚ < UInt64.size) :
    Collective.Together
      (fun rank => Collective.reduceEach tag (· + ·)
        (outflow (scans rank) (vector graph.bound.toNat mass)).arriving.toList)
      fun _ => .ok ((List.range graph.bound.toNat).map (inflow graph.edges mass)) := by
  have length : ∀ rank, (outflow (scans rank) (vector graph.bound.toNat mass)).arriving.size =
      graph.bound.toNat := by
    intro rank
    rw [size_outflow, divided.bounded]
  have added : Collective.added graph.bound.toNat (fun rank =>
      (outflow (scans rank) (vector graph.bound.toNat mass)).arriving.toList) =
        (List.range graph.bound.toNat).map (inflow graph.edges mass) := by
    apply List.map_congr_left
    intro slot inside
    rw [← sum_arriving divided owners covers scans mass (List.mem_range.1 inside)]
    simp [Array.getD_eq_getD_getElem?, List.getD_eq_getElem?_getD]
  rw [← added]
  apply Collective.together_addEach inhabited tag _ length fits
  · intro rank number member
    exact carries_numbers scans carries rank number (List.mem_cons_of_mem _ member)
  · rw [added]
    intro number member
    exact carries number (List.mem_append_right _ (List.mem_cons_of_mem _ member))

theorem together_dangling (inhabited : 0 < size) :
    Collective.Together
      (fun rank => Collective.sum (tag.offset 4)
        (outflow (scans rank) (vector graph.bound.toNat mass)).dangling)
      fun _ => .ok (stuck graph.edges graph.bound.toNat mass) := by
  rw [← sum_dangling divided owners covers scans]
  apply Collective.together_addUp inhabited
  · intro rank
    exact carries_numbers scans carries rank _ (List.mem_cons_self ..)
  · rw [sum_dangling divided owners covers]
    exact carries _ (List.mem_append_right _ (List.mem_cons_self ..))

/-- From the same masses, all ranks go on to the same. -/
theorem together_advance (inhabited : 0 < size)
    (fits : graph.bound.toNat * Record.size ℚ < UInt64.size) (options : Options ℚ) :
    Collective.Together
      (fun rank => advance (scans rank) options (vector graph.bound.toNat mass))
      fun _ => .ok (vector graph.bound.toNat
        (onward graph.edges graph.bound.toNat options.damping mass)) := by
  have settled := settle_vector graph.bound.toNat mass options
    ((1 - options.damping) / (graph.bound.toNat - 1 : Nat) + options.damping *
      stuck graph.edges graph.bound.toNat mass / (graph.bound.toNat - 1 : Nat))
    (inflow graph.edges mass)
  unfold advance
  simp only [divided.bounded]
  apply Collective.together_bind
    (together_arriving divided owners covers scans carries inhabited fits)
  apply Collective.together_bind (together_dangling divided owners covers scans carries inhabited)
  rw [settled]
  exact Collective.together_pure _

end Round

theorem together_rounds [Record ℚ] [SizedRecord ℚ] (inhabited : 0 < size)
    (fits : graph.bound.toNat * Record.size ℚ < UInt64.size)
    (scans : (rank : Fin size) → Scan (parts rank)) (options : Options ℚ) (done : Nat)
    (count : Nat) (carries : ∀ round < done + count, Record.Carries
      (exchanged scans graph.edges graph.bound.toNat
        (massAfter graph.edges graph.bound.toNat options.damping round))) :
    Collective.Together
      (fun rank => rounds (scans rank) options count (vector graph.bound.toNat
        (massAfter graph.edges graph.bound.toNat options.damping done)))
      fun _ => .ok (vector graph.bound.toNat
        (massAfter graph.edges graph.bound.toNat options.damping (done + count))) := by
  induction count generalizing done with
  | zero => exact Collective.together_pure _
  | succ count ih =>
      have first := together_advance divided owners covers scans (carries done (by omega))
        inhabited fits options
      have later := ih (done + 1) fun round before => carries round (by omega)
      rw [Nat.add_right_comm] at later
      exact Collective.together_bind first later

omit owners covers in
theorem length_exchanged (scans : (rank : Fin size) → Scan (parts rank)) (mass : Nat → ℚ) :
    (exchanged scans graph.edges graph.bound.toNat mass).length =
      (size + 1) * (graph.bound.toNat + 1) := by
  have each : ∀ rank, (outflow (scans rank) (vector graph.bound.toNat mass)).numbers.length =
      graph.bound.toNat + 1 := by
    intro rank
    rw [Outflow.numbers, List.length_cons, Array.length_toList, size_outflow, divided.bounded]
  rw [exchanged, List.length_append, Collective.length_flatten_ofFn, List.length_cons,
    List.length_map, List.length_range]
  simp only [each, Finset.sum_const, Finset.card_univ, Fintype.card_fin, smul_eq_mul,
    Nat.succ_mul]

omit owners covers in
/-- Unless a word cannot count the numbers that a group exchanges, one word is enough for each. -/
theorem exists_record (scans : (rank : Fin size) → Scan (parts rank)) (options : Options ℚ)
    (few : options.rounds * ((size + 1) * (graph.bound.toNat + 1)) ≤ UInt64.size) :
    ∃ (_ : Record ℚ) (_ : SizedRecord ℚ), Record.size ℚ = 8 ∧
      ∀ round < options.rounds, Record.Carries
        (exchanged scans graph.edges graph.bound.toNat
          (massAfter graph.edges graph.bound.toNat options.damping round)) := by
  have all : ((List.range options.rounds).flatMap fun round =>
      exchanged scans graph.edges graph.bound.toNat
        (massAfter graph.edges graph.bound.toNat options.damping round)).length =
      options.rounds * ((size + 1) * (graph.bound.toNat + 1)) := by
    rw [List.length_flatMap]
    simp only [length_exchanged divided, List.map_const', List.length_range, List.sum_replicate,
      smul_eq_mul]
  rcases Record.exists_carries (all.trans_le few) with ⟨record, sized, words, carries⟩
  use record, sized
  constructor
  · exact words
  · intro round before number member
    exact carries number (List.mem_flatMap.2 ⟨round, List.mem_range.2 before, member⟩)

end Groups

/-- On every group that holds a graph, in either layout, all ranks settle with the masses that the
rounds on the graph itself come to: one for each vertex, none for vertex zero, and together one. The
numbers are fractions; what the group needs for them is a record that brings over unchanged those
that it exchanges. -/
theorem mass_is_conserved {graph : Shard} (sound : graph.Sound) (wide : 2 ≤ graph.bound.toNat)
    (options : Options ℚ) :
    ∃ masses : Array ℚ, masses.size = graph.bound.toNat ∧ masses.getD 0 0 = 0 ∧
      masses.toList.sum = 1 ∧
      (∀ vertex, 1 ≤ vertex → vertex < graph.bound.toNat → masses.getD vertex 0 =
        massAfter graph.edges graph.bound.toNat options.damping options.rounds vertex) ∧
      ∀ (layout : Layout) (size : Nat) (parts : Fin size → Shard), 0 < size →
        Shard.Divided (layout.build size graph.bound) graph parts →
        ∀ (scans : (rank : Fin size) → Scan (parts rank)) [Record ℚ] [SizedRecord ℚ],
          graph.bound.toNat * Record.size ℚ < UInt64.size →
          (∀ round < options.rounds, Record.Carries
            (exchanged scans graph.edges graph.bound.toNat
              (massAfter graph.edges graph.bound.toNat options.damping round))) →
          (Plan.group fun rank => (runAlong (scans rank) options).run).Settles
            (List.ofFn fun _ : Fin size => .ok masses) := by
  use vector graph.bound.toNat
    (massAfter graph.edges graph.bound.toNat options.damping options.rounds)
  constructor
  · exact size_vector
  constructor
  · exact getD_vector_zero
  constructor
  · rw [sum_vector]
    exact sum_massAfter wide (fun edge member => sound.endpoints member) ..
  constructor
  · intro vertex positive below
    exact getD_vector (Finset.mem_Ico.2 ⟨positive, below⟩)
  · intro layout size parts inhabited divided scans record sized fits carries
    have owners : (layout.build size graph.bound).parts = size := by
      cases layout <;> exact Nat.max_eq_left inhabited
    have covers := covers_build layout size graph.bound
    have rounds := together_rounds divided owners covers inhabited fits scans options 0
      options.rounds (by rw [Nat.zero_add]; exact carries)
    have broad : ¬ graph.bound ≤ 1 := by
      rw [UInt64.le_iff_toNat_le]
      exact Nat.not_le_of_lt wide
    rw [Nat.zero_add] at rounds
    apply Plan.lockstep_settles inhabited
    apply Collective.together_congr _ rounds
    intro rank
    rw [runAlong, divided.bounded, if_neg broad, start_eq_vector]
    rfl

open Shard in
theorem islands_conserve_mass :
    ∃ (_ : Record ℚ) (masses : Array ℚ), masses.size = 7 ∧ masses.toList.sum = 1 ∧
      masses.getD 3 0 = 8951 / 43200 ∧
      (Plan.group fun rank : Fin 3 =>
        (run (twoIslands.cut (.cyclic 3) rank) ⟨2, 17 / 20⟩).run).Settles
        (List.ofFn fun _ : Fin 3 => .ok masses) := by
  have divided : Divided (Layout.cyclic.build 3 twoIslands.bound) twoIslands
      fun rank : Fin 3 => twoIslands.cut (.cyclic 3) rank := hosted_threeCyclic.divided
  rcases mass_is_conserved sound_twoIslands (by decide) ⟨2, 17 / 20⟩ with
    ⟨masses, size, zero, total, each, settles⟩
  rcases exists_record divided (fun _ => .ascending _) ⟨2, 17 / 20⟩ (by decide) with
    ⟨record, sized, words, carries⟩
  use record, masses
  constructor
  · exact size
  constructor
  · exact total
  constructor
  · rw [each 3 (by decide) (by decide)]
    have edges : twoIslands.edges = islandEdges := rfl
    rw [edges]
    decide +kernel
  · exact settles .cyclic 3 _ (by decide) divided (fun _ => .ascending _)
      (by rw [words]; decide) carries

end PageRank

end StreamGraph
