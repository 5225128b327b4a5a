import Mathlib.Algebra.BigOperators.Fin
import Mathlib.Algebra.Order.BigOperators.Group.Finset
import StreamGraph.Analytics.Traversal
import StreamGraph.Proofs.Shard
import StreamGraph.Proofs.Sorting
import StreamGraph.Proofs.Unanimity

/-!
What the repeated stages have in common. All ranks work on the same table of labels and change it
by the same proposals; each round lowers labels only along edges. A label that is lowered in a
round has been handed on from vertex to vertex, one vertex for each round before, and these are all
different: so there are no more rounds than vertices.
-/

namespace StreamGraph

variable {size : Nat}

/-- Changes that keep the size of a table keep it one after the other. -/
theorem size_foldl {Slot Entry : Type} {change : Array Slot → Entry → Array Slot}
    (keeps : ∀ table entry, (change table entry).size = table.size) (entries : List Entry)
    (table : Array Slot) : (entries.foldl change table).size = table.size := by
  induction entries generalizing table with
  | nil => rfl
  | cons entry others ih => rw [List.foldl_cons, ih, keeps]

section Slots

variable {Slot : Type} (table : Array Slot)

/-- A write to one slot is seen there and nowhere else. -/
theorem getD_set (slot other : Nat) (entry fallback : Slot) :
    (table.setIfInBounds slot entry).getD other fallback =
      if slot = other ∧ slot < table.size then entry else table.getD other fallback := by
  rw [Array.getD_eq_getD_getElem?, Array.getD_eq_getD_getElem?, Array.getElem?_setIfInBounds]
  by_cases same : slot = other
  · subst same
    by_cases inside : slot < table.size
    · simp [inside]
    · simp [inside]
  · simp [same]

/-- A change of one slot is seen there and nowhere else. -/
theorem getD_modify (slot other : Nat) (change : Slot → Slot) (fallback : Slot) :
    (table.modify slot change).getD other fallback =
      if slot = other ∧ slot < table.size then change (table.getD other fallback)
      else table.getD other fallback := by
  rw [Array.getD_eq_getD_getElem?, Array.getD_eq_getD_getElem?, Array.getElem?_modify]
  by_cases same : slot = other
  · subst same
    by_cases inside : slot < table.size
    · simp [inside]
    · simp [inside]
  · simp [same]

theorem getD_setIfInBounds (vertex other : VertexId) (entry fallback : Slot) :
    (table.setIfInBounds vertex.toNat entry).getD other.toNat fallback =
      if vertex = other ∧ vertex.toNat < table.size then entry
      else table.getD other.toNat fallback := by
  rw [getD_set]
  simp only [UInt64.toNat_inj]

omit table in
theorem getD_replicate (size slot : Nat) (entry : Slot) :
    (Array.replicate size entry).getD slot entry = entry := by
  rw [Array.getD_eq_getD_getElem?, Array.getElem?_replicate]
  split <;> rfl

theorem toList_eq_map (fallback : Slot) :
    table.toList = (List.range table.size).map fun slot => table.getD slot fallback := by
  apply List.ext_getElem
  · simp
  · intro slot here _
    rw [Array.length_toList] at here
    rw [Array.getElem_toList, List.getElem_map, List.getElem_range, Array.getD_eq_getD_getElem?,
      Array.getElem?_eq_getElem here, Option.getD_some]

end Slots

namespace Labels

theorem size_put (labels : Labels) (vertex : VertexId) (word : Int64) :
    (labels.put vertex word).size = labels.size := Array.size_setIfInBounds

theorem of_put (labels : Labels) (vertex other : VertexId) (word : Int64) :
    (labels.put vertex word).of other =
      if vertex = other ∧ vertex.toNat < labels.size then word else labels.of other :=
  getD_setIfInBounds ..

/-- Tables over the same vertices are the same if every vertex has the same word in both. -/
theorem ext_of {first second : Labels} {bound : UInt64} (left : first.size = bound.toNat)
    (right : second.size = bound.toNat)
    (same : ∀ vertex : VertexId, vertex.toNat < bound.toNat →
      first.of vertex = second.of vertex) : first = second := by
  apply Array.ext (left.trans right.symm)
  intro slot inLeft inRight
  have small : slot < UInt64.size := by
    have below := bound.toNat_lt_size
    omega
  have words := same (UInt64.ofNat slot)
  rw [UInt64.toNat_ofNat_of_lt' small] at words
  simpa [of, UInt64.toNat_ofNat_of_lt' small, inLeft, inRight] using words (left ▸ inLeft)

/-- Putting back what is there changes nothing. -/
theorem put_of (labels : Labels) (vertex : VertexId) :
    labels.put vertex (labels.of vertex) = labels := by
  unfold put of
  apply Array.ext_getElem?
  intro slot
  rw [Array.getElem?_setIfInBounds]
  split
  · next same =>
      subst same
      split
      · next inside => simp [inside]
      · next outside => exact (Array.getElem?_eq_none (Nat.le_of_not_lt outside)).symm
  · rfl

theorem size_fill (bound : UInt64) (word : Int64) : (fill bound word).size = bound.toNat :=
  Array.size_replicate

/-- The labels with a vertex lowered to a word, if it is in the table and above that word. -/
def lowered (labels : Labels) (proposal : Proposal) : Labels :=
  if proposal.vertex.toNat < labels.size ∧ proposal.value < labels.of proposal.vertex then
    labels.put proposal.vertex proposal.value
  else labels

theorem size_lowered (labels : Labels) (proposal : Proposal) :
    (labels.lowered proposal).size = labels.size := by
  unfold lowered
  split
  · exact size_put ..
  · rfl

theorem of_lowered (labels : Labels) (proposal : Proposal) (vertex : VertexId) :
    (labels.lowered proposal).of vertex =
      if proposal.vertex = vertex ∧ proposal.vertex.toNat < labels.size ∧
        proposal.value < labels.of vertex then proposal.value else labels.of vertex := by
  unfold lowered
  by_cases same : proposal.vertex = vertex
  · subst same
    by_cases lower : proposal.vertex.toNat < labels.size ∧
        proposal.value < labels.of proposal.vertex
    · rw [if_pos lower, of_put, if_pos ⟨rfl, lower.1⟩, if_pos ⟨rfl, lower⟩]
    · rw [if_neg lower, if_neg fun both => lower both.2]
  · have notHere : ¬ (proposal.vertex = vertex ∧ proposal.vertex.toNat < labels.size ∧
        proposal.value < labels.of vertex) := fun both => same both.1
    rw [if_neg notHere]
    split
    · rw [of_put, if_neg fun both => same both.1]
    · rfl

theorem lowered_of_lt {labels : Labels} {proposal : Proposal}
    (lower : proposal.vertex.toNat < labels.size ∧ proposal.value < labels.of proposal.vertex) :
    labels.lowered proposal = labels.put proposal.vertex proposal.value := if_pos lower

theorem lowered_of_not_lt {labels : Labels} {proposal : Proposal}
    (notLower : ¬ (proposal.vertex.toNat < labels.size ∧
      proposal.value < labels.of proposal.vertex)) : labels.lowered proposal = labels :=
  if_neg notLower

/-- Only the vertex of the proposal can change, and it takes the proposed word. -/
theorem lowered_of_ne {labels : Labels} {proposal : Proposal} {vertex : VertexId}
    (changed : (labels.lowered proposal).of vertex ≠ labels.of vertex) :
    proposal.vertex = vertex ∧ (labels.lowered proposal).of vertex = proposal.value := by
  rw [of_lowered] at changed ⊢
  split
  · next lower => exact ⟨lower.1, rfl⟩
  · next notLower =>
      rw [if_neg notLower] at changed
      exact absurd rfl changed

/-- Labels before and after some proposals: none has risen, and each that has sunk has sunk to a
proposed value. -/
structure Sunk (before after : Labels) (proposals : List Proposal) : Prop where
  size : after.size = before.size
  sinks (vertex : VertexId) : (after.of vertex).toInt ≤ (before.of vertex).toInt
  given (vertex : VertexId) : after.of vertex = before.of vertex ∨
    ∃ proposal ∈ proposals, proposal.vertex = vertex ∧ vertex.toNat < before.size ∧
      after.of vertex = proposal.value ∧ (after.of vertex).toInt < (before.of vertex).toInt
  heard (proposal : Proposal) (member : proposal ∈ proposals)
    (inside : proposal.vertex.toNat < before.size) :
    (after.of proposal.vertex).toInt ≤ proposal.value.toInt

theorem sunk_refl (labels : Labels) : Sunk labels labels [] where
  size := rfl
  sinks _ := Int.le_refl _
  given _ := Or.inl rfl
  heard _ member := absurd member (List.not_mem_nil)

theorem sunk_lowered (labels : Labels) (proposal : Proposal) :
    Sunk labels (labels.lowered proposal) [proposal] where
  size := size_lowered ..
  sinks vertex := by
    rw [of_lowered]
    split
    · next lower => exact Int.le_of_lt (Int64.lt_iff_toInt_lt.1 lower.2.2)
    · exact Int.le_refl _
  given vertex := by
    rw [of_lowered]
    split
    · next lower =>
        refine Or.inr ⟨proposal, List.mem_singleton.2 rfl, lower.1, ?_, rfl, ?_⟩
        · rw [← lower.1]
          exact lower.2.1
        · exact Int64.lt_iff_toInt_lt.1 lower.2.2
    · exact Or.inl rfl
  heard other member inside := by
    rw [List.mem_singleton.1 member] at inside ⊢
    rw [of_lowered]
    split
    · exact Int.le_refl _
    · next notLower =>
        rw [Int64.lt_iff_toInt_lt] at notLower
        by_contra above
        exact notLower ⟨rfl, inside, by omega⟩

theorem Sunk.trans {first second third : Labels} {left right : List Proposal}
    (before : Sunk first second left) (after : Sunk second third right) :
    Sunk first third (left ++ right) where
  size := after.size.trans before.size
  sinks vertex := Int.le_trans (after.sinks vertex) (before.sinks vertex)
  given vertex := by
    rcases after.given vertex with same | ⟨proposal, member, isFor, inside, value, less⟩
    · rw [same]
      rcases before.given vertex with same | ⟨proposal, member, rest⟩
      · exact Or.inl same
      · exact Or.inr ⟨proposal, List.mem_append_left _ member, rest⟩
    · rw [before.size] at inside
      exact Or.inr ⟨proposal, List.mem_append_right _ member, isFor, inside, value,
        Int.lt_of_lt_of_le less (before.sinks vertex)⟩
  heard proposal member inside := by
    rcases List.mem_append.1 member with inLeft | inRight
    · exact Int.le_trans (after.sinks _) (before.heard proposal inLeft inside)
    · rw [← before.size] at inside
      exact after.heard proposal inRight inside

theorem sunk_foldl (labels : Labels) (proposals : List Proposal) :
    Sunk labels (proposals.foldl lowered labels) proposals := by
  induction proposals generalizing labels with
  | nil => exact sunk_refl labels
  | cons proposal others ih =>
      exact (sunk_lowered labels proposal).trans (ih (labels.lowered proposal))

/-- There are `count` vertices whose labels are not above that of this vertex. -/
def Behind (labels : Labels) (count : Nat) (vertex : VertexId) : Prop :=
  ∃ others : List VertexId, others.Nodup ∧ others.length = count ∧
    ∀ other ∈ others, other.toNat < labels.size ∧
      (labels.of other).toInt ≤ (labels.of vertex).toInt

theorem behind_one {labels : Labels} {vertex : VertexId} (inside : vertex.toNat < labels.size) :
    labels.Behind 1 vertex := by
  refine ⟨[vertex], List.nodup_singleton vertex, rfl, ?_⟩
  intro other member
  rw [List.mem_singleton.1 member]
  exact ⟨inside, Int.le_refl _⟩

theorem Behind.count_le {labels : Labels} {count : Nat} {vertex : VertexId}
    (behind : labels.Behind count vertex) : count ≤ labels.size := by
  rcases behind with ⟨others, nodup, rfl, inside⟩
  have numbers : (others.map UInt64.toNat).Nodup :=
    nodup.map fun left right => UInt64.toNat_inj.1
  have below : others.map UInt64.toNat ⊆ List.range labels.size := by
    intro number member
    rcases List.mem_map.1 member with ⟨other, inOthers, rfl⟩
    exact List.mem_range.2 (inside other inOthers).1
  have fewer := (numbers.subperm below).length_le
  rwa [List.length_map, List.length_range] at fewer

/-- A vertex that sinks to a value not below the label of `giver` comes behind everything that
`giver` is behind, and was not among it. -/
theorem Behind.step {before after : Labels} {proposals : List Proposal} {count : Nat}
    {giver vertex : VertexId} (behind : before.Behind count giver)
    (sunk : Sunk before after proposals) (inside : vertex.toNat < before.size)
    (less : (after.of vertex).toInt < (before.of vertex).toInt)
    (given : (before.of giver).toInt ≤ (after.of vertex).toInt) :
    after.Behind (count + 1) vertex := by
  rcases behind with ⟨others, nodup, length, low⟩
  refine ⟨vertex :: others, List.nodup_cons.2 ⟨?_, nodup⟩, by rw [List.length_cons, length], ?_⟩
  · intro member
    have bound := (low vertex member).2
    omega
  · intro other member
    rw [sunk.size]
    rcases List.mem_cons.1 member with rfl | inOthers
    · exact ⟨inside, Int.le_refl _⟩
    · have bound := low other inOthers
      have lower := sunk.sinks other
      exact ⟨bound.1, by omega⟩

end Labels

namespace Scan

variable {shard : Shard}

theorem mem_edges (scan : Scan shard) (edge : Edge) :
    edge ∈ scan.edges ↔ shard.get? edge.src edge.dst = some edge.attrs :=
  scan.edges_perm.mem_iff.trans (shard.mem_edges edge)

theorem mem_outEdges (scan : Scan shard) (src dst : VertexId) (attrs : Attrs) :
    (dst, attrs) ∈ scan.outEdges src ↔ shard.get? src dst = some attrs :=
  (scan.outEdges_perm src).mem_iff.trans (shard.mem_outEdges src dst attrs)

/-- Vertices that are all different have no more edges than there are. -/
theorem length_flatMap_outEdges (scan : Scan shard) {vertices : List VertexId}
    (nodup : vertices.Nodup) : (vertices.flatMap scan.outEdges).length ≤ shard.edges.length := by
  have same := List.Perm.flatMap_left vertices fun source _ => scan.outEdges_perm source
  rw [same.length_eq]
  exact shard.length_flatMap_outEdges nodup

end Scan

namespace Traversal

/-- A repetition has more rounds than there can be vertices. -/
theorem bound_lt_roundLimit (bound : UInt64) : bound.toNat < Collective.roundLimit := by
  have small := bound.toNat_lt_size
  unfold Collective.roundLimit
  omega

theorem mem_ascending {vertices : List VertexId} {vertex : VertexId} :
    vertex ∈ (vertices.mergeSort fun left right => decide (left ≤ right)).eraseReps ↔
      vertex ∈ vertices := by
  rw [mem_eraseReps, List.mem_mergeSort]

theorem nodup_ascending (vertices : List VertexId) :
    (vertices.mergeSort fun left right => decide (left ≤ right)).eraseReps.Nodup := by
  apply nodup_eraseReps (fun first second before after =>
    UInt64.le_antisymm (of_decide_eq_true before) (of_decide_eq_true after))
  apply List.pairwise_mergeSort
  · intro first second third before after
    exact decide_eq_true (UInt64.le_trans (of_decide_eq_true before) (of_decide_eq_true after))
  · intro first second
    have total := UInt64.le_total first second
    simpa using total

/-- All sources are endpoints, or there is a first that is none. -/
theorem valid_or_outside (bound : UInt64) (sources : List VertexId) :
    (∀ source ∈ sources, source.isEndpoint bound = true) ∨
      ∃ source, sources.find? (fun source => !source.isEndpoint bound) = some source := by
  cases first : sources.find? fun source => !source.isEndpoint bound with
  | none =>
      refine Or.inl fun source member => ?_
      simpa using List.find?_eq_none.1 first source member
  | some source => exact Or.inr ⟨source, rfl⟩

theorem checkSources_of_valid {shard : Shard} {sources : List VertexId}
    (valid : ∀ source ∈ sources, source.isEndpoint shard.bound = true) :
    checkSources shard sources = .ok () := by
  have noneOutside : sources.find? (fun source => !source.isEndpoint shard.bound) = none := by
    simpa using valid
  unfold checkSources
  rw [noneOutside]

theorem checkSources_of_outside {shard : Shard} {sources : List VertexId} {source : VertexId}
    (first : sources.find? (fun source => !source.isEndpoint shard.bound) = some source) :
    checkSources shard sources = .error (.vertexOutOfRange source shard.bound) := by
  unfold checkSources
  rw [first]

end Traversal

/-- Shards on which a stage can run: they are sound and over the same vertices, and the words and
edges of all of them have bytes that a word can count. -/
structure StageReady (bound : UInt64) (shards : Fin size → Shard) : Prop where
  bounded (rank : Fin size) : (shards rank).bound = bound
  sound (rank : Fin size) : (shards rank).Sound
  ranks : size * 16 < UInt64.size
  edges : (∑ rank, (shards rank).edges.length) * 32 < UInt64.size
  vertices : bound.toNat * 8 < UInt64.size

namespace StageReady

variable {bound : UInt64} {shards : Fin size → Shard}

/-- Lists that are no longer than the lists of edges can be gathered. -/
theorem gatherable (ready : StageReady bound shards) {Value : Type} [Record Value]
    (small : Record.size Value ≤ 32) {values : Fin size → List Value}
    (few : ∀ rank, (values rank).length ≤ (shards rank).edges.length) :
    Collective.Gatherable values where
  ranks := by
    have ranks := ready.ranks
    omega
  all := by
    have total : (List.ofFn values).flatten.length ≤ ∑ rank, (shards rank).edges.length := by
      rw [Collective.length_flatten_ofFn]
      exact Finset.sum_le_sum fun rank _ => few rank
    exact lt_of_le_of_lt (Nat.mul_le_mul total small) ready.edges

theorem within (ready : StageReady bound shards) {rank : Fin size} {edge : Edge}
    (member : edge ∈ (shards rank).edges) :
    edge.src.toNat < bound.toNat ∧ edge.dst.toNat < bound.toNat := by
  have stored := ((shards rank).mem_edges edge).1 member
  have allowed := (Shard.allowed_iff ..).1 ((ready.sound rank).allowed _ _ _ stored)
  rw [ready.bounded, VertexId.isEndpoint_iff, VertexId.isEndpoint_iff] at allowed
  exact ⟨allowed.1.2, allowed.2.1.2⟩

/-- All ranks get the proposals of all ranks. -/
theorem together_propose (ready : StageReady bound shards) (inhabited : 0 < size) (tag : Tag)
    (proposals : Fin size → List Proposal)
    (few : ∀ rank, (proposals rank).length ≤ (shards rank).edges.length) :
    Collective.Together (fun rank => Traversal.propose tag (proposals rank))
      fun _ => .ok (List.ofFn proposals).flatten :=
  Collective.together_allgatherFlat inhabited tag proposals (ready.gatherable (by decide) few)

end StageReady

end StreamGraph
