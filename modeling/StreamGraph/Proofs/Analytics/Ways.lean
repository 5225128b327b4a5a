import Mathlib.Order.Bounds.Basic
import StreamGraph.Proofs.Analytics.Traversal
import StreamGraph.Proofs.Hosting

/-!
Ways through a graph. What the stages answer is a matter of the edges of a graph alone: of the
ways that lead along them, and of how long these are. A graph that is divided among a group has
the same ways as one that is held in one place, so an answer that its ways determine is the same
for every group, every sharing of the vertices and every order of the edges. A graph is taken to
fit into memory: a word can count the bytes of its edges and those of one word for each vertex.
-/

namespace StreamGraph

namespace Links

/-- There is a way from one of the sources to a vertex whose edges are that long together. -/
inductive Way (links : Links) (length : Attrs → Nat) (sources : List VertexId) :
    VertexId → Nat → Prop
  | start {source : VertexId} (member : source ∈ sources) : Way links length sources source 0
  | step {last next : VertexId} {total : Nat} {attrs : Attrs}
      (way : Way links length sources last total) (link : links last next attrs) :
      Way links length sources next (total + length attrs)

/-- That long is the shortest way from one of the sources to a vertex. -/
def IsDistance (links : Links) (length : Attrs → Nat) (sources : List VertexId)
    (vertex : VertexId) (distance : Nat) : Prop :=
  IsLeast {total | links.Way length sources vertex total} distance

/-- No way leads from any of the sources to a vertex. -/
def IsBeyond (links : Links) (sources : List VertexId) (vertex : VertexId) : Prop :=
  ∀ length total, ¬ links.Way length sources vertex total

variable {links : Links} {length : Attrs → Nat} {sources : List VertexId} {vertex : VertexId}

/-- Where a way leads does not depend on how its edges are measured. -/
theorem Way.remeasured {total : Nat} (way : links.Way length sources vertex total)
    (other : Attrs → Nat) : ∃ measured, links.Way other sources vertex measured := by
  induction way with
  | start member => exact ⟨0, .start member⟩
  | step _ link ih =>
      obtain ⟨measured, same⟩ := ih
      exact ⟨_, same.step link⟩

/-- Every vertex has a distance from the sources or lies beyond them. -/
theorem distance_or_beyond (links : Links) (length : Attrs → Nat) (sources : List VertexId)
    (vertex : VertexId) : (∃ distance, links.IsDistance length sources vertex distance) ∨
      links.IsBeyond sources vertex := by
  classical
  by_cases reached : ∃ total, links.Way length sources vertex total
  · refine Or.inl ⟨Nat.find reached, Nat.find_spec reached, fun total way => ?_⟩
    exact Nat.find_min' reached way
  · refine Or.inr fun other total way => reached ?_
    exact way.remeasured length

/-- One edge, whatever it carries. -/
def hop (_ : Attrs) : Nat := 1

/-- The last edge of a way of fewest edges comes from a vertex one edge nearer. -/
theorem IsDistance.before {hops : Nat} (nearest : links.IsDistance hop sources vertex (hops + 1)) :
    ∃ last attrs, links.IsDistance hop sources last hops ∧ links last vertex attrs := by
  have way : links.Way hop sources vertex (hops + 1) := nearest.1
  cases way with
  | step way link =>
      refine ⟨_, _, ⟨way, fun total other => ?_⟩, link⟩
      exact Nat.le_of_succ_le_succ (nearest.2 (Way.step other link))

/-- On the way to a vertex there are vertices at all smaller distances. -/
theorem IsDistance.exists_nearer {hops : Nat}
    (nearest : links.IsDistance hop sources vertex hops) {fewer : Nat} (less : fewer ≤ hops) :
    ∃ nearer, links.IsDistance hop sources nearer fewer := by
  induction hops generalizing vertex with
  | zero => exact ⟨vertex, Nat.le_zero.1 less ▸ nearest⟩
  | succ hops ih =>
      rcases Nat.lt_or_eq_of_le less with below | same
      · obtain ⟨last, _, before, _⟩ := nearest.before
        exact ih before (Nat.le_of_lt_succ below)
      · exact ⟨vertex, same ▸ nearest⟩

/-- Edges between two vertices, in either direction. -/
def Joined (links : Links) (first second : VertexId) : Prop :=
  ∃ attrs, links first second attrs ∨ links second first attrs

theorem Joined.symm {first second : VertexId} (joined : links.Joined first second) :
    links.Joined second first := by
  obtain ⟨attrs, link⟩ := joined
  exact ⟨attrs, link.symm⟩

/-- Two vertices are in the same component, if the direction of edges does not matter. -/
def Connected (links : Links) : VertexId → VertexId → Prop :=
  Relation.ReflTransGen links.Joined

theorem Connected.symm {first second : VertexId} (connected : links.Connected first second) :
    links.Connected second first := by
  induction connected with
  | refl => exact .refl
  | tail _ joined ih => exact .head joined.symm ih

end Links

/-- The edges of all shards of a group. -/
def linksOf {size : Nat} (shards : Fin size → Shard) : Links :=
  fun src dst attrs => ∃ rank, (shards rank).links src dst attrs

namespace StageReady

variable {size : Nat} {bound : UInt64} {shards : Fin size → Shard}

theorem within_of_link (ready : StageReady bound shards) {src dst : VertexId} {attrs : Attrs}
    (link : linksOf shards src dst attrs) :
    src.toNat < bound.toNat ∧ dst.toNat < bound.toNat := by
  obtain ⟨rank, stored⟩ := link
  have member := ((shards rank).mem_edges ⟨src, dst, attrs.weight, attrs.timestamp⟩).2 stored
  exact ready.within member

/-- Ways from endpoints lead to vertices that have a slot. -/
theorem within_of_way (ready : StageReady bound shards) {length : Attrs → Nat}
    {sources : List VertexId} (valid : ∀ source ∈ sources, source.isEndpoint bound = true)
    {vertex : VertexId} {total : Nat} (way : (linksOf shards).Way length sources vertex total) :
    vertex.toNat < bound.toNat := by
  cases way with
  | start member => exact ((VertexId.isEndpoint_iff ..).1 (valid _ member)).2
  | step _ link => exact (ready.within_of_link link).2

/-- A rank that holds an edge owns its source. -/
theorem owns_of_stored (ready : StageReady bound shards) {rank : Fin size} {src dst : VertexId}
    {attrs : Attrs} (stored : (shards rank).get? src dst = some attrs) :
    (shards rank).owns src = true := by
  have allowed := (Shard.allowed_iff ..).1 ((ready.sound rank).allowed src dst attrs stored)
  exact beq_iff_eq.2 allowed.2.2

end StageReady

namespace Shard

variable {size : Nat} {graph : Shard} {partition : Partition} {parts : Fin size → Shard}

namespace Hosted

/-- The ranks together have the edges of the graph, and no others. -/
theorem linksOf_eq (hosted : Hosted graph partition parts) : linksOf parts = graph.links := by
  funext src dst attrs
  apply propext
  unfold linksOf links
  simp only [hosted.divided.stored]
  constructor
  · rintro ⟨rank, stored⟩
    split at stored
    · exact stored
    · cases stored
  · intro stored
    exact ⟨⟨partition.owner src, hosted.owner_lt src⟩, by rw [if_pos rfl]; exact stored⟩

theorem stageReady (hosted : Hosted graph partition parts)
    (edges : graph.edgeCount * 32 < UInt64.size) (vertices : graph.bound.toNat * 8 < UInt64.size) :
    StageReady graph.bound parts where
  bounded := hosted.divided.bounded
  sound := hosted.divided.soundPart
  ranks := hosted.ranks
  edges := by
    have counts : ∀ rank, (parts rank).edges.length = (parts rank).edgeCount :=
      fun rank => (hosted.divided.soundPart rank).length_edges
    simp only [counts, hosted.divided.sum_edgeCount hosted.owners hosted.inhabited]
    exact edges
  vertices := vertices

end Hosted

variable {Answer : Type} {program : {shard : Shard} → Scan shard → Collective Answer}
  {good : Links → Answer → Prop}

/-- Every group that holds the graph settles with the answer, in whatever order its ranks come
across their edges. -/
def SettlesEverywhere (graph : Shard) (program : {shard : Shard} → Scan shard → Collective Answer)
    (answer : Answer) : Prop :=
  ∀ (size : Nat) (partition : Partition) (parts : Fin size → Shard),
    graph.Hosted partition parts → ∀ scans : (rank : Fin size) → Scan (parts rank),
      (Plan.group fun rank => (program (scans rank)).run).Settles
        (List.ofFn fun _ : Fin size => .ok answer)

/-- All ranks find an answer that is good for the edges of the group, wherever these are. -/
def Finds (bound : UInt64) (program : {shard : Shard} → Scan shard → Collective Answer)
    (good : Links → Answer → Prop) : Prop :=
  ∀ (size : Nat) (shards : Fin size → Shard), StageReady bound shards → 0 < size →
    ∀ scans : (rank : Fin size) → Scan (shards rank), ∃ answer, good (linksOf shards) answer ∧
      Collective.Together (fun rank => program (scans rank)) fun _ => .ok answer

/-- What every group finds is there to be found. -/
theorem exists_good (found : Finds graph.bound program good) (sound : graph.Sound)
    (edges : graph.edgeCount * 32 < UInt64.size)
    (vertices : graph.bound.toNat * 8 < UInt64.size) : ∃ answer, good graph.links answer := by
  have alone := hosted_alone sound
  obtain ⟨answer, isGood, _⟩ := found 1 _ (alone.stageReady edges vertices) Nat.one_pos
    fun rank => .ascending (graph.cut (.cyclic 1) rank)
  rw [alone.linksOf_eq] at isGood
  exact ⟨answer, isGood⟩

/-- Where only one answer is good for a graph, every group settles with it. -/
theorem settlesEverywhere (found : Finds graph.bound program good)
    (unique : ∀ first second, good graph.links first → good graph.links second → first = second)
    (edges : graph.edgeCount * 32 < UInt64.size) (vertices : graph.bound.toNat * 8 < UInt64.size)
    {answer : Answer} (isGood : good graph.links answer) :
    graph.SettlesEverywhere program answer := by
  intro size partition parts hosted scans
  obtain ⟨other, alsoGood, together⟩ :=
    found size parts (hosted.stageReady edges vertices) hosted.inhabited scans
  rw [hosted.linksOf_eq] at alsoGood
  rw [unique answer other isGood alsoGood]
  exact Plan.lockstep_settles hosted.inhabited together

/-- No edge leads to vertex six. -/
theorem beyond_six {sources : List VertexId} (elsewhere : 6 ∉ sources) :
    twoIslands.links.IsBeyond sources 6 := by
  have noneTo : ∀ edge ∈ islandEdges, edge.dst ≠ 6 := by decide
  intro length total way
  cases way with
  | start member => exact elsewhere member
  | step _ link => exact noneTo _ (mem_islandEdges link) rfl

end Shard

end StreamGraph
