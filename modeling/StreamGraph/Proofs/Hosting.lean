import StreamGraph.Proofs.Division

/-!
Groups that hold a graph. What the whole group is asked about is one graph, of which every rank has
the edges whose source it owns; the number of ranks and the sharing of the vertices are left open.
Every graph can be held by every group, and sound shards that share the vertices always hold one:
the graph of all their edges.
-/

namespace StreamGraph

/-- The edges of a graph, with what they carry. -/
abbrev Links := VertexId → VertexId → Attrs → Prop

/-- The vertices that edges lead to from a vertex. -/
def Links.targets (links : Links) (src : VertexId) : Set VertexId :=
  {dst | ∃ attrs, links src dst attrs}

namespace Shard

/-- The edges of one shard. -/
def links (shard : Shard) : Links := fun src dst attrs => shard.get? src dst = some attrs

instance (shard : Shard) (src dst : VertexId) (attrs : Attrs) :
    Decidable (shard.links src dst attrs) :=
  inferInstanceAs (Decidable (shard.get? src dst = some attrs))

variable {size : Nat} {graph : Shard} {partition : Partition} {parts : Fin size → Shard}

/-- A group holds a graph: each rank has the edges whose source it owns, and there are no more
ranks than a word can count the bytes of their messages. -/
structure Hosted (graph : Shard) (partition : Partition) (parts : Fin size → Shard) : Prop where
  inhabited : 0 < size
  ranks : size * 16 < UInt64.size
  owners : partition.parts = size
  divided : Divided partition graph parts

/-- Whether a rank owns the source of an edge. -/
def ownedBy (partition : Partition) (rank : Nat) (key : EdgeKey) (_ : Attrs) : Bool :=
  partition.owner key.1 == rank

/-- What a rank holds of a graph. -/
def cut (graph : Shard) (partition : Partition) (rank : Nat) : Shard :=
  { (graph.retain (ownedBy partition rank)).2 with rank, partition }

theorem get?_cut (graph : Shard) (partition : Partition) (rank : Nat) (src dst : VertexId) :
    (graph.cut partition rank).get? src dst =
      if partition.owner src = rank then graph.get? src dst else none := by
  refine (graph.get?_retain (ownedBy partition rank) src dst).trans ?_
  cases graph.get? src dst with
  | none => simp
  | some attrs => simp [Option.filter, ownedBy]

theorem Sound.cut (sound : graph.Sound) (partition : Partition) (rank : Nat) :
    (graph.cut partition rank).Sound where
  rows := (sound.retain (ownedBy partition rank)).rows
  counted := (sound.retain (ownedBy partition rank)).counted
  allowed src dst attrs stored := by
    rw [get?_cut] at stored
    split at stored
    · next own =>
        have allowed := (allowed_iff ..).1 (sound.allowed src dst attrs stored)
        exact (allowed_iff ..).2 ⟨allowed.1, allowed.2.1, own⟩
    · cases stored

/-- Every group can hold every graph. -/
theorem hosted_cut (sound : graph.Sound) (inhabited : 0 < size) (ranks : size * 16 < UInt64.size)
    (owners : partition.parts = size) :
    Hosted graph partition fun rank : Fin size => graph.cut partition rank where
  inhabited := inhabited
  ranks := ranks
  owners := owners
  divided :=
    { sound
      soundPart := fun rank => sound.cut partition rank
      numbered := fun _ => rfl
      sharing := fun _ => rfl
      bounded := fun _ => rfl
      stored := fun rank => graph.get?_cut partition rank }

/-- The graph on one rank. -/
theorem hosted_alone (sound : graph.Sound) :
    Hosted graph (.cyclic 1) fun rank : Fin 1 => graph.cut (.cyclic 1) rank :=
  hosted_cut sound Nat.one_pos (by decide) rfl

namespace Hosted

theorem owner_lt (hosted : Hosted graph partition parts) (vertex : VertexId) :
    partition.owner vertex < size := by
  have inside := Partition.owner_lt (hosted.owners ▸ hosted.inhabited) vertex
  rwa [hosted.owners] at inside

end Hosted

/-- The graph of some edges; of two edges with the same ends it has the later one. -/
def ofEdges (bound : UInt64) (edges : List Edge) : Shard := edges.foldl put (unshared bound)

theorem samePlace_ofEdges (bound : UInt64) (edges : List Edge) :
    SamePlace (unshared bound) (ofEdges bound edges) := by
  have keeps : ∀ shard : Shard, SamePlace shard (edges.foldl put shard) := by
    induction edges with
    | nil => exact SamePlace.refl
    | cons edge others ih => exact fun shard => (samePlace_put shard edge).trans (ih _)
  exact keeps _

theorem sound_ofEdges {bound : UInt64} {edges : List Edge}
    (within : ∀ edge ∈ edges, edge.isWithin bound = true) : (ofEdges bound edges).Sound := by
  have keeps : ∀ shard : Shard, shard.Sound → SamePlace (unshared bound) shard →
      (edges.foldl put shard).Sound := by
    induction edges with
    | nil => exact fun _ sound _ => sound
    | cons edge others ih =>
        intro shard sound place
        have ends := within edge (List.mem_cons_self ..)
        rw [Edge.isWithin, Bool.and_eq_true] at ends
        have allowed : shard.Allowed edge.src edge.dst :=
          (place.allowed_iff ..).2 ((allowed_iff ..).2 ⟨ends.1, ends.2, Nat.mod_one _⟩)
        exact ih (fun other member => within other (List.mem_cons_of_mem _ member)) _
          (sound.put allowed) (place.trans (samePlace_put shard edge))
  exact keeps _ (sound_empty ..) (SamePlace.refl _)

/-- Edges that agree with a table make a graph that agrees with it wherever they are. -/
theorem get?_ofEdges {bound : UInt64} {edges : List Edge} {table : EdgeKey → Option Attrs}
    (agree : ∀ edge ∈ edges, table edge.key = some edge.attrs) (src dst : VertexId) :
    (ofEdges bound edges).get? src dst =
      if (src, dst) ∈ edges.map Edge.key then table (src, dst) else none := by
  have keeps : ∀ shard : Shard, (edges.foldl put shard).get? src dst =
      if (src, dst) ∈ edges.map Edge.key then table (src, dst) else shard.get? src dst := by
    induction edges with
    | nil => simp
    | cons edge others ih =>
        intro shard
        rw [List.foldl_cons, ih fun other member => agree other (List.mem_cons_of_mem _ member),
          get?_put, List.map_cons]
        by_cases here : edge.key = (src, dst)
        · have attrs := agree edge (List.mem_cons_self ..)
          rw [here] at attrs
          simp [here, attrs]
        · simp [here, Ne.symm here]
  exact keeps _

/-- Sound shards over the same vertices, which are shared among them by one rule. -/
structure Sharded (partition : Partition) (bound : UInt64) (parts : Fin size → Shard) : Prop where
  inhabited : 0 < size
  ranks : size * 16 < UInt64.size
  owners : partition.parts = size
  sound (rank : Fin size) : (parts rank).Sound
  numbered (rank : Fin size) : (parts rank).rank = rank
  sharing (rank : Fin size) : (parts rank).partition = partition
  bounded (rank : Fin size) : (parts rank).bound = bound

/-- The edges of all ranks. -/
def gathered (parts : Fin size → Shard) : List Edge :=
  (List.ofFn fun rank => (parts rank).edges).flatten

theorem mem_gathered {edge : Edge} :
    edge ∈ gathered parts ↔ ∃ rank, (parts rank).get? edge.src edge.dst = some edge.attrs := by
  rw [gathered, Collective.mem_flatten_ofFn]
  simp only [mem_edges]

/-- What the owner of the source has for a pair of endpoints. -/
def atOwner (partition : Partition) (parts : Fin size → Shard) (key : EdgeKey) : Option Attrs :=
  if inside : partition.owner key.1 < size then
    (parts ⟨partition.owner key.1, inside⟩).get? key.1 key.2
  else none

theorem atOwner_eq {rank : Fin size} {src : VertexId} (own : partition.owner src = rank)
    (dst : VertexId) : atOwner partition parts (src, dst) = (parts rank).get? src dst := by
  unfold atOwner
  simp [own]

namespace Sharded

variable {bound : UInt64}

theorem owned (sharded : Sharded partition bound parts) {rank : Fin size} {src dst : VertexId}
    {attrs : Attrs} (stored : (parts rank).get? src dst = some attrs) :
    partition.owner src = rank ∧ src.isEndpoint bound = true ∧ dst.isEndpoint bound = true := by
  have allowed := (allowed_iff ..).1 ((sharded.sound rank).allowed src dst attrs stored)
  rw [sharded.sharing, sharded.numbered, sharded.bounded] at allowed
  exact ⟨allowed.2.2, allowed.1, allowed.2.1⟩

theorem agree_gathered (sharded : Sharded partition bound parts) (edge : Edge)
    (member : edge ∈ gathered parts) : atOwner partition parts edge.key = some edge.attrs := by
  obtain ⟨rank, stored⟩ := mem_gathered.1 member
  exact (atOwner_eq (sharded.owned stored).1 edge.dst).trans stored

/-- The shards are the parts of the graph of all their edges. -/
theorem hosted (sharded : Sharded partition bound parts) :
    Hosted (ofEdges bound (gathered parts)) partition parts where
  inhabited := sharded.inhabited
  ranks := sharded.ranks
  owners := sharded.owners
  divided :=
    { sound := by
        apply sound_ofEdges
        intro edge member
        obtain ⟨rank, stored⟩ := mem_gathered.1 member
        rw [Edge.isWithin, Bool.and_eq_true]
        exact (sharded.owned stored).2
      soundPart := sharded.sound
      numbered := sharded.numbered
      sharing := sharded.sharing
      bounded := fun rank =>
        (sharded.bounded rank).trans (samePlace_ofEdges bound (gathered parts)).bound.symm
      stored := fun rank src dst => by
        rw [get?_ofEdges sharded.agree_gathered]
        cases stored : (parts rank).get? src dst with
        | none =>
            split
            · next own => rw [atOwner_eq own, stored, ite_self]
            · rfl
        | some attrs =>
            have own := (sharded.owned stored).1
            have known : (src, dst) ∈ (gathered parts).map Edge.key :=
              List.mem_map.2 ⟨⟨src, dst, attrs.weight, attrs.timestamp⟩,
                mem_gathered.2 ⟨rank, stored⟩, rfl⟩
            rw [if_pos own, if_pos known, atOwner_eq own, stored] }

end Sharded

/-- Two islands: one with a way back, a detour and a very long edge, and one of two vertices. -/
def islandEdges : List Edge :=
  [⟨1, 2, -5, 0⟩, ⟨1, 3, 4, 2⟩, ⟨2, 1, 0, 1⟩, ⟨2, 3, 1, 3⟩, ⟨3, 4, 9223372036854775807, 4⟩,
    ⟨6, 5, 2, 5⟩]

def twoIslands : Shard := .ofEdges 7 islandEdges

theorem sound_twoIslands : twoIslands.Sound := sound_ofEdges (by decide)

theorem mem_islandEdges {src dst : VertexId} {attrs : Attrs}
    (link : twoIslands.links src dst attrs) :
    ⟨src, dst, attrs.weight, attrs.timestamp⟩ ∈ islandEdges := by
  have same : twoIslands.edges = islandEdges := rfl
  rw [← same]
  exact (twoIslands.mem_edges _).2 link

theorem hosted_threeCyclic : twoIslands.Hosted (.cyclic 3)
    fun rank : Fin 3 => twoIslands.cut (.cyclic 3) rank :=
  hosted_cut sound_twoIslands (by decide) (by decide) rfl

theorem hosted_twoBlocks : twoIslands.Hosted (.block 2 7)
    fun rank : Fin 2 => twoIslands.cut (.block 2 7) rank :=
  hosted_cut sound_twoIslands (by decide) (by decide) rfl

end Shard

end StreamGraph
