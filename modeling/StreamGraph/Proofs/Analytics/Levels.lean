import StreamGraph.Analytics.Levels
import StreamGraph.Proofs.Analytics.Ways

/-!
The levels of the breadth-first stage. After each round the vertices with a level are those within
as many hops of the sources as there were rounds, and the frontier holds the farthest of them. Each
level takes vertices from those that have none, so the stage ends on all ranks together within as
many rounds as there are vertices; and when the frontier is empty, nothing farther is within reach.
-/

namespace StreamGraph.Levels

open Collective

variable {size : Nat} {bound : UInt64} {shards : Fin size → Shard}
  {scans : (rank : Fin size) → Scan (shards rank)}

/-- How many vertices have no level yet. -/
def waiting (levels : Labels) : Nat := levels.toList.count unreached

theorem waiting_put {levels : Labels} {vertex : VertexId} {level : Int64}
    (inside : vertex.toNat < levels.size) (new : levels.of vertex = unreached)
    (isLevel : level ≠ unreached) : waiting (levels.put vertex level) + 1 = waiting levels := by
  have stored : levels.toList[vertex.toNat] = unreached := by
    rw [Array.getElem_toList]
    unfold Labels.of at new
    rw [Array.getD_eq_getD_getElem?, Array.getElem?_eq_getElem inside] at new
    exact new
  have positive : 0 < levels.toList.count unreached := by
    rw [List.count_pos_iff, ← stored]
    exact List.getElem_mem _
  have notThere : (level == unreached) = false := beq_false_of_ne isLevel
  unfold waiting Labels.put
  rw [Array.toList_setIfInBounds, List.count_set (by simpa using inside), stored, beq_self_eq_true,
    notThere, if_pos rfl, if_neg Bool.false_ne_true, Nat.add_zero]
  exact Nat.sub_add_cancel positive

/-- A vertex of a list that has a slot and no level. -/
def Fresh (search : Search) (vertices : List VertexId) (vertex : VertexId) : Prop :=
  vertex ∈ vertices ∧ vertex.toNat < search.levels.size ∧ search.levels.of vertex = unreached

/-- A search before and after the fresh vertices of a list got a level: each of them has it, is in
the frontier and no longer waits. -/
structure Reached (level : Int64) (vertices : List VertexId) (before after : Search) : Prop where
  counted : waiting after.levels + after.frontier.length =
    waiting before.levels + before.frontier.length
  size : after.levels.size = before.levels.size
  depth : after.depth = before.depth
  given (vertex : VertexId) (fresh : Fresh before vertices vertex) :
    after.levels.of vertex = level
  kept (vertex : VertexId) (notFresh : ¬ Fresh before vertices vertex) :
    after.levels.of vertex = before.levels.of vertex
  frontier (vertex : VertexId) :
    vertex ∈ after.frontier ↔ vertex ∈ before.frontier ∨ Fresh before vertices vertex

theorem reached_nothing (level : Int64) (search : Search) : Reached level [] search search where
  counted := rfl
  size := rfl
  depth := rfl
  given _ fresh := absurd fresh.1 List.not_mem_nil
  kept _ _ := rfl
  frontier vertex := by simp [Fresh]

theorem reached_one (search : Search) (vertex : VertexId) {level : Int64}
    (isLevel : level ≠ unreached) : Reached level [vertex] search (reach search vertex level) := by
  have freshIff : ∀ other, Fresh search [vertex] other ↔
      other = vertex ∧ vertex.toNat < search.levels.size ∧
        search.levels.of vertex = unreached := by
    intro other
    unfold Fresh
    rw [List.mem_singleton]
    constructor
    · rintro ⟨rfl, rest⟩
      exact ⟨rfl, rest⟩
    · rintro ⟨rfl, rest⟩
      exact ⟨rfl, rest⟩
  unfold reach
  split
  · next found =>
      have fewer := waiting_put found.1 found.2 isLevel
      constructor
      · dsimp only
        rw [List.length_append, List.length_singleton]
        omega
      · exact Labels.size_put ..
      · rfl
      · intro other fresh
        rw [((freshIff other).1 fresh).1, Labels.of_put, if_pos ⟨rfl, found.1⟩]
      · intro other notFresh
        have differ : ¬ (vertex = other ∧ vertex.toNat < search.levels.size) :=
          fun same => notFresh ((freshIff other).2 ⟨same.1.symm, found⟩)
        rw [Labels.of_put, if_neg differ]
      · intro other
        rw [freshIff, List.mem_append, List.mem_singleton]
        simp only [found, and_self, and_true]
  · next notFound =>
      have nothingFresh : ∀ other, ¬ Fresh search [vertex] other :=
        fun other fresh => notFound ((freshIff other).1 fresh).2
      exact ⟨rfl, rfl, rfl, fun other fresh => absurd fresh (nothingFresh other), fun _ _ => rfl,
        fun other => by simp [nothingFresh other]⟩

theorem Reached.cons {level : Int64} (isLevel : level ≠ unreached) {vertex : VertexId}
    {vertices : List VertexId} {first second third : Search}
    (one : Reached level [vertex] first second) (others : Reached level vertices second third) :
    Reached level (vertex :: vertices) first third := by
  have split : ∀ other, Fresh first (vertex :: vertices) other ↔
      Fresh first [vertex] other ∨ Fresh first vertices other := by
    intro other
    unfold Fresh
    rw [List.mem_cons, List.mem_singleton, or_and_right]
  have later : ∀ other, Fresh second vertices other ↔
      ¬ Fresh first [vertex] other ∧ Fresh first vertices other := by
    intro other
    unfold Fresh at *
    rw [one.size]
    by_cases fresh : Fresh first [vertex] other
    · rw [one.given other fresh]
      exact ⟨fun both => absurd both.2.2 isLevel, fun both => absurd fresh both.1⟩
    · rw [one.kept other fresh]
      exact ⟨fun both => ⟨fresh, both⟩, fun both => both.2⟩
  constructor
  · exact others.counted.trans one.counted
  · exact others.size.trans one.size
  · exact others.depth.trans one.depth
  · intro other fresh
    by_cases now : Fresh first [vertex] other
    · rw [others.kept other fun again => ((later other).1 again).1 now, one.given other now]
    · exact others.given other
        ((later other).2 ⟨now, ((split other).1 fresh).resolve_left now⟩)
  · intro other notFresh
    have notNow : ¬ Fresh first [vertex] other :=
      fun now => notFresh ((split other).2 (Or.inl now))
    have notLater : ¬ Fresh second vertices other :=
      fun again => notFresh ((split other).2 (Or.inr ((later other).1 again).2))
    rw [others.kept other notLater, one.kept other notNow]
  · intro other
    rw [others.frontier, one.frontier, later, split]
    tauto

/-- The search after all vertices of a list were reached in a level. -/
def reachEach (level : Int64) (search : Search) (vertices : List VertexId) : Search :=
  vertices.foldl (fun search vertex => reach search vertex level) search

theorem reached_each {level : Int64} (isLevel : level ≠ unreached) (search : Search)
    (vertices : List VertexId) :
    Reached level vertices search (reachEach level search vertices) := by
  induction vertices generalizing search with
  | nil => exact reached_nothing level search
  | cons vertex others ih =>
      exact (reached_one search vertex isLevel).cons isLevel (ih (reach search vertex level))

/-- A search that ends within `left` more rounds, and whose depth stays a word until then. -/
structure Deepening (bound : UInt64) (left : Nat) (search : Search) : Prop where
  size : search.levels.size = bound.toNat
  waits : waiting search.levels + (if search.frontier.isEmpty then 0 else 1) ≤ left
  level : 0 ≤ search.depth.toInt
  shallow : search.depth.toInt + left ≤ bound.toNat

theorem waits_of_counted {search : Search} {left : Nat}
    (counted : waiting search.levels + search.frontier.length ≤ left) :
    waiting search.levels + (if search.frontier.isEmpty then 0 else 1) ≤ left := by
  split
  · omega
  · next pending =>
      have positive : 0 < search.frontier.length := by
        rw [List.length_pos_iff]
        simpa using pending
      omega

theorem reached_start (bound : UInt64) (sources : List VertexId) :
    Reached 0 sources ⟨.fill bound unreached, [], 0⟩ (start bound sources) :=
  reached_each (by decide) _ sources

theorem deepening_start (bound : UInt64) (sources : List VertexId) :
    Deepening bound bound.toNat (start bound sources) := by
  have reached := reached_start bound sources
  have all : waiting (Labels.fill bound unreached) = bound.toNat := by
    simp [waiting, Labels.fill]
  have counted := reached.counted
  rw [all, List.length_nil, Nat.add_zero] at counted
  constructor
  · exact reached.size.trans (Labels.size_fill ..)
  · exact waits_of_counted (Nat.le_of_eq counted)
  · rw [reached.depth]
    exact Int.le_refl 0
  · rw [reached.depth]
    exact Int.le_of_eq (Int.zero_add _)

/-- The vertices that some rank finds. -/
def found (scans : (rank : Fin size) → Scan (shards rank)) (search : Search) : List VertexId :=
  (List.ofFn fun rank => discover (scans rank) search).flatten

/-- The search after a round. -/
def deepen (scans : (rank : Fin size) → Scan (shards rank)) (search : Search) : Search :=
  reachEach (search.depth + 1) { search with frontier := [], depth := search.depth + 1 }
    (found scans search)

theorem mem_discover {shard : Shard} {scan : Scan shard} {search : Search} {target : VertexId} :
    target ∈ discover scan search ↔ ∃ source ∈ search.frontier, shard.owns source = true ∧
      (∃ attrs, shard.get? source target = some attrs) ∧
      search.levels.of target = unreached := by
  unfold discover
  dsimp only
  rw [Traversal.mem_ascending]
  simp only [List.mem_flatMap, List.mem_filter, List.mem_filterMap, Option.ite_none_right_eq_some,
    Option.some.injEq]
  constructor
  · rintro ⟨source, ⟨inFrontier, owned⟩, ⟨_, attrs⟩, inRow, new, rfl⟩
    exact ⟨source, inFrontier, owned, ⟨attrs, (scan.mem_outEdges ..).1 inRow⟩, new⟩
  · rintro ⟨source, inFrontier, owned, ⟨attrs, stored⟩, new⟩
    exact ⟨source, ⟨inFrontier, owned⟩, (target, attrs), (scan.mem_outEdges ..).2 stored, new, rfl⟩

/-- The vertices without a level to which an edge leads from the frontier. -/
theorem mem_found (ready : StageReady bound shards) {search : Search} {target : VertexId} :
    target ∈ found scans search ↔ ∃ source ∈ search.frontier,
      (∃ attrs, linksOf shards source target attrs) ∧ search.levels.of target = unreached := by
  unfold found
  rw [mem_flatten_ofFn]
  simp only [mem_discover]
  constructor
  · rintro ⟨rank, source, inFrontier, _, ⟨attrs, stored⟩, new⟩
    exact ⟨source, inFrontier, ⟨attrs, rank, stored⟩, new⟩
  · rintro ⟨source, inFrontier, ⟨attrs, rank, stored⟩, new⟩
    exact ⟨rank, source, inFrontier, ready.owns_of_stored stored, ⟨attrs, stored⟩, new⟩

/-- The depth stays below the number of vertices, so the next one is a word too. -/
theorem Deepening.toInt_next {left : Nat} {search : Search} (ready : StageReady bound shards)
    (deepening : Deepening bound left search) :
    (search.depth + 1).toInt = search.depth.toInt + 1 := by
  have level := deepening.level
  have shallow := deepening.shallow
  have vertices := ready.vertices
  have sizeIs : UInt64.size = 18446744073709551616 := rfl
  have one : (1 : Int64).toInt = 1 := rfl
  rw [Int64.toInt_add, one]
  apply Int.bmod_eq_of_le <;> omega

theorem ne_unreached_of_nonneg {level : Int64} (nonneg : 0 ≤ level.toInt) :
    level ≠ unreached := by
  intro same
  rw [same] at nonneg
  exact absurd nonneg (by decide)

theorem Deepening.reached {left : Nat} {search : Search} (ready : StageReady bound shards)
    (scans : (rank : Fin size) → Scan (shards rank))
    (deepening : Deepening bound left search) :
    Reached (search.depth + 1) (found scans search)
      { search with frontier := [], depth := search.depth + 1 } (deepen scans search) := by
  apply reached_each
  apply ne_unreached_of_nonneg
  have level := deepening.level
  rw [deepening.toInt_next ready]
  omega

theorem Deepening.deepen {left : Nat} {search : Search} (ready : StageReady bound shards)
    (scans : (rank : Fin size) → Scan (shards rank))
    (deepening : Deepening bound left search) (pending : search.frontier.isEmpty = false) :
    0 < left ∧ Deepening bound (left - 1) (Levels.deepen scans search) := by
  have waits := deepening.waits
  rw [pending, if_neg Bool.false_ne_true] at waits
  have level := deepening.level
  have shallow := deepening.shallow
  have next := deepening.toInt_next ready
  have reached := deepening.reached ready scans
  have counted := reached.counted
  dsimp only at counted
  rw [List.length_nil, Nat.add_zero] at counted
  have positive : 0 < left := by omega
  apply And.intro positive
  constructor
  · exact reached.size.trans deepening.size
  · apply waits_of_counted
    omega
  · rw [reached.depth, next]
    omega
  · rw [reached.depth, next]
    omega

/-- A search that has gone so many hops from the sources: the vertices within them have their
distance as their level, the others have none, and the frontier is farthest away. -/
structure Explored (links : Links) (sources : List VertexId) (hops : Nat) (search : Search) :
    Prop where
  depth : search.depth.toInt = hops
  near (vertex : VertexId) (distance : Nat) (within : distance ≤ hops)
    (nearest : links.IsDistance Links.hop sources vertex distance) :
    (search.levels.of vertex).toInt = distance
  far (vertex : VertexId) (inside : vertex.toNat < search.levels.size)
    (farther : ∀ total, links.Way Links.hop sources vertex total → hops < total) :
    search.levels.of vertex = unreached
  frontier (vertex : VertexId) :
    vertex ∈ search.frontier ↔ links.IsDistance Links.hop sources vertex hops

variable {sources : List VertexId}

theorem explored_start (ready : StageReady bound shards)
    (valid : ∀ source ∈ sources, source.isEndpoint bound = true) :
    Explored (linksOf shards) sources 0 (start bound sources) := by
  have reached := reached_start bound sources
  have blank : ∀ vertex : VertexId, vertex.toNat < bound.toNat →
      (Labels.fill bound unreached).of vertex = unreached := by
    intro vertex inside
    simp [Labels.fill, Labels.of, inside]
  have freshIff : ∀ vertex, Fresh ⟨.fill bound unreached, [], 0⟩ sources vertex ↔
      (linksOf shards).IsDistance Links.hop sources vertex 0 := by
    intro vertex
    constructor
    · rintro ⟨member, _⟩
      exact ⟨.start member, fun _ _ => Nat.zero_le _⟩
    · rintro ⟨way, _⟩
      have inside := ready.within_of_way valid way
      cases way with
      | start member =>
          exact ⟨member, by rw [Labels.size_fill]; exact inside, blank vertex inside⟩
  constructor
  · rw [reached.depth]
    rfl
  · intro vertex distance within nearest
    have zero := Nat.le_zero.1 within
    subst zero
    rw [reached.given vertex ((freshIff vertex).2 nearest)]
    rfl
  · intro vertex inside farther
    rw [reached.size, Labels.size_fill] at inside
    rw [reached.kept vertex, blank vertex inside]
    intro fresh
    exact Nat.lt_irrefl 0 (farther 0 ((freshIff vertex).1 fresh).1)
  · intro vertex
    rw [reached.frontier, freshIff]
    simp

/-- A vertex without a level is farther than the search has gone. -/
theorem Explored.lt_of_unreached {links : Links} {hops : Nat} {search : Search}
    (explored : Explored links sources hops search) {vertex : VertexId}
    (new : search.levels.of vertex = unreached) {total : Nat}
    (way : links.Way Links.hop sources vertex total) : hops < total := by
  rcases links.distance_or_beyond Links.hop sources vertex with ⟨distance, nearest⟩ | beyond
  · have shortest : distance ≤ total := nearest.2 way
    by_contra within
    have level := explored.near vertex distance (by omega) nearest
    exact ne_unreached_of_nonneg (by omega) new
  · exact absurd way (beyond _ _)

/-- The vertices that are found are those one hop farther. -/
theorem Explored.mem_found_iff {hops : Nat} {search : Search} (ready : StageReady bound shards)
    (scans : (rank : Fin size) → Scan (shards rank))
    (valid : ∀ source ∈ sources, source.isEndpoint bound = true)
    (sized : search.levels.size = bound.toNat)
    (explored : Explored (linksOf shards) sources hops search) (vertex : VertexId) :
    vertex ∈ found scans search ↔
      (linksOf shards).IsDistance Links.hop sources vertex (hops + 1) := by
  rw [mem_found ready]
  constructor
  · rintro ⟨source, inFrontier, ⟨attrs, link⟩, new⟩
    have nearest := (explored.frontier source).1 inFrontier
    exact ⟨Links.Way.step nearest.1 link, fun total way => explored.lt_of_unreached new way⟩
  · intro nearest
    obtain ⟨last, attrs, before, link⟩ := nearest.before
    refine ⟨last, (explored.frontier last).2 before, ⟨attrs, link⟩, ?_⟩
    apply explored.far vertex
    · rw [sized]
      exact ready.within_of_way valid nearest.1
    · exact fun total way => nearest.2 way

theorem Explored.deepen {left hops : Nat} {search : Search} (ready : StageReady bound shards)
    (valid : ∀ source ∈ sources, source.isEndpoint bound = true)
    (deepening : Deepening bound left search)
    (explored : Explored (linksOf shards) sources hops search) :
    Explored (linksOf shards) sources (hops + 1) (Levels.deepen scans search) := by
  have reached := deepening.reached ready scans
  have next : (search.depth + 1).toInt = ((hops + 1 : Nat) : Int) := by
    rw [deepening.toInt_next ready, explored.depth]
    rfl
  have freshIff : ∀ vertex,
      Fresh { search with frontier := [], depth := search.depth + 1 } (found scans search) vertex ↔
        (linksOf shards).IsDistance Links.hop sources vertex (hops + 1) := by
    intro vertex
    rw [← explored.mem_found_iff ready scans valid deepening.size]
    constructor
    · exact fun fresh => fresh.1
    · intro member
      obtain ⟨_, _, ⟨_, link⟩, new⟩ := (mem_found ready).1 member
      exact ⟨member, by rw [deepening.size]; exact (ready.within_of_link link).2, new⟩
  constructor
  · rw [reached.depth]
    exact next
  · intro vertex distance within nearest
    by_cases new : distance = hops + 1
    · subst new
      rw [reached.given vertex ((freshIff vertex).2 nearest)]
      exact next
    · have known := explored.near vertex distance (by omega) nearest
      rw [reached.kept vertex]
      · exact known
      · rintro ⟨_, _, stillNew⟩
        dsimp only at stillNew
        exact ne_unreached_of_nonneg (by omega) stillNew
  · intro vertex inside farther
    rw [reached.size] at inside
    rw [reached.kept vertex]
    · exact explored.far vertex inside fun total way => Nat.lt_of_succ_lt (farther total way)
    · intro fresh
      exact Nat.lt_irrefl _ (farther _ ((freshIff vertex).1 fresh).1)
  · intro vertex
    rw [reached.frontier, freshIff]
    simp

/-- Every vertex has its distance from the sources in hops as its level, and one that no way from a
source leads to has none. -/
structure HopCounts (links : Links) (bound : UInt64) (sources : List VertexId) (levels : Labels) :
    Prop where
  size : levels.size = bound.toNat
  reached (vertex : VertexId) (distance : Nat)
    (nearest : links.IsDistance Links.hop sources vertex distance) :
    (levels.of vertex).toInt = distance
  beyond (vertex : VertexId) (inside : vertex.toNat < bound.toNat)
    (nowhere : links.IsBeyond sources vertex) : levels.of vertex = -1

theorem HopCounts.unique {links : Links} (first second : Labels)
    (left : HopCounts links bound sources first) (right : HopCounts links bound sources second) :
    first = second := by
  apply Labels.ext_of left.size right.size
  intro vertex inside
  rcases links.distance_or_beyond Links.hop sources vertex with ⟨distance, nearest⟩ | nowhere
  · apply Int64.toInt_inj.1
    rw [left.reached vertex distance nearest, right.reached vertex distance nearest]
  · rw [left.beyond vertex inside nowhere, right.beyond vertex inside nowhere]

/-- When the frontier is empty, no vertex is farther away. -/
theorem Explored.hopCounts {links : Links} {hops : Nat} {search : Search}
    (sized : search.levels.size = bound.toNat) (explored : Explored links sources hops search)
    (quiet : search.frontier = []) : HopCounts links bound sources search.levels where
  size := sized
  reached vertex distance nearest := by
    by_cases within : distance ≤ hops
    · exact explored.near vertex distance within nearest
    · obtain ⟨last, atFrontier⟩ := nearest.exists_nearer (Nat.le_of_not_le within)
      have member := (explored.frontier last).2 atFrontier
      rw [quiet] at member
      cases member
  beyond vertex inside nowhere :=
    explored.far vertex (by rw [sized]; exact inside)
      fun total way => absurd way (nowhere Links.hop total)

theorem length_discover {shard : Shard} (scan : Scan shard) (search : Search) :
    (discover scan search).length ≤ shard.edges.length := by
  have targets : discover scan search ⊆ shard.edges.map Edge.dst := by
    intro target member
    obtain ⟨source, _, _, ⟨attrs, stored⟩, _⟩ := mem_discover.1 member
    exact List.mem_map.2 ⟨⟨source, target, attrs.weight, attrs.timestamp⟩,
      (shard.mem_edges _).2 stored, rfl⟩
  have nodup : (discover scan search).Nodup := Traversal.nodup_ascending _
  have fewer := (nodup.subperm targets).length_le
  rwa [List.length_map] at fewer

theorem together_advance (ready : StageReady bound shards) (inhabited : 0 < size)
    (scans : (rank : Fin size) → Scan (shards rank)) (search : Search) :
    Together (fun rank => advance (scans rank) search) fun _ => .ok
      (if search.frontier.isEmpty then .inr search.levels
        else .inl (deepen scans search)) := by
  cases quiet : search.frontier.isEmpty with
  | true =>
      apply together_answers
      intro rank
      unfold advance
      rw [quiet]
      rfl
  | false =>
      have proposed := ready.together_propose inhabited tag
        (fun rank => (discover (scans rank) search).map fun vertex =>
          (⟨vertex, search.depth + 1⟩ : Proposal)) (by
          intro rank
          rw [List.length_map]
          exact length_discover ..)
      have all : (List.ofFn fun rank => (discover (scans rank) search).map fun vertex =>
          (⟨vertex, search.depth + 1⟩ : Proposal)).flatten =
          (found scans search).map fun vertex => ⟨vertex, search.depth + 1⟩ := by
        rw [found, List.map_flatten, List.map_ofFn]
        rfl
      rw [all] at proposed
      unfold advance
      simp only [quiet]
      apply together_bind proposed
      simp only [List.foldl_map]
      exact together_pure _

/-- On valid sources all ranks find the distances. -/
theorem together_runAlong (ready : StageReady bound shards) (inhabited : 0 < size)
    (scans : (rank : Fin size) → Scan (shards rank))
    (valid : ∀ source ∈ sources, source.isEndpoint bound = true) :
    ∃ levels, HopCounts (linksOf shards) bound sources levels ∧
      Together (fun rank => runAlong (scans rank) sources) fun _ => .ok levels := by
  have begins : Deepening bound bound.toNat (start bound sources) ∧
      ∃ hops, Explored (linksOf shards) sources hops (start bound sources) :=
    ⟨deepening_start bound sources, 0, explored_start ready valid⟩
  obtain ⟨levels, counts, ends⟩ := together_repeatUntil (fun rank => advance (scans rank))
    (fun left search => Deepening bound left search ∧
      ∃ hops, Explored (linksOf shards) sources hops search)
    (HopCounts (linksOf shards) bound sources)
    (by
      rintro left search ⟨deepening, hops, explored⟩
      have round := together_advance ready inhabited scans search
      cases quiet : search.frontier.isEmpty with
      | true =>
          rw [quiet, if_pos rfl] at round
          exact Or.inl ⟨search.levels,
            explored.hopCounts deepening.size (List.isEmpty_iff.1 quiet), round⟩
      | false =>
          rw [quiet, if_neg Bool.false_ne_true] at round
          have deeper := deepening.deepen ready scans quiet
          exact Or.inr ⟨_, left - 1, by omega,
            ⟨deeper.2, hops + 1, explored.deepen ready valid deepening⟩, round⟩)
    begins (Traversal.bound_lt_roundLimit bound)
  refine ⟨levels, counts, ?_⟩
  have accepted : ∀ rank, Traversal.checkSources (shards rank) sources = .ok () :=
    fun rank => Traversal.checkSources_of_valid (by rw [ready.bounded]; exact valid)
  unfold runAlong
  simp only [accepted, ready.bounded]
  exact ends

/-- The first source that is no endpoint is refused before anything is said. -/
theorem runAlong_of_outside {shard : Shard} (scan : Scan shard) {source : VertexId}
    (first : sources.find? (fun source => !source.isEndpoint shard.bound) = some source) :
    (runAlong scan sources).run = .done (.error (.vertexOutOfRange source shard.bound)) := by
  unfold runAlong
  rw [Traversal.checkSources_of_outside first]
  rfl

theorem alike_runAlong (ready : StageReady bound shards) (inhabited : 0 < size)
    (scans : (rank : Fin size) → Scan (shards rank)) (sources : List VertexId) :
    Alike fun rank => runAlong (scans rank) sources := by
  rcases Traversal.valid_or_outside bound sources with valid | ⟨source, first⟩
  · obtain ⟨levels, _, ends⟩ := together_runAlong ready inhabited scans valid
    exact alike_answer ends
  · refine ⟨_, .refusal (.vertexOutOfRange source bound) trivial, together_answers fun rank => ?_⟩
    rw [← ready.bounded rank] at first ⊢
    exact runAlong_of_outside (scans rank) first

theorem finds_runAlong (valid : ∀ source ∈ sources, source.isEndpoint bound = true) :
    Shard.Finds bound (fun scan => runAlong scan sources)
      fun links levels => HopCounts links bound sources levels :=
  fun _ _ ready inhabited scans => together_runAlong ready inhabited scans valid

/-- From valid sources, every group that holds a graph settles with the distances in hops as levels.
If a source is no endpoint, every rank refuses the first such source before anything is said. -/
theorem levels_are_hop_distances {graph : Shard} (sound : graph.Sound)
    (edges : graph.edgeCount * 32 < UInt64.size) (vertices : graph.bound.toNat * 8 < UInt64.size)
    (sources : List VertexId) :
    ((∀ source ∈ sources, source.isEndpoint graph.bound = true) →
      ∃ levels, HopCounts graph.links graph.bound sources levels ∧
        graph.SettlesEverywhere (fun scan => runAlong scan sources) levels) ∧
    ∀ source, sources.find? (fun source => !source.isEndpoint graph.bound) = some source →
      ∀ (size : Nat) (partition : Partition) (parts : Fin size → Shard),
        graph.Hosted partition parts →
          ∀ (scans : (rank : Fin size) → Scan (parts rank)) (rank : Fin size),
            (runAlong (scans rank) sources).run =
              .done (.error (.vertexOutOfRange source graph.bound)) := by
  constructor
  · intro valid
    have found := finds_runAlong valid
    obtain ⟨levels, counts⟩ := Shard.exists_good found sound edges vertices
    exact ⟨levels, counts,
      Shard.settlesEverywhere found HopCounts.unique edges vertices counts⟩
  · intro source first size partition parts hosted scans rank
    rw [← hosted.divided.bounded rank] at first ⊢
    exact runAlong_of_outside (scans rank) first

open Shard in
theorem islands_have_levels :
    (∃ levels, levels.size = 7 ∧ (levels.of 4).toInt = 2 ∧ levels.of 6 = -1 ∧
      (Plan.group fun rank : Fin 3 =>
        (run (twoIslands.cut (.cyclic 3) rank) [2, 1, 2]).run).Settles
        (List.ofFn fun _ : Fin 3 => .ok levels) ∧
      (Plan.group fun rank : Fin 2 =>
        (run (twoIslands.cut (.block 2 7) rank) [2, 1, 2]).run).Settles
        (List.ofFn fun _ : Fin 2 => .ok levels)) ∧
    ∀ rank : Fin 2, (run (twoIslands.cut (.block 2 7) rank) [2, 7, 0]).run =
      .done (.error (.vertexOutOfRange 7 7)) := by
  constructor
  · obtain ⟨levels, counts, everywhere⟩ :=
      (levels_are_hop_distances sound_twoIslands (by decide) (by decide) [2, 1, 2]).1
        (List.all_eq_true.1 (by decide))
    refine ⟨levels, counts.size, counts.reached 4 2 ?_,
      counts.beyond 6 (by decide) (beyond_six (by decide)),
      everywhere _ _ _ hosted_threeCyclic fun _ => .ascending _,
      everywhere _ _ _ hosted_twoBlocks fun _ => .ascending _⟩
    · have first : twoIslands.links 2 3 ⟨1, 3⟩ := by decide
      have second : twoIslands.links 3 4 ⟨9223372036854775807, 4⟩ := by decide
      refine ⟨((Links.Way.start (by decide)).step first).step second, fun total way => ?_⟩
      cases way with
      | start member => exact absurd member (by decide)
      | step before link =>
          have same : ∀ edge ∈ islandEdges, edge.dst = 4 → edge.src = 3 := by decide
          obtain rfl := same _ (mem_islandEdges link) rfl
          cases before with
          | start member => exact absurd member (by decide)
          | step => exact Nat.le_add_left ..
  · exact fun rank => (levels_are_hop_distances sound_twoIslands (by decide) (by decide)
      [2, 7, 0]).2 7 (by decide) _ _ _ hosted_twoBlocks (fun _ => .ascending _) rank

end StreamGraph.Levels
