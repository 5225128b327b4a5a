import StreamGraph.Proofs.Cluster.Growth

/-!
What a group counts. Every edge is held by the owner of its source, so the edges and the sources of
the whole group are those of its ranks added up, and a vertex has all its outgoing edges in one
place. The collective queries add up, or take the maximum, of what the ranks tell about themselves;
on every rank they answer with the numbers of the whole, as long as a word can hold these.
-/

namespace StreamGraph

open Relation Collective

variable {generator : Generator} {size : Nat}

/-- Parts that share nothing are together as many as each for itself. -/
theorem ncard_of_owned {Key : Type} [DecidableEq Key] (owner : Key → Nat)
    {parts : Fin size → Finset Key} (owned : ∀ rank, ∀ key ∈ parts rank, owner key = rank) :
    {key | ∃ rank, key ∈ parts rank}.ncard = ∑ rank, (parts rank).card := by
  have whole : {key | ∃ rank, key ∈ parts rank} = (Finset.univ.biUnion parts : Set Key) := by
    ext key
    simp
  rw [whole, Set.ncard_coe_finset]
  apply Finset.card_biUnion
  intro first _ second _ different
  apply Finset.disjoint_left.2
  intro key inFirst inSecond
  exact different (Fin.ext ((owned first key inFirst).symm.trans (owned second key inSecond)))

theorem foldl_maximum_of_top {values : List UInt64} {top : UInt64}
    (only : ∀ value ∈ values, value = 0 ∨ value = top) :
    values.foldl (fun left right => if left < right then right else left) top = top := by
  induction values with
  | nil => rfl
  | cons value values ih =>
      have stays : (if top < value then value else top) = top := by
        rcases only value (List.mem_cons_self ..) with rfl | rfl
        · exact if_neg UInt64.not_lt_zero
        · exact if_neg (UInt64.lt_irrefl value)
      rw [List.foldl_cons, stays]
      exact ih fun other member => only other (List.mem_cons_of_mem _ member)

/-- The maximum of words that are zero but for one number is that number. -/
theorem foldl_maximum {values : List UInt64} {top : UInt64}
    (only : ∀ value ∈ values, value = 0 ∨ value = top) (there : top ∈ values) :
    values.foldl (fun left right => if left < right then right else left) 0 = top := by
  induction values with
  | nil => cases there
  | cons value values ih =>
      have onlyLater : ∀ other ∈ values, other = 0 ∨ other = top := fun other member =>
        only other (List.mem_cons_of_mem _ member)
      have first : (if 0 < value then value else 0) = value := by
        by_cases zero : value = 0
        · rw [zero]
          rfl
        · exact if_pos (UInt64.pos_iff_ne_zero.2 zero)
      rw [List.foldl_cons, first]
      rcases only value (List.mem_cons_self ..) with rfl | rfl
      · rcases List.mem_cons.1 there with rfl | later
        · exact foldl_maximum_of_top onlyLater
        · exact ih onlyLater later
      · exact foldl_maximum_of_top onlyLater

namespace ClusterGraph

/-- The pairs of endpoints that some rank holds. -/
def held (graphs : Fin size → ClusterGraph generator) : Set EdgeKey :=
  {key | ∃ rank, ((graphs rank).shard.entries key).isSome = true}

/-- The vertices with an outgoing edge on some rank. -/
def heldSources (graphs : Fin size → ClusterGraph generator) : Set VertexId :=
  {src | ∃ dst, (src, dst) ∈ held graphs}

/-- The ends of the edges that leave a vertex, on whatever rank. -/
def leaving (graphs : Fin size → ClusterGraph generator) (src : VertexId) : Set VertexId :=
  {dst | (src, dst) ∈ held graphs}

/-- The queries answer on all ranks with the numbers of the whole group, and no vertex has edges on
two ranks. -/
structure Counted (graphs : Fin size → ClusterGraph generator) : Prop where
  vertices : (Plan.group fun rank => (Query.vertexCount (graphs rank).shard).run).Settles
    (List.ofFn fun _ : Fin size => .ok (UInt64.ofNat (heldSources graphs).ncard))
  edges : (Plan.group fun rank => (Query.edgeCount (graphs rank).shard).run).Settles
    (List.ofFn fun _ : Fin size => .ok (UInt64.ofNat (held graphs).ncard))
  degree (vertex : VertexId) :
    (Plan.group fun rank => (Query.degree (graphs rank).shard vertex).run).Settles
      (List.ofFn fun _ : Fin size => .ok (UInt64.ofNat (leaving graphs vertex).ncard))
  single (vertex : VertexId) (first second : Fin size)
    (inFirst : Query.localDegree (graphs first).shard vertex ≠ 0)
    (inSecond : Query.localDegree (graphs second).shard vertex ≠ 0) : first = second

variable {partition : Partition} {bound : UInt64} {graphs : Fin size → ClusterGraph generator}

namespace Aligned

/-- An edge is on the rank that owns its source. -/
theorem owner_of_stored (aligned : Aligned partition bound graphs)
    (sound : ∀ rank, (graphs rank).shard.Sound) {rank : Fin size} {key : EdgeKey}
    (stored : ((graphs rank).shard.entries key).isSome = true) : partition.owner key.1 = rank := by
  rcases Option.isSome_iff_exists.1 stored with ⟨attrs, found⟩
  have allowed := (Shard.allowed_iff ..).1 ((sound rank).allowed _ _ attrs found)
  rw [(aligned rank).sharing, (aligned rank).numbered] at allowed
  exact allowed.2.2

theorem ncard_held (aligned : Aligned partition bound graphs)
    (sound : ∀ rank, (graphs rank).shard.Sound) :
    (held graphs).ncard = ∑ rank, (graphs rank).shard.edgeCount := by
  have keys : held graphs = {key | ∃ rank, key ∈ (graphs rank).shard.keys} := by
    ext key
    simp only [held, Set.mem_ofPred_eq, Shard.mem_keys]
    rfl
  rw [keys, ncard_of_owned fun key => partition.owner key.1]
  · exact Finset.sum_congr rfl fun rank _ => (sound rank).counted.symm
  · intro rank key member
    exact aligned.owner_of_stored sound ((Shard.mem_keys ..).1 member)

theorem ncard_heldSources (aligned : Aligned partition bound graphs)
    (sound : ∀ rank, (graphs rank).shard.Sound) :
    (heldSources graphs).ncard = ∑ rank, (graphs rank).shard.activeVertices := by
  have rows : heldSources graphs = {src | ∃ rank, src ∈ (graphs rank).shard.sources} := by
    ext src
    simp only [heldSources, held, Set.mem_ofPred_eq, (sound _).mem_sources]
    exact exists_comm
  rw [rows, ncard_of_owned partition.owner]
  · exact Finset.sum_congr rfl fun rank _ => Shard.card_sources _
  · intro rank src member
    rcases ((sound rank).mem_sources src).1 member with ⟨dst, stored⟩
    have entry : ((graphs rank).shard.entries (src, dst)).isSome = true := stored
    exact aligned.owner_of_stored sound entry

/-- A vertex has its edges on the rank that owns it, and nothing elsewhere. -/
theorem localDegree_eq (aligned : Aligned partition bound graphs)
    (sound : ∀ rank, (graphs rank).shard.Sound) (vertex : VertexId) (rank : Fin size) :
    Query.localDegree (graphs rank).shard vertex =
      if partition.owner vertex = rank then (leaving graphs vertex).ncard else 0 := by
  unfold Query.localDegree Shard.owns
  rw [(aligned rank).sharing, (aligned rank).numbered]
  simp only [beq_iff_eq]
  split
  · next own =>
      rw [Shard.outDegree_eq_ncard]
      congr 1
      ext dst
      constructor
      · exact fun stored => ⟨rank, stored⟩
      · rintro ⟨other, stored⟩
        have same : other = rank :=
          Fin.ext ((aligned.owner_of_stored sound stored).symm.trans own)
        rw [← same]
        exact stored
  · rfl

/-- The queries answer with what the group holds. -/
theorem counted (aligned : Aligned partition bound graphs) (inhabited : 0 < size)
    (parts : partition.parts = size) (sound : ∀ rank, (graphs rank).shard.Sound) :
    Counted graphs where
  vertices := by
    have answers := together_reduced inhabited (some 0) Query.tag (· + ·)
      fun rank => UInt64.ofNat (graphs rank).shard.activeVertices
    simp only [combine, InStep.foldl_counts, ← aligned.ncard_heldSources sound] at answers
    exact Plan.lockstep_settles inhabited answers
  edges := by
    have answers := together_reduced inhabited (some 0) (Query.tag.offset 2) (· + ·)
      fun rank => UInt64.ofNat (graphs rank).shard.edgeCount
    simp only [combine, InStep.foldl_counts, ← aligned.ncard_held sound] at answers
    exact Plan.lockstep_settles inhabited answers
  degree vertex := by
    have inside := Partition.owner_lt (parts ▸ inhabited) vertex
    rw [parts] at inside
    have answers := together_reduced inhabited (some 0) (Query.tag.offset 4)
      (fun left right => if left < right then right else left)
      fun rank => UInt64.ofNat (Query.localDegree (graphs rank).shard vertex)
    have highest : (List.ofFn fun rank =>
        UInt64.ofNat (Query.localDegree (graphs rank).shard vertex)).foldl
          (fun left right => if left < right then right else left) 0 =
        UInt64.ofNat (leaving graphs vertex).ncard := by
      simp only [aligned.localDegree_eq sound]
      apply foldl_maximum
      · intro value member
        rcases List.mem_ofFn.1 member with ⟨rank, rfl⟩
        split
        · exact Or.inr rfl
        · exact Or.inl rfl
      · exact List.mem_ofFn.2 ⟨⟨_, inside⟩, by rw [if_pos rfl]⟩
    simp only [combine, highest] at answers
    exact Plan.lockstep_settles inhabited answers
  single vertex first second inFirst inSecond := by
    rw [aligned.localDegree_eq sound] at inFirst inSecond
    have ownsFirst : partition.owner vertex = first := by
      by_contra foreign
      exact inFirst (if_neg foreign)
    have ownsSecond : partition.owner vertex = second := by
      by_contra foreign
      exact inSecond (if_neg foreign)
    exact Fin.ext (ownsFirst.symm.trans ownsSecond)

end Aligned

namespace Reachable

variable {layout : Layout}

theorem counted (reachable : Reachable layout bound graphs) (inhabited : 0 < size) :
    Counted graphs :=
  reachable.aligned.counted inhabited (parts_build inhabited layout bound) reachable.sound

/-- A batch that has come in on all ranks makes the group grow by what the ranks have counted. -/
theorem grows_of_insert (reachable : Reachable layout bound graphs) {slices : Fin size → List Edge}
    {stats : Fin size → MergeStats} {nexts : Fin size → ClusterGraph generator}
    (run : ReflTransGen Group.Step (Plan.group fun rank => (graphs rank).insert (slices rank))
      ⟨.empty, List.ofFn fun rank => .done (.ok (stats rank), nexts rank)⟩) :
    Reachable layout bound nexts ∧
      (held nexts).ncard = (held graphs).ncard + ∑ rank, (stats rank).inserted ∧
      (heldSources graphs).ncard ≤ (heldSources nexts).ncard := by
  have next : Reachable layout bound nexts :=
    reachable.call (fun rank => .insert (slices rank)) (Plan.run_of_change Prod.snd run)
  have finds := fun rank =>
    ((graphs rank).finds_insert_grows (slices rank)).steps ⟨rank, size⟩
  have grows : ∀ rank, Shard.Grows (graphs rank).shard (nexts rank).shard (stats rank).inserted :=
    fun rank => Group.findings_pass finds run rank (stats rank) rfl
  have kept : heldSources graphs ⊆ heldSources nexts := by
    rintro src ⟨dst, rank, stored⟩
    exact ⟨dst, rank, (grows rank).stored (src, dst) stored⟩
  refine ⟨next, ?_, Set.ncard_le_ncard kept (Set.toFinite _)⟩
  rw [next.aligned.ncard_held next.sound, reachable.aligned.ncard_held reachable.sound,
    ← Finset.sum_add_distrib]
  exact Finset.sum_congr rfl fun rank _ => (grows rank).counted

/-- An eviction that has ended on all ranks makes the group shrink by what the ranks have
counted. -/
theorem shrinks_of_evict (reachable : Reachable layout bound graphs)
    {thresholds : Fin size → Int64} {removed : Fin size → Nat}
    {nexts : Fin size → ClusterGraph generator}
    (run : ReflTransGen Group.Step (Plan.group fun rank => (graphs rank).evict (thresholds rank))
      ⟨.empty, List.ofFn fun rank => .done (removed rank, nexts rank)⟩) :
    Reachable layout bound nexts ∧
      ∑ rank, removed rank + (held nexts).ncard = (held graphs).ncard := by
  have next : Reachable layout bound nexts :=
    reachable.call (fun rank => .evict (thresholds rank)) (Plan.run_of_change Prod.snd run)
  have finds := fun rank => ((graphs rank).finds_evict_shrinks (reachable.sound rank)
    (thresholds rank)).steps ⟨rank, size⟩
  have books : ∀ rank, removed rank + (nexts rank).shard.edgeCount =
      (graphs rank).shard.edgeCount := Group.findings_pass finds run
  apply And.intro next
  rw [next.aligned.ncard_held next.sound, reachable.aligned.ncard_held reachable.sound,
    ← Finset.sum_add_distrib]
  exact Finset.sum_congr rfl fun rank _ => books rank

end Reachable

end ClusterGraph

end StreamGraph
