import Mathlib.Algebra.BigOperators.Fin
import StreamGraph.Proofs.Merge
import StreamGraph.Proofs.Routing

/-!
One store, held in parts. A store is divided among the ranks when each of them holds the edges
whose source it owns and nothing else, and parted when this is so up to the weights, which may
depend on the order in which a rank meets the updates to a pair. Dropping old edges from all parts
and handing each part the updates that it owns keeps a store parted, and what the parts count adds
up to what the store counts.
-/

namespace StreamGraph

variable {size : Nat}

/-- The parts of a class, over all ranks, are as many as the whole. -/
theorem sum_card_owned {Key : Type} [DecidableEq Key] (owner : Key → Nat)
    (inside : ∀ key, owner key < size) (whole : Finset Key) (parts : Fin size → Finset Key)
    (owned : ∀ rank key, key ∈ parts rank ↔ key ∈ whole ∧ owner key = rank) :
    ∑ rank, (parts rank).card = whole.card := by
  have fibers : whole.card = ∑ rank : Fin size,
      (whole.filter fun key => (⟨owner key, inside key⟩ : Fin size) = rank).card :=
    Finset.card_eq_sum_card_fiberwise fun key _ => Finset.mem_coe.2 (Finset.mem_univ _)
  rw [fibers]
  apply Finset.sum_congr rfl
  intro rank _
  congr 1
  ext key
  rw [owned, Finset.mem_filter, Fin.ext_iff]

namespace Shard

/-- The vertices that have a row. -/
def sources (shard : Shard) : Finset VertexId := (shard.rows.toList.map Prod.fst).toFinset

theorem card_sources (shard : Shard) : shard.sources.card = shard.activeVertices := by
  rw [sources, List.toFinset_card_of_nodup shard.rows.nodup_keys, List.length_map]
  rfl

theorem Sound.mem_sources {shard : Shard} (sound : shard.Sound) (src : VertexId) :
    src ∈ shard.sources ↔ ∃ dst, (shard.get? src dst).isSome = true := by
  rw [sources, List.mem_toFinset, List.mem_map]
  constructor
  · rintro ⟨⟨other, row⟩, inside, rfl⟩
    have stored := (VertexMap.get?_eq_some_iff ..).2 inside
    obtain ⟨dst, attrs, found⟩ :=
      (VertexMap.isEmpty_eq_false_iff row).1 (sound.rows other row stored)
    refine ⟨dst, ?_⟩
    rw [get?, stored, Option.bind_some, found]
    rfl
  · rintro ⟨dst, present⟩
    obtain ⟨attrs, found⟩ := Option.isSome_iff_exists.1 present
    obtain ⟨row, stored, _⟩ := Option.bind_eq_some_iff.1 found
    exact ⟨(src, row), (VertexMap.get?_eq_some_iff ..).1 stored, rfl⟩

/-- The vertices that the edges from a vertex lead to. -/
def heads (shard : Shard) (src : VertexId) : Finset VertexId :=
  ((shard.row src).toList.map Prod.fst).toFinset

theorem card_heads (shard : Shard) (src : VertexId) :
    (shard.heads src).card = shard.outDegree src := by
  rw [heads, List.toFinset_card_of_nodup (shard.row src).nodup_keys, List.length_map]
  rfl

theorem mem_heads {shard : Shard} {src dst : VertexId} :
    dst ∈ shard.heads src ↔ (shard.get? src dst).isSome = true := by
  simp only [heads, ← get?_row, Option.isSome_iff_exists, VertexMap.get?_eq_some_iff,
    List.mem_toFinset, List.mem_map, Prod.exists, exists_and_right, exists_eq_right]

/-- The parts of the ranks have the pairs of endpoints of the whole store, cut by the owners of the
sources, and their timestamps. The weights may be others. -/
structure Parted (partition : Partition) (whole : Shard) (parts : Fin size → Shard) : Prop where
  sound : whole.Sound
  soundPart (rank : Fin size) : (parts rank).Sound
  numbered (rank : Fin size) : (parts rank).rank = rank
  sharing (rank : Fin size) : (parts rank).partition = partition
  bounded (rank : Fin size) : (parts rank).bound = whole.bound
  dated (rank : Fin size) (src dst : VertexId) :
    ((parts rank).get? src dst).map Attrs.timestamp =
      (if partition.owner src = rank then whole.get? src dst else none).map Attrs.timestamp

/-- The parts of the ranks are the whole store, cut by the owners of the sources. -/
structure Divided (partition : Partition) (whole : Shard) (parts : Fin size → Shard) : Prop
    extends Parted partition whole parts where
  stored (rank : Fin size) (src dst : VertexId) : (parts rank).get? src dst =
    if partition.owner src = rank then whole.get? src dst else none
  dated rank src dst := congrArg (Option.map Attrs.timestamp) (stored rank src dst)

variable {partition : Partition} {whole : Shard} {parts : Fin size → Shard}

/-- A store for all vertices: one rank, which owns everything. -/
def unshared (bound : UInt64) : Shard := .empty 0 (.cyclic 1) bound

theorem parted_empty (partition : Partition) (bound : UInt64) :
    Parted partition (unshared bound) fun rank : Fin size => .empty rank partition bound where
  sound := sound_empty ..
  soundPart rank := sound_empty ..
  numbered _ := rfl
  sharing _ := rfl
  bounded _ := rfl
  dated rank src dst := by
    split <;> rfl

theorem toKey_share (partition : Partition) (rank : Nat) (updates : List Update)
    (src dst : VertexId) : Update.toKey (src, dst) (partition.share rank updates) =
      if partition.owner src = rank then Update.toKey (src, dst) updates else [] := by
  rw [Update.toKey, Partition.share, List.filter_filter]
  split
  · next own =>
      rw [Update.toKey]
      apply List.filter_congr
      intro update _
      by_cases same : update.key = (src, dst)
      · have source : update.edge.src = src := congrArg Prod.fst same
        simp [same, source, own]
      · simp [same]
  · next other =>
      rw [List.filter_eq_nil_iff]
      intro update _ both
      rw [Bool.and_eq_true, beq_iff_eq, beq_iff_eq] at both
      have source : update.edge.src = src := congrArg Prod.fst both.1
      exact other (source ▸ both.2)

/-- The updates of a batch are in range and unmarked. -/
theorem welcome_of_within {bound : UInt64} {edges : List Edge} {shard : Shard}
    (same : shard.bound = bound)
    (within : ∀ edge ∈ edges, edge.isWithin bound = true) {updates : List Update}
    (fresh : ∀ update ∈ updates, update.done = false ∧ update.edge ∈ edges)
    (owned : ∀ update ∈ updates, shard.partition.owner update.edge.src = shard.rank) :
    shard.Welcome updates := by
  intro update member
  obtain ⟨unmarked, inEdges⟩ := fresh update member
  have ends := within update.edge inEdges
  rw [Edge.isWithin, Bool.and_eq_true, ← same] at ends
  exact ⟨unmarked, (allowed_iff ..).2 ⟨ends.1, ends.2, owned update member⟩⟩

/-- Whether an edge is kept for its age does not depend on what else it carries. -/
theorem timestamp_filter (keep : Int64 → Bool) (attrs : Option Attrs) :
    (attrs.filter fun attrs => keep attrs.timestamp).map Attrs.timestamp =
      (attrs.map Attrs.timestamp).filter keep := by
  cases attrs with
  | none => rfl
  | some attrs =>
      rw [Option.map_some, Option.filter_some, Option.filter_some]
      split <;> rfl

namespace Parted

/-- A pair of endpoints is stored on the rank that owns its source, if it is stored at all. -/
theorem stored_iff (parted : Parted partition whole parts) (rank : Fin size)
    (src dst : VertexId) : ((parts rank).get? src dst).isSome = true ↔
      (whole.get? src dst).isSome = true ∧ partition.owner src = rank := by
  have present := congrArg Option.isSome (parted.dated rank src dst)
  rw [Option.isSome_map, Option.isSome_map] at present
  rw [present]
  split
  · next own => simp only [own, and_true]
  · next other => simp only [other, and_false, Option.isSome_none, Bool.false_eq_true]

/-- A vertex has all its edges on the rank that owns it. -/
theorem outDegree_part (parted : Parted partition whole parts) (rank : Fin size)
    (vertex : VertexId) : (parts rank).outDegree vertex =
      if partition.owner vertex = rank then whole.outDegree vertex else 0 := by
  rw [← card_heads]
  split
  · next own =>
      rw [← card_heads]
      congr 1
      ext dst
      rw [mem_heads, mem_heads, parted.stored_iff]
      exact and_iff_left own
  · next other =>
      rw [Finset.card_eq_zero, Finset.eq_empty_iff_forall_notMem]
      intro dst
      rw [mem_heads, parted.stored_iff]
      exact fun stored => other stored.2

theorem sum_edgeCount (parted : Parted partition whole parts) (owners : partition.parts = size)
    (inhabited : 0 < size) : ∑ rank, (parts rank).edgeCount = whole.edgeCount := by
  rw [parted.sound.counted]
  have counted : ∀ rank, (parts rank).edgeCount = (parts rank).keys.card :=
    fun rank => (parted.soundPart rank).counted
  simp only [counted]
  apply sum_card_owned fun key : EdgeKey => partition.owner key.1
  · intro key
    have inside := Partition.owner_lt (owners ▸ inhabited) key.1
    rwa [owners] at inside
  · intro rank key
    rw [mem_keys, mem_keys, parted.stored_iff]

theorem sum_activeVertices (parted : Parted partition whole parts)
    (owners : partition.parts = size) (inhabited : 0 < size) :
    ∑ rank, (parts rank).activeVertices = whole.activeVertices := by
  rw [← card_sources]
  simp only [← card_sources]
  apply sum_card_owned partition.owner
  · intro vertex
    have inside := Partition.owner_lt (owners ▸ inhabited) vertex
    rwa [owners] at inside
  · intro rank vertex
    rw [(parted.soundPart rank).mem_sources, parted.sound.mem_sources]
    simp only [parted.stored_iff, exists_and_right]

/-- Dropping edges everywhere by their ends and their age keeps the store parted. -/
theorem retain (parted : Parted partition whole parts) (keep : EdgeKey → Int64 → Bool) :
    Parted partition (whole.retain fun key attrs => keep key attrs.timestamp).2
      fun rank => ((parts rank).retain fun key attrs => keep key attrs.timestamp).2 where
  sound := parted.sound.retain _
  soundPart rank := (parted.soundPart rank).retain _
  numbered := parted.numbered
  sharing := parted.sharing
  bounded := parted.bounded
  dated rank src dst := by
    have same := parted.dated rank src dst
    rw [get?_retain, get?_retain, timestamp_filter, same, ← timestamp_filter]
    split <;> rfl

theorem sum_removed (parted : Parted partition whole parts) (owners : partition.parts = size)
    (inhabited : 0 < size) (keep : EdgeKey → Int64 → Bool) :
    ∑ rank, ((parts rank).retain fun key attrs => keep key attrs.timestamp).1 =
      (whole.retain fun key attrs => keep key attrs.timestamp).1 := by
  have before := parted.sum_edgeCount owners inhabited
  have after := (parted.retain keep).sum_edgeCount owners inhabited
  have removed := parted.sound.removed_add fun key attrs => keep key attrs.timestamp
  have each : ∑ rank, (parts rank).edgeCount =
      ∑ rank, ((parts rank).retain fun key attrs => keep key attrs.timestamp).1 +
        ∑ rank, ((parts rank).retain fun key attrs => keep key attrs.timestamp).2.edgeCount := by
    rw [← Finset.sum_add_distrib]
    apply Finset.sum_congr rfl
    intro rank _
    exact ((parted.soundPart rank).removed_add _).symm
  omega

/-- Handing each part the updates that it owns keeps the store parted, in whatever order each of
them meets the updates to a pair. -/
theorem takes (parted : Parted partition whole parts) {mode : IngestMode} {order : KeySort}
    {orders : Fin size → KeySort} {updates : List Update} {next : Shard} {nexts : Fin size → Shard}
    {inserted : Nat} {insertedPart : Fin size → Nat}
    (taken : Takes whole next mode (mode.arrange order updates) inserted)
    (takenPart : ∀ rank, Takes (parts rank) (nexts rank) mode
      (mode.arrange (orders rank) (partition.share rank updates)) (insertedPart rank)) :
    Parted partition next nexts where
  sound := taken.sound parted.sound
  soundPart rank := (takenPart rank).sound (parted.soundPart rank)
  numbered rank := (takenPart rank).place.rank.trans (parted.numbered rank)
  sharing rank := (takenPart rank).place.partition.trans (parted.sharing rank)
  bounded rank := by rw [(takenPart rank).place.bound, parted.bounded, taken.place.bound]
  dated rank src dst := by
    rw [(takenPart rank).stored, mode.timestamp_result_arrange _ _ _ (parted.dated rank src dst),
      toKey_share]
    split
    · rw [taken.stored, mode.timestamp_result_arrange _ _ _ rfl]
    · cases mode <;> rfl

theorem sum_inserted (parted : Parted partition whole parts) (owners : partition.parts = size)
    (inhabited : 0 < size) {mode : IngestMode} {order : KeySort} {orders : Fin size → KeySort}
    {updates : List Update} {next : Shard} {nexts : Fin size → Shard} {inserted : Nat}
    {insertedPart : Fin size → Nat}
    (taken : Takes whole next mode (mode.arrange order updates) inserted)
    (takenPart : ∀ rank, Takes (parts rank) (nexts rank) mode
      (mode.arrange (orders rank) (partition.share rank updates)) (insertedPart rank)) :
    ∑ rank, insertedPart rank = inserted := by
  have before := parted.sum_edgeCount owners inhabited
  have after := (parted.takes taken takenPart).sum_edgeCount owners inhabited
  have grown := taken.counted
  have each : ∑ rank, (nexts rank).edgeCount =
      ∑ rank, (parts rank).edgeCount + ∑ rank, insertedPart rank := by
    rw [← Finset.sum_add_distrib]
    apply Finset.sum_congr rfl
    intro rank _
    exact (takenPart rank).counted
  omega

end Parted

end Shard

end StreamGraph
