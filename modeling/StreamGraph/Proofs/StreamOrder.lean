import StreamGraph.Proofs.Dataset.Distribution
import StreamGraph.Proofs.Routing

/-!
From the stream to the owners. Whatever the schedule of the messages, each rank gets exactly the
updates that it owns: from an exchange those of every sender, by sender and in the sender's order;
from a distribution those of the root, in the root's order; and from the shares of a batch those of
the batch, in the order of the stream. Here the ranks only bring updates to their places; what they
make of them is not considered.
-/

namespace StreamGraph.Routing

open Collective

variable {size : Nat}

/-- The updates of a list of new edges. -/
def updatesOf (edges : List Edge) : List Update := edges.map fun edge => { edge }

theorem routable_updatesOf {bound : UInt64} {edges : List Edge}
    (within : ∀ edge ∈ edges, edge.isWithin bound = true) (fits : Fits edges) :
    Routable bound (updatesOf edges) where
  fresh update member := by
    rcases List.mem_map.1 member with ⟨edge, _, rfl⟩
    rfl
  within update member := by
    rcases List.mem_map.1 member with ⟨edge, inEdges, rfl⟩
    exact within edge inEdges
  fits := by
    have same : (updatesOf edges).map Update.edge = edges := by
      rw [updatesOf, List.map_map]
      exact List.map_id edges
    rw [same]
    exact fits

theorem share_flatMap (partition : Partition) (rank : Nat) (slices : Fin size → List Update) :
    (List.finRange size).flatMap (fun sender => partition.share rank (slices sender)) =
      partition.share rank (List.ofFn slices).flatten := by
  rw [Partition.share, List.filter_flatten, List.ofFn_eq_map, List.map_map, List.flatMap_def]
  rfl

/-- Slices of new edges are exchanged into the parts of all edges, in the order of the slices. -/
theorem together_exchange_slices (inhabited : 0 < size) {partition : Partition}
    (parts : partition.parts = size) (bound : UInt64) {slices : Fin size → List Edge}
    (within : ∀ rank, ∀ edge ∈ slices rank, edge.isWithin bound = true)
    (fits : ∀ rank, Fits (slices rank)) :
    Together (fun rank : Fin size => exchange ⟨rank, size⟩ partition bound
        (updatesOf (slices rank)))
      fun rank => .ok (partition.share rank (updatesOf (List.ofFn slices).flatten)) := by
  have exchanged := together_exchange inhabited parts bound
    fun rank => routable_updatesOf (within rank) (fits rank)
  simp only [share_flatMap] at exchanged
  have whole : (List.ofFn fun rank : Fin size => updatesOf (slices rank)).flatten =
      updatesOf (List.ofFn slices).flatten := by
    rw [updatesOf, List.map_flatten, List.map_ofFn]
    rfl
  rwa [whole] at exchanged

/-- The slices of a batch are exchanged into the parts of the batch. -/
theorem together_exchange_shares (inhabited : 0 < size) {partition : Partition}
    (parts : partition.parts = size) (bound : UInt64) {edges : List Edge}
    (within : ∀ edge ∈ edges, edge.isWithin bound = true) (fits : Fits edges) :
    Together (fun rank : Fin size => exchange ⟨rank, size⟩ partition bound
        (updatesOf (Dataset.shareOf size rank edges)))
      fun rank => .ok (partition.share rank (updatesOf edges)) := by
  have part := fun rank => Dataset.sublist_shareOf inhabited rank edges
  have exchanged := together_exchange_slices inhabited parts bound
    (fun rank edge member => within edge ((part rank).subset member))
    fun rank => fits.sublist (part rank)
  rwa [Dataset.flatten_ofFn_shareOf inhabited edges] at exchanged

/-- Shares a data set out and brings the shares of one of its batches to the owners. -/
def exchangeBatch (member : Member) (partition : Partition) (passed : Option Dataset)
    (count index : Nat) : Collective (List Update) := do
  let shared ← Dataset.distribute member passed count
  let batch ← ExceptT.mk (pure (shared.batch index))
  exchange member partition shared.bound (updatesOf batch.edges)

theorem together_exchangeBatch (inhabited : 0 < size) {partition : Partition}
    (parts : partition.parts = size) {dataset : Dataset} (fits : dataset.Fits)
    (bounded : dataset.bound ≠ 0) {passed : Fin size → Option Dataset}
    (given : passed ⟨0, inhabited⟩ = some dataset) {index : Nat}
    (inside : index < dataset.batches.length)
    (within : ∀ edge ∈ dataset.batches[index].edges, edge.isWithin dataset.bound = true) :
    Together (fun rank =>
        exchangeBatch ⟨rank, size⟩ partition (passed rank) dataset.batches.length index)
      fun rank => .ok (partition.share rank (updatesOf dataset.batches[index].edges)) := by
  apply together_bind (Dataset.together_distribute inhabited fits bounded passed given)
  have found : ∀ rank, (dataset.sharedOut size rank).batch index = .ok
      ⟨Dataset.shareOf size rank dataset.batches[index].edges, dataset.batches[index].newest⟩ := by
    intro rank
    have member : (dataset.sharedOut size rank).batches[index]? = some
        ⟨Dataset.shareOf size rank dataset.batches[index].edges,
          dataset.batches[index].newest⟩ := by
      rw [Dataset.sharedOut, List.getElem?_map, List.getElem?_eq_getElem inside]
      rfl
    rw [Dataset.batch, member]
  simp only [found]
  exact together_exchange_shares inhabited parts dataset.bound within
    (fits.batch (List.getElem_mem inside))

/-- Routing loses, duplicates, reorders and misroutes nothing. -/
theorem updates_reach_their_owners (inhabited : 0 < size) (partition : Partition)
    (parts : partition.parts = size) :
    (∀ (bound : UInt64) (slices : Fin size → List Update),
      (∀ rank, Routable bound (slices rank)) →
      (Plan.group fun rank =>
        (exchange ⟨rank, size⟩ partition bound (slices rank)).run).Settles
          (List.ofFn fun rank : Fin size =>
            .ok ((List.ofFn slices).flatMap (partition.share rank)))) ∧
    (∀ (bound : UInt64) (root : Fin size) (passed : Fin size → List Update),
      Routable bound (passed root) →
      (Plan.group fun rank =>
        (distribute ⟨rank, size⟩ partition bound root (passed rank)).run).Settles
          (List.ofFn fun rank : Fin size => .ok (partition.share rank (passed root)))) ∧
    ∀ (dataset : Dataset) (passed : Fin size → Option Dataset) (index : Nat)
      (inside : index < dataset.batches.length), dataset.Fits → dataset.bound ≠ 0 →
      passed ⟨0, inhabited⟩ = some dataset →
      (∀ edge ∈ dataset.batches[index].edges, edge.isWithin dataset.bound = true) →
      (Plan.group fun rank => (exchangeBatch ⟨rank, size⟩ partition (passed rank)
        dataset.batches.length index).run).Settles
          (List.ofFn fun rank : Fin size =>
            .ok (partition.share rank (updatesOf dataset.batches[index].edges))) := by
  apply And.intro
  · intro bound slices routable
    have exchanged := Plan.lockstep_settles inhabited
      (together_exchange inhabited parts bound routable)
    simpa only [List.ofFn_eq_map, List.flatMap_map] using exchanged
  constructor
  · intro bound root passed routable
    exact Plan.lockstep_settles inhabited (together_distribute inhabited parts bound root routable)
  · intro dataset passed index inside fits bounded given within
    exact Plan.lockstep_settles inhabited
      (together_exchangeBatch inhabited parts fits bounded given inside within)

/-- Four edges of two sources, which two ranks own. -/
def fourEdges : List Edge := [⟨2, 1, 5, 0⟩, ⟨1, 2, 1, 0⟩, ⟨1, 3, 1, 1⟩, ⟨2, 1, -5, 1⟩]

theorem four_edges_routable : Routable 4 (updatesOf fourEdges) :=
  routable_updatesOf (by decide) (by decide)

theorem four_edges_reach_their_owners :
    (Plan.group fun rank : Fin 2 =>
      (exchange ⟨rank, 2⟩ (.cyclic 2) 4 (updatesOf fourEdges)).run).Settles
        [.ok (updatesOf [⟨2, 1, 5, 0⟩, ⟨2, 1, -5, 1⟩, ⟨2, 1, 5, 0⟩, ⟨2, 1, -5, 1⟩]),
          .ok (updatesOf [⟨1, 2, 1, 0⟩, ⟨1, 3, 1, 1⟩, ⟨1, 2, 1, 0⟩, ⟨1, 3, 1, 1⟩])] ∧
    (Plan.group fun rank : Fin 2 => (distribute ⟨rank, 2⟩ (.cyclic 2) 4 1
      (if rank = 1 then updatesOf fourEdges else [])).run).Settles
        [.ok (updatesOf [⟨2, 1, 5, 0⟩, ⟨2, 1, -5, 1⟩]),
          .ok (updatesOf [⟨1, 2, 1, 0⟩, ⟨1, 3, 1, 1⟩])] ∧
    (Plan.group fun rank : Fin 2 => (exchangeBatch ⟨rank, 2⟩ (.cyclic 2)
      (if rank = 0 then some ⟨4, [⟨fourEdges, 1⟩]⟩ else none) 1 0).run).Settles
        [.ok (updatesOf [⟨2, 1, 5, 0⟩, ⟨2, 1, -5, 1⟩]),
          .ok (updatesOf [⟨1, 2, 1, 0⟩, ⟨1, 3, 1, 1⟩])] := by
  obtain ⟨exchanged, distributed, shared⟩ :=
    @updates_reach_their_owners 2 (by decide) (.cyclic 2) rfl
  apply And.intro
  · exact exchanged 4 (fun _ => updatesOf fourEdges) fun _ => four_edges_routable
  constructor
  · exact distributed 4 1 (fun rank => if rank = 1 then updatesOf fourEdges else [])
      four_edges_routable
  · exact shared ⟨4, [⟨fourEdges, 1⟩]⟩
      (fun rank => if rank = 0 then some ⟨4, [⟨fourEdges, 1⟩]⟩ else none) 0 (by decide)
      ⟨by decide, by decide⟩ (by decide) rfl (by decide)

end StreamGraph.Routing
