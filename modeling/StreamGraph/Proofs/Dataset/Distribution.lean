import StreamGraph.Dataset.Distribution
import StreamGraph.Proofs.Collective

/-!
Shares of a data set. The pieces of a batch, one behind the other, are the batch; handing them out
gives every rank its piece of each batch, under the bound and the newest timestamps of the whole.
-/

namespace StreamGraph.Dataset

variable {Entry : Type}

theorem length_cutEvery (length parts : Nat) (entries : List Entry) :
    (cutEvery length parts entries).length = parts := by
  induction parts generalizing entries with
  | zero => rfl
  | succ parts ih =>
      cases parts with
      | zero => rfl
      | succ parts =>
          rw [cutEvery, List.length_cons, ih]
          exact Nat.succ_ne_zero parts

theorem flatten_cutEvery (length : Nat) {parts : Nat} (positive : 0 < parts)
    (entries : List Entry) :
    (cutEvery length parts entries).flatten = entries := by
  induction parts generalizing entries with
  | zero => exact absurd positive (Nat.lt_irrefl 0)
  | succ parts ih =>
      cases parts with
      | zero => simp [cutEvery]
      | succ parts =>
          rw [cutEvery, List.flatten_cons, ih (Nat.succ_pos _), List.take_append_drop]
          exact Nat.succ_ne_zero parts

theorem length_shares {size : Nat} (inhabited : 0 < size) (edges : List Edge) :
    (shares size edges).length = size := by
  rw [shares, cutEven, length_cutEvery, Nat.max_eq_left inhabited]

/-- Cutting neither loses nor moves an edge. -/
theorem flatten_shares (size : Nat) (edges : List Edge) : (shares size edges).flatten = edges :=
  flatten_cutEvery _ (Nat.lt_of_lt_of_le Nat.one_pos (Nat.le_max_right size 1)) edges

/-- A stream is loaded into some batches under the bound that is chosen for it. -/
theorem ofEdges_eq_ok_iff {stream : List Edge} {count : Nat} {bound : Option UInt64}
    {dataset : Dataset} : ofEdges stream count bound = some (.ok dataset) ↔
      0 < count ∧ chooseBound stream bound = some (.ok dataset.bound) ∧
        dataset.batches = (cutEven count stream).map fun piece => ⟨piece, newest piece⟩ := by
  unfold ofEdges
  by_cases nothing : count = 0
  · subst nothing
    exact ⟨nofun, fun loaded => absurd loaded.1 (Nat.lt_irrefl 0)⟩
  · rw [if_neg nothing]
    constructor
    · intro loaded
      obtain ⟨chosen, chooses, rest⟩ := Option.map_eq_some_iff.1 loaded
      cases chosen with
      | error failure => cases rest
      | ok bound =>
          cases rest
          exact ⟨Nat.pos_of_ne_zero nothing, chooses, rfl⟩
    · rintro ⟨_, chosen, batches⟩
      rw [chosen, ← batches]
      rfl

theorem batches_of_ofEdges {stream : List Edge} {count : Nat} {bound : Option UInt64}
    {dataset : Dataset} (loaded : ofEdges stream count bound = some (.ok dataset)) :
    0 < count ∧
      dataset.batches = (cutEven count stream).map fun piece => ⟨piece, newest piece⟩ := by
  obtain ⟨positive, _, batches⟩ := ofEdges_eq_ok_iff.1 loaded
  exact ⟨positive, batches⟩

/-- The batches of a data set, one behind the other, are its stream. -/
theorem ofEdges_eq_ok {stream : List Edge} {count : Nat} {bound : Option UInt64}
    {dataset : Dataset} (loaded : ofEdges stream count bound = some (.ok dataset)) :
    dataset.batches.length = count ∧ dataset.edges = stream := by
  rcases batches_of_ofEdges loaded with ⟨positive, batches⟩
  constructor
  · rw [batches, List.length_map, cutEven, length_cutEvery]
  · rw [Dataset.edges, batches, List.flatMap_map, List.flatMap_id']
    exact flatten_cutEvery _ positive stream

/-- A rank's share of a batch. -/
def shareOf (size rank : Nat) (edges : List Edge) : List Edge := (shares size edges).getD rank []

theorem ofFn_shareOf {size : Nat} (inhabited : 0 < size) (edges : List Edge) :
    (List.ofFn fun rank : Fin size => shareOf size rank edges) = shares size edges := by
  apply List.ext_getElem
  · rw [List.length_ofFn, length_shares inhabited]
  · intro rank inside inShares
    rw [List.getElem_ofFn, shareOf, List.getD_eq_getElem _ _ inShares]

theorem flatten_ofFn_shareOf {size : Nat} (inhabited : 0 < size) (edges : List Edge) :
    (List.ofFn fun rank : Fin size => shareOf size rank edges).flatten = edges := by
  rw [ofFn_shareOf inhabited, flatten_shares]

theorem sublist_shareOf {size : Nat} (inhabited : 0 < size) (rank : Fin size)
    (edges : List Edge) : (shareOf size rank edges).Sublist edges := by
  conv_rhs => rw [← flatten_ofFn_shareOf inhabited edges]
  exact List.sublist_flatten_of_mem (List.mem_ofFn.2 ⟨rank, rfl⟩)

/-- What a rank has of a data set that has been shared out. -/
def sharedOut (size rank : Nat) (dataset : Dataset) : Dataset where
  bound := dataset.bound
  batches := dataset.batches.map fun batch => ⟨shareOf size rank batch.edges, batch.newest⟩

/-- The bytes of a data set, and of its timestamps, can be counted by a word. -/
structure Fits (dataset : Dataset) : Prop where
  edges : StreamGraph.Fits dataset.edges
  stamps : StreamGraph.Fits (dataset.batches.map Batch.newest)

theorem Fits.batch {dataset : Dataset} (fits : dataset.Fits) {batch : Batch}
    (member : batch ∈ dataset.batches) : StreamGraph.Fits batch.edges := by
  have part : batch.edges.length ≤ dataset.edges.length := by
    have inside : batch.edges ∈ dataset.batches.map Batch.edges := List.mem_map_of_mem member
    exact (List.sublist_flatten_of_mem inside).length_le
  exact lt_of_le_of_lt (Nat.mul_le_mul_right _ part) fits.edges

variable {size : Nat}

open Collective

theorem together_scatterBatches (inhabited : 0 < size) {dataset : Dataset} (fits : dataset.Fits)
    (passed : Fin size → Option Dataset) (given : passed ⟨0, inhabited⟩ = some dataset)
    (others : ∀ rank : Fin size, rank ≠ ⟨0, inhabited⟩ → passed rank = none)
    (count index : Nat) (whole : index + count = dataset.batches.length) :
    Together (fun rank : Fin size => scatterBatches ⟨rank, size⟩ (passed rank) count index)
      fun rank => .ok ((dataset.batches.drop index).map fun batch =>
        shareOf size rank batch.edges) := by
  induction count generalizing index with
  | zero =>
      have done : dataset.batches.drop index = [] := List.drop_eq_nil_of_le (by omega)
      rw [done]
      exact together_pure _
  | succ count ih =>
      have inside : index < dataset.batches.length := by omega
      have member : dataset.batches[index] ∈ dataset.batches := List.getElem_mem inside
      have step : ∀ rank : Fin size,
          scatterBatches ⟨rank, size⟩ (passed rank) (count + 1) index = do
            let mine ← scatter shareTag 0
              (if rank = ⟨0, inhabited⟩ then shares size dataset.batches[index].edges else [])
            let later ← scatterBatches ⟨rank, size⟩ (passed rank) count (index + 1)
            return mine :: later := by
        intro rank
        by_cases coordinator : rank = ⟨0, inhabited⟩
        · have found : dataset.batch index = .ok dataset.batches[index] := by
            rw [batch, List.getElem?_eq_getElem inside]
          rw [if_pos coordinator, coordinator, given, scatterBatches, found]
          rfl
        · rw [if_neg coordinator, others rank coordinator]
          rfl
      have pieces := together_scatter shareTag ⟨0, inhabited⟩ (fun rank : Fin size =>
        if rank = ⟨0, inhabited⟩ then shares size dataset.batches[index].edges else [])
        (by rw [if_pos rfl, length_shares inhabited])
        (by
          intro piece inPieces
          rw [if_pos rfl] at inPieces
          have part := length_le_length_flatten inPieces
          rw [flatten_shares] at part
          exact lt_of_le_of_lt (Nat.mul_le_mul_right _ part) (fits.batch member))
      have later := ih (index + 1) (by omega)
      refine together_congr step (together_bind pieces (together_bind later ?_))
      rw [List.drop_eq_getElem_cons inside]
      simp only [Plan.heard_eq, if_true]
      exact together_pure _

/-- What is left to do once every rank knows the bound and the newest timestamps. -/
theorem together_announced (inhabited : 0 < size) {dataset : Dataset}
    (stamps : StreamGraph.Fits (dataset.batches.map Batch.newest)) (bounded : dataset.bound ≠ 0)
    (passed : Fin size → Option Dataset) (given : passed ⟨0, inhabited⟩ = some dataset)
    (count : Nat) {answers : Fin size → Except Failure Dataset}
    (rest : Together (fun rank : Fin size => do
      if dataset.batches.length ≠ count then
        throw (.layout (.batches dataset.batches.length count))
      let pieces ← scatterBatches ⟨rank, size⟩
        (if (⟨rank, size⟩ : Member).isCoordinator then passed rank else none) count 0
      ExceptT.mk (pure (ofShares pieces (dataset.batches.map Batch.newest) dataset.bound)))
      answers) :
    Together (fun rank => distribute ⟨rank, size⟩ (passed rank) count) answers := by
  have bound := together_broadcastOne announceTag ⟨0, inhabited⟩ fun rank : Fin size =>
    ((if (⟨rank, size⟩ : Member).isCoordinator then passed rank else none).map
      Dataset.bound).getD 0
  apply together_bind bound
  have own : (⟨0, size⟩ : Member).isCoordinator = true := rfl
  simp only [Plan.heardOne_eq, own, if_true, given, Option.map_some, Option.getD_some, bounded,
    if_false]
  have announced := together_broadcast (announceTag.offset 1) ⟨0, inhabited⟩
    (fun rank : Fin size =>
      ((if (⟨rank, size⟩ : Member).isCoordinator then passed rank else none).map
        fun dataset => dataset.batches.map Batch.newest).getD [])
    (by simpa [own, given] using stamps)
  apply together_bind announced
  simp only [Plan.heard_eq, own, if_true, given, Option.map_some, Option.getD_some,
    List.length_map]
  exact rest

/-- Every rank gets its share of the coordinator's data set; what the others pass is ignored. -/
theorem together_distribute (inhabited : 0 < size) {dataset : Dataset} (fits : dataset.Fits)
    (bounded : dataset.bound ≠ 0) (passed : Fin size → Option Dataset)
    (given : passed ⟨0, inhabited⟩ = some dataset) :
    Together (fun rank => distribute ⟨rank, size⟩ (passed rank) dataset.batches.length)
      fun rank => .ok (dataset.sharedOut size rank) := by
  apply together_announced inhabited fits.stamps bounded passed given
  simp only [ne_eq, not_true_eq_false, if_false]
  have own : (⟨0, size⟩ : Member).isCoordinator = true := rfl
  have pieces := together_scatterBatches inhabited fits
    (fun rank : Fin size => if (⟨rank, size⟩ : Member).isCoordinator then passed rank else none)
    (by rw [if_pos own, given])
    (by
      intro rank other
      have notZero : (⟨rank, size⟩ : Member).isCoordinator = false := by
        rw [Member.isCoordinator, beq_eq_false_iff_ne]
        exact fun zero => other (Fin.ext zero)
      rw [notZero]
      rfl)
    dataset.batches.length 0 (Nat.zero_add _)
  apply together_bind pieces
  apply together_answers
  intro rank
  rw [List.drop_zero, ofShares, if_neg (by simp), List.zipWith_map, List.zipWith_self]
  rfl

end StreamGraph.Dataset
