import StreamGraph.Proofs.Dataset.Distribution

/-!
Where the edges of a stream go. A data set cuts its stream into batches by position, and sharing it
out cuts every batch again, into as many pieces as there are ranks; both times the last piece takes
the remainder. So each edge of the stream lies in one piece of one batch, and the pieces in their
order are the stream. What a batch tells about its age is fixed before it is cut up, and therefore
the same on a rank without any edge of it.
-/

namespace StreamGraph.Dataset

variable {Entry : Type}

/-- What lies at one place of a list that is cut into equally long pieces, of which the last ends
where the list does. -/
def stretch (parts index : Nat) (entries : List Entry) : List Entry :=
  let start := index * (entries.length / parts)
  entries.extract start
    (if index + 1 = parts then entries.length else start + entries.length / parts)

theorem getElem?_cutEvery {length parts : Nat} {entries : List Entry}
    (enough : parts * length ≤ entries.length) {index : Nat} (inside : index < parts) :
    (cutEvery length parts entries)[index]? = some (entries.extract (index * length)
      (if index + 1 = parts then entries.length else index * length + length)) := by
  induction parts generalizing entries index with
  | zero => exact absurd inside (Nat.not_lt_zero _)
  | succ parts ih =>
      by_cases last : parts = 0
      · subst last
        rw [Nat.lt_one_iff.1 inside, if_pos rfl, Nat.zero_mul, List.extract_eq_take_drop,
          List.drop_zero, Nat.sub_zero, List.take_length]
        rfl
      · rw [cutEvery.eq_3 length entries parts last]
        cases index with
        | zero =>
            rw [if_neg (by omega), Nat.zero_mul, Nat.zero_add, List.extract_eq_take_drop,
              List.drop_zero, Nat.sub_zero]
            rfl
        | succ index =>
            have left : (entries.drop length).length = entries.length - length :=
              List.length_drop ..
            have start : (index + 1) * length = length + index * length := by
              rw [Nat.succ_mul, Nat.add_comm]
            rw [Nat.succ_mul] at enough
            rw [List.getElem?_cons_succ, ih (by omega) (Nat.lt_of_succ_lt_succ inside), left,
              List.extract_eq_take_drop, List.extract_eq_take_drop, List.drop_drop, start]
            congr 2
            simp only [Nat.add_right_cancel_iff]
            split <;> omega

theorem getD_cutEven {parts : Nat} (entries : List Entry) {index : Nat} (inside : index < parts) :
    (cutEven parts entries).getD index [] = stretch parts index entries := by
  rw [List.getD_eq_getElem?_getD, cutEven,
    getElem?_cutEvery (Nat.mul_div_le entries.length parts) inside]
  rfl

/-- All pieces but the last have the same length. -/
theorem length_stretch {parts : Nat} (entries : List Entry) {index : Nat}
    (inner : index + 1 < parts) :
    (stretch parts index entries).length = entries.length / parts := by
  have enough : (index + 1) * (entries.length / parts) ≤ entries.length :=
    Nat.le_trans (Nat.mul_le_mul_right _ (Nat.le_of_lt inner)) (Nat.mul_div_le ..)
  rw [Nat.succ_mul] at enough
  rw [stretch, if_neg (Nat.ne_of_lt inner), List.extract_eq_take_drop, List.length_take,
    List.length_drop, Nat.add_sub_cancel_left]
  exact Nat.min_eq_left (Nat.le_sub_of_add_le' enough)

theorem shareOf_eq_stretch {size rank : Nat} (edges : List Edge) (inside : rank < size) :
    shareOf size rank edges = stretch size rank edges := by
  rw [shareOf, shares, Nat.max_eq_left (by omega)]
  exact getD_cutEven edges inside

/-- A single rank gets everything. -/
theorem shareOf_alone (edges : List Edge) : shareOf 1 0 edges = edges := rfl

/-- The edges of a batch. -/
def edgesAt (dataset : Dataset) (index : Nat) : List Edge :=
  ((dataset.batches[index]?).map Batch.edges).getD []

/-- The newest of the timestamps of some edges, older than any if there are no edges. -/
def IsNewest (edges : List Edge) (timestamp : Int64) : Prop :=
  (edges = [] → timestamp = Int64.minValue) ∧
    (edges ≠ [] → timestamp ∈ edges.map Edge.timestamp ∧
      ∀ edge ∈ edges, edge.timestamp ≤ timestamp)

theorem isNewest_newest (edges : List Edge) : IsNewest edges (newest edges) := by
  have asWords : newest edges = (edges.map Edge.timestamp).foldl max Int64.minValue := by
    rw [List.foldl_map]
    rfl
  constructor
  · rintro rfl
    rfl
  · intro nonempty
    rw [asWords]
    rcases Saturation.foldl_max_minValue_spec (mt List.map_eq_nil_iff.1 nonempty) with
      ⟨attained, above⟩
    constructor
    · exact attained
    · intro edge member
      exact above _ (List.mem_map_of_mem member)

/-- The batches are a stream cut by position. -/
structure CutFrom (stream : List Edge) (count : Nat) (dataset : Dataset) : Prop where
  batches : dataset.batches.length = count
  whole : dataset.edges = stream
  placed (index : Nat) (inside : index < count) :
    dataset.edgesAt index = stretch count index stream
  even (index : Nat) (inner : index + 1 < count) :
    (dataset.edgesAt index).length = stream.length / count
  newest (batch : Batch) (member : batch ∈ dataset.batches) : IsNewest batch.edges batch.newest

theorem cutFrom_of_ofEdges {stream : List Edge} {count : Nat} {bound : Option UInt64}
    {dataset : Dataset} (loaded : ofEdges stream count bound = some (.ok dataset)) :
    CutFrom stream count dataset := by
  rcases ofEdges_eq_ok loaded with ⟨length, edges⟩
  rcases batches_of_ofEdges loaded with ⟨_, batches⟩
  have placed : ∀ index < count, dataset.edgesAt index = stretch count index stream := by
    intro index inside
    rw [← getD_cutEven stream inside, edgesAt, batches, ← List.getElem?_map, List.map_map,
      List.getD_eq_getElem?_getD]
    exact congrArg (fun pieces : List (List Edge) => pieces[index]?.getD []) (List.map_id _)
  constructor
  · exact length
  · exact edges
  · exact placed
  · intro index inner
    rw [placed index (by omega), length_stretch stream inner]
  · intro batch member
    rw [batches] at member
    rcases List.mem_map.1 member with ⟨piece, _, rfl⟩
    exact isNewest_newest piece

/-- The batches lie in the stream of a data set one behind the other. -/
theorem extract_edges (dataset : Dataset) (index : Nat) :
    dataset.edges.extract ((dataset.batches.take index).flatMap Batch.edges).length
        ((dataset.batches.take (index + 1)).flatMap Batch.edges).length =
      dataset.edgesAt index := by
  have whole : dataset.edges = (dataset.batches.take index).flatMap Batch.edges ++
      (dataset.batches.drop index).flatMap Batch.edges := by
    rw [← List.flatMap_append, List.take_append_drop]
    rfl
  rw [whole, edgesAt, List.extract_eq_take_drop, List.drop_left, List.take_add_one,
    List.flatMap_append, List.length_append, Nat.add_sub_cancel_left]
  cases found : dataset.batches[index]? with
  | none => rfl
  | some batch =>
      obtain ⟨inside, rfl⟩ := List.getElem?_eq_some_iff.1 found
      rw [List.drop_eq_getElem_cons inside, List.flatMap_cons, Option.toList_some,
        List.flatMap_singleton, List.take_left]
      rfl

variable {size : Nat}

/-- What the ranks have of a data set: the same frame, and of every batch a piece by position. -/
structure SharedByPosition (whole : Dataset) (shared : Fin size → Dataset) : Prop where
  bound (rank : Fin size) : (shared rank).bound = whole.bound
  newest (rank : Fin size) :
    (shared rank).batches.map Batch.newest = whole.batches.map Batch.newest
  threshold (rank : Fin size) (index : Nat) (width : Int64) :
    (shared rank).threshold index width = whole.threshold index width
  pieces (index : Nat) :
    (List.ofFn fun rank => (shared rank).edgesAt index).flatten = whole.edgesAt index
  placed (rank : Fin size) (index : Nat) :
    (shared rank).edgesAt index = stretch size rank (whole.edgesAt index)
  ranges (rank : Fin size) (index : Nat) : (shared rank).edgesAt index =
    (shared rank).edges.extract
      (((shared rank).batches.take index).flatMap Batch.edges).length
      (((shared rank).batches.take (index + 1)).flatMap Batch.edges).length
  even (rank : Fin size) (inner : rank.val + 1 < size) (index : Nat) :
    ((shared rank).edgesAt index).length = (whole.edgesAt index).length / size
  alone (single : size = 1) (rank : Fin size) : shared rank = whole

theorem edgesAt_sharedOut (dataset : Dataset) (rank : Fin size) (index : Nat) :
    (dataset.sharedOut size rank).edgesAt index = shareOf size rank (dataset.edgesAt index) := by
  rw [edgesAt, edgesAt, sharedOut, List.getElem?_map]
  cases dataset.batches[index]? with
  | some batch => rfl
  | none =>
      have inhabited : 0 < size := Nat.lt_of_le_of_lt (Nat.zero_le _) rank.isLt
      exact (List.sublist_nil.1 (sublist_shareOf inhabited rank [])).symm

theorem threshold_sharedOut (size rank : Nat) (dataset : Dataset) (index : Nat) (width : Int64) :
    (dataset.sharedOut size rank).threshold index width = dataset.threshold index width := by
  unfold threshold batch
  rw [sharedOut, List.getElem?_map, List.length_map]
  cases dataset.batches[index]? <;> rfl

theorem sharedByPosition_sharedOut (inhabited : 0 < size) (dataset : Dataset) :
    SharedByPosition dataset fun rank : Fin size => dataset.sharedOut size rank := by
  constructor
  · exact fun _ => rfl
  · intro rank
    rw [sharedOut, List.map_map]
    rfl
  · exact fun rank index width => dataset.threshold_sharedOut size rank index width
  · intro index
    simp only [edgesAt_sharedOut]
    exact flatten_ofFn_shareOf inhabited _
  · intro rank index
    rw [edgesAt_sharedOut, shareOf_eq_stretch _ rank.isLt]
  · exact fun rank index => ((dataset.sharedOut size rank).extract_edges index).symm
  · intro rank inner index
    rw [edgesAt_sharedOut, shareOf_eq_stretch _ rank.isLt, length_stretch _ inner]
  · rintro rfl rank
    have first : rank.val = 0 := Nat.lt_one_iff.1 rank.isLt
    have same : ∀ batch : Batch, (⟨shareOf 1 0 batch.edges, batch.newest⟩ : Batch) = batch :=
      fun batch => by rw [shareOf_alone]
    simp only [first, sharedOut, same, List.map_id']

/-- Cutting a stream into batches and sharing these out put every edge into one piece, by its
position alone, and tell every rank the same about the whole. -/
theorem batches_are_shared_by_position (inhabited : 0 < size) {stream : List Edge} {count : Nat}
    {bound : Option UInt64} {dataset : Dataset}
    (loaded : ofEdges stream count bound = some (.ok dataset)) (bounded : dataset.bound ≠ 0)
    (fits : dataset.Fits) {passed : Fin size → Option Dataset}
    (given : passed ⟨0, inhabited⟩ = some dataset) :
    CutFrom stream count dataset ∧ ∃ shared : Fin size → Dataset,
      (Plan.group fun rank => (distribute ⟨rank, size⟩ (passed rank) count).run).Settles
        (List.ofFn fun rank => .ok (shared rank)) ∧
      SharedByPosition dataset shared := by
  have cut := cutFrom_of_ofEdges loaded
  have settles := Plan.lockstep_settles inhabited
    (together_distribute inhabited fits bounded passed given)
  rw [cut.batches] at settles
  exact ⟨cut, _, settles, sharedByPosition_sharedOut inhabited dataset⟩

/-- Eleven edges with rising timestamps, as a stream of two batches for three ranks. -/
def rising : List Edge :=
  [⟨1, 1, 1, 1⟩, ⟨2, 1, 1, 2⟩, ⟨3, 1, 1, 3⟩, ⟨4, 1, 1, 4⟩, ⟨5, 1, 1, 5⟩, ⟨6, 1, 1, 6⟩,
    ⟨7, 1, 1, 7⟩, ⟨8, 1, 1, 8⟩, ⟨9, 1, 1, 9⟩, ⟨10, 1, 1, 10⟩, ⟨11, 1, 1, 11⟩]

def risingBatches : Dataset := ⟨20, [⟨rising.take 5, 5⟩, ⟨rising.drop 5, 11⟩]⟩

theorem rising_batches_are_shared :
    ofEdges rising 2 (some 20) = some (.ok risingBatches) ∧ risingBatches.bound ≠ 0 ∧
      risingBatches.Fits ∧
      (CutFrom rising 2 risingBatches ∧ ∃ shared : Fin 3 → Dataset,
        (Plan.group fun rank : Fin 3 => (distribute ⟨rank, 3⟩
          (if rank = 0 then some risingBatches else none) 2).run).Settles
          (List.ofFn fun rank => .ok (shared rank)) ∧
        SharedByPosition risingBatches shared) ∧
      (List.ofFn fun rank : Fin 3 => ((risingBatches.sharedOut 3 rank).batches.map fun batch =>
        batch.edges.length)) = [[1, 2], [1, 2], [3, 2]] := by
  have loaded : ofEdges rising 2 (some 20) = some (.ok risingBatches) := by decide
  have bounded : risingBatches.bound ≠ 0 := by decide
  have fits : risingBatches.Fits := ⟨by decide, by decide⟩
  exact ⟨loaded, bounded, fits,
    batches_are_shared_by_position (by decide) loaded bounded fits rfl, by decide⟩

end StreamGraph.Dataset
