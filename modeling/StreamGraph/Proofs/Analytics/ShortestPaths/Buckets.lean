import StreamGraph.Analytics.ShortestPaths
import StreamGraph.Proofs.Analytics.Ways

/-!
Buckets and the proposals that fill them. A vertex is filed under the number that its distance
gives, and files only grow while a bucket is worked on. Proposals come along the edges of active
vertices and are never shorter than the distances that these have.
-/

namespace StreamGraph.ShortestPaths

variable {size : Nat} {bound : UInt64} {shards : Fin size → Shard}
  {scans : (rank : Fin size) → Scan (shards rank)} {width : Int64}

/-- A number that files a distance does not fall when the distance rises. -/
theorem number_mono (positive : 0 < width.toInt) {low high : Int64}
    (below : low.toInt ≤ high.toInt) : (low / width).toInt ≤ (high / width).toInt := by
  have notNegative : width ≠ -1 := by
    intro negative
    rw [negative] at positive
    exact absurd positive (by decide)
  rw [Int64.toInt_div_of_ne_right _ _ notNegative, Int64.toInt_div_of_ne_right _ _ notNegative]
  exact Int.tdiv_le_tdiv positive below

/-- What an edge is long: its weight, or nothing if that is negative. -/
def stretch (attrs : Attrs) : Nat := attrs.weight.toInt.toNat

theorem toInt_edgeLength (attrs : Attrs) : (edgeLength attrs).toInt = stretch attrs := by
  change (if attrs.weight ≤ 0 then (0 : Int64) else attrs.weight).toInt = _
  have zero : (0 : Int64).toInt = 0 := rfl
  unfold stretch
  split
  · next negative =>
      rw [Int64.le_iff_toInt_le, zero] at negative
      rw [zero]
      omega
  · next positive =>
      rw [Int64.le_iff_toInt_le, zero] at positive
      omega

/-- A proposed distance is exact up to the greatest word. -/
theorem toInt_candidate (distance : Int64) (attrs : Attrs) :
    (Saturation.add distance (edgeLength attrs)).toInt =
      min (distance.toInt + stretch attrs) Saturation.greatest := by
  have least := Saturation.least_le_toInt distance
  rw [Saturation.toInt_add, toInt_edgeLength, min_comm]
  apply max_eq_right
  apply le_min
  · omega
  · decide

theorem le_candidate (distance : Int64) (attrs : Attrs) :
    distance.toInt ≤ (Saturation.add distance (edgeLength attrs)).toInt := by
  have greatest := Saturation.toInt_le_greatest distance
  rw [toInt_candidate]
  omega

namespace Buckets

/-- The lowest bucket comes first, and each number has one bucket. -/
def Ascending (buckets : Buckets) : Prop :=
  buckets.Pairwise fun left right => left.1.toInt < right.1.toInt

/-- All buckets have higher numbers. -/
def Above (number : Int64) (buckets : Buckets) : Prop :=
  ∀ entry ∈ buckets, number.toInt < entry.1.toInt

theorem number_of_mem_file {number : Int64} {vertex : VertexId} {buckets : Buckets}
    {entry : Int64 × List VertexId} (member : entry ∈ buckets.file number vertex) :
    entry.1 = number ∨ ∃ old ∈ buckets, old.1 = entry.1 := by
  induction buckets with
  | nil =>
      rw [List.mem_singleton.1 member]
      exact Or.inl rfl
  | cons head rest ih =>
      rcases head with ⟨other, vertices⟩
      unfold file at member
      split at member
      · rcases List.mem_cons.1 member with rfl | old
        · exact Or.inl rfl
        · exact Or.inr ⟨entry, old, rfl⟩
      · split at member
        · next same =>
            rcases List.mem_cons.1 member with rfl | old
            · exact Or.inl same.symm
            · exact Or.inr ⟨entry, List.mem_cons_of_mem _ old, rfl⟩
        · rcases List.mem_cons.1 member with rfl | inRest
          · exact Or.inr ⟨_, List.mem_cons_self .., rfl⟩
          · rcases ih inRest with new | ⟨old, inOld, same⟩
            · exact Or.inl new
            · exact Or.inr ⟨old, List.mem_cons_of_mem _ inOld, same⟩

theorem ascending_file (number : Int64) (vertex : VertexId) {buckets : Buckets}
    (ascending : buckets.Ascending) : (buckets.file number vertex).Ascending := by
  induction buckets with
  | nil => exact List.pairwise_singleton ..
  | cons head rest ih =>
      rcases head with ⟨other, vertices⟩
      have order := List.pairwise_cons.1 ascending
      unfold file
      split
      · next below =>
          rw [Int64.lt_iff_toInt_lt] at below
          apply List.pairwise_cons.2
          constructor
          · intro entry member
            rcases List.mem_cons.1 member with rfl | inRest
            · exact below
            · exact Int.lt_trans below (order.1 entry inRest)
          · exact ascending
      · next notBelow =>
          split
          · exact List.pairwise_cons.2 order
          · next differ =>
              apply List.pairwise_cons.2
              constructor
              · intro entry member
                rw [Int64.lt_iff_toInt_lt] at notBelow
                rcases number_of_mem_file member with new | ⟨old, inRest, same⟩
                · have apart : number.toInt ≠ other.toInt :=
                    fun equal => differ (Int64.toInt_inj.1 equal)
                  rw [new]
                  dsimp only
                  omega
                · rw [← same]
                  exact order.1 old inRest
              · exact ih order.2

theorem above_file {least number : Int64} (vertex : VertexId) {buckets : Buckets}
    (above : buckets.Above least) (higher : least.toInt < number.toInt) :
    (buckets.file number vertex).Above least := by
  intro entry member
  rcases number_of_mem_file member with new | ⟨old, inOld, same⟩
  · rw [new]
    exact higher
  · rw [← same]
    exact above old inOld

/-- A vertex waits in the bucket of a number. -/
def Files (buckets : Buckets) (number : Int64) (vertex : VertexId) : Prop :=
  ∃ entry ∈ buckets, entry.1 = number ∧ vertex ∈ entry.2

theorem files_file (number : Int64) (vertex : VertexId) (buckets : Buckets) :
    (buckets.file number vertex).Files number vertex := by
  induction buckets with
  | nil => exact ⟨_, List.mem_singleton.2 rfl, rfl, List.mem_singleton.2 rfl⟩
  | cons head rest ih =>
      rcases head with ⟨other, vertices⟩
      unfold file
      split
      · exact ⟨_, List.mem_cons_self .., rfl, List.mem_singleton.2 rfl⟩
      · split
        · next same =>
            exact ⟨_, List.mem_cons_self .., same.symm,
              List.mem_append_right _ (List.mem_singleton.2 rfl)⟩
        · obtain ⟨entry, member, rest⟩ := ih
          exact ⟨entry, List.mem_cons_of_mem _ member, rest⟩

/-- Nothing that was filed is lost. -/
theorem Files.file {buckets : Buckets} {number : Int64} {vertex : VertexId}
    (files : buckets.Files number vertex) (other : Int64) (next : VertexId) :
    (Buckets.file other next buckets).Files number vertex := by
  induction buckets with
  | nil =>
      obtain ⟨_, member, _⟩ := files
      cases member
  | cons head rest ih =>
      rcases head with ⟨lowest, vertices⟩
      obtain ⟨entry, member, isNumber, inBucket⟩ := files
      unfold Buckets.file
      split
      · exact ⟨entry, List.mem_cons_of_mem _ member, isNumber, inBucket⟩
      · split
        · rcases List.mem_cons.1 member with rfl | inRest
          · exact ⟨_, List.mem_cons_self .., isNumber, List.mem_append_left _ inBucket⟩
          · exact ⟨entry, List.mem_cons_of_mem _ inRest, isNumber, inBucket⟩
        · rcases List.mem_cons.1 member with rfl | inRest
          · exact ⟨_, List.mem_cons_self .., isNumber, inBucket⟩
          · obtain ⟨found, inFile, rest⟩ := ih ⟨entry, inRest, isNumber, inBucket⟩
            exact ⟨found, List.mem_cons_of_mem _ inFile, rest⟩

end Buckets

/-- What all ranks propose in a round within a bucket. -/
def proposals (scans : (rank : Fin size) → Scan (shards rank)) (bucket : Bucket) :
    List Proposal :=
  (List.ofFn fun rank => relax (scans rank) bucket).flatten

/-- Along every edge of an active vertex, the distance over this edge is proposed if it is
shorter; and nothing else is. -/
theorem mem_proposals (ready : StageReady bound shards) {bucket : Bucket} {proposal : Proposal} :
    proposal ∈ proposals scans bucket ↔ ∃ giver ∈ bucket.active, ∃ attrs,
      linksOf shards giver proposal.vertex attrs ∧
      proposal.value = Saturation.add (bucket.search.distances.of giver) (edgeLength attrs) ∧
      proposal.value.toInt < (bucket.search.distances.of proposal.vertex).toInt := by
  unfold proposals relax
  rw [Collective.mem_flatten_ofFn]
  simp only [List.mem_flatMap, List.mem_filter, List.mem_filterMap, Option.ite_none_right_eq_some,
    Option.some.injEq]
  constructor
  · rintro ⟨rank, giver, ⟨isActive, _⟩, ⟨target, attrs⟩, inRow, shorter, rfl⟩
    exact ⟨giver, isActive, attrs, ⟨rank, ((scans rank).mem_outEdges ..).1 inRow⟩, rfl,
      Int64.lt_iff_toInt_lt.1 shorter⟩
  · rintro ⟨giver, isActive, attrs, ⟨rank, stored⟩, value, shorter⟩
    rcases proposal with ⟨target, word⟩
    dsimp only at value shorter
    subst value
    exact ⟨rank, giver, ⟨isActive, ready.owns_of_stored stored⟩, (target, attrs),
      ((scans rank).mem_outEdges ..).2 stored, Int64.lt_iff_toInt_lt.2 shorter, rfl⟩

/-- A proposed distance is not shorter than that of an active vertex. -/
theorem giver_of_mem_proposals (ready : StageReady bound shards) {bucket : Bucket}
    {proposal : Proposal} (member : proposal ∈ proposals scans bucket) :
    ∃ giver ∈ bucket.active,
      (bucket.search.distances.of giver).toInt ≤ proposal.value.toInt := by
  obtain ⟨giver, isActive, attrs, _, value, _⟩ := (mem_proposals ready).1 member
  rw [value]
  exact ⟨giver, isActive, le_candidate ..⟩

theorem length_relax {shard : Shard} (scan : Scan shard) {bucket : Bucket}
    (nodup : bucket.active.Nodup) : (relax scan bucket).length ≤ shard.edges.length := by
  have looked := scan.length_flatMap_outEdges (nodup.filter shard.owns)
  apply le_trans _ looked
  unfold relax
  generalize bucket.active.filter shard.owns = sources
  induction sources with
  | nil => exact Nat.le_refl _
  | cons source others ih =>
      rw [List.flatMap_cons, List.flatMap_cons, List.length_append, List.length_append]
      exact Nat.add_le_add (List.length_filterMap_le ..) ih

/-- A bucket before and after some proposals were taken over. -/
structure Accepted (width : Int64) (before after : Bucket) (proposals : List Proposal) : Prop where
  distances : after.search.distances = proposals.foldl Labels.lowered before.search.distances
  settled : after.search.settled = before.search.settled
  number : after.number = before.number
  members : after.members = before.members
  active (vertex : VertexId) (isActive : vertex ∈ after.active) : vertex ∈ before.active ∨
    ∃ proposal ∈ proposals, proposal.vertex = vertex ∧
      vertex.toNat < before.search.distances.size ∧
      proposal.value.toInt < (before.search.distances.of vertex).toInt ∧
      proposal.value / width = before.number
  stays (vertex : VertexId) (wasActive : vertex ∈ before.active) : vertex ∈ after.active
  ascending : before.search.buckets.Ascending → after.search.buckets.Ascending
  above (least : Int64) (old : before.search.buckets.Above least)
    (new : ∀ proposal ∈ proposals, proposal.value / width ≠ before.number →
      least.toInt < (proposal.value / width).toInt) : after.search.buckets.Above least
  files (number : Int64) (vertex : VertexId) (old : before.search.buckets.Files number vertex) :
    after.search.buckets.Files number vertex
  /-- A vertex whose distance has changed is active or filed under its new distance. -/
  filed (vertex : VertexId)
    (changed : after.search.distances.of vertex ≠ before.search.distances.of vertex) :
    (after.search.distances.of vertex / width = before.number ∧ vertex ∈ after.active) ∨
      after.search.buckets.Files (after.search.distances.of vertex / width) vertex

theorem accepted_nothing (width : Int64) (bucket : Bucket) : Accepted width bucket bucket [] where
  distances := rfl
  settled := rfl
  number := rfl
  members := rfl
  active _ isActive := Or.inl isActive
  stays _ wasActive := wasActive
  ascending := id
  above _ old _ := old
  files _ _ old := old
  filed _ changed := absurd rfl changed

/-- A shorter distance inside the bucket makes its vertex active. -/
theorem accepted_inside {bucket : Bucket} {proposal : Proposal}
    (shorter : proposal.vertex.toNat < bucket.search.distances.size ∧
      proposal.value < bucket.search.distances.of proposal.vertex)
    (inside : proposal.value / width = bucket.number) : Accepted width bucket
      { bucket with
        search := { bucket.search with
          distances := bucket.search.distances.lowered proposal }
        active := bucket.active ++ [proposal.vertex] } [proposal] where
  distances := rfl
  settled := rfl
  number := rfl
  members := rfl
  active vertex isActive := by
    rcases List.mem_append.1 isActive with old | new
    · exact Or.inl old
    · rw [List.mem_singleton.1 new]
      exact Or.inr ⟨proposal, List.mem_singleton.2 rfl, rfl, shorter.1,
        Int64.lt_iff_toInt_lt.1 shorter.2, inside⟩
  stays _ wasActive := List.mem_append_left _ wasActive
  ascending := id
  above _ old _ := old
  files _ _ old := old
  filed vertex changed := by
    obtain ⟨rfl, value⟩ := Labels.lowered_of_ne changed
    dsimp only
    rw [value]
    exact Or.inl ⟨inside, List.mem_append_right _ (List.mem_singleton.2 rfl)⟩

/-- A shorter distance above the bucket is filed. -/
theorem accepted_elsewhere {bucket : Bucket} {proposal : Proposal}
    (elsewhere : proposal.value / width ≠ bucket.number) : Accepted width bucket
      { bucket with
        search := { bucket.search with
          distances := bucket.search.distances.lowered proposal
          buckets := bucket.search.buckets.file (proposal.value / width) proposal.vertex } }
      [proposal] where
  distances := rfl
  settled := rfl
  number := rfl
  members := rfl
  active _ isActive := Or.inl isActive
  stays _ wasActive := wasActive
  ascending := Buckets.ascending_file _ _
  above _ old new := Buckets.above_file _ old
    (new proposal (List.mem_singleton.2 rfl) elsewhere)
  files _ _ old := old.file _ _
  filed vertex changed := by
    obtain ⟨rfl, value⟩ := Labels.lowered_of_ne changed
    dsimp only
    rw [value]
    exact Or.inr (Buckets.files_file ..)

theorem accepted_one (width : Int64) (bucket : Bucket) (proposal : Proposal) :
    Accepted width bucket (accept width bucket proposal) [proposal] := by
  unfold accept
  dsimp only
  split
  · next shorter =>
      rw [← Labels.lowered_of_lt shorter]
      split
      · next inside => exact accepted_inside shorter inside
      · next elsewhere => exact accepted_elsewhere elsewhere
  · next notShorter =>
      have nothing := accepted_nothing width bucket
      exact { nothing with
        distances := (Labels.lowered_of_not_lt notShorter).symm
        active := fun _ isActive => Or.inl isActive
        above := fun _ old _ => old }

theorem Accepted.cons {before middle after : Bucket} {proposal : Proposal}
    {others : List Proposal} (first : Accepted width before middle [proposal])
    (later : Accepted width middle after others) :
    Accepted width before after (proposal :: others) := by
  have sunk := Labels.sunk_lowered before.search.distances proposal
  have one : middle.search.distances = before.search.distances.lowered proposal := first.distances
  constructor
  · rw [later.distances, one, List.foldl_cons]
  · exact later.settled.trans first.settled
  · exact later.number.trans first.number
  · exact later.members.trans first.members
  · intro vertex isActive
    rcases later.active vertex isActive with earlier | ⟨other, member, isFor, inside, less, filed⟩
    · rcases first.active vertex earlier with old | ⟨same, member, rest⟩
      · exact Or.inl old
      · rw [List.mem_singleton.1 member] at rest
        exact Or.inr ⟨proposal, List.mem_cons_self .., rest⟩
    · rw [one, sunk.size] at inside
      rw [one] at less
      rw [first.number] at filed
      exact Or.inr ⟨other, List.mem_cons_of_mem _ member, isFor, inside,
        Int.lt_of_lt_of_le less (sunk.sinks vertex), filed⟩
  · exact fun vertex wasActive => later.stays vertex (first.stays vertex wasActive)
  · exact fun old => later.ascending (first.ascending old)
  · intro least old new
    apply later.above least
    · apply first.above least old
      intro same member
      rw [List.mem_singleton.1 member]
      exact new proposal (List.mem_cons_self ..)
    · rw [first.number]
      exact fun other member => new other (List.mem_cons_of_mem _ member)
  · exact fun number vertex old => later.files number vertex (first.files number vertex old)
  · intro vertex changed
    by_cases again : after.search.distances.of vertex = middle.search.distances.of vertex
    · rw [again] at changed ⊢
      rcases first.filed vertex changed with ⟨inside, isActive⟩ | filed
      · exact Or.inl ⟨inside, later.stays vertex isActive⟩
      · exact Or.inr (later.files _ vertex filed)
    · rw [← first.number]
      exact later.filed vertex again

theorem accepted_foldl (width : Int64) (bucket : Bucket) (proposals : List Proposal) :
    Accepted width bucket (proposals.foldl (accept width) bucket) proposals := by
  induction proposals generalizing bucket with
  | nil => exact accepted_nothing width bucket
  | cons proposal others ih =>
      exact (accepted_one width bucket proposal).cons (ih (accept width bucket proposal))

end StreamGraph.ShortestPaths
