import StreamGraph.Proofs.Analytics.ShortestPaths.Rounds

/-!
What the distances are. Every distance below the greatest word is the length of a way, and a vertex
whose edges may still shorten something waits: it is active, or filed under its distance. A settled
vertex lies below all buckets that are left, so its distance does not change any more. When no
vertex waits, no edge shortens anything, and then no way is shorter than the distances say.
-/

namespace StreamGraph.ShortestPaths

open Collective

variable {size : Nat} {bound : UInt64} {shards : Fin size → Shard}
  {scans : (rank : Fin size) → Scan (shards rank)} {width : Int64} {links : Links}
  {sources : List VertexId}

/-- Distances that are lengths of ways, with nothing in the way of the sources. -/
structure Measured (links : Links) (bound : UInt64) (sources : List VertexId)
    (distances : Labels) : Prop where
  begun (source : VertexId) (member : source ∈ sources) : (distances.of source).toInt = 0
  real (vertex : VertexId) (inside : vertex.toNat < bound.toNat) :
    distances.of vertex = unreached ∨
      ∃ total : Nat, (distances.of vertex).toInt = total ∧
        links.Way stretch sources vertex total

/-- No edge of a vertex leads to a shorter distance. -/
def Relaxed (links : Links) (distances : Labels) (vertex : VertexId) : Prop :=
  ∀ target attrs, links vertex target attrs →
    (distances.of target).toInt ≤
      min ((distances.of vertex).toInt + stretch attrs) Saturation.greatest

theorem relaxed_of_unreached {distances : Labels} {vertex : VertexId}
    (far : distances.of vertex = unreached) : Relaxed links distances vertex := by
  intro target attrs _
  have below := Saturation.toInt_le_greatest (distances.of target)
  have greatest : (unreached).toInt = Saturation.greatest := rfl
  rw [far, greatest]
  omega

/-- When other distances sink, a vertex stays relaxed. -/
theorem Relaxed.sunk {before after : Labels} {proposals : List Proposal} {vertex : VertexId}
    (relaxed : Relaxed links before vertex) (sunk : Labels.Sunk before after proposals)
    (same : after.of vertex = before.of vertex) : Relaxed links after vertex := by
  intro target attrs link
  rw [same]
  exact Int.le_trans (sunk.sinks target) (relaxed target attrs link)

/-- Along a way without an edge that shortens anything, distances grow no faster than the way. -/
theorem le_of_relaxed {distances : Labels} (measured : Measured links bound sources distances)
    (relaxed : ∀ vertex total, links.Way stretch sources vertex total →
      Relaxed links distances vertex)
    {vertex : VertexId} {total : Nat} (way : links.Way stretch sources vertex total) :
    (distances.of vertex).toInt ≤ min (total : Int) Saturation.greatest := by
  induction way with
  | start member =>
      rw [measured.begun _ member]
      decide
  | step before link ih =>
      have last := relaxed _ _ before _ _ link
      omega

/-- Every vertex has its distance from the sources, up to the greatest word; and one that no way
from a source leads to has the greatest word. -/
structure Shortest (links : Links) (bound : UInt64) (sources : List VertexId)
    (distances : Labels) : Prop where
  size : distances.size = bound.toNat
  reached (vertex : VertexId) (distance : Nat)
    (nearest : links.IsDistance stretch sources vertex distance) :
    (distances.of vertex).toInt = min (distance : Int) Int64.maxValue.toInt
  beyond (vertex : VertexId) (inside : vertex.toNat < bound.toNat)
    (nowhere : links.IsBeyond sources vertex) : distances.of vertex = Int64.maxValue

theorem Shortest.unique (first second : Labels) (left : Shortest links bound sources first)
    (right : Shortest links bound sources second) : first = second := by
  apply Labels.ext_of left.size right.size
  intro vertex inside
  rcases links.distance_or_beyond stretch sources vertex with ⟨distance, nearest⟩ | nowhere
  · apply Int64.toInt_inj.1
    rw [left.reached vertex distance nearest, right.reached vertex distance nearest]
  · rw [left.beyond vertex inside nowhere, right.beyond vertex inside nowhere]

theorem shortest_of_relaxed {distances : Labels} (sized : distances.size = bound.toNat)
    (measured : Measured links bound sources distances)
    (within : ∀ vertex total, links.Way stretch sources vertex total →
      vertex.toNat < bound.toNat)
    (relaxed : ∀ vertex : VertexId, vertex.toNat < bound.toNat →
      Relaxed links distances vertex) : Shortest links bound sources distances where
  size := sized
  reached vertex distance nearest := by
    have inside := within vertex distance nearest.1
    have low := le_of_relaxed measured
      (fun vertex total way => relaxed vertex (within vertex total way)) nearest.1
    have greatest : Int64.maxValue.toInt = Saturation.greatest := rfl
    rw [greatest]
    rcases measured.real vertex inside with far | ⟨total, number, way⟩
    · have top : (distances.of vertex).toInt = Saturation.greatest := by
        rw [far]
        rfl
      omega
    · have shortest : distance ≤ total := nearest.2 way
      omega
  beyond vertex inside nowhere := by
    rcases measured.real vertex inside with far | ⟨total, _, way⟩
    · exact far
    · exact absurd way (nowhere stretch total)

/-- A vertex that is not settled waits in the bucket of its distance. -/
structure Waits (width : Int64) (search : Search) (vertex : VertexId) : Prop where
  unsettled : search.settled.getD vertex.toNat true = false
  filed : search.buckets.Files (search.distances.of vertex / width) vertex

/-- A search between two buckets: a vertex that is not relaxed waits, and a settled one lies below
all buckets. -/
structure Charted (links : Links) (bound : UInt64) (sources : List VertexId) (width : Int64)
    (search : Search) : Prop where
  measured : Measured links bound sources search.distances
  waiting (vertex : VertexId) (inside : vertex.toNat < bound.toNat) :
    Relaxed links search.distances vertex ∨ Waits width search vertex
  closed (vertex : VertexId) (inside : vertex.toNat < bound.toNat)
    (settled : search.settled.getD vertex.toNat true = true) :
    search.buckets.Above (search.distances.of vertex / width)

/-- A search within a bucket: a vertex that is not relaxed is active or waits, those that have been
looked at belong to the bucket, and a settled one lies below it. -/
structure Tracked (links : Links) (bound : UInt64) (sources : List VertexId) (width : Int64)
    (bucket : Bucket) : Prop where
  measured : Measured links bound sources bucket.search.distances
  waiting (vertex : VertexId) (inside : vertex.toNat < bound.toNat) :
    Relaxed links bucket.search.distances vertex ∨ vertex ∈ bucket.active ∨
      Waits width bucket.search vertex
  members (vertex : VertexId) (isMember : vertex ∈ bucket.members) :
    bucket.search.distances.of vertex / width = bucket.number
  closed (vertex : VertexId) (inside : vertex.toNat < bound.toNat)
    (settled : bucket.search.settled.getD vertex.toNat true = true) :
    (bucket.search.distances.of vertex / width).toInt < bucket.number.toInt

/-- A proposed distance is the length of a way, one edge longer. -/
theorem Measured.of_mem_proposals (ready : StageReady bound shards) {bucket : Bucket}
    (measured : Measured (linksOf shards) bound sources bucket.search.distances)
    {proposal : Proposal} (member : proposal ∈ proposals scans bucket) :
    ∃ total : Nat, proposal.value.toInt = total ∧
      (linksOf shards).Way stretch sources proposal.vertex total := by
  obtain ⟨giver, _, attrs, link, value, shorter⟩ := (mem_proposals ready).1 member
  have candidate := toInt_candidate (bucket.search.distances.of giver) attrs
  have top := Saturation.toInt_le_greatest (bucket.search.distances.of proposal.vertex)
  rw [← value] at candidate
  rcases measured.real giver (ready.within_of_link link).1 with far | ⟨total, number, way⟩
  · have greatest : (bucket.search.distances.of giver).toInt = Saturation.greatest := by
      rw [far]
      rfl
    omega
  · refine ⟨total + stretch attrs, ?_, way.step link⟩
    rw [Nat.cast_add]
    omega

theorem measured_workOn (ready : StageReady bound shards)
    (valid : ∀ source ∈ sources, source.isEndpoint bound = true) {bucket : Bucket}
    (measured : Measured (linksOf shards) bound sources bucket.search.distances) :
    Measured (linksOf shards) bound sources (workOn scans width bucket).search.distances := by
  have sunk := sunk_workOn scans width bucket
  have real : ∀ vertex : VertexId, vertex.toNat < bound.toNat →
      (workOn scans width bucket).search.distances.of vertex = unreached ∨
        ∃ total : Nat, ((workOn scans width bucket).search.distances.of vertex).toInt = total ∧
          (linksOf shards).Way stretch sources vertex total := by
    intro vertex inside
    rcases sunk.given vertex with same | ⟨proposal, member, rfl, _, value, _⟩
    · rw [same]
      exact measured.real vertex inside
    · rw [value]
      exact Or.inr (measured.of_mem_proposals ready member)
  refine ⟨fun source member => ?_, real⟩
  have inside := ((VertexId.isEndpoint_iff ..).1 (valid source member)).2
  have sinks := sunk.sinks source
  rw [measured.begun source member] at sinks
  rcases real source inside with far | ⟨total, number, _⟩
  · have greatest : 0 < (unreached).toInt := by decide
    rw [far] at sinks
    omega
  · omega

/-- A vertex whose edges have been looked at is relaxed, if its own distance has not changed. -/
theorem relaxed_of_active (ready : StageReady bound shards) {rounds : Nat} {bucket : Bucket}
    (working : Working bound width rounds bucket) {vertex : VertexId}
    (isActive : vertex ∈ bucket.active)
    (same : (workOn scans width bucket).search.distances.of vertex =
      bucket.search.distances.of vertex) :
    Relaxed (linksOf shards) (workOn scans width bucket).search.distances vertex := by
  have sunk := sunk_workOn scans width bucket
  intro target attrs link
  rw [same, ← toInt_candidate]
  by_cases shorter : (Saturation.add (bucket.search.distances.of vertex)
      (edgeLength attrs)).toInt < (bucket.search.distances.of target).toInt
  · have inside : target.toNat < bucket.search.distances.size := by
      rw [working.order.distances]
      exact (ready.within_of_link link).2
    exact sunk.heard ⟨target, _⟩
      ((mem_proposals ready).2 ⟨vertex, isActive, attrs, link, rfl, shorter⟩) inside
  · exact Int.le_trans (sunk.sinks target) (Int.not_lt.1 shorter)

/-- A settled vertex lies below everything that is proposed, so its distance stays. -/
theorem Tracked.kept_of_settled (ready : StageReady bound shards) (positive : 0 < width.toInt)
    {rounds : Nat} {bucket : Bucket} (working : Working bound width rounds bucket)
    (tracked : Tracked links bound sources width bucket) {vertex : VertexId}
    (inside : vertex.toNat < bound.toNat)
    (settled : bucket.search.settled.getD vertex.toNat true = true) :
    (workOn scans width bucket).search.distances.of vertex =
      bucket.search.distances.of vertex := by
  by_contra changed
  have below := tracked.closed vertex inside settled
  have sinks := working.number_le_of_sunk ready positive changed
  omega

theorem tracked_workOn (ready : StageReady bound shards) (positive : 0 < width.toInt)
    (valid : ∀ source ∈ sources, source.isEndpoint bound = true) {rounds : Nat} {bucket : Bucket}
    (working : Working bound width rounds bucket)
    (tracked : Tracked (linksOf shards) bound sources width bucket) :
    Tracked (linksOf shards) bound sources width (workOn scans width bucket) := by
  have accepted := accepted_workOn scans width bucket
  have sunk := sunk_workOn scans width bucket
  have settledSame : (workOn scans width bucket).search.settled = bucket.search.settled :=
    accepted.settled
  constructor
  · exact measured_workOn ready valid tracked.measured
  · intro vertex inside
    -- a vertex whose distance has changed is taken up again, the others were before
    by_cases same : (workOn scans width bucket).search.distances.of vertex =
        bucket.search.distances.of vertex
    · rcases tracked.waiting vertex inside with relaxed | isActive | waits
      · exact Or.inl (relaxed.sunk sunk same)
      · exact Or.inl (relaxed_of_active ready working isActive same)
      · refine Or.inr (Or.inr ⟨settledSame ▸ waits.unsettled, ?_⟩)
        rw [same]
        exact accepted.files _ vertex waits.filed
    · rcases accepted.filed vertex same with ⟨_, isActive⟩ | filed
      · exact Or.inr (Or.inl isActive)
      · refine Or.inr (Or.inr ⟨?_, filed⟩)
        rw [settledSame, ← Bool.not_eq_true]
        exact fun settled => same (tracked.kept_of_settled ready positive working inside settled)
  · intro vertex isMember
    -- one that was looked at may sink again, but not below the bucket
    rw [number_workOn]
    have was : bucket.search.distances.of vertex / width = bucket.number := by
      rw [accepted.members] at isMember
      rcases List.mem_append.1 isMember with old | wasActive
      · exact tracked.members vertex old
      · exact working.numbered vertex wasActive
    by_cases same : (workOn scans width bucket).search.distances.of vertex =
        bucket.search.distances.of vertex
    · rw [same]
      exact was
    · have sinks := working.number_le_of_sunk ready positive same
      rw [was] at sinks
      exact Int64.toInt_inj.1 (Int.le_antisymm sinks.2 sinks.1)
  · intro vertex inside settled
    rw [settledSame] at settled
    rw [number_workOn, tracked.kept_of_settled ready positive working inside settled]
    exact tracked.closed vertex inside settled

/-- Settling a vertex settles no other one; beyond the table all count as settled. -/
theorem settled_set_iff (settled : Array Bool) (member vertex : VertexId) :
    (settled.setIfInBounds member.toNat true).getD vertex.toNat true = true ↔
      vertex = member ∨ settled.getD vertex.toNat true = true := by
  rw [getD_setIfInBounds]
  by_cases same : member = vertex
  · subst same
    by_cases inside : member.toNat < settled.size
    · simp [inside]
    · simp [inside]
  · simp [same, Ne.symm same]

/-- A vertex is settled with its bucket if its edges have been looked at in it. -/
theorem settled_settle (bucket : Bucket) (vertex : VertexId) :
    (settle bucket).settled.getD vertex.toNat true = true ↔
      vertex ∈ bucket.members ∨ bucket.search.settled.getD vertex.toNat true = true := by
  unfold settle
  dsimp only
  generalize bucket.search.settled = settled
  induction bucket.members generalizing settled with
  | nil => simp
  | cons member others ih =>
      rw [List.foldl_cons, ih, settled_set_iff, List.mem_cons, or_left_comm, or_assoc]

/-- When no vertex of a bucket is active, settling it leaves only higher buckets. -/
theorem Tracked.settle {rounds : Nat} {bucket : Bucket}
    (working : Working bound width rounds bucket)
    (tracked : Tracked links bound sources width bucket) (quiet : bucket.active = []) :
    Charted links bound sources width (settle bucket) where
  measured := tracked.measured
  waiting vertex inside := by
    rcases tracked.waiting vertex inside with relaxed | isActive | waits
    · exact Or.inl relaxed
    · rw [quiet] at isActive
      cases isActive
    · refine Or.inr ⟨?_, waits.filed⟩
      rw [← Bool.not_eq_true, settled_settle]
      rintro (isMember | settled)
      · -- it would be filed under the bucket itself
        obtain ⟨entry, member, number, _⟩ := waits.filed
        have higher := working.above entry member
        rw [number, tracked.members vertex isMember] at higher
        exact Int.lt_irrefl _ higher
      · rw [waits.unsettled] at settled
        cases settled
  closed vertex inside settled := by
    have below : (bucket.search.distances.of vertex / width).toInt ≤ bucket.number.toInt := by
      rcases (settled_settle bucket vertex).1 settled with isMember | before
      · rw [tracked.members vertex isMember]
      · exact Int.le_of_lt (tracked.closed vertex inside before)
    intro entry member
    exact Int.lt_of_le_of_lt below (working.above entry member)

/-- The lowest bucket is taken out, and what waits in it becomes active. -/
theorem Charted.begin {search : Search} (charted : Charted links bound sources width search)
    {number : Int64} {filed : List VertexId} {buckets : Buckets}
    (first : search.buckets = (number, filed) :: buckets) :
    Tracked links bound sources width ⟨{ search with buckets }, number,
      ascending (filed.filter (isCurrent width search number)), []⟩ where
  measured := charted.measured
  waiting vertex inside := by
    rcases charted.waiting vertex inside with
      relaxed | ⟨unsettled, entry, member, isNumber, inEntry⟩
    · exact Or.inl relaxed
    · rw [first] at member
      rcases List.mem_cons.1 member with rfl | inRest
      · refine Or.inr (Or.inl (Traversal.mem_ascending.2 (List.mem_filter.2 ⟨inEntry, ?_⟩)))
        unfold isCurrent
        rw [unsettled, ← isNumber]
        simp
      · exact Or.inr (Or.inr ⟨unsettled, entry, inRest, isNumber, inEntry⟩)
  members vertex isMember := by cases isMember
  closed vertex inside settled :=
    charted.closed vertex inside settled (number, filed) (first ▸ List.mem_cons_self ..)

/-- A bucket in which nothing waits is dropped. -/
theorem Charted.skip {search : Search} (charted : Charted links bound sources width search)
    {number : Int64} {filed : List VertexId} {buckets : Buckets}
    (first : search.buckets = (number, filed) :: buckets)
    (quiet : ascending (filed.filter (isCurrent width search number)) = []) :
    Charted links bound sources width { search with buckets } where
  measured := charted.measured
  waiting vertex inside := by
    rcases (charted.begin first).waiting vertex inside with relaxed | isActive | waits
    · exact Or.inl relaxed
    · dsimp only at isActive
      rw [quiet] at isActive
      cases isActive
    · exact Or.inr waits
  closed vertex inside settled entry member :=
    charted.closed vertex inside settled entry (first ▸ List.mem_cons_of_mem _ member)

/-- When no bucket is left, the distances are the shortest. -/
theorem Charted.shortest (ready : StageReady bound shards)
    (valid : ∀ source ∈ sources, source.isEndpoint bound = true) {search : Search}
    (order : InOrder bound search)
    (charted : Charted (linksOf shards) bound sources width search)
    (done : search.buckets = []) : Shortest (linksOf shards) bound sources search.distances := by
  apply shortest_of_relaxed order.distances charted.measured
  · exact fun vertex total way => ready.within_of_way valid way
  · intro vertex inside
    rcases charted.waiting vertex inside with relaxed | ⟨_, entry, member, _⟩
    · exact relaxed
    · rw [done] at member
      cases member

/-- A search that has taken up some sources: they have distance zero and wait in the lowest bucket,
and nothing else has happened. -/
structure TakenUp (bound : UInt64) (taken : List VertexId) (search : Search) : Prop where
  size : search.distances.size = bound.toNat
  settled : search.settled = Array.replicate bound.toNat false
  zero (vertex : VertexId) (isTaken : vertex ∈ taken) : search.distances.of vertex = 0
  far (vertex : VertexId) (inside : vertex.toNat < bound.toNat) (notTaken : vertex ∉ taken) :
    search.distances.of vertex = unreached
  filed (vertex : VertexId) (isTaken : vertex ∈ taken) : search.buckets.Files 0 vertex

theorem takenUp_nothing (bound : UInt64) :
    TakenUp bound [] ⟨.fill bound unreached, [], Array.replicate bound.toNat false⟩ where
  size := Labels.size_fill ..
  settled := rfl
  zero _ isTaken := absurd isTaken List.not_mem_nil
  far vertex inside _ := by simp [Labels.fill, Labels.of, inside]
  filed _ isTaken := absurd isTaken List.not_mem_nil

/-- A source that has distance zero already was taken up before. -/
theorem TakenUp.again {taken : List VertexId} {search : Search}
    (takenUp : TakenUp bound taken search) {source : VertexId}
    (inside : source.toNat < bound.toNat) (known : search.distances.of source = 0) :
    TakenUp bound (taken ++ [source]) search := by
  have before : source ∈ taken := by
    by_contra notTaken
    rw [takenUp.far source inside notTaken] at known
    exact absurd known (by decide)
  have either : ∀ vertex, vertex ∈ taken ++ [source] → vertex ∈ taken := by
    intro vertex member
    rcases List.mem_append.1 member with old | new
    · exact old
    · rwa [List.mem_singleton.1 new]
  exact ⟨takenUp.size, takenUp.settled,
    fun vertex member => takenUp.zero vertex (either vertex member),
    fun vertex inside notTaken => takenUp.far vertex inside
      fun member => notTaken (List.mem_append_left _ member),
    fun vertex member => takenUp.filed vertex (either vertex member)⟩

theorem TakenUp.takeUp {taken : List VertexId} {search : Search}
    (takenUp : TakenUp bound taken search) {source : VertexId}
    (inside : source.toNat < bound.toNat) :
    TakenUp bound (taken ++ [source]) (takeUp search source) := by
  unfold ShortestPaths.takeUp
  split
  · next known => exact takenUp.again inside known
  · have slot : ∀ vertex, (search.distances.put source 0).of vertex =
        if source = vertex then 0 else search.distances.of vertex := by
      intro vertex
      rw [Labels.of_put, takenUp.size]
      simp only [inside, and_true]
    constructor
    · exact (Labels.size_put ..).trans takenUp.size
    · exact takenUp.settled
    · intro vertex member
      dsimp only
      rw [slot]
      split
      · rfl
      · next differ =>
          rcases List.mem_append.1 member with old | new
          · exact takenUp.zero vertex old
          · exact absurd (List.mem_singleton.1 new).symm differ
    · intro vertex inside notTaken
      rw [List.mem_append, not_or, List.mem_singleton] at notTaken
      dsimp only
      rw [slot, if_neg (Ne.symm notTaken.2)]
      exact takenUp.far vertex inside notTaken.1
    · intro vertex member
      rcases List.mem_append.1 member with old | new
      · exact (takenUp.filed vertex old).file 0 source
      · rw [List.mem_singleton.1 new]
        exact Buckets.files_file ..

theorem TakenUp.foldl {taken others : List VertexId} {search : Search}
    (takenUp : TakenUp bound taken search)
    (valid : ∀ source ∈ others, source.isEndpoint bound = true) :
    TakenUp bound (taken ++ others) (others.foldl ShortestPaths.takeUp search) := by
  induction others generalizing taken search with
  | nil => rwa [List.append_nil]
  | cons source others ih =>
      have inside := ((VertexId.isEndpoint_iff ..).1 (valid source (List.mem_cons_self ..))).2
      rw [List.append_cons, List.foldl_cons]
      exact ih (takenUp.takeUp inside) fun other member =>
        valid other (List.mem_cons_of_mem _ member)

theorem takenUp_start (valid : ∀ source ∈ sources, source.isEndpoint bound = true) :
    TakenUp bound sources (start bound sources) :=
  (takenUp_nothing bound).foldl valid

theorem charted_start (links : Links) (width : Int64)
    (valid : ∀ source ∈ sources, source.isEndpoint bound = true) :
    Charted links bound sources width (start bound sources) := by
  have takenUp := takenUp_start valid
  have unsettled : ∀ vertex : VertexId, vertex.toNat < bound.toNat →
      (start bound sources).settled.getD vertex.toNat true = false := by
    intro vertex inside
    rw [takenUp.settled]
    simp [inside]
  constructor
  · constructor
    · intro source member
      rw [takenUp.zero source member]
      rfl
    · intro vertex inside
      by_cases member : vertex ∈ sources
      · refine Or.inr ⟨0, ?_, .start member⟩
        rw [takenUp.zero vertex member]
        rfl
      · exact Or.inl (takenUp.far vertex inside member)
  · intro vertex inside
    by_cases member : vertex ∈ sources
    · refine Or.inr ⟨unsettled vertex inside, ?_⟩
      have bottom : (start bound sources).distances.of vertex / width = 0 := by
        rw [takenUp.zero vertex member]
        exact Int64.zero_div
      rw [bottom]
      exact takenUp.filed vertex member
    · exact Or.inl (relaxed_of_unreached (takenUp.far vertex inside member))
  · intro vertex inside settled
    rw [unsettled vertex inside] at settled
    cases settled

end StreamGraph.ShortestPaths
