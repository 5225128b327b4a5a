import StreamGraph.Analytics.Components
import StreamGraph.Proofs.Analytics.Ways

/-!
The labels of the component stage. In every round labels pass along edges to neighbours with
greater ones, so a label always comes from the same component; and when nothing is proposed any
more, neighbours have the same label, which is then the least number of their component. A label
that is still proposed after some rounds has come a way of as many edges, so the stage ends on all
ranks together within as many rounds as there are vertices.
-/

namespace StreamGraph.Components

open Collective

variable {size : Nat} {bound : UInt64} {shards : Fin size → Shard}
  {scans : (rank : Fin size) → Scan (shards rank)}

theorem accept_eq_lowered (labels : Labels) (proposal : Proposal) :
    accept labels proposal = labels.lowered proposal := by
  unfold accept Labels.lowered
  by_cases inside : proposal.vertex.toNat < labels.size
  · by_cases less : proposal.value < labels.of proposal.vertex
    · have least : min (labels.of proposal.vertex) proposal.value = proposal.value := by
        rw [Int64.lt_iff_toInt_lt] at less
        have above : ¬ labels.of proposal.vertex ≤ proposal.value := by
          rw [Int64.le_iff_toInt_le]
          omega
        exact if_neg above
      rw [if_pos ⟨inside, less⟩, least]
    · have least : min (labels.of proposal.vertex) proposal.value = labels.of proposal.vertex := by
        rw [Int64.lt_iff_toInt_lt] at less
        have below : labels.of proposal.vertex ≤ proposal.value := by
          rw [Int64.le_iff_toInt_le]
          omega
        exact if_pos below
      rw [if_neg fun both => less both.2, least, Labels.put_of]
  · rw [if_neg fun both => inside both.1]
    unfold Labels.put
    exact Array.setIfInBounds_eq_of_size_le (Nat.le_of_not_lt inside)

/-- What all ranks propose in a round. -/
def proposals (scans : (rank : Fin size) → Scan (shards rank)) (labels : Labels) :
    List Proposal :=
  (List.ofFn fun rank => (scans rank).edges.filterMap (lower labels)).flatten

theorem mem_proposals {labels : Labels} {proposal : Proposal} :
    proposal ∈ proposals scans labels ↔
      ∃ giver, (linksOf shards).Joined giver proposal.vertex ∧
        (labels.of giver).toInt < (labels.of proposal.vertex).toInt ∧
        proposal.value = labels.of giver := by
  rw [proposals, mem_flatten_ofFn]
  simp only [List.mem_filterMap]
  constructor
  · rintro ⟨rank, edge, member, lowers⟩
    have stored := ((scans rank).mem_edges edge).1 member
    unfold lower at lowers
    dsimp only at lowers
    split at lowers
    · next less =>
        cases lowers
        exact ⟨edge.src, ⟨edge.attrs, Or.inl ⟨rank, stored⟩⟩, Int64.lt_iff_toInt_lt.1 less, rfl⟩
    · split at lowers
      · next less =>
          cases lowers
          exact ⟨edge.dst, ⟨edge.attrs, Or.inr ⟨rank, stored⟩⟩, Int64.lt_iff_toInt_lt.1 less, rfl⟩
      · cases lowers
  · rintro ⟨giver, ⟨attrs, ends⟩, less, value⟩
    rcases proposal with ⟨vertex, word⟩
    dsimp only at ends less value
    subst value
    rw [← Int64.lt_iff_toInt_lt] at less
    rcases ends with ⟨rank, stored⟩ | ⟨rank, stored⟩
    · refine ⟨rank, ⟨giver, vertex, attrs.weight, attrs.timestamp⟩,
        ((scans rank).mem_edges _).2 stored, ?_⟩
      exact if_pos less
    · refine ⟨rank, ⟨vertex, giver, attrs.weight, attrs.timestamp⟩,
        ((scans rank).mem_edges _).2 stored, ?_⟩
      have notAbove : ¬ labels.of vertex < labels.of giver := by
        rw [Int64.lt_iff_toInt_lt] at less ⊢
        omega
      unfold lower
      dsimp only
      rw [if_neg notAbove, if_pos less]

theorem inside_of_joined (ready : StageReady bound shards) {first second : VertexId}
    (joined : (linksOf shards).Joined first second) : first.toNat < bound.toNat := by
  obtain ⟨attrs, link | link⟩ := joined
  · exact (ready.within_of_link link).1
  · exact (ready.within_of_link link).2

/-- The labels after `rounds` rounds: each is a number from the component of its vertex and not
above that of the vertex itself, and a vertex whose label is still proposed comes behind one vertex
more than there were rounds. -/
structure Spread (shards : Fin size → Shard) (bound : UInt64) (rounds : Nat) (labels : Labels) :
    Prop where
  size : labels.size = bound.toNat
  low (vertex : VertexId) (inside : vertex.toNat < bound.toNat) :
    (labels.of vertex).toInt ≤ vertex.toNat
  drawn (vertex : VertexId) (inside : vertex.toNat < bound.toNat) :
    ∃ root : VertexId, (labels.of vertex).toInt = root.toNat ∧
      (linksOf shards).Connected vertex root
  behind (giver taker : VertexId) (joined : (linksOf shards).Joined giver taker)
    (pending : (labels.of giver).toInt < (labels.of taker).toInt) :
    labels.Behind (rounds + 1) giver

theorem toInt_of_start (small : bound.toNat * 8 < UInt64.size) {vertex : VertexId}
    (inside : vertex.toNat < bound.toNat) :
    ((start bound).of vertex).toInt = vertex.toNat := by
  have sizeIs : UInt64.size = 18446744073709551616 := rfl
  have slot : (start bound).of vertex = Int64.ofNat vertex.toNat := by
    simp [start, Labels.of, inside]
  rw [slot]
  exact Int64.toInt_ofNat_of_lt (by omega)

theorem spread_start (ready : StageReady bound shards) : Spread shards bound 0 (start bound) where
  size := by simp [start]
  low vertex inside := Int.le_of_eq (toInt_of_start ready.vertices inside)
  drawn vertex inside := ⟨vertex, toInt_of_start ready.vertices inside, .refl⟩
  behind giver taker joined _ := by
    apply Labels.behind_one
    simpa [start] using inside_of_joined ready joined

theorem foldl_accept (labels : Labels) (proposals : List Proposal) :
    proposals.foldl accept labels = proposals.foldl Labels.lowered labels :=
  congrArg (fun fold => proposals.foldl fold labels)
    (funext fun labels => funext fun proposal => accept_eq_lowered labels proposal)

theorem Spread.step {rounds : Nat} {labels : Labels} (ready : StageReady bound shards)
    (spread : Spread shards bound rounds labels) :
    Spread shards bound (rounds + 1) ((proposals scans labels).foldl accept labels) := by
  have sunk := Labels.sunk_foldl labels (proposals scans labels)
  rw [foldl_accept]
  constructor
  · exact sunk.size.trans spread.size
  · exact fun vertex inside => Int.le_trans (sunk.sinks vertex) (spread.low vertex inside)
  · intro vertex inside
    rcases sunk.given vertex with unchanged | ⟨proposal, member, isFor, _, value, _⟩
    · rw [unchanged]
      exact spread.drawn vertex inside
    · -- a new label is that of a neighbour
      rcases mem_proposals.1 member with ⟨giver, joined, _, valueIs⟩
      rw [isFor] at joined
      obtain ⟨root, number, connected⟩ := spread.drawn giver (inside_of_joined ready joined)
      rw [value, valueIs]
      exact ⟨root, number, .head joined.symm connected⟩
  · intro giver taker joined pending
    have sinksTaker := sunk.sinks taker
    have takerInside : taker.toNat < labels.size := by
      rw [spread.size]
      exact inside_of_joined ready joined.symm
    rcases sunk.given giver with unchanged | ⟨proposal, member, isFor, inside, value, less⟩
    · -- a label that did not change has been proposed before, and heard
      rw [unchanged] at pending
      have proposed : (⟨taker, labels.of giver⟩ : Proposal) ∈ proposals scans labels :=
        mem_proposals.2 ⟨giver, joined, by dsimp only; omega, rfl⟩
      have heard := sunk.heard _ proposed takerInside
      dsimp only at heard
      omega
    · rcases mem_proposals.1 member with ⟨before, joinedBefore, lessBefore, valueIs⟩
      rw [isFor] at joinedBefore lessBefore
      apply (spread.behind before giver joinedBefore lessBefore).step sunk inside less
      rw [value, valueIs]

theorem Spread.rounds_lt {rounds : Nat} {labels : Labels}
    (spread : Spread shards bound rounds labels) (nonempty : proposals scans labels ≠ []) :
    rounds < bound.toNat := by
  rcases List.exists_mem_of_ne_nil _ nonempty with ⟨proposal, member⟩
  rcases mem_proposals.1 member with ⟨giver, joined, pending, _⟩
  have count := (spread.behind giver proposal.vertex joined pending).count_le
  rw [spread.size] at count
  omega

/-- Every vertex below the bound has the least number of its component as its label. -/
structure LeastLabels (links : Links) (bound : UInt64) (labels : Labels) : Prop where
  size : labels.size = bound.toNat
  least (vertex : VertexId) (inside : vertex.toNat < bound.toNat) :
    ∃ root : VertexId, (labels.of vertex).toInt = root.toNat ∧
      IsLeast {other | links.Connected vertex other} root

theorem LeastLabels.of_isLeast {links : Links} {labels : Labels}
    (least : LeastLabels links bound labels) {vertex root : VertexId}
    (inside : vertex.toNat < bound.toNat)
    (isLeast : IsLeast {other | links.Connected vertex other} root) :
    (labels.of vertex).toInt = root.toNat := by
  obtain ⟨other, number, otherLeast⟩ := least.least vertex inside
  rw [number, UInt64.le_antisymm (otherLeast.2 isLeast.1) (isLeast.2 otherLeast.1)]

theorem LeastLabels.unique {links : Links} (first second : Labels)
    (left : LeastLabels links bound first) (right : LeastLabels links bound second) :
    first = second := by
  apply Labels.ext_of left.size right.size
  intro vertex inside
  obtain ⟨root, number, isLeast⟩ := left.least vertex inside
  apply Int64.toInt_inj.1
  rw [number, right.of_isLeast inside isLeast]

/-- A vertex without edges has its own number as its label. -/
theorem LeastLabels.alone {links : Links} {labels : Labels}
    (least : LeastLabels links bound labels) {vertex : VertexId}
    (inside : vertex.toNat < bound.toNat) (bare : ∀ other, ¬ links.Joined vertex other) :
    (labels.of vertex).toInt = vertex.toNat := by
  apply least.of_isLeast inside
  refine ⟨.refl, fun other connected => ?_⟩
  rcases Relation.ReflTransGen.cases_head connected with same | ⟨next, joined, _⟩
  · exact same ▸ UInt64.le_refl vertex
  · exact absurd joined (bare next)

/-- When nothing is proposed, the labels are the least ones. -/
theorem Spread.leastLabels {rounds : Nat} {labels : Labels} (ready : StageReady bound shards)
    (spread : Spread shards bound rounds labels) (quiet : proposals scans labels = []) :
    LeastLabels (linksOf shards) bound labels := by
  have notLess : ∀ giver taker, (linksOf shards).Joined giver taker →
      (labels.of taker).toInt ≤ (labels.of giver).toInt := by
    intro giver taker joined
    by_contra less
    have proposed : (⟨taker, labels.of giver⟩ : Proposal) ∈ proposals scans labels :=
      mem_proposals.2 ⟨giver, joined, by dsimp only; omega, rfl⟩
    rw [quiet] at proposed
    cases proposed
  refine ⟨spread.size, fun vertex inside => ?_⟩
  obtain ⟨root, number, connected⟩ := spread.drawn vertex inside
  refine ⟨root, number, connected, fun other reaches => ?_⟩
  -- along the way to the other vertex the label stays, and the bound is kept
  have along : other.toNat < bound.toNat ∧ labels.of other = labels.of vertex := by
    induction reaches with
    | refl => exact ⟨inside, rfl⟩
    | tail _ joined ih =>
        refine ⟨inside_of_joined ready joined.symm, ?_⟩
        rw [← ih.2]
        exact Int64.toInt_inj.1
          (Int.le_antisymm (notLess _ _ joined) (notLess _ _ joined.symm))
  have below := spread.low other along.1
  rw [along.2, number] at below
  exact UInt64.le_iff_toNat_le.2 (by exact_mod_cast below)

theorem together_advance (ready : StageReady bound shards) (inhabited : 0 < size)
    (scans : (rank : Fin size) → Scan (shards rank)) (labels : Labels) :
    Together (fun rank => advance (scans rank) labels) fun _ => .ok
      (if (proposals scans labels).isEmpty then .inr labels
        else .inl ((proposals scans labels).foldl accept labels)) := by
  have proposed := ready.together_propose inhabited tag
    (fun rank => (scans rank).edges.filterMap (lower labels)) (by
      intro rank
      rw [← (scans rank).edges_perm.length_eq]
      exact List.length_filterMap_le (lower labels) (scans rank).edges)
  apply together_bind proposed
  apply together_answers
  intro rank
  change (if (proposals scans labels).isEmpty then _ else _ : Collective _).run = _
  split <;> rfl

theorem together_runAlong (ready : StageReady bound shards) (inhabited : 0 < size)
    (scans : (rank : Fin size) → Scan (shards rank)) :
    ∃ labels, LeastLabels (linksOf shards) bound labels ∧
      Together (fun rank => runAlong (scans rank)) fun _ => .ok labels := by
  have begins : ∃ rounds, rounds + bound.toNat = bound.toNat ∧
      Spread shards bound rounds (start bound) :=
    ⟨0, Nat.zero_add _, spread_start ready⟩
  obtain ⟨labels, least, ends⟩ := together_repeatUntil (fun rank => advance (scans rank))
    (fun left labels => ∃ rounds, rounds + left = bound.toNat ∧
      Spread shards bound rounds labels) (LeastLabels (linksOf shards) bound)
    (by
      rintro left labels ⟨rounds, total, spread⟩
      have round := together_advance ready inhabited scans labels
      by_cases quiet : (proposals scans labels).isEmpty = true
      · rw [if_pos quiet] at round
        exact Or.inl ⟨labels, spread.leastLabels ready (List.isEmpty_iff.1 quiet), round⟩
      · rw [if_neg quiet] at round
        have more := spread.rounds_lt fun nothing => quiet (List.isEmpty_iff.2 nothing)
        exact Or.inr ⟨_, left - 1, by omega, ⟨rounds + 1, by omega, spread.step ready⟩, round⟩)
    begins (Traversal.bound_lt_roundLimit bound)
  refine ⟨labels, least, ?_⟩
  unfold runAlong
  simp only [ready.bounded]
  exact ends

theorem finds_runAlong : Shard.Finds bound (fun scan => runAlong scan)
    fun links labels => LeastLabels links bound labels :=
  fun _ _ ready inhabited scans => together_runAlong ready inhabited scans

/-- No edge starts or ends at zero. -/
theorem not_joined_zero {graph : Shard} (sound : graph.Sound) (other : VertexId) :
    ¬ graph.links.Joined 0 other := by
  rintro ⟨attrs, link | link⟩
  · have allowed := (Shard.allowed_iff ..).1 (sound.allowed _ _ _ link)
    exact absurd allowed.1 (by simp [VertexId.isEndpoint])
  · have allowed := (Shard.allowed_iff ..).1 (sound.allowed _ _ _ link)
    exact absurd allowed.2.1 (by simp [VertexId.isEndpoint])

/-- Every group that holds a graph settles with the least number of its component as the label of
every vertex; one without edges, such as zero, keeps its own number. -/
theorem labels_are_least_in_components {graph : Shard} (sound : graph.Sound)
    (edges : graph.edgeCount * 32 < UInt64.size)
    (vertices : graph.bound.toNat * 8 < UInt64.size) :
    ∃ labels, LeastLabels graph.links graph.bound labels ∧
      (∀ vertex : VertexId, vertex.toNat < graph.bound.toNat →
        (∀ other, ¬ graph.links.Joined vertex other) →
          (labels.of vertex).toInt = vertex.toNat) ∧
      (0 < graph.bound.toNat → (labels.of 0).toInt = 0) ∧
      graph.SettlesEverywhere (fun scan => runAlong scan) labels := by
  obtain ⟨labels, least⟩ := Shard.exists_good finds_runAlong sound edges vertices
  exact ⟨labels, least, fun vertex inside bare => least.alone inside bare,
    fun bounded => least.alone bounded (not_joined_zero sound),
    Shard.settlesEverywhere finds_runAlong LeastLabels.unique edges vertices least⟩

open Shard in
theorem islands_have_labels :
    ∃ labels, labels.size = 7 ∧ (labels.of 4).toInt = 1 ∧ (labels.of 6).toInt = 5 ∧
      (labels.of 0).toInt = 0 ∧
      (Plan.group fun rank : Fin 3 => (run (twoIslands.cut (.cyclic 3) rank)).run).Settles
        (List.ofFn fun _ : Fin 3 => .ok labels) ∧
      (Plan.group fun rank : Fin 2 => (run (twoIslands.cut (.block 2 7) rank)).run).Settles
        (List.ofFn fun _ : Fin 2 => .ok labels) := by
  obtain ⟨labels, least, _, zero, everywhere⟩ :=
    labels_are_least_in_components sound_twoIslands (by decide) (by decide)
  have first : IsLeast {other | twoIslands.links.Connected 4 other} 1 := by
    have up : twoIslands.links.Joined 4 3 := ⟨⟨9223372036854775807, 4⟩, by decide⟩
    have back : twoIslands.links.Joined 3 1 := ⟨⟨4, 2⟩, by decide⟩
    refine ⟨.head up (.single back), fun other connected => ?_⟩
    by_contra below
    have isZero : other = 0 := UInt64.lt_one_iff.1 (UInt64.not_le.1 below)
    subst isZero
    rcases Relation.ReflTransGen.cases_tail connected with same | ⟨_, _, joined⟩
    · exact absurd same (by decide)
    · exact not_joined_zero sound_twoIslands _ joined.symm
  have second : IsLeast {other | twoIslands.links.Connected 6 other} 5 := by
    have back : twoIslands.links.Joined 6 5 := ⟨⟨2, 5⟩, by decide⟩
    refine ⟨.single back, fun other connected => ?_⟩
    -- no edge leads from one island to the other
    have apart : ∀ edge ∈ islandEdges, 5 ≤ edge.src ↔ 5 ≤ edge.dst := by decide
    induction connected with
    | refl => decide
    | tail _ joined ih =>
        obtain ⟨_, link | link⟩ := joined
        · exact (apart _ (mem_islandEdges link)).1 ih
        · exact (apart _ (mem_islandEdges link)).2 ih
  exact ⟨labels, least.size, least.of_isLeast (by decide) first,
    least.of_isLeast (by decide) second, zero (by decide),
    everywhere _ _ _ hosted_threeCyclic fun _ => .ascending _,
    everywhere _ _ _ hosted_twoBlocks fun _ => .ascending _⟩

end StreamGraph.Components
