import StreamGraph.Proofs.Cluster.Atomicity
import StreamGraph.Proofs.Dataset.Grammar
import StreamGraph.Proofs.Dataset.Positions
import StreamGraph.Proofs.Routing.Refusal

/-!
What a loaded stream meets later. The bound of a stream is checked once, when the stream is loaded;
every rank then checks the ends of its part of a batch against it again. The two checks agree, so
that no batch of a loaded stream is ever refused. But a stream without a given bound is loaded only
if it leaves the last number that a word can hold unused: the bound above that vertex is beyond all
words, and deriving it breaks off.
-/

namespace StreamGraph.Dataset

/-- The greatest number that a word can hold. -/
def lastVertex : VertexId := 18446744073709551615

/-- No sum that loading a stream takes goes beyond a word: neither where a batch ends nor, unless
the bound is given, what is next to the ends of an edge. -/
structure SumsFit (edges : List Edge) (count : Nat) (bound : Option UInt64) : Prop where
  places (index : Nat) (inside : index < count) :
    index * (edges.length / count) + edges.length / count ≤ edges.length
  bounds (derived : bound = none) : ∀ edge ∈ edges, (max edge.src edge.dst).toNat + 1 < UInt64.size

/-- The least number above all ends of all edges; one if there are no edges. -/
def IsLeastBound (edges : List Edge) (bound : Nat) : Prop :=
  (edges = [] → bound = 1) ∧
    (edges ≠ [] → (∃ edge ∈ edges, bound = max edge.src.toNat edge.dst.toNat + 1) ∧
      ∀ edge ∈ edges, edge.src.toNat < bound ∧ edge.dst.toNat < bound)

section Bounds

variable {edges : List Edge} {count : Nat} {bound : Option UInt64}

theorem toNat_max (left right : UInt64) : (max left right).toNat = max left.toNat right.toNat := by
  change (if left ≤ right then right else left).toNat = _
  by_cases before : left ≤ right
  · rw [if_pos before, Nat.max_eq_right (UInt64.le_iff_toNat_le.1 before)]
  · have after := Nat.le_of_lt (Nat.lt_of_not_le (mt UInt64.le_iff_toNat_le.2 before))
    rw [if_neg before, Nat.max_eq_left after]

instance : Std.LawfulOrderMax UInt64 where
  max_le_iff left right above := by
    simp only [UInt64.le_iff_toNat_le, toNat_max, Nat.max_le]
  max_eq_or left right := by
    simp only [← UInt64.toNat_inj, toNat_max]
    omega

theorem toNat_max_add_one_lt_iff (edge : Edge) :
    (max edge.src edge.dst).toNat + 1 < UInt64.size ↔
      edge.src ≠ lastVertex ∧ edge.dst ≠ lastVertex := by
  have src := edge.src.toNat_lt_size
  have dst := edge.dst.toNat_lt_size
  have last : lastVertex.toNat + 1 = UInt64.size := by decide
  rw [toNat_max, Ne, Ne, ← UInt64.toNat_inj, ← UInt64.toNat_inj]
  omega

/-- The places where the batches end are always inside, so it is the derived bound alone that may
go beyond a word. -/
theorem sumsFit_iff (edges : List Edge) (count : Nat) (bound : Option UInt64) :
    SumsFit edges count bound ↔
      (bound = none → ∀ edge ∈ edges, edge.src ≠ lastVertex ∧ edge.dst ≠ lastVertex) := by
  constructor
  · intro fits derived edge member
    exact (toNat_max_add_one_lt_iff edge).1 (fits.bounds derived edge member)
  · intro below
    refine ⟨fun index inside => ?_, fun derived edge member =>
      (toNat_max_add_one_lt_iff edge).2 (below derived edge member)⟩
    calc index * (edges.length / count) + edges.length / count
        = (index + 1) * (edges.length / count) := (Nat.succ_mul ..).symm
      _ ≤ count * (edges.length / count) := Nat.mul_le_mul_right _ inside
      _ ≤ edges.length := Nat.mul_div_le ..

theorem toNat_next {edge : Edge} (fits : (max edge.src edge.dst).toNat + 1 < UInt64.size) :
    (max edge.src edge.dst + 1).toNat = max edge.src.toNat edge.dst.toNat + 1 := by
  rw [UInt64.toNat_add, ← toNat_max]
  exact Nat.mod_eq_of_lt fits

theorem mapM_next_of_fits
    (fits : ∀ edge ∈ edges, (max edge.src edge.dst).toNat + 1 < UInt64.size) :
    edges.mapM (fun edge => Saturation.addChecked (max edge.src edge.dst) 1) =
      some (edges.map fun edge => max edge.src edge.dst + 1) := by
  induction edges with
  | nil => rfl
  | cons edge others ih =>
      have added : Saturation.addChecked (max edge.src edge.dst) 1 =
          some (max edge.src edge.dst + 1) := if_pos (fits edge (List.mem_cons_self ..))
      rw [List.mapM_cons, added, ih fun other member => fits other (List.mem_cons_of_mem _ member)]
      rfl

theorem mapM_next_of_beyond {edge : Edge} (member : edge ∈ edges)
    (beyond : ¬ (max edge.src edge.dst).toNat + 1 < UInt64.size) :
    edges.mapM (fun edge => Saturation.addChecked (max edge.src edge.dst) 1) = none := by
  induction edges with
  | nil => cases member
  | cons first others ih =>
      rw [List.mapM_cons]
      cases added : Saturation.addChecked (max first.src first.dst) 1 with
      | none => rfl
      | some next =>
          rcases List.mem_cons.1 member with rfl | later
          · rw [Saturation.addChecked, UInt64.toNat_one, if_neg beyond] at added
            cases added
          · rw [ih later]
            rfl

/-- As long as words can hold what is next to all ends, the derived bound is the least possible. -/
theorem exists_boundOf
    (fits : ∀ edge ∈ edges, (max edge.src edge.dst).toNat + 1 < UInt64.size) :
    ∃ bound, boundOf edges = some bound ∧ IsLeastBound edges bound.toNat := by
  unfold boundOf
  rw [mapM_next_of_fits fits]
  cases edges with
  | nil => exact ⟨1, rfl, fun _ => rfl, fun nonempty => absurd rfl nonempty⟩
  | cons first others =>
      let highest := (others.map fun edge => max edge.src edge.dst + 1).foldl max
        (max first.src first.dst + 1)
      have spec : highest ∈ (first :: others).map (fun edge => max edge.src edge.dst + 1) ∧
          ∀ next ∈ (first :: others).map (fun edge => max edge.src edge.dst + 1),
            next ≤ highest := List.max?_eq_some_iff.1 List.max?_cons'
      obtain ⟨edge, member, same⟩ := List.mem_map.1 spec.1
      refine ⟨highest, rfl, nofun, fun _ => ⟨⟨edge, member, ?_⟩, fun other inEdges => ?_⟩⟩
      · rw [← same, toNat_next (fits edge member)]
      · have next := UInt64.le_iff_toNat_le.1 (spec.2 _ (List.mem_map_of_mem inEdges))
        rw [toNat_next (fits other inEdges)] at next
        omega

theorem boundOf_of_beyond {edge : Edge} (member : edge ∈ edges)
    (beyond : ¬ (max edge.src edge.dst).toNat + 1 < UInt64.size) : boundOf edges = none := by
  unfold boundOf
  rw [mapM_next_of_beyond member beyond]
  rfl

/-- The derivation of a bound breaks off exactly where a sum is beyond all words. -/
theorem chooseBound_eq_none_iff (edges : List Edge) (count : Nat) (bound : Option UInt64) :
    chooseBound edges bound = none ↔ ¬ SumsFit edges count bound := by
  rw [chooseBound.eq_def]
  cases bound with
  | some given =>
      have fits : SumsFit edges count (some given) := (sumsFit_iff ..).2 nofun
      exact ⟨nofun, fun beyond => absurd fits beyond⟩
  | none =>
      constructor
      · intro breaks fits
        obtain ⟨bound, derived, -⟩ := exists_boundOf (fits.bounds rfl)
        rw [derived] at breaks
        cases breaks
      · intro beyond
        rw [sumsFit_iff] at beyond
        push Not at beyond
        obtain ⟨-, edge, member, last⟩ := beyond
        have outside : ¬ (max edge.src edge.dst).toNat + 1 < UInt64.size := by
          rw [toNat_max_add_one_lt_iff]
          exact fun both => both.2 (last both.1)
        rw [boundOf_of_beyond member outside]
        rfl

theorem ofEdges_eq_none_iff (positive : 0 < count) :
    ofEdges edges count bound = none ↔ ¬ SumsFit edges count bound := by
  rw [ofEdges, if_neg (Nat.ne_of_gt positive), Option.map_eq_none_iff, chooseBound_eq_none_iff]

theorem sumsFit_of_ofEdges {dataset : Dataset}
    (loaded : ofEdges edges count bound = some (.ok dataset)) : SumsFit edges count bound := by
  by_contra beyond
  obtain ⟨positive, -⟩ := batches_of_ofEdges loaded
  rw [(ofEdges_eq_none_iff positive).2 beyond] at loaded
  cases loaded

theorem isLeastBound_of_ofEdges {dataset : Dataset}
    (loaded : ofEdges edges count none = some (.ok dataset)) :
    IsLeastBound edges dataset.bound.toNat := by
  obtain ⟨least, derived, isLeast⟩ := exists_boundOf ((sumsFit_of_ofEdges loaded).bounds rfl)
  obtain ⟨-, chosen, -⟩ := ofEdges_eq_ok_iff.1 loaded
  rw [chooseBound, derived] at chosen
  cases chosen
  exact isLeast

theorem ends_below_of_firstBeyond {bound : UInt64} (noneBeyond : firstBeyond bound edges = none) :
    ∀ edge ∈ edges, edge.src < bound ∧ edge.dst < bound := by
  intro edge member
  have below : ∀ vertex ∈ [edge.src, edge.dst], vertex < bound := by
    intro vertex inEdge
    have inEnds : vertex ∈ edges.flatMap fun edge => [edge.src, edge.dst] :=
      List.mem_flatMap.2 ⟨edge, member, inEdge⟩
    have notBeyond := List.find?_eq_none.1 noneBeyond vertex inEnds
    rw [decide_eq_true_iff, UInt64.not_le] at notBeyond
    exact notBeyond
  exact ⟨below _ (by simp), below _ (by simp)⟩

/-- Whichever way the bound has come about, all ends are below it. -/
theorem ends_below_of_ofEdges {dataset : Dataset}
    (loaded : ofEdges edges count bound = some (.ok dataset)) :
    ∀ edge ∈ edges, edge.src < dataset.bound ∧ edge.dst < dataset.bound := by
  cases bound with
  | none =>
      intro edge member
      have nonempty : edges ≠ [] := List.ne_nil_of_mem member
      have below := ((isLeastBound_of_ofEdges loaded).2 nonempty).2 edge member
      rwa [UInt64.lt_iff_toNat_lt, UInt64.lt_iff_toNat_lt]
  | some given =>
      obtain ⟨-, chosen, -⟩ := ofEdges_eq_ok_iff.1 loaded
      unfold chooseBound at chosen
      cases beyond : firstBeyond given edges with
      | some vertex =>
          simp only [beyond] at chosen
          cases chosen
      | none =>
          simp only [beyond] at chosen
          cases chosen
          exact ends_below_of_firstBeyond beyond

theorem isWithin_of_below {edge : Edge} {chosen : UInt64} (usable : Usable edge)
    (below : edge.src < chosen ∧ edge.dst < chosen) : edge.isWithin chosen = true := by
  rw [Edge.isWithin, VertexId.isEndpoint, VertexId.isEndpoint, decide_eq_true below.1,
    decide_eq_true below.2, decide_eq_true (UInt64.pos_iff_ne_zero.2 usable.1),
    decide_eq_true (UInt64.pos_iff_ne_zero.2 usable.2)]
  rfl

theorem within_of_ofEdges {dataset : Dataset} (usable : ∀ edge ∈ edges, Usable edge)
    (loaded : ofEdges edges count bound = some (.ok dataset)) :
    ∀ edge ∈ dataset.edges, edge.isWithin dataset.bound = true := by
  have below := ends_below_of_ofEdges loaded
  rw [(ofEdges_eq_ok loaded).2]
  exact fun edge member => isWithin_of_below (usable edge member) (below edge member)

end Bounds

section Groups

open Routing (updatesOf)

variable {dataset : Dataset}

theorem edgesAt_cases (dataset : Dataset) (index : Nat) :
    dataset.edgesAt index = [] ∨
      ∃ batch ∈ dataset.batches, dataset.edgesAt index = batch.edges := by
  rw [edgesAt]
  cases found : dataset.batches[index]? with
  | none => exact .inl rfl
  | some batch => exact .inr ⟨batch, List.mem_of_getElem? found, rfl⟩

theorem mem_edges_of_edgesAt {index : Nat} {edge : Edge} (member : edge ∈ dataset.edgesAt index) :
    edge ∈ dataset.edges := by
  rcases dataset.edgesAt_cases index with empty | ⟨batch, inBatches, same⟩
  · rw [empty] at member
    cases member
  · rw [same] at member
    exact List.mem_flatMap.2 ⟨batch, inBatches, member⟩

theorem Fits.edgesAt (fits : dataset.Fits) (index : Nat) :
    StreamGraph.Fits (dataset.edgesAt index) := by
  rcases dataset.edgesAt_cases index with empty | ⟨batch, inBatches, same⟩
  · rw [empty, StreamGraph.Fits, List.length_nil, Nat.zero_mul]
    decide
  · rw [same]
    exact fits.batch inBatches

/-- No group refuses a data set: it can be shared out, and each of its batches then reaches the
owners of its edges and comes in, whatever the graphs of the group have been through. Only a layout
for another number of ranks is refused, whatever the batch. -/
structure Admitted (dataset : Dataset) : Prop where
  shared {size : Nat} (inhabited : 0 < size) (bounded : dataset.bound ≠ 0)
    {passed : Fin size → Option Dataset} (given : passed ⟨0, inhabited⟩ = some dataset) :
    (Plan.group fun rank =>
      (distribute ⟨rank, size⟩ (passed rank) dataset.batches.length).run).Settles
        (List.ofFn fun rank : Fin size => .ok (dataset.sharedOut size rank))
  exchanged {size : Nat} (inhabited : 0 < size) {partition : Partition}
    (parts : partition.parts = size) (index : Nat) :
    (Plan.group fun rank : Fin size => (Routing.exchange ⟨rank, size⟩ partition dataset.bound
      (updatesOf ((dataset.sharedOut size rank).edgesAt index))).run).Settles
        (List.ofFn fun rank : Fin size =>
          .ok (partition.share rank (updatesOf (dataset.edgesAt index))))
  mismatched {size : Nat} {partition : Partition} (parts : partition.parts ≠ size) (index : Nat) :
    (Plan.group fun rank : Fin size => (Routing.exchange ⟨rank, size⟩ partition dataset.bound
      (updatesOf ((dataset.sharedOut size rank).edgesAt index))).run) =
        ⟨.empty, List.ofFn fun _ : Fin size =>
          .done (.error (.layout (.ranks partition.parts size)))⟩
  inserted {generator : Generator} {size : Nat} (inhabited : 0 < size) {layout : Layout}
    {graphs : Fin size → ClusterGraph generator}
    (reachable : ClusterGraph.Reachable layout dataset.bound graphs) (index : Nat) :
    ∃ (stats : Fin size → MergeStats) (nexts : Fin size → ClusterGraph generator),
      (Plan.group fun rank =>
        (graphs rank).insert ((dataset.sharedOut size rank).edgesAt index)).Settles
          (List.ofFn fun rank => (.ok (stats rank), nexts rank))

theorem admitted_of_within (within : ∀ edge ∈ dataset.edges, edge.isWithin dataset.bound = true)
    (fits : dataset.Fits) : Admitted dataset where
  shared inhabited bounded _ given :=
    Plan.lockstep_settles inhabited (together_distribute inhabited fits bounded _ given)
  exchanged inhabited partition parts index := by
    have withinAt : ∀ edge ∈ dataset.edgesAt index, edge.isWithin dataset.bound = true :=
      fun edge member => within edge (mem_edges_of_edgesAt member)
    simp only [edgesAt_sharedOut]
    exact Plan.lockstep_settles inhabited (Routing.together_exchange_shares inhabited parts
      dataset.bound withinAt (fits.edgesAt index))
  mismatched parts index := by
    simp only [Routing.exchange, Routing.Request.checkLayout_of_ne parts]
    rfl
  inserted {_ size} inhabited {layout graphs} reachable index := by
    have parts := ClusterGraph.parts_build inhabited layout dataset.bound
    have withinAt : ∀ edge ∈ dataset.edgesAt index, edge.isWithin dataset.bound = true :=
      fun edge member => within edge (mem_edges_of_edgesAt member)
    obtain ⟨operations, exchanged⟩ := Routing.together_exchange_shares inhabited parts
      dataset.bound withinAt (fits.edgesAt index)
    choose stats nexts taken using
      fun rank => (reachable.aligned rank).takeIn_of_within withinAt
    simp only [edgesAt_sharedOut]
    exact ⟨stats, nexts, Plan.lockstep_settles inhabited
      ⟨_, reachable.aligned.performs_insert exchanged taken⟩⟩

end Groups

/-- A loaded stream has all its ends below its bound and is admitted by every group. Loading breaks
off exactly when some sum that it takes is beyond all words, which is when no bound is given and
some end is the last vertex. -/
theorem loaded_streams_are_admitted {edges : List Edge} (usable : ∀ edge ∈ edges, Usable edge)
    {count : Nat} (positive : 0 < count) (bound : Option UInt64) :
    (SumsFit edges count bound ↔
      (bound = none → ∀ edge ∈ edges, edge.src ≠ lastVertex ∧ edge.dst ≠ lastVertex)) ∧
    (ofEdges edges count bound = none ↔ ¬ SumsFit edges count bound) ∧
    ∀ dataset, ofEdges edges count bound = some (.ok dataset) →
      (bound = none → IsLeastBound edges dataset.bound.toNat) ∧
      (∀ edge ∈ dataset.edges, edge.isWithin dataset.bound = true) ∧
      (dataset.Fits → Admitted dataset) := by
  refine ⟨sumsFit_iff edges count bound, ofEdges_eq_none_iff positive, fun dataset loaded => ?_⟩
  have within := within_of_ofEdges usable loaded
  refine ⟨?_, within, admitted_of_within within⟩
  rintro rfl
  exact isLeastBound_of_ofEdges loaded

/-- A triangle, as a stream of two batches that nobody has given a bound. -/
def triangle : List Edge := [⟨1, 2, 5, 1⟩, ⟨2, 3, 1, 2⟩, ⟨3, 1, -2, 3⟩]

def triangleBatches : Dataset := ⟨4, [⟨triangle.take 1, 1⟩, ⟨triangle.drop 1, 3⟩]⟩

theorem triangle_is_admitted :
    (∀ edge ∈ triangle, Usable edge) ∧ 0 < 2 ∧
      ofEdges triangle 2 none = some (.ok triangleBatches) ∧
      (SumsFit triangle 2 none ∧ IsLeastBound triangle 4 ∧ Admitted triangleBatches) := by
  have usable : ∀ edge ∈ triangle, Usable edge := by
    unfold Usable
    decide
  have loaded : ofEdges triangle 2 none = some (.ok triangleBatches) := by decide
  obtain ⟨fits, -, admitted⟩ := loaded_streams_are_admitted usable (by decide : 0 < 2) none
  have sums : SumsFit triangle 2 none := fits.2 fun _ => by decide
  obtain ⟨least, -, groups⟩ := admitted triangleBatches loaded
  exact ⟨usable, by decide, loaded, sums, least rfl, groups ⟨by decide, by decide⟩⟩

/-- An edge from the last vertex, and another one. -/
def fromLast : List Edge := [⟨18446744073709551615, 1, 1, 1⟩, ⟨1, 5, 1, 1⟩]

theorem last_vertex_breaks_loading_off :
    (∀ edge ∈ fromLast, Usable edge) ∧ ofEdges fromLast 1 none = none := by
  constructor
  · unfold Usable
    decide
  · decide

end StreamGraph.Dataset
