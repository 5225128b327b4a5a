import Mathlib.Data.Nat.Find
import StreamGraph.Proofs.Cluster.Census
import StreamGraph.Proofs.Hosting
import StreamGraph.Proofs.SourcePicker

/-!
Which source is chosen. The candidates are a matter of the generator alone; the choice falls on the
first of them that an edge leaves, on whatever rank this edge is, and the generator has then moved
by as many draws as there were candidates up to it. So choices that are made between batches and
evictions are the same for every number of ranks and every layout, as long as the ranks together
have been given the same edges in the same order.
-/

namespace StreamGraph

open Plan

namespace Generator

variable {generator : Generator}

/-- The state when some candidates have been drawn. -/
def drawn (generator : Generator) (bound : UInt64) (state : generator.State) :
    Nat → generator.State
  | 0 => state
  | count + 1 => generator.drawn bound (generator.endpoint bound state).2 count

/-- The candidate that comes after some others. -/
def candidate (generator : Generator) (bound : UInt64) (state : generator.State) (index : Nat) :
    VertexId :=
  (generator.endpoint bound (generator.drawn bound state index)).1

variable {state next : generator.State} {bound : UInt64} {vertex : VertexId}

theorem drawn_succ (draws : generator.endpoint bound state = (vertex, next)) (count : Nat) :
    generator.drawn bound state (count + 1) = generator.drawn bound next count := by
  rw [drawn, draws]

theorem candidate_zero (draws : generator.endpoint bound state = (vertex, next)) :
    generator.candidate bound state 0 = vertex := by
  rw [candidate, drawn, draws]

theorem candidate_succ (draws : generator.endpoint bound state = (vertex, next)) (index : Nat) :
    generator.candidate bound state (index + 1) = generator.candidate bound next index := by
  rw [candidate, drawn_succ draws, candidate]

end Generator

/-- An edge leaves the vertex. -/
def Links.Leaves (links : Links) (vertex : VertexId) : Prop :=
  ∃ dst attrs, links vertex dst attrs

namespace Shard

variable {size : Nat} {graph : Shard} {partition : Partition} {parts : Fin size → Shard}

theorem leaves_iff (graph : Shard) (vertex : VertexId) :
    graph.links.Leaves vertex ↔ 0 < graph.outDegree vertex := by
  rw [outDegree_eq_ncard, Set.ncard_pos (Set.toFinite _)]
  simp only [Set.Nonempty, entries, Set.mem_ofPred_eq, Option.isSome_iff_exists]
  rfl

instance (graph : Shard) (vertex : VertexId) : Decidable (graph.links.Leaves vertex) :=
  decidable_of_iff _ (graph.leaves_iff vertex).symm

/-- The ends of the edges of a vertex are endpoints, so a word can count them. -/
theorem Sound.outDegree_lt (sound : graph.Sound) (vertex : VertexId) :
    graph.outDegree vertex < UInt64.size := by
  rw [outDegree_eq_ncard]
  have few : {dst | (graph.entries (vertex, dst)).isSome = true}.ncard ≤
      (Finset.Ico 1 graph.bound.toNat : Set Nat).ncard := by
    apply Set.ncard_le_ncard_of_injOn UInt64.toNat
    · intro dst stored
      rcases Option.isSome_iff_exists.1 stored with ⟨attrs, found⟩
      have allowed := ((allowed_iff ..).1 (sound.allowed _ _ attrs found)).2.1
      rw [VertexId.isEndpoint_iff] at allowed
      rw [Finset.mem_coe, Finset.mem_Ico]
      exact allowed
    · intro first _ second _ same
      exact UInt64.toNat_inj.1 same
  rw [Set.ncard_coe_finset, Nat.card_Ico] at few
  have word := graph.bound.toNat_lt_size
  omega

namespace Parted

theorem localDegree_eq (parted : Parted partition graph parts) (vertex : VertexId)
    (rank : Fin size) : Query.localDegree (parts rank) vertex =
      if partition.owner vertex = rank then graph.outDegree vertex else 0 := by
  unfold Query.localDegree owns
  rw [parted.sharing, parted.numbered, parted.outDegree_part]
  by_cases own : partition.owner vertex = rank
  · simp [own]
  · simp [own]

/-- The highest of the degrees that the ranks know of a vertex is its degree. -/
theorem together_maximum (parted : Parted partition graph parts) (inhabited : 0 < size)
    (owners : partition.parts = size) (tag : Tag) (vertex : VertexId) :
    Collective.Together (fun rank => Collective.maximum 0 tag
      (UInt64.ofNat (Query.localDegree (parts rank) vertex)))
      fun _ => .ok (UInt64.ofNat (graph.outDegree vertex)) := by
  have inside := Partition.owner_lt (owners ▸ inhabited) vertex
  rw [owners] at inside
  have answers := Collective.together_reduced inhabited (some 0) tag
    (fun left right : UInt64 => if left < right then right else left)
    fun rank => UInt64.ofNat (Query.localDegree (parts rank) vertex)
  have highest : (List.ofFn fun rank =>
      UInt64.ofNat (Query.localDegree (parts rank) vertex)).foldl
        (fun left right => if left < right then right else left) 0 =
      UInt64.ofNat (graph.outDegree vertex) := by
    simp only [parted.localDegree_eq]
    apply foldl_maximum
    · intro value member
      rcases List.mem_ofFn.1 member with ⟨rank, same⟩
      rw [← same]
      split
      · exact Or.inr rfl
      · exact Or.inl rfl
    · apply List.mem_ofFn.2
      use ⟨_, inside⟩
      rw [if_pos rfl]
  simp only [Collective.combine, highest] at answers
  exact answers

end Parted

end Shard

namespace SourcePicker

variable {generator : Generator}

/-- The picker when some candidates have been drawn. -/
def drawn (picker : SourcePicker generator) (bound : UInt64) (count : Nat) :
    SourcePicker generator :=
  { picker with state := generator.drawn bound picker.state count }

/-- One of the candidates that the picker may try has an edge. -/
def Offers (picker : SourcePicker generator) (links : Links) (bound : UInt64) (index : Nat) :
    Prop :=
  index < picker.maxTries ∧ links.Leaves (generator.candidate bound picker.state index)

instance (picker : SourcePicker generator) (graph : Shard) (bound : UInt64) (index : Nat) :
    Decidable (picker.Offers graph.links bound index) :=
  inferInstanceAs (Decidable (_ ∧ _))

open Classical in
/-- What choosing comes to: the first candidate that an edge leaves, or none after all tries. -/
noncomputable def outcome (picker : SourcePicker generator) (links : Links) (bound : UInt64) :
    Except Failure VertexId × SourcePicker generator :=
  if bound ≤ 1 then (.error (.noUsableSource 0), picker)
  else if offers : ∃ index, picker.Offers links bound index then
    (.ok (generator.candidate bound picker.state (Nat.find offers)),
      picker.drawn bound (Nat.find offers + 1))
  else (.error (.noUsableSource picker.maxTries), picker.drawn bound picker.maxTries)

theorem outcome_of_first {picker : SourcePicker generator} {links : Links} {bound : UInt64}
    {index : Nat}     (wide : ¬ bound ≤ 1) (offers : picker.Offers links bound index)
    (first : ∀ earlier < index, ¬ picker.Offers links bound earlier) :
    picker.outcome links bound =
      (.ok (generator.candidate bound picker.state index), picker.drawn bound (index + 1)) := by
  classical
  have offered : ∃ index, picker.Offers links bound index := ⟨index, offers⟩
  have found : Nat.find offered = index := (Nat.find_eq_iff offered).2 ⟨offers, first⟩
  unfold outcome
  rw [if_neg wide, dif_pos offered]
  simp only [found]

theorem outcome_of_none {picker : SourcePicker generator} {links : Links} {bound : UInt64}
    (wide : ¬ bound ≤ 1) (never : ¬ ∃ index, picker.Offers links bound index) :
    picker.outcome links bound =
      (.error (.noUsableSource picker.maxTries), picker.drawn bound picker.maxTries) := by
  unfold outcome
  rw [if_neg wide, dif_neg never]

section Search

variable {size : Nat} {graph : Shard} {partition : Partition} {parts : Fin size → Shard}

/-- The next candidate is found, or the search goes on behind it. -/
theorem lockstep_search_succ (parted : Shard.Parted partition graph parts)
    (inhabited : 0 < size) (owners : partition.parts = size) {tries : Nat}
    {state next after : generator.State} {vertex : VertexId} {found : Option VertexId}
    (draws : generator.endpoint graph.bound state = (vertex, next))
    (leaves : graph.links.Leaves vertex → found = some vertex ∧ after = next)
    (goesOn : ¬ graph.links.Leaves vertex →
      Lockstep (fun rank => search (parts rank) tries next) fun _ => (.ok found, after)) :
    Lockstep (fun rank => search (parts rank) (tries + 1) state)
      fun _ => (.ok found, after) := by
  have asked := parted.together_maximum inhabited owners tag vertex
  have small := parted.sound.outDegree_lt vertex
  have usable : 0 < UInt64.ofNat (graph.outDegree vertex) ↔ graph.links.Leaves vertex := by
    rw [graph.leaves_iff, UInt64.lt_iff_toNat_lt, UInt64.toNat_ofNat_of_lt' small,
      UInt64.toNat_zero]
  unfold search
  simp only [parted.bounded, draws]
  apply lockstep_bind asked
  by_cases has : graph.links.Leaves vertex
  · simp only [if_pos (usable.2 has)]
    rw [(leaves has).1, (leaves has).2]
    exact .done _
  · simp only [if_neg (mt usable.1 has)]
    exact goesOn has

theorem lockstep_search_first (parted : Shard.Parted partition graph parts)
    (inhabited : 0 < size) (owners : partition.parts = size) {tries index : Nat}
    (inside : index < tries) (state : generator.State)
    (leaves : graph.links.Leaves (generator.candidate graph.bound state index))
    (first : ∀ earlier < index,
      ¬ graph.links.Leaves (generator.candidate graph.bound state earlier)) :
    Lockstep (fun rank => search (parts rank) tries state) fun _ =>
      (.ok (some (generator.candidate graph.bound state index)),
        generator.drawn graph.bound state (index + 1)) := by
  induction tries generalizing index state with
  | zero => exact absurd inside (Nat.not_lt_zero _)
  | succ tries ih =>
      cases draws : generator.endpoint graph.bound state with
      | mk vertex next =>
          rw [Generator.drawn_succ draws]
          cases index with
          | zero =>
              rw [Generator.candidate_zero draws] at leaves ⊢
              apply lockstep_search_succ parted inhabited owners draws
              · intro _
                exact ⟨rfl, rfl⟩
              · intro hasNot
                exact absurd leaves hasNot
          | succ index =>
              rw [Generator.candidate_succ draws] at leaves ⊢
              have notThis := first 0 (Nat.succ_pos index)
              rw [Generator.candidate_zero draws] at notThis
              apply lockstep_search_succ parted inhabited owners draws
              · intro has
                exact absurd has notThis
              · intro _
                apply ih (Nat.lt_of_succ_lt_succ inside) next leaves
                intro earlier before
                rw [← Generator.candidate_succ draws]
                exact first (earlier + 1) (Nat.succ_lt_succ before)

theorem lockstep_search_none (parted : Shard.Parted partition graph parts)
    (inhabited : 0 < size) (owners : partition.parts = size) {tries : Nat}
    (state : generator.State)
    (never : ∀ index < tries,
      ¬ graph.links.Leaves (generator.candidate graph.bound state index)) :
    Lockstep (fun rank => search (parts rank) tries state) fun _ =>
      (.ok none, generator.drawn graph.bound state tries) := by
  induction tries generalizing state with
  | zero => exact .done _
  | succ tries ih =>
      cases draws : generator.endpoint graph.bound state with
      | mk vertex next =>
          rw [Generator.drawn_succ draws]
          have notThis := never 0 (Nat.succ_pos tries)
          rw [Generator.candidate_zero draws] at notThis
          apply lockstep_search_succ parted inhabited owners draws
          · intro has
            exact absurd has notThis
          · intro _
            apply ih next
            intro index before
            rw [← Generator.candidate_succ draws]
            exact never (index + 1) (Nat.succ_lt_succ before)

/-- All ranks choose the first candidate that an edge of the graph leaves. -/
theorem lockstep_choose_outcome (parted : Shard.Parted partition graph parts)
    (inhabited : 0 < size) (owners : partition.parts = size) (picker : SourcePicker generator) :
    Lockstep (fun rank => picker.choose (parts rank)) fun _ =>
      picker.outcome graph.links graph.bound := by
  unfold choose
  simp only [parted.bounded]
  by_cases narrow : graph.bound ≤ 1
  · rw [outcome, if_pos narrow]
    simp only [if_pos narrow]
    exact .done _
  · simp only [if_neg narrow]
    classical
    by_cases offers : ∃ index, picker.Offers graph.links graph.bound index
    · have found := Nat.find_spec offers
      have first := fun earlier before => Nat.find_min offers (m := earlier) before
      rw [outcome_of_first narrow found first]
      apply lockstep_bind (lockstep_search_first parted inhabited owners found.1 picker.state
        found.2 fun earlier before leaves =>
          first earlier before ⟨Nat.lt_trans before found.1, leaves⟩)
      exact .done _
    · rw [outcome_of_none narrow offers]
      apply lockstep_bind (lockstep_search_none parted inhabited owners picker.state
        fun index before leaves => offers ⟨index, before, leaves⟩)
      exact .done _

end Search

end SourcePicker

end StreamGraph
