import StreamGraph.Proofs.Division
import StreamGraph.Proofs.Merge.Order
import StreamGraph.Proofs.StreamOrder

/-!
Weights of a store that is held in parts. In which order a rank meets the updates to a pair shows in
the weight only where a sum can stop at an end of its range. What a stream brings to a pair in all,
signs left aside, bounds how far its weight can ever be from zero; as long as that is a word, every
part has the weights of the whole store.
-/

namespace StreamGraph

variable {size : Nat}

namespace Saturation

/-- The sum of the absolute values of some words. -/
def heft (words : List Int64) : Nat := (words.map fun word => word.toInt.natAbs).sum

theorem heft_cons (word : Int64) (words : List Int64) :
    heft (word :: words) = word.toInt.natAbs + heft words := rfl

theorem heft_append (first second : List Int64) :
    heft (first ++ second) = heft first + heft second := by
  rw [heft, List.map_append, List.sum_append, heft, heft]

theorem heft_perm {first second : List Int64} (perm : first.Perm second) :
    heft first = heft second := (perm.map _).sum_eq

theorem heft_eq (words : List Int64) : (heft words : Int) = rise words + fall words := by
  induction words with
  | nil => rfl
  | cons word words ih =>
      rw [heft_cons, rise_cons, fall_cons]
      omega

/-- No end is in reach of words whose heft leaves room. -/
theorem steady_of_heft {start : Int64} {words : List Int64}
    (room : (start.toInt.natAbs + heft words : Int) ≤ greatest) : Steady start words := by
  have both := heft_eq words
  have up := rise_nonneg words
  have down := fall_nonneg words
  have width : least + greatest + 1 = 0 := by decide
  unfold Steady
  omega

/-- Adding words takes a sum no further from zero than their heft. -/
theorem natAbs_foldl_le (start : Int64) (words : List Int64) :
    (words.foldl add start).toInt.natAbs ≤ start.toInt.natAbs + heft words := by
  induction words generalizing start with
  | nil => exact Nat.le_refl _
  | cons word words ih =>
      have later := ih (add start word)
      have next := toInt_add start word
      have below := least_le_toInt start
      have above := toInt_le_greatest start
      have ordered : least ≤ 0 ∧ 0 ≤ greatest := by decide
      rw [heft_cons, List.foldl_cons]
      omega

end Saturation

/-- The sum of the absolute weights that a stream brings to a pair: as far as it can take the pair's
weight from zero. -/
def heftAt (key : EdgeKey) (edges : List Edge) : Nat :=
  Saturation.heft ((edges.filter fun edge => edge.key == key).map Edge.weight)

theorem heftAt_append (key : EdgeKey) (first second : List Edge) :
    heftAt key (first ++ second) = heftAt key first + heftAt key second := by
  rw [heftAt, List.filter_append, List.map_append, Saturation.heft_append, heftAt, heftAt]

/-- How far a pair's weight is from zero. -/
def Attrs.distance (attrs : Option Attrs) : Nat := (attrs.getD .fresh).weight.toInt.natAbs

namespace IngestMode

variable (mode : IngestMode) (updates : List Update) (old : Option Attrs)

theorem distance_result_le : Attrs.distance (mode.result updates old) ≤
    Attrs.distance old + Saturation.heft (Update.weights updates) := by
  cases mode with
  | incremental =>
      rw [result]
      split
      · exact Nat.le_add_right ..
      · rw [Attrs.distance, Option.getD_some, Update.weight_applyAll]
        exact Saturation.natAbs_foldl_le ..
  | snapshot =>
      rw [result]
      cases last : updates.getLast? with
      | none => exact Nat.le_add_right ..
      | some update =>
          obtain ⟨front, rfl⟩ := List.getLast?_eq_some_iff.1 last
          rw [Update.weights, List.map_append, Saturation.heft_append]
          change update.edge.weight.toInt.natAbs ≤ _ + (_ + (update.edge.weight.toInt.natAbs + 0))
          omega

variable (order : KeySort) (key : EdgeKey)

theorem distance_result_arrange_le :
    Attrs.distance (mode.result (Update.toKey key (mode.arrange order updates)) old) ≤
      Attrs.distance old + Saturation.heft (Update.weights (Update.toKey key updates)) := by
  have perm : (Update.toKey key (mode.arrange order updates)).Perm (Update.toKey key updates) :=
    (mode.arrange_perm order updates).filter _
  have heft : Saturation.heft (Update.weights (Update.toKey key (mode.arrange order updates))) =
      Saturation.heft (Update.weights (Update.toKey key updates)) :=
    Saturation.heft_perm (perm.map _)
  rw [← heft]
  exact mode.distance_result_le ..

/-- Where no end is in reach, the order in which the updates to a pair are met does not show. -/
theorem result_arrange_of_room
    (room : (Attrs.distance old +
      Saturation.heft (Update.weights (Update.toKey key updates)) : Int) ≤ Saturation.greatest) :
    mode.result (Update.toKey key (mode.arrange order updates)) old =
      mode.result (Update.toKey key updates) old := by
  cases mode with
  | incremental =>
      exact Shard.result_perm_of_steady (Saturation.steady_of_heft room)
        ((order.perm updates).filter _)
  | snapshot => rfl

end IngestMode

/-- Nothing but the edges of a pair brings anything to its weight. -/
theorem heft_weights_updatesOf (key : EdgeKey) (edges : List Edge) :
    Saturation.heft (Update.weights (Update.toKey key (Routing.updatesOf edges))) =
      heftAt key edges := by
  rw [heftAt, Update.weights, Update.toKey, Routing.updatesOf, List.filter_map, List.map_map]
  rfl

namespace Shard

/-- After a stream, no weight of the store is further from zero than what the stream has brought to
its pair; and where that is a word, the rank that owns the pair has the weight of the store. -/
structure Weighed (streamed : List Edge) (partition : Partition) (whole : Shard)
    (parts : Fin size → Shard) : Prop where
  near (key : EdgeKey) : Attrs.distance (whole.entries key) ≤ heftAt key streamed
  same (key : EdgeKey) (light : (heftAt key streamed : Int) ≤ Saturation.greatest)
    (rank : Fin size) (own : partition.owner key.1 = rank) :
    (parts rank).entries key = whole.entries key

theorem weighed_empty (partition : Partition) (bound : UInt64) :
    Weighed [] partition (unshared bound) fun rank : Fin size => .empty rank partition bound where
  near _ := Nat.le_refl 0
  same _ _ _ _ := rfl

namespace Weighed

variable {streamed : List Edge} {partition : Partition} {whole : Shard} {parts : Fin size → Shard}

theorem retain (weighed : Weighed streamed partition whole parts)
    (keep : EdgeKey → Attrs → Bool) :
    Weighed streamed partition (whole.retain keep).2 fun rank => ((parts rank).retain keep).2 where
  near key := by
    have before := weighed.near key
    rw [entries_retain]
    cases stored : whole.entries key with
    | none => exact Nat.zero_le _
    | some attrs =>
        rw [stored] at before
        rw [Option.filter_some]
        split
        · exact before
        · exact Nat.zero_le _
  same key light rank own := by
    rw [entries_retain, entries_retain, weighed.same key light rank own]

/-- Each rank takes its share of a batch in, sorted in an order of its own. -/
theorem takes (weighed : Weighed streamed partition whole parts) {edges : List Edge}
    {mode : IngestMode} {next : Shard} {nexts : Fin size → Shard}
    (taken : ∃ order inserted,
      Takes whole next mode (mode.arrange order (Routing.updatesOf edges)) inserted)
    (takenPart : ∀ rank, ∃ order inserted, Takes (parts rank) (nexts rank) mode
      (mode.arrange order (partition.share rank (Routing.updatesOf edges))) inserted) :
    Weighed (streamed ++ edges) partition next nexts := by
  obtain ⟨order, _, taken⟩ := taken
  constructor
  case near =>
    intro key
    have before := weighed.near key
    have added := mode.distance_result_arrange_le (Routing.updatesOf edges) (whole.entries key)
      order key
    rw [heft_weights_updatesOf] at added
    rw [taken.entries, heftAt_append]
    exact Nat.le_trans added (Nat.add_le_add_right before _)
  case same =>
    intro key light rank own
    obtain ⟨orderPart, _, takenPart⟩ := takenPart rank
    rw [heftAt_append] at light
    have before := weighed.near key
    have same := weighed.same key (by omega) rank own
    have brought := heft_weights_updatesOf key edges
    have share : Update.toKey key (partition.share rank (Routing.updatesOf edges)) =
        Update.toKey key (Routing.updatesOf edges) := by
      rw [toKey_share, if_pos own]
    have room : (Attrs.distance (whole.entries key) + Saturation.heft (Update.weights
        (Update.toKey key (Routing.updatesOf edges))) : Int) ≤ Saturation.greatest := by omega
    rw [takenPart.entries, taken.entries, same,
      mode.result_arrange_of_room _ _ orderPart key (by rw [share]; exact room), share,
      mode.result_arrange_of_room _ _ order key room]

end Weighed

end Shard

end StreamGraph
