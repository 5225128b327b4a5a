import Mathlib.Algebra.BigOperators.Group.List.Basic
import StreamGraph.Proofs.Shard.History

/-!
When the order of arrival matters. Weights add up in an arithmetic that stops at the ends of its
range, and such a sum depends on its order exactly when it can stop at one end and be pulled back
by a word of the other sign. So pairs of endpoints and newest timestamps never depend on how the
updates are ordered, sorted and cut into several merges, and a weight does so only where an end is
in reach.
-/

namespace StreamGraph

namespace Saturation

/-- What some words bring in one direction: the sum of the amounts above zero. -/
def gain (amount : Int64 → Int) (words : List Int64) : Int :=
  (words.map fun word => max (amount word) 0).sum

/-- How far some words can push a sum up. -/
def rise (words : List Int64) : Int := gain Int64.toInt words

/-- How far some words can pull a sum down. -/
def fall (words : List Int64) : Int := gain (fun word => -word.toInt) words

/-- No order of adding these words stops at an end and comes back: neither end is in reach, or
all words have the same sign. -/
def Steady (start : Int64) (words : List Int64) : Prop :=
  (start.toInt + rise words ≤ greatest ∧ least ≤ start.toInt - fall words) ∨
    rise words = 0 ∨ fall words = 0

instance (start : Int64) (words : List Int64) : Decidable (Steady start words) :=
  inferInstanceAs (Decidable (_ ∨ _ ∨ _))

theorem gain_cons (amount : Int64 → Int) (word : Int64) (words : List Int64) :
    gain amount (word :: words) = max (amount word) 0 + gain amount words := rfl

theorem gain_nonneg (amount : Int64 → Int) (words : List Int64) : 0 ≤ gain amount words := by
  induction words with
  | nil => exact Int.le_refl 0
  | cons word words ih =>
      rw [gain_cons]
      omega

theorem gain_perm (amount : Int64 → Int) {first second : List Int64} (perm : first.Perm second) :
    gain amount first = gain amount second := (perm.map _).sum_eq

/-- Words that are left out take nothing away if they bring nothing. -/
theorem gain_filter {amount : Int64 → Int} {keep : Int64 → Bool}
    (idle : ∀ word, keep word = false → amount word ≤ 0) (words : List Int64) :
    gain amount (words.filter keep) = gain amount words := by
  induction words with
  | nil => rfl
  | cons word words ih =>
      cases kept : keep word with
      | true => rw [List.filter_cons_of_pos kept, gain_cons, gain_cons, ih]
      | false =>
          have nothing := idle word kept
          rw [List.filter_cons_of_neg (by simp [kept]), gain_cons, ih]
          omega

theorem gain_filter_eq_zero {amount : Int64 → Int} {keep : Int64 → Bool}
    (idle : ∀ word, keep word = true → amount word ≤ 0) (words : List Int64) :
    gain amount (words.filter keep) = 0 := by
  induction words with
  | nil => rfl
  | cons word words ih =>
      cases kept : keep word with
      | true =>
          have nothing := idle word kept
          rw [List.filter_cons_of_pos kept, gain_cons, ih]
          omega
      | false => rw [List.filter_cons_of_neg (by simp [kept]), ih]

theorem rise_cons (word : Int64) (words : List Int64) :
    rise (word :: words) = max word.toInt 0 + rise words := rfl

theorem fall_cons (word : Int64) (words : List Int64) :
    fall (word :: words) = max (-word.toInt) 0 + fall words := rfl

theorem rise_nonneg (words : List Int64) : 0 ≤ rise words := gain_nonneg _ words

theorem fall_nonneg (words : List Int64) : 0 ≤ fall words := gain_nonneg _ words

theorem steady_perm {start : Int64} {first second : List Int64} (perm : first.Perm second) :
    Steady start first ↔ Steady start second := by
  unfold Steady rise fall
  rw [gain_perm _ perm, gain_perm _ perm]

/-- A steady sum is the exact sum, stopped once. -/
theorem toInt_foldl_of_steady {start : Int64} {words : List Int64} (steady : Steady start words) :
    (words.foldl add start).toInt =
      max least (min greatest (start.toInt + rise words - fall words)) := by
  induction words generalizing start with
  | nil =>
      have below := least_le_toInt start
      have above := toInt_le_greatest start
      simp only [List.foldl_nil, rise, fall, gain, List.map_nil, List.sum_nil]
      omega
  | cons word words ih =>
      have below := least_le_toInt start
      have above := toInt_le_greatest start
      have up := rise_nonneg words
      have down := fall_nonneg words
      have next := toInt_add start word
      have ordered : least ≤ greatest := by decide
      unfold Steady at steady ih
      -- the word uses up as much of the rise or the fall as it takes of the room to that end
      rw [rise_cons, fall_cons] at steady ⊢
      rw [List.foldl_cons, ih (by rw [next]; omega), next]
      omega

theorem foldl_perm_of_steady {start : Int64} {first second : List Int64}
    (steady : Steady start first) (perm : second.Perm first) :
    second.foldl add start = first.foldl add start := by
  rw [← Int64.toInt_inj, toInt_foldl_of_steady steady,
    toInt_foldl_of_steady ((steady_perm perm).2 steady)]
  unfold rise fall
  rw [gain_perm _ perm, gain_perm _ perm]

def isNegative (word : Int64) : Bool := decide (word.toInt < 0)

theorem toInt_lt_of_isNegative {word : Int64} (negative : isNegative word = true) :
    word.toInt < 0 := of_decide_eq_true negative

theorem le_toInt_of_not_isNegative {word : Int64} (positive : isNegative word = false) :
    0 ≤ word.toInt := Int.not_lt.1 (of_decide_eq_false positive)

/-- If pushing up first comes to the same as pulling down first, then every order does. -/
theorem steady_of_same_ends {start : Int64} {words : List Int64}
    (same : (words.filter (fun word => !isNegative word) ++ words.filter isNegative).foldl add
        start =
      (words.filter isNegative ++ words.filter fun word => !isNegative word).foldl add start) :
    Steady start words := by
  have pulls : ∀ word : Int64, isNegative word = true → word.toInt ≤ 0 :=
    fun _ negative => Int.le_of_lt (toInt_lt_of_isNegative negative)
  have pushes : ∀ word : Int64, isNegative word = false → -word.toInt ≤ 0 :=
    fun _ positive => Int.neg_nonpos_of_nonneg (le_toInt_of_not_isNegative positive)
  have noRise : rise (words.filter isNegative) = 0 := gain_filter_eq_zero pulls words
  have noFall : fall (words.filter fun word => !isNegative word) = 0 :=
    gain_filter_eq_zero (fun word kept => pushes word (by simpa using kept)) words
  have rises : rise (words.filter fun word => !isNegative word) = rise words :=
    gain_filter (fun word dropped => pulls word (by simpa using dropped)) words
  have falls : fall (words.filter isNegative) = fall words := gain_filter pushes words
  have upFirst : ∀ origin : Int64, Steady origin (words.filter fun word => !isNegative word) :=
    fun _ => Or.inr (Or.inr noFall)
  have downFirst : ∀ origin : Int64, Steady origin (words.filter isNegative) :=
    fun _ => Or.inr (Or.inl noRise)
  rw [← Int64.toInt_inj, List.foldl_append, List.foldl_append,
    toInt_foldl_of_steady (downFirst _), toInt_foldl_of_steady (upFirst _),
    toInt_foldl_of_steady (upFirst _), toInt_foldl_of_steady (downFirst _), noRise, noFall, rises,
    falls] at same
  have below := least_le_toInt start
  have above := toInt_le_greatest start
  have up := rise_nonneg words
  have down := fall_nonneg words
  have width : least + greatest + 1 = 0 := by decide
  unfold Steady
  omega

end Saturation

namespace Update

def weights (updates : List Update) : List Int64 := updates.map fun update => update.edge.weight

theorem weight_applyAll (updates : List Update) (attrs : Attrs) :
    (applyAll updates attrs).weight = (weights updates).foldl Saturation.add attrs.weight := by
  induction updates generalizing attrs with
  | nil => rfl
  | cons update updates ih => exact ih (update.applyTo attrs)

theorem applyAll_perm_of_steady {first second : List Update} {attrs : Attrs}
    (steady : Saturation.Steady attrs.weight (weights second)) (perm : first.Perm second) :
    applyAll first attrs = applyAll second attrs := by
  have weight : (applyAll first attrs).weight = (applyAll second attrs).weight := by
    rw [weight_applyAll, weight_applyAll]
    exact Saturation.foldl_perm_of_steady steady (perm.map _)
  have timestamp := timestamp_applyAll_perm perm attrs
  cases resultFirst : applyAll first attrs
  cases resultSecond : applyAll second attrs
  rw [resultFirst, resultSecond] at weight timestamp
  exact congrArg₂ Attrs.mk weight timestamp

def isPull (update : Update) : Bool := Saturation.isNegative update.edge.weight

/-- The updates that push a weight up before those that pull it down. -/
def pushedFirst (updates : List Update) : List Update :=
  updates.filter (fun update => !update.isPull) ++ updates.filter isPull

def pulledFirst (updates : List Update) : List Update :=
  updates.filter isPull ++ updates.filter fun update => !update.isPull

theorem perm_pulledFirst (updates : List Update) : (pulledFirst updates).Perm updates :=
  List.filter_append_perm isPull updates

theorem perm_pushedFirst (updates : List Update) : (pushedFirst updates).Perm updates :=
  List.perm_append_comm.trans (perm_pulledFirst updates)

theorem toKey_pushedFirst (key : EdgeKey) (updates : List Update) :
    toKey key (pushedFirst updates) = pushedFirst (toKey key updates) := by
  unfold pushedFirst
  rw [toKey_append]
  simp only [toKey, List.filter_filter, Bool.and_comm]

theorem toKey_pulledFirst (key : EdgeKey) (updates : List Update) :
    toKey key (pulledFirst updates) = pulledFirst (toKey key updates) := by
  unfold pulledFirst
  rw [toKey_append]
  simp only [toKey, List.filter_filter, Bool.and_comm]

theorem steady_of_same_weight {updates : List Update} {attrs : Attrs}
    (same : (applyAll (pushedFirst updates) attrs).weight =
      (applyAll (pulledFirst updates) attrs).weight) :
    Saturation.Steady attrs.weight (weights updates) := by
  apply Saturation.steady_of_same_ends
  rw [weight_applyAll, weight_applyAll] at same
  unfold weights
  rw [List.filter_map, List.filter_map, ← List.map_append, ← List.map_append]
  exact same

end Update

namespace Shard

/-- Merges lists of updates one after the other, each sorted in its own way, up to the first that is
refused. -/
def mergeAll (shard : Shard) : List (KeySort × List Update) → Except Failure Shard
  | [] => .ok shard
  | (order, updates) :: rest =>
      match (shard.merge order updates).outcome with
      | .error failure => .error failure
      | .ok _ => (shard.merge order updates).shard.mergeAll rest

/-- No order of the updates to this pair of endpoints stops its weight at an end and brings it
back. -/
def SteadyAt (shard : Shard) (updates : List Update) (key : EdgeKey) : Prop :=
  Saturation.Steady ((shard.entries key).getD .fresh).weight
    (Update.weights (Update.toKey key updates))

theorem result_append (first second : List Update) (old : Option Attrs) :
    IngestMode.incremental.result (first ++ second) old =
      IngestMode.incremental.result second (IngestMode.incremental.result first old) := by
  cases first with
  | nil => rfl
  | cons head tail =>
      cases second with
      | nil => simp [IngestMode.result]
      | cons next later =>
          simp only [IngestMode.result, List.append_eq_nil_iff, reduceCtorEq, and_false, if_false,
            Option.getD_some, Update.applyAll_append]

theorem Welcome.perm {shard : Shard} {first second : List Update} (welcome : shard.Welcome second)
    (perm : first.Perm second) : shard.Welcome first :=
  fun update member => welcome update (perm.subset member)

theorem entries_merge {shard : Shard} {updates : List Update} (order : KeySort)
    (welcome : shard.Welcome updates) (key : EdgeKey) :
    (shard.merge order updates).shard.entries key =
      IngestMode.incremental.result (Update.toKey key (order.sort updates))
        (shard.entries key) := by
  obtain ⟨_, _, takes⟩ := takes_merge order welcome
  exact takes.entries key

/-- Merging several lists does to each pair of endpoints what one list of them all does, each in the
order in which it is sorted. -/
theorem entries_mergeAll {shard : Shard} {pieces : List (KeySort × List Update)}
    (welcome : shard.Welcome (pieces.flatMap Prod.snd)) :
    ∃ merged, shard.mergeAll pieces = .ok merged ∧
      ∀ key, merged.entries key = IngestMode.incremental.result
        (Update.toKey key (pieces.flatMap fun piece => piece.1.sort piece.2))
        (shard.entries key) := by
  induction pieces generalizing shard with
  | nil => exact ⟨shard, rfl, fun _ => rfl⟩
  | cons piece rest ih =>
      obtain ⟨order, updates⟩ := piece
      rw [List.flatMap_cons] at welcome
      have welcomeHere : shard.Welcome updates :=
        fun update member => welcome update (List.mem_append_left _ member)
      obtain ⟨stats, outcome, takes⟩ := takes_merge order welcomeHere
      have welcomeLater :
          (shard.merge order updates).shard.Welcome (rest.flatMap Prod.snd) := by
        intro update member
        obtain ⟨unmarked, allowed⟩ := welcome update (List.mem_append_right _ member)
        exact ⟨unmarked, (takes.place.allowed_iff ..).2 allowed⟩
      obtain ⟨merged, run, later⟩ := ih welcomeLater
      refine ⟨merged, ?_, ?_⟩
      · simp only [mergeAll, outcome, run]
      · intro key
        rw [later, entries_merge order welcomeHere, List.flatMap_cons, Update.toKey_append,
          result_append]

/-- What a merge meets for a pair of endpoints, in whatever order. -/
theorem perm_toKey_sort (order : KeySort) (updates : List Update) (key : EdgeKey) :
    (Update.toKey key (order.sort updates)).Perm (Update.toKey key updates) :=
  (order.perm updates).filter _

theorem perm_sort_pieces (pieces : List (KeySort × List Update)) :
    (pieces.flatMap fun piece => piece.1.sort piece.2).Perm (pieces.flatMap Prod.snd) := by
  induction pieces with
  | nil => exact .refl []
  | cons piece rest ih => exact (piece.1.perm piece.2).append ih

theorem timestamp_result_perm {first second : List Update} (perm : first.Perm second)
    (old : Option Attrs) : (IngestMode.incremental.result first old).map Attrs.timestamp =
      (IngestMode.incremental.result second old).map Attrs.timestamp := by
  rw [IngestMode.result_of_perm perm, IngestMode.result]
  split
  · rfl
  · exact congrArg some (Update.timestamp_applyAll_perm perm _)

theorem result_perm_of_steady {first second : List Update} {old : Option Attrs}
    (steady : Saturation.Steady (old.getD .fresh).weight (Update.weights second))
    (perm : first.Perm second) : IngestMode.incremental.result first old =
      IngestMode.incremental.result second old := by
  rw [IngestMode.result_of_perm perm, IngestMode.result,
    Update.applyAll_perm_of_steady steady perm]

/-- The stable merge meets the updates to a pair in the order in which they came. -/
theorem entries_merge_stable {shard : Shard} {updates : List Update}
    (welcome : shard.Welcome updates) (key : EdgeKey) :
    (shard.merge .stable updates).shard.entries key =
      IngestMode.incremental.result (Update.toKey key updates) (shard.entries key) := by
  rw [entries_merge _ welcome, Update.toKey_stable]

/-- If pushing up first leaves what pulling down first leaves, then every order does. -/
theorem steadyAt_of_same_entries {shard : Shard} {updates : List Update} {key : EdgeKey}
    (welcome : shard.Welcome updates)
    (same : (shard.merge .stable (Update.pushedFirst updates)).shard.entries key =
      (shard.merge .stable (Update.pulledFirst updates)).shard.entries key) :
    shard.SteadyAt updates key := by
  rw [entries_merge_stable (welcome.perm (Update.perm_pushedFirst updates)),
    entries_merge_stable (welcome.perm (Update.perm_pulledFirst updates)),
    Update.toKey_pushedFirst, Update.toKey_pulledFirst,
    IngestMode.result_of_perm (Update.perm_pushedFirst _),
    IngestMode.result_of_perm (Update.perm_pulledFirst _)] at same
  split at same
  · next nothing =>
      rw [SteadyAt, nothing]
      exact Or.inr (Or.inl rfl)
  · exact Update.steady_of_same_weight (congrArg Attrs.weight (Option.some.inj same))

/-- However updates to the same pair are sorted, merging succeeds in every order and in every cut.
None of this changes the pairs of endpoints or their timestamps, and the weight of a pair depends on
it exactly where its sum can stop at an end and come back: there some other order of arrival leaves
another weight, even if every merge keeps that order. -/
theorem order_matters_only_at_the_ends {shard : Shard} {updates : List Update}
    (welcome : shard.Welcome updates) (order : KeySort) :
    (∃ stats, (shard.merge order updates).outcome = .ok stats) ∧
      (∀ pieces : List (KeySort × List Update), (pieces.flatMap Prod.snd).Perm updates →
        ∃ merged, shard.mergeAll pieces = .ok merged ∧
          ∀ key, (merged.entries key).map Attrs.timestamp =
              ((shard.merge order updates).shard.entries key).map Attrs.timestamp ∧
            (shard.SteadyAt updates key →
              merged.entries key = (shard.merge order updates).shard.entries key)) ∧
      ∀ key, ¬ shard.SteadyAt updates key → ∃ shuffled, shuffled.Perm updates ∧
        (shard.merge .stable shuffled).shard.entries key ≠
          (shard.merge order updates).shard.entries key := by
  obtain ⟨stats, outcome, _⟩ := takes_merge order welcome
  refine ⟨⟨stats, outcome⟩, ?_, ?_⟩
  · intro pieces perm
    obtain ⟨merged, run, stored⟩ := entries_mergeAll (welcome.perm perm)
    refine ⟨merged, run, fun key => ?_⟩
    have ordered := perm_toKey_sort order updates key
    have cut : (Update.toKey key (pieces.flatMap fun piece => piece.1.sort piece.2)).Perm
        (Update.toKey key updates) := ((perm_sort_pieces pieces).trans perm).filter _
    rw [stored, entries_merge order welcome]
    constructor
    · exact timestamp_result_perm (cut.trans ordered.symm) _
    · intro steady
      rw [result_perm_of_steady steady cut, result_perm_of_steady steady ordered]
  · intro key unsteady
    by_contra alike
    push Not at alike
    -- the two extreme orders would have to agree with the given one, and so with each other
    apply unsteady
    apply steadyAt_of_same_entries welcome
    rw [alike _ (Update.perm_pushedFirst updates), alike _ (Update.perm_pulledFirst updates)]

/-- One edge with the greatest weight. -/
def laden : Shard := (Shard.empty 0 (.cyclic 1) 4).after [.insert ⟨1, 2, Int64.maxValue, 0⟩]

def upAndDown : List Update := [{ edge := ⟨1, 2, 1, 1⟩ }, { edge := ⟨1, 2, -1, 2⟩ }]

theorem laden_edge_depends_on_the_order :
    upAndDown.reverse.Perm upAndDown ∧ laden.Welcome upAndDown ∧
      (laden.merge .stable upAndDown).shard.edges = [⟨1, 2, Int64.maxValue - 1, 2⟩] ∧
      (laden.merge .stable upAndDown.reverse).shard.edges = [⟨1, 2, Int64.maxValue, 2⟩] := by
  refine ⟨upAndDown.reverse_perm, ?_, ?_, ?_⟩
  · decide
  · cbv
  · cbv

/-- A laden edge beside a new one, which changes alike in every order. -/
def upAndDownTwice : List Update :=
  upAndDown ++ [{ edge := ⟨2, 1, 5, 1⟩ }, { edge := ⟨2, 1, -7, 1⟩ }]

theorem laden_edge_alone_depends_on_the_order :
    laden.Welcome upAndDownTwice ∧
      (∃ merged, laden.mergeAll (upAndDownTwice.reverse.map fun update => (.stable, [update])) =
          .ok merged ∧
        merged.entries (2, 1) = (laden.merge .stable upAndDownTwice).shard.entries (2, 1)) ∧
      ∃ shuffled, shuffled.Perm upAndDownTwice ∧
        (laden.merge .stable shuffled).shard.entries (1, 2) ≠
          (laden.merge .stable upAndDownTwice).shard.entries (1, 2) := by
  have welcome : laden.Welcome upAndDownTwice := by decide
  obtain ⟨_, cuts, ends⟩ := order_matters_only_at_the_ends welcome .stable
  obtain ⟨reversed, run, same⟩ := cuts
    (upAndDownTwice.reverse.map fun update => (.stable, [update])) upAndDownTwice.reverse_perm
  refine ⟨welcome, ⟨reversed, run, (same (2, 1)).2 ?_⟩, ends (1, 2) ?_⟩
  · unfold SteadyAt
    decide
  · unfold SteadyAt
    decide

end Shard

end StreamGraph
