import StreamGraph.Proofs.Merge.Order

/-!
What a merge adds up. Whatever the shard and however many updates a pair of endpoints gets, the pair
ends with the sum of their weights and the newest of their timestamps, and every pair counts once:
as updated if the shard had it, as inserted if not. The sum is exact as long as no order of the
updates can take the weight to an end of its range.
-/

namespace StreamGraph

namespace Saturation

/-- Between the ends of the range the sum is exact. -/
theorem toInt_foldl_of_inside {start : Int64} {words : List Int64}
    (above : start.toInt + rise words ≤ greatest) (below : least ≤ start.toInt - fall words) :
    (words.foldl add start).toInt = start.toInt + (words.map Int64.toInt).sum := by
  have balance : rise words - fall words = (words.map Int64.toInt).sum := by
    clear above below
    induction words with
    | nil => rfl
    | cons word words ih =>
        rw [rise_cons, fall_cons, List.map_cons, List.sum_cons, ← ih]
        omega
  have up := rise_nonneg words
  have down := fall_nonneg words
  rw [toInt_foldl_of_steady (Or.inl ⟨above, below⟩)]
  omega

end Saturation

namespace Update

/-- The pairs of endpoints that some updates are about. -/
def targets (updates : List Update) : Finset EdgeKey := (updates.map key).toFinset

theorem mem_targets {updates : List Update} {key : EdgeKey} :
    key ∈ targets updates ↔ ∃ update ∈ updates, update.key = key := by
  rw [targets, List.mem_toFinset, List.mem_map]

theorem targets_perm {first second : List Update} (perm : first.Perm second) :
    targets first = targets second := List.toFinset_eq_of_perm _ _ (perm.map key)

theorem toKey_eq_nil_iff {key : EdgeKey} {updates : List Update} :
    toKey key updates = [] ↔ key ∉ targets updates := by
  rw [toKey, List.filter_eq_nil_iff, mem_targets]
  simp only [beq_iff_eq, not_exists, not_and]

/-- A run adds its one pair of endpoints. -/
theorem targets_run {run rest : List Update} {key : EdgeKey} (nonempty : run ≠ [])
    (same : ∀ update ∈ run, update.key = key) :
    targets (run ++ rest) = insert key (targets rest) := by
  ext other
  rw [mem_targets, Finset.mem_insert, mem_targets]
  constructor
  · rintro ⟨update, member, rfl⟩
    rcases List.mem_append.1 member with inRun | inRest
    · exact Or.inl (same update inRun)
    · exact Or.inr ⟨update, inRest, rfl⟩
  · rintro (rfl | ⟨update, inRest, rfl⟩)
    · rcases List.exists_mem_of_ne_nil run nonempty with ⟨update, inRun⟩
      exact ⟨update, List.mem_append_left _ inRun, same update inRun⟩
    · exact ⟨update, List.mem_append_right _ inRest, rfl⟩

end Update

namespace Shard

open Update (Sorted targets)

/-- The pairs of endpoints of some updates that a shard has. -/
def known (shard : Shard) (updates : List Update) : Finset EdgeKey :=
  (targets updates).filter fun key => (shard.entries key).isSome = true

/-- The pairs of endpoints of some updates that a shard does not have. -/
def unknown (shard : Shard) (updates : List Update) : Finset EdgeKey :=
  (targets updates).filter fun key => shard.entries key = none

theorem targets_newcomers (shard : Shard) (updates : List Update) :
    targets (shard.newcomers updates) = shard.unknown updates := by
  ext key
  rw [unknown, Finset.mem_filter, Update.mem_targets, Update.mem_targets]
  constructor
  · rintro ⟨update, member, rfl⟩
    rcases get?_of_mem_newcomers member with ⟨inUpdates, absent⟩
    exact ⟨⟨update, inUpdates, rfl⟩, absent⟩
  · rintro ⟨⟨update, member, rfl⟩, absent⟩
    have missing : shard.contains update.edge.src update.edge.dst = false :=
      congrArg Option.isSome absent
    exact ⟨update, List.mem_filter.2 ⟨member, by rw [missing]; rfl⟩, rfl⟩

/-- The pair of endpoints of a run does not come back in the runs behind it. -/
theorem KeyRuns.notMem_targets {run : List Update} {rest : List (List Update)} {key : EdgeKey}
    (keyRuns : KeyRuns (run :: rest)) (nonempty : run ≠ [])
    (same : ∀ update ∈ run, update.key = key) : key ∉ targets rest.flatten := by
  rw [Update.mem_targets]
  rintro ⟨update, member, again⟩
  rcases List.exists_mem_of_ne_nil run nonempty with ⟨first, inRun⟩
  rcases List.mem_flatten.1 member with ⟨other, inRest, inOther⟩
  have apart := (List.pairwise_cons.1 keyRuns.distinct).1 other inRest
  exact apart first inRun update inOther ((same first inRun).trans again.symm)

/-- Each run is about a pair of endpoints of its own. -/
theorem KeyRuns.card_targets {runs : List (List Update)} (keyRuns : KeyRuns runs) :
    (targets runs.flatten).card = runs.length := by
  induction runs with
  | nil => rfl
  | cons run rest ih =>
      rcases keyRuns.uniform run (List.mem_cons_self ..) with ⟨nonempty, key, same⟩
      rw [List.flatten_cons, Update.targets_run nonempty same,
        Finset.card_insert_of_notMem (keyRuns.notMem_targets nonempty same), ih keyRuns.of_cons,
        List.length_cons]

theorem known_modify (shard : Shard) (key : EdgeKey) (change : Attrs → Attrs)
    (updates : List Update) :
    (shard.modify key.1 key.2 change).known updates = shard.known updates := by
  apply Finset.filter_congr
  intro other _
  change (shard.modify key.1 key.2 change).contains other.1 other.2 = true ↔ _
  rw [contains_modify]
  rfl

/-- Every run with a stored edge is counted, and no other. -/
theorem updated_absorbRuns (shard : Shard) {runs : List (List Update)} (keyRuns : KeyRuns runs) :
    (shard.absorbRuns runs).2.2 = (shard.known runs.flatten).card := by
  induction runs generalizing shard with
  | nil => rfl
  | cons run rest ih =>
      rcases keyRuns.uniform run (List.mem_cons_self ..) with ⟨nonempty, key, same⟩
      have fresh := keyRuns.notMem_targets nonempty same
      rw [absorbRuns, absorbRun_of_uniform shard nonempty same, List.flatten_cons, known,
        Update.targets_run nonempty same, Finset.filter_insert]
      by_cases present : shard.contains key.1 key.2 = true
      · have stored : (shard.entries key).isSome = true := present
        have notYet : key ∉ shard.known rest.flatten := fun member =>
          fresh (Finset.mem_filter.1 member).1
        rw [if_pos present, if_pos stored]
        dsimp only
        rw [ih _ keyRuns.of_cons, known_modify]
        exact (Finset.card_insert_of_notMem notYet).symm
      · have missing : ¬ (shard.entries key).isSome = true := present
        rw [if_neg present, if_neg missing]
        exact ih shard keyRuns.of_cons

theorem updated_sort (shard : Shard) (order : KeySort) (updates : List Update) :
    (shard.absorbRuns (runs (order.sort updates))).2.2 = (shard.known updates).card := by
  rw [updated_absorbRuns shard (keyRuns_runs (order.sorted updates)), flatten_runs, known, known,
    Update.targets_perm (order.perm updates)]

theorem inserted_sort (shard : Shard) (order : KeySort) (updates : List Update) :
    (runs (shard.newcomers (order.sort updates))).length = (shard.unknown updates).card := by
  have sortedNew : Sorted (shard.newcomers (order.sort updates)) :=
    (order.sorted updates).sublist List.filter_sublist
  rw [← (keyRuns_runs sortedNew).card_targets, flatten_runs, targets_newcomers, unknown, unknown,
    Update.targets_perm (order.perm updates)]

/-- Each pair of endpoints counts once, and each update. -/
theorem outcome_merge {shard : Shard} {updates : List Update} (order : KeySort)
    (welcome : shard.Welcome updates) :
    (shard.merge order updates).outcome =
      .ok ⟨(shard.known updates).card, (shard.unknown updates).card, updates.length⟩ := by
  rcases stages_merge order welcome with ⟨after, stages⟩
  rw [stages.result]
  dsimp only
  rw [updated_sort, inserted_sort, (order.perm updates).length_eq]

/-- The weight of a pair of endpoints, and nothing where the shard does not have it. -/
def weightAt (shard : Shard) (key : EdgeKey) : Int :=
  match shard.entries key with
  | none => 0
  | some attrs => attrs.weight.toInt

/-- The timestamps that a shard and some updates have for a pair of endpoints. -/
def timestampsAt (shard : Shard) (updates : List Update) (key : EdgeKey) : Set Int64 :=
  {timestamp | (shard.entries key).map Attrs.timestamp = some timestamp ∨
    timestamp ∈ Update.timestamps (Update.toKey key updates)}

theorem getD_result (updates : List Update) (old : Option Attrs) :
    (IngestMode.incremental.result updates old).getD .fresh =
      Update.applyAll updates (old.getD .fresh) := by
  cases updates with
  | nil => rfl
  | cons => rfl

theorem weightAt_eq (shard : Shard) (key : EdgeKey) :
    shard.weightAt key = ((shard.entries key).getD .fresh).weight.toInt := by
  unfold weightAt
  cases shard.entries key <;> rfl

theorem timestampsAt_perm (shard : Shard) {first second : List Update}
    (perm : first.Perm second) (key : EdgeKey) :
    shard.timestampsAt first key = shard.timestampsAt second key := by
  have same : (Update.timestamps (Update.toKey key first)).Perm
      (Update.timestamps (Update.toKey key second)) := (perm.filter _).map _
  simp only [timestampsAt, same.mem_iff]

/-- The newest timestamp of a pair that has updates: the age of a fresh edge does not show. -/
theorem isGreatest_timestamp (shard : Shard) {updates : List Update} {key : EdgeKey}
    (nonempty : Update.toKey key updates ≠ []) :
    IsGreatest (shard.timestampsAt updates key)
      (Update.applyAll (Update.toKey key updates) ((shard.entries key).getD .fresh)).timestamp := by
  rw [Update.timestamp_applyAll, timestampsAt]
  cases shard.entries key with
  | none =>
      rcases Saturation.foldl_max_minValue_spec (mt List.map_eq_nil_iff.1 nonempty) with
        ⟨attained, above⟩
      constructor
      · exact Or.inr attained
      · rintro timestamp (nothing | later)
        · cases nothing
        · exact above timestamp later
  | some old =>
      rcases Saturation.foldl_max_spec old.timestamp
        (Update.timestamps (Update.toKey key updates)) with ⟨attained, above⟩
      constructor
      · rcases List.mem_cons.1 attained with start | later
        · exact Or.inl (congrArg some start.symm)
        · exact Or.inr later
      · rintro timestamp (start | later)
        · rw [Option.map_some, Option.some.injEq] at start
          exact above timestamp (List.mem_cons.2 (Or.inl start.symm))
        · exact above timestamp (List.mem_cons_of_mem _ later)

/-- What a merge comes to. -/
structure Totals (before : Shard) (updates : List Update) (merged : Ingestion)
    (stats : MergeStats) : Prop where
  untouched (key : EdgeKey) (elsewhere : key ∉ targets updates) :
    merged.shard.entries key = before.entries key
  newest (key : EdgeKey) (target : key ∈ targets updates) :
    ∃ attrs, merged.shard.entries key = some attrs ∧
      IsGreatest (before.timestampsAt updates key) attrs.timestamp
  weight (key : EdgeKey)
    (above : before.weightAt key +
      Saturation.rise (Update.weights (Update.toKey key updates)) ≤ Saturation.greatest)
    (below : Saturation.least ≤ before.weightAt key -
      Saturation.fall (Update.weights (Update.toKey key updates))) :
    merged.shard.weightAt key = before.weightAt key +
      ((Update.weights (Update.toKey key updates)).map Int64.toInt).sum
  updated : stats.updated = (before.known updates).card
  inserted : stats.inserted = (before.unknown updates).card
  consumed : stats.consumed = updates.length
  counted : merged.shard.edgeCount = before.edgeCount + stats.inserted
  sorted : Sorted merged.updates
  marked : merged.updates.Perm (updates.map Update.markDone)

/-- However many updates a merge gets, each pair of endpoints ends with the sum of its weights and
its newest timestamp, all others stay as they are, and each pair counts once. -/
theorem merging_adds_weights_and_keeps_the_newest {shard : Shard} {updates : List Update}
    (welcome : shard.Welcome updates) (order : KeySort) : ∃ stats,
      (shard.merge order updates).outcome = .ok stats ∧
        Totals shard updates (shard.merge order updates) stats := by
  rcases stages_merge order welcome with ⟨after, stages⟩
  have touched := fun key => entries_merge order welcome key
  have ordered := fun key => perm_toKey_sort order updates key
  rw [stages.result] at touched ⊢
  apply Exists.intro
  apply And.intro rfl
  constructor
  case untouched =>
    intro key elsewhere
    have nothing : Update.toKey key (order.sort updates) = [] := by
      rwa [Update.toKey_eq_nil_iff, Update.targets_perm (order.perm updates)]
    rw [touched, nothing]
    rfl
  case newest =>
    intro key target
    have nonempty : Update.toKey key (order.sort updates) ≠ [] := by
      rwa [Ne, Update.toKey_eq_nil_iff, Update.targets_perm (order.perm updates), not_not]
    have stored := touched key
    rw [IngestMode.result, if_neg nonempty] at stored
    rw [← shard.timestampsAt_perm (order.perm updates)]
    exact ⟨_, stored, shard.isGreatest_timestamp nonempty⟩
  case weight =>
    intro key above below
    have perm : (Update.weights (Update.toKey key (order.sort updates))).Perm
        (Update.weights (Update.toKey key updates)) := (ordered key).map _
    rw [weightAt_eq, Saturation.rise, ← Saturation.gain_perm _ perm] at above
    rw [weightAt_eq, Saturation.fall, ← Saturation.gain_perm _ perm] at below
    rw [weightAt_eq, weightAt_eq, touched, getD_result, Update.weight_applyAll,
      Saturation.toInt_foldl_of_inside above below, (perm.map Int64.toInt).sum_eq]
  case updated => exact shard.updated_sort order updates
  case inserted => exact shard.inserted_sort order updates
  case consumed => exact (order.perm updates).length_eq
  case counted =>
    dsimp only
    rw [stages.filed.counted, stages.absorbed.counted]
  case sorted => exact List.pairwise_map.2 (order.sorted updates)
  case marked => exact (order.perm updates).map _

/-- One edge, to be merged with updates to it and to another pair in turn. -/
def stocked : Shard := (Shard.empty 0 (.cyclic 1) 4).after [.insert ⟨1, 2, 10, 5⟩]

def interleaved : List Update :=
  [{ edge := ⟨2, 1, 3, 1⟩ }, { edge := ⟨1, 2, -4, 9⟩ }, { edge := ⟨2, 1, 4, 2⟩ },
    { edge := ⟨1, 2, 1, 7⟩ }]

theorem interleaved_updates_add_up : stocked.Welcome interleaved ∧
    (∃ stats, (stocked.merge .stable interleaved).outcome = .ok stats ∧
      Totals stocked interleaved (stocked.merge .stable interleaved) stats) ∧
    (stocked.merge .stable interleaved).outcome = .ok ⟨1, 1, 4⟩ ∧
    (stocked.merge .stable interleaved).shard.edges = [⟨1, 2, 7, 9⟩, ⟨2, 1, 7, 2⟩] := by
  have welcome : stocked.Welcome interleaved := by decide
  refine ⟨welcome, merging_adds_weights_and_keeps_the_newest welcome .stable, ?_, ?_⟩
  · cbv
  · cbv

end Shard

end StreamGraph
