import StreamGraph.Proofs.Merge.Totals

/-!
What a bulk load comes to, and where a merge comes to the same. A load stores the updates as they
come, so each pair of endpoints ends with the last one, and a pair that occurs twice counts as
updated the second time. A merge folds into what is there, beginning with nothing where nothing is;
for a single update to a new pair this is storing it as it is, whatever its weight and its
timestamp. So the two differ only where a pair is there before or occurs more than once.
-/

namespace StreamGraph

/-- The counts of one ingestion after another. -/
def MergeStats.plus (earlier later : MergeStats) : MergeStats where
  updated := earlier.updated + later.updated
  inserted := earlier.inserted + later.inserted
  consumed := earlier.consumed + later.consumed

namespace Update

open Saturation (least_le_toInt toInt_le_greatest)

/-- Folding an update into a fresh edge is taking it as it is. -/
theorem applyTo_fresh (update : Update) : update.applyTo .fresh = update.edge.attrs := by
  have weight : Saturation.add 0 update.edge.weight = update.edge.weight := by
    have below := least_le_toInt update.edge.weight
    have above := toInt_le_greatest update.edge.weight
    have nothing : (0 : Int64).toInt = 0 := rfl
    rw [← Int64.toInt_inj, Saturation.toInt_add, nothing]
    omega
  have timestamp : max Int64.minValue update.edge.timestamp = update.edge.timestamp :=
    if_pos (Int64.minValue_le _)
  exact congrArg₂ Attrs.mk weight timestamp

/-- Each pair of endpoints that some updates are about has a last update. -/
theorem exists_last {updates : List Update} {key : EdgeKey} (target : key ∈ targets updates) :
    ∃ front update back, updates = front ++ update :: back ∧ update.key = key ∧
      key ∉ targets back := by
  induction updates with
  | nil => cases target
  | cons first others ih =>
      by_cases later : key ∈ targets others
      · obtain ⟨front, update, back, rfl, same, last⟩ := ih later
        exact ⟨first :: front, update, back, rfl, same, last⟩
      · obtain ⟨update, member, same⟩ := mem_targets.1 target
        rcases List.mem_cons.1 member with rfl | inOthers
        · exact ⟨[], update, others, rfl, same, later⟩
        · exact absurd (mem_targets.2 ⟨update, inOthers, same⟩) later

theorem getLast?_toKey {front back : List Update} {update : Update}
    (last : update.key ∉ targets back) :
    (toKey update.key (front ++ update :: back)).getLast? = some update := by
  rw [toKey_append, toKey_cons, if_pos rfl, toKey_eq_nil_iff.2 last]
  exact List.getLast?_concat

/-- Where no pair of endpoints occurs twice, each has one update at most. -/
theorem toKey_of_nodup {updates : List Update} (nodup : (updates.map key).Nodup) (key : EdgeKey) :
    toKey key updates = [] ∨ ∃ update, toKey key updates = [update] := by
  induction updates with
  | nil => exact Or.inl rfl
  | cons first others ih =>
      obtain ⟨apart, rest⟩ := List.nodup_cons.1 nodup
      rw [toKey_cons]
      split
      · next same =>
          have gone : key ∉ targets others := fun member =>
            apart (same ▸ List.mem_toFinset.1 member)
          exact Or.inr ⟨first, congrArg _ (toKey_eq_nil_iff.2 gone)⟩
      · exact ih rest

theorem card_targets_eq_length_iff (updates : List Update) :
    (targets updates).card = updates.length ↔ (updates.map key).Nodup := by
  have once : (targets updates).card = Multiset.card (updates.map key : Multiset EdgeKey) ↔
      (updates.map key : Multiset EdgeKey).Nodup := Multiset.toFinset_card_eq_card_iff_nodup
  rw [Multiset.coe_card, List.length_map, Multiset.coe_nodup] at once
  exact once

end Update

namespace Shard

open Update (targets)

/-- Every update may be held here, marked or not. -/
def Admits (shard : Shard) (updates : List Update) : Prop :=
  ∀ update ∈ updates, shard.Allowed update.edge.src update.edge.dst

instance (shard : Shard) (updates : List Update) : Decidable (shard.Admits updates) :=
  inferInstanceAs (Decidable (∀ update ∈ updates, _))

theorem Admits.of_cons {shard : Shard} {update : Update} {others : List Update}
    (admits : shard.Admits (update :: others)) : (shard.put update.edge).Admits others := by
  intro other member
  rw [(shard.samePlace_put update.edge).allowed_iff]
  exact admits other (List.mem_cons_of_mem _ member)

theorem Welcome.admits {shard : Shard} {updates : List Update} (welcome : shard.Welcome updates) :
    shard.Admits updates := fun update member => (welcome update member).2

/-- The calls that store the edges of some updates one after the other. -/
def stores (updates : List Update) : List Change := updates.map fun update => .insert update.edge

theorem after_stores_cons {shard : Shard} {update : Update}
    (allowed : shard.Allowed update.edge.src update.edge.dst) (others : List Update) :
    shard.after (stores (update :: others)) = (shard.put update.edge).after (stores others) := by
  rw [stores, List.map_cons, after, List.foldl_cons, change, insert_of_allowed allowed]
  rfl

/-- What storing updates counts: a pair of endpoints is new the first time, and never again. -/
def tally (shard : Shard) (updates : List Update) : MergeStats where
  updated := updates.length - (shard.unknown updates).card
  inserted := (shard.unknown updates).card
  consumed := updates.length

theorem card_unknown_le (shard : Shard) (updates : List Update) :
    (shard.unknown updates).card ≤ updates.length := by
  calc (shard.unknown updates).card ≤ (targets updates).card := Finset.card_filter_le ..
    _ ≤ (updates.map Update.key).length := List.toFinset_card_le _
    _ = updates.length := List.length_map _

theorem unknown_put (shard : Shard) (update : Update) (others : List Update) :
    (shard.put update.edge).unknown others = (shard.unknown others).erase update.key := by
  ext key
  rw [unknown, unknown, Finset.mem_erase, Finset.mem_filter, Finset.mem_filter, entries_put]
  by_cases same : key = update.edge.key
  · rw [same, Function.update_self]
    simp [Update.key]
  · rw [Function.update_of_ne same]
    simp [Update.key, same]

theorem card_unknown_cons (shard : Shard) (update : Update) (others : List Update) :
    (shard.unknown (update :: others)).card = ((shard.put update.edge).unknown others).card +
      if (shard.entries update.key).isSome then 0 else 1 := by
  have first : targets (update :: others) = Insert.insert update.key (targets others) :=
    List.toFinset_cons
  have missing : update.key ∉ (shard.put update.edge).unknown others := by
    rw [unknown_put]
    exact Finset.notMem_erase _ _
  rw [unknown, first, Finset.filter_insert, ← unknown]
  cases stored : shard.entries update.key with
  | none =>
      have grown : Insert.insert update.key (shard.unknown others) =
          Insert.insert update.key ((shard.put update.edge).unknown others) := by
        ext key
        rw [unknown_put, Finset.mem_insert, Finset.mem_insert, Finset.mem_erase]
        tauto
      rw [if_pos rfl, grown, Finset.card_insert_of_notMem missing]
      rfl
  | some attrs =>
      have known : update.key ∉ shard.unknown others := fun member => by
        rw [(Finset.mem_filter.1 member).2] at stored
        cases stored
      rw [if_neg (Option.some_ne_none attrs), unknown_put, Finset.erase_eq_of_notMem known]
      rfl

theorem tally_nil_plus (shard : Shard) (later : MergeStats) :
    (shard.tally []).plus later = later := by
  have nothing : (shard.unknown []).card = 0 := rfl
  simp only [MergeStats.plus, tally, List.length_nil, nothing, Nat.zero_sub, Nat.zero_add]

/-- One update more in front counts one more. -/
theorem tally_cons (shard : Shard) (update : Update) (others : List Update) (later : MergeStats) :
    (shard.tally (update :: others)).plus later =
      let stats := ((shard.put update.edge).tally others).plus later
      { stats with
        updated := stats.updated + if (shard.entries update.key).isSome then 1 else 0
        inserted := stats.inserted + if (shard.entries update.key).isSome then 0 else 1
        consumed := stats.consumed + 1 } := by
  have counts := shard.card_unknown_cons update others
  have few := (shard.put update.edge).card_unknown_le others
  simp only [MergeStats.plus, tally, List.length_cons, counts, MergeStats.mk.injEq]
  split <;> omega

/-- What a load of updates that may be held comes to, whatever comes behind them. -/
theorem bulkLoad_append {shard : Shard} {front : List Update} (admits : shard.Admits front)
    (rest : List Update) : shard.bulkLoad (front ++ rest) =
      ⟨((shard.after (stores front)).bulkLoad rest).shard,
        front.map Update.markDone ++ ((shard.after (stores front)).bulkLoad rest).updates,
        ((shard.after (stores front)).bulkLoad rest).outcome.map (shard.tally front).plus⟩ := by
  induction front generalizing shard with
  | nil =>
      have counts : (shard.bulkLoad rest).outcome.map (shard.tally []).plus =
          (shard.bulkLoad rest).outcome := by
        cases (shard.bulkLoad rest).outcome with
        | error failure => rfl
        | ok stats => exact congrArg Except.ok (shard.tally_nil_plus stats)
      change shard.bulkLoad rest = ⟨_, _, (shard.bulkLoad rest).outcome.map _⟩
      rw [counts]
      rfl
  | cons update others ih =>
      have here := admits update (List.mem_cons_self ..)
      rw [List.cons_append, bulkLoad, insert_of_allowed here, after_stores_cons here]
      dsimp only
      rw [ih admits.of_cons]
      congr 1
      cases (((shard.put update.edge).after (stores others)).bulkLoad rest).outcome with
      | error failure => rfl
      | ok stats => exact congrArg Except.ok (shard.tally_cons update others stats).symm

theorem bulkLoad_of_admits {shard : Shard} {updates : List Update}
    (admits : shard.Admits updates) : shard.bulkLoad updates =
      ⟨shard.after (stores updates), updates.map Update.markDone, .ok (shard.tally updates)⟩ := by
  have loads := bulkLoad_append admits []
  rw [List.append_nil, bulkLoad, List.append_nil] at loads
  exact loads

theorem entries_bulkLoad {shard : Shard} {updates : List Update} (welcome : shard.Welcome updates)
    (key : EdgeKey) : (shard.bulkLoad updates).shard.entries key =
      IngestMode.snapshot.result (Update.toKey key updates) (shard.entries key) := by
  obtain ⟨_, _, takes⟩ := takes_bulkLoad welcome
  exact takes.entries key

/-- What a bulk load comes to. -/
structure Overwrites (before : Shard) (updates : List Update) (loaded : Ingestion)
    (stats : MergeStats) : Prop where
  untouched (key : EdgeKey) (elsewhere : key ∉ targets updates) :
    loaded.shard.entries key = before.entries key
  last (key : EdgeKey) (target : key ∈ targets updates) :
    ∃ front update back, updates = front ++ update :: back ∧ update.key = key ∧
      key ∉ targets back ∧ loaded.shard.entries key = some update.edge.attrs
  inserted : stats.inserted = (before.unknown updates).card
  updated : stats.updated = updates.length - stats.inserted
  few : stats.inserted ≤ updates.length
  consumed : stats.consumed = updates.length
  counted : loaded.shard.edgeCount = before.edgeCount + stats.inserted
  marked : loaded.updates = updates.map Update.markDone

theorem overwrites_bulkLoad {shard : Shard} {updates : List Update}
    (welcome : shard.Welcome updates) :
    Overwrites shard updates (shard.bulkLoad updates) (shard.tally updates) where
  untouched key elsewhere := by
    rw [entries_bulkLoad welcome, Update.toKey_eq_nil_iff.2 elsewhere]
    rfl
  last key target := by
    obtain ⟨front, update, back, split, rfl, last⟩ := Update.exists_last target
    refine ⟨front, update, back, split, rfl, last, ?_⟩
    rw [entries_bulkLoad welcome, split, IngestMode.result, Update.getLast?_toKey last]
    rfl
  inserted := rfl
  updated := rfl
  few := shard.card_unknown_le updates
  consumed := rfl
  counted := by
    obtain ⟨stats, outcome, takes⟩ := takes_bulkLoad welcome
    rw [bulkLoad_of_admits welcome.admits] at outcome
    cases outcome
    exact takes.counted
  marked := by rw [bulkLoad_of_admits welcome.admits]

theorem card_known_add_unknown (shard : Shard) (updates : List Update) :
    (shard.known updates).card + (shard.unknown updates).card = (targets updates).card := by
  have parts := Finset.card_filter_add_card_filter_not (s := targets updates)
    fun key => (shard.entries key).isSome = true
  simp only [Option.not_isSome_iff_eq_none] at parts
  exact parts

/-- A merge and a load count alike unless a pair of endpoints occurs twice. -/
theorem outcome_merge_eq_bulkLoad_iff {shard : Shard} {updates : List Update} (order : KeySort)
    (welcome : shard.Welcome updates) :
    (shard.merge order updates).outcome = (shard.bulkLoad updates).outcome ↔
      (updates.map Update.key).Nodup := by
  have parts := shard.card_known_add_unknown updates
  have few := shard.card_unknown_le updates
  rw [outcome_merge order welcome, bulkLoad_of_admits welcome.admits, tally, Except.ok.injEq,
    MergeStats.mk.injEq, ← Update.card_targets_eq_length_iff]
  constructor
  · rintro ⟨updated, -, -⟩
    omega
  · intro once
    exact ⟨by omega, rfl, rfl⟩

/-- Where the pairs of endpoints are new and none occurs twice, storing each update as it is and
folding it into nothing are the same. -/
theorem entries_merge_eq_bulkLoad {shard : Shard} {updates : List Update} (order : KeySort)
    (welcome : shard.Welcome updates) (once : (updates.map Update.key).Nodup)
    (new : ∀ update ∈ updates, shard.entries update.key = none) :
    (shard.merge order updates).shard.entries = (shard.bulkLoad updates).shard.entries := by
  funext key
  have perm := perm_toKey_sort order updates key
  rw [entries_merge order welcome, entries_bulkLoad welcome]
  rcases Update.toKey_of_nodup once key with nothing | ⟨update, single⟩
  · rw [nothing, List.perm_nil] at perm
    rw [nothing, perm]
    rfl
  · have kept : update ∈ Update.toKey key updates := by
      rw [single]
      exact List.mem_singleton.2 rfl
    obtain ⟨member, same⟩ := List.mem_filter.1 kept
    have absent := new update member
    rw [beq_iff_eq.1 same] at absent
    rw [single, List.perm_singleton] at perm
    rw [single, perm, absent]
    exact congrArg some update.applyTo_fresh

/-- A bulk load of updates that may be held leaves each pair of endpoints with its last update. It
counts as a merge does unless a pair occurs twice; and where the pairs are new as well, it leaves
the same shard. -/
theorem loading_overwrites_and_agrees_with_merging_on_new_edges {shard : Shard}
    {updates : List Update} (welcome : shard.Welcome updates) (order : KeySort) :
    (∃ stats, (shard.bulkLoad updates).outcome = .ok stats ∧
      Overwrites shard updates (shard.bulkLoad updates) stats) ∧
    ((shard.merge order updates).outcome = (shard.bulkLoad updates).outcome ↔
      (updates.map Update.key).Nodup) ∧
    ((updates.map Update.key).Nodup → (∀ update ∈ updates, shard.entries update.key = none) →
      (shard.merge order updates).outcome = (shard.bulkLoad updates).outcome ∧
      (shard.merge order updates).shard.entries = (shard.bulkLoad updates).shard.entries ∧
      (shard.Sound → (shard.merge order updates).shard = (shard.bulkLoad updates).shard)) := by
  refine ⟨⟨_, ?_, overwrites_bulkLoad welcome⟩, outcome_merge_eq_bulkLoad_iff order welcome, ?_⟩
  · rw [bulkLoad_of_admits welcome.admits]
  · intro once new
    have entries := entries_merge_eq_bulkLoad order welcome once new
    refine ⟨(outcome_merge_eq_bulkLoad_iff order welcome).2 once, entries, ?_⟩
    intro sound
    have merged := kept_merge shard order updates
    have loaded := kept_bulkLoad shard updates
    exact (loaded.sound sound).eq_of_get? (merged.sound sound)
      (loaded.place.symm.trans merged.place) fun src dst => congrFun entries (src, dst)

/-- Updates to two new pairs, with the ends of all ranges. -/
def extremes : List Update :=
  [{ edge := ⟨2, 1, Int64.minValue, Int64.maxValue⟩ },
    { edge := ⟨3, 2, Int64.maxValue, Int64.minValue⟩ }]

theorem stocked_shard_is_overwritten :
    stocked.Welcome interleaved ∧
    (∃ stats, (stocked.bulkLoad interleaved).outcome = .ok stats ∧
      Overwrites stocked interleaved (stocked.bulkLoad interleaved) stats) ∧
    (stocked.bulkLoad interleaved).outcome = .ok ⟨3, 1, 4⟩ ∧
    (stocked.bulkLoad interleaved).shard.edges = [⟨1, 2, 1, 7⟩, ⟨2, 1, 4, 2⟩] ∧
    (stocked.merge .stable interleaved).outcome ≠ (stocked.bulkLoad interleaved).outcome ∧
    stocked.Welcome extremes ∧ (extremes.map Update.key).Nodup ∧
    (∀ update ∈ extremes, stocked.entries update.key = none) ∧
    (stocked.merge .stable extremes).shard = (stocked.bulkLoad extremes).shard := by
  have welcome : stocked.Welcome interleaved := by decide
  have welcomeNew : stocked.Welcome extremes := by decide
  have once : (extremes.map Update.key).Nodup := by decide
  have new : ∀ update ∈ extremes, stocked.entries update.key = none := by
    unfold entries
    decide
  obtain ⟨overwrites, counts, _⟩ :=
    loading_overwrites_and_agrees_with_merging_on_new_edges welcome .stable
  obtain ⟨_, _, agrees⟩ :=
    loading_overwrites_and_agrees_with_merging_on_new_edges welcomeNew .stable
  have sound : stocked.Sound := (kept_after ..).sound (sound_empty ..)
  refine ⟨welcome, overwrites, ?_, ?_, mt counts.1 (by decide), welcomeNew, once, new,
    (agrees once new).2.2 sound⟩
  · cbv
  · cbv

end Shard

end StreamGraph
