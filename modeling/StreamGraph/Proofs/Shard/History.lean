import Mathlib
import StreamGraph.Proofs.Division

/-!
A shard after any calls whatever. However its callers insert, remove, change, drop, merge, load and
clear, and whether they succeed or fail, a shard stays a finite map from pairs of endpoints with
the right counts beside it, and every single call does to that map what the map's own operation
does. What merging and loading make of the attributes is not considered here.
-/

namespace StreamGraph.Shard

/-- The shard as a map. -/
def entries (shard : Shard) (key : EdgeKey) : Option Attrs := shard.get? key.1 key.2

theorem entries_retain (shard : Shard) (keep : EdgeKey → Attrs → Bool) (key : EdgeKey) :
    (shard.retain keep).2.entries key = (shard.entries key).filter (keep key) :=
  shard.get?_retain keep key.1 key.2

theorem Takes.entries {before after : Shard} {mode : IngestMode} {updates : List Update}
    {inserted : Nat} (takes : Takes before after mode updates inserted) (key : EdgeKey) :
    after.entries key = mode.result (Update.toKey key updates) (before.entries key) :=
  takes.stored key.1 key.2

/-- A call that may change a shard. -/
inductive Change where
  | insert (edge : Edge)
  | remove (src dst : VertexId)
  | absorb (src dst : VertexId) (weight timestamp : Int64)
  | retain (keep : EdgeKey → Attrs → Bool)
  | evict (threshold : Int64)
  | merge (order : KeySort) (updates : List Update)
  | bulkLoad (updates : List Update)
  | clear

/-- What a call leaves, whether it succeeds or fails. -/
def change (shard : Shard) : Change → Shard
  | .insert edge =>
      match shard.insert edge with
      | .ok (_, next) => next
      | .error _ => shard
  | .remove src dst => (shard.remove src dst).2
  | .absorb src dst weight timestamp =>
      shard.modify src dst fun attrs => attrs.absorb weight timestamp
  | .retain keep => (shard.retain keep).2
  | .evict threshold => (shard.evictOlderThan threshold).2
  | .merge order updates => (shard.merge order updates).shard
  | .bulkLoad updates => (shard.bulkLoad updates).shard
  | .clear => shard.clear

/-- What some calls leave, one after the other. -/
def after (shard : Shard) (changes : List Change) : Shard := changes.foldl change shard

section Removal

theorem get?_remove (shard : Shard) (src dst other target : VertexId) :
    (shard.remove src dst).2.get? other target =
      if (src, dst) = (other, target) then none else shard.get? other target := by
  unfold remove
  cases stored : shard.get? src dst with
  | none =>
      by_cases same : (src, dst) = (other, target)
      · cases same
        rw [if_pos rfl]
        exact stored
      · rw [if_neg same]
  | some attrs =>
      have shrunk := (shard.row src).get?_erase dst
      simp only [get?_row] at shrunk
      dsimp only
      split
      · next gone =>
          -- the row has lost its last edge, so no edge from this source is left
          have nothing := (VertexMap.isEmpty_iff _).1 gone
          simp only [shrunk] at nothing
          simp only [get?, VertexMap.get?_erase, Prod.mk.injEq]
          by_cases source : other = src
          · subst source
            have left := nothing target
            by_cases same : dst = target
            · simp [same]
            · rw [if_neg (Ne.symm same)] at left
              simpa [same, get?] using left.symm
          · simp [source, Ne.symm source]
      · rw [get?_insert_row, shrunk]
        simp only [Prod.mk.injEq]
        by_cases source : other = src
        · subst source
          by_cases same : dst = target
          · simp [same]
          · simp [same, Ne.symm same]
        · simp [source, Ne.symm source]

theorem keys_remove (shard : Shard) (src dst : VertexId) :
    (shard.remove src dst).2.keys = shard.keys.erase (src, dst) := by
  ext key
  rw [mem_keys, get?_remove, Finset.mem_erase, mem_keys]
  by_cases same : (src, dst) = (key.1, key.2)
  · rw [if_pos same]
    simp [same]
  · rw [if_neg same]
    simp [Ne.symm same]

theorem samePlace_remove (shard : Shard) (src dst : VertexId) :
    SamePlace shard (shard.remove src dst).2 := by
  unfold remove
  split
  · exact SamePlace.refl shard
  · exact ⟨rfl, rfl, rfl⟩

theorem Sound.remove {shard : Shard} (sound : shard.Sound) (src dst : VertexId) :
    (shard.remove src dst).2.Sound where
  rows other row stored := by
    unfold Shard.remove at stored
    split at stored
    · exact sound.rows other row stored
    · dsimp only at stored
      split at stored
      · rw [VertexMap.get?_erase] at stored
        split at stored
        · cases stored
        · exact sound.rows other row stored
      · next kept =>
          rw [VertexMap.get?_insert] at stored
          split at stored
          · cases stored
            simpa using kept
          · exact sound.rows other row stored
  counted := by
    rw [keys_remove]
    unfold Shard.remove
    cases stored : shard.get? src dst with
    | none =>
        have absent : (src, dst) ∉ shard.keys := by simp [mem_keys, stored]
        rw [Finset.erase_eq_of_notMem absent]
        exact sound.counted
    | some attrs =>
        have present : (src, dst) ∈ shard.keys := by simp [mem_keys, stored]
        rw [Finset.card_erase_of_mem present]
        exact congrArg (· - 1) sound.counted
  allowed other target attrs stored := by
    rw [(shard.samePlace_remove src dst).allowed_iff]
    rw [get?_remove] at stored
    split at stored
    · cases stored
    · exact sound.allowed other target attrs stored

end Removal

/-- A step of a shard's history: the shard stays where it is, and sound. -/
structure Kept (before after : Shard) : Prop where
  place : SamePlace before after
  sound (sound : before.Sound) : after.Sound

theorem Kept.refl (shard : Shard) : Kept shard shard := ⟨SamePlace.refl shard, id⟩

theorem Kept.trans {first second third : Shard} (left : Kept first second)
    (right : Kept second third) : Kept first third :=
  ⟨left.place.trans right.place, fun sound => right.sound (left.sound sound)⟩

theorem kept_modify (shard : Shard) (src dst : VertexId) (change : Attrs → Attrs) :
    Kept shard (shard.modify src dst change) :=
  ⟨samePlace_modify .., fun sound => sound.modify ..⟩

theorem kept_retain (shard : Shard) (keep : EdgeKey → Attrs → Bool) :
    Kept shard (shard.retain keep).2 :=
  ⟨samePlace_retain .., fun sound => sound.retain keep⟩

theorem insert_of_not_allowed {shard : Shard} {edge : Edge}
    (refused : ¬ shard.Allowed edge.src edge.dst) :
    ∃ failure, shard.insert edge = .error failure := by
  cases checked : shard.check edge.src edge.dst with
  | ok => exact absurd checked refused
  | error failure => exact ⟨failure, insert_of_check checked⟩

theorem kept_of_insert {shard next : Shard} {edge : Edge} {replaced : Option Attrs}
    (inserted : shard.insert edge = .ok (replaced, next)) : Kept shard next := by
  by_cases allowed : shard.Allowed edge.src edge.dst
  · rw [insert_of_allowed allowed] at inserted
    cases inserted
    exact ⟨shard.samePlace_put edge, fun sound => sound.put allowed⟩
  · obtain ⟨failure, refused⟩ := insert_of_not_allowed allowed
    rw [refused] at inserted
    cases inserted

theorem kept_insertAll (shard : Shard) (edges : List Edge) :
    Kept shard (shard.insertAll edges).1 := by
  induction edges generalizing shard with
  | nil => exact Kept.refl shard
  | cons edge rest ih =>
      unfold insertAll
      cases inserted : shard.insert edge with
      | error failure => exact Kept.refl shard
      | ok pair => exact (kept_of_insert inserted).trans (ih pair.2)

theorem kept_of_absorbRun {shard next : Shard} {run marked : List Update}
    (folded : shard.absorbRun run = some (next, marked)) : Kept shard next := by
  cases run with
  | nil => cases folded
  | cons first others =>
      simp only [absorbRun] at folded
      split at folded
      · cases folded
        exact kept_modify ..
      · cases folded

theorem kept_absorbRuns (shard : Shard) (runs : List (List Update)) :
    Kept shard (shard.absorbRuns runs).1 := by
  induction runs generalizing shard with
  | nil => exact Kept.refl shard
  | cons run rest ih =>
      unfold absorbRuns
      cases folded : shard.absorbRun run with
      | none => exact ih shard
      | some pair => exact (kept_of_absorbRun folded).trans (ih pair.1)

/-- A merge is sound even when some updates were marked before. -/
theorem kept_merge (shard : Shard) (order : KeySort) (updates : List Update) :
    Kept shard (shard.merge order updates).shard := by
  unfold merge
  split
  · exact Kept.refl shard
  · exact (kept_absorbRuns ..).trans (kept_insertAll ..)

theorem kept_bulkLoad (shard : Shard) (updates : List Update) :
    Kept shard (shard.bulkLoad updates).shard := by
  induction updates generalizing shard with
  | nil => exact Kept.refl shard
  | cons update rest ih =>
      unfold bulkLoad
      cases inserted : shard.insert update.edge with
      | error failure => exact Kept.refl shard
      | ok pair => exact (kept_of_insert inserted).trans (ih pair.2)

theorem kept_ingest (shard : Shard) (order : KeySort) (updates : List Update)
    (mode : IngestMode) : Kept shard (shard.ingest order updates mode).shard := by
  cases mode with
  | incremental => exact kept_merge shard order updates
  | snapshot => exact kept_bulkLoad shard updates

theorem kept_change (shard : Shard) (call : Change) : Kept shard (shard.change call) := by
  cases call with
  | insert edge =>
      simp only [change]
      cases inserted : shard.insert edge with
      | error failure => exact Kept.refl shard
      | ok pair => exact kept_of_insert inserted
  | remove src dst => exact ⟨samePlace_remove .., fun sound => sound.remove src dst⟩
  | absorb src dst weight timestamp => exact kept_modify ..
  | retain keep => exact kept_retain shard keep
  | evict threshold => exact kept_retain ..
  | merge order updates => exact kept_merge shard order updates
  | bulkLoad updates => exact kept_bulkLoad shard updates
  | clear => exact ⟨⟨rfl, rfl, rfl⟩, fun _ => sound_empty ..⟩

theorem kept_after (shard : Shard) (changes : List Change) : Kept shard (shard.after changes) := by
  induction changes generalizing shard with
  | nil => exact Kept.refl shard
  | cons call changes ih => exact (kept_change shard call).trans (ih (shard.change call))

/-- The edges lie in range and start at vertices of the rank, and no row is empty. -/
structure Proper (rank : Nat) (partition : Partition) (bound : UInt64) (shard : Shard) : Prop where
  rows (src : VertexId) (row : Row) (stored : shard.rows.get? src = some row) :
    ∃ dst attrs, row.get? dst = some attrs
  src (key : EdgeKey) (stored : (shard.entries key).isSome = true) : 0 < key.1 ∧ key.1 < bound
  dst (key : EdgeKey) (stored : (shard.entries key).isSome = true) : 0 < key.2 ∧ key.2 < bound
  owner (key : EdgeKey) (stored : (shard.entries key).isSome = true) :
    partition.owner key.1 = rank

theorem Sound.proper {rank : Nat} {partition : Partition} {bound : UInt64} {shard : Shard}
    (sound : shard.Sound) (place : SamePlace (Shard.empty rank partition bound) shard) :
    Proper rank partition bound shard := by
  have allowed : ∀ key : EdgeKey, (shard.entries key).isSome = true →
      (Shard.empty rank partition bound).Allowed key.1 key.2 := by
    intro key stored
    obtain ⟨attrs, found⟩ := Option.isSome_iff_exists.1 stored
    exact (place.allowed_iff ..).1 (sound.allowed _ _ attrs found)
  simp only [allowed_iff, VertexId.isEndpoint, Bool.and_eq_true, decide_eq_true_eq] at allowed
  exact {
    rows := fun src row stored => (VertexMap.isEmpty_eq_false_iff row).1 (sound.rows src row stored)
    src := fun key stored => (allowed key stored).1
    dst := fun key stored => (allowed key stored).2.1
    owner := fun key stored => (allowed key stored).2.2 }

/-- The numbers that a shard tells about itself are those of its map. -/
structure Tallied (shard : Shard) : Prop where
  edges : shard.edgeCount = {key | (shard.entries key).isSome = true}.ncard
  isEmpty : shard.isEmpty = true ↔ ∀ key, shard.entries key = none
  outDegree (src : VertexId) :
    shard.outDegree src = {dst | (shard.entries (src, dst)).isSome = true}.ncard
  active : shard.activeVertices = {vertex | 0 < shard.outDegree vertex}.ncard
  degrees : (shard.degrees.map Prod.snd).sum = shard.edgeCount

theorem coe_keys (shard : Shard) :
    (shard.keys : Set EdgeKey) = {key | (shard.entries key).isSome = true} := by
  ext key
  exact shard.mem_keys key

theorem outDegree_eq_ncard (shard : Shard) (src : VertexId) :
    shard.outDegree src = {dst | (shard.entries (src, dst)).isSome = true}.ncard := by
  have targets : {dst | (shard.entries (src, dst)).isSome = true} =
      (shard.heads src : Set VertexId) := by
    ext dst
    exact mem_heads.symm
  rw [targets, Set.ncard_coe_finset, card_heads]

theorem Sound.coe_sources {shard : Shard} (sound : shard.Sound) :
    (shard.sources : Set VertexId) = {vertex | 0 < shard.outDegree vertex} := by
  ext src
  rw [Finset.mem_coe, sound.mem_sources, Set.mem_ofPred_eq, outDegree, VertexMap.size,
    List.length_pos_iff_exists_mem]
  simp only [← get?_row, Option.isSome_iff_exists, VertexMap.get?_eq_some_iff, Prod.exists]

theorem sum_degrees (shard : Shard) : (shard.degrees.map Prod.snd).sum = shard.edges.length := by
  simp [degrees, edges, List.length_flatMap, VertexMap.size, Function.comp_def]

theorem Sound.tallied {shard : Shard} (sound : shard.Sound) : shard.Tallied where
  edges := by
    rw [← coe_keys, Set.ncard_coe_finset]
    exact sound.counted
  isEmpty := by
    have noKeys : shard.keys = ∅ ↔ ∀ key, shard.entries key = none := by
      simp only [Finset.eq_empty_iff_forall_notMem, mem_keys, Bool.not_eq_true,
        Option.isSome_eq_false_iff, Option.isNone_iff_eq_none]
      rfl
    rw [Shard.isEmpty, beq_iff_eq, sound.counted, Finset.card_eq_zero, noKeys]
  outDegree := shard.outDegree_eq_ncard
  active := by rw [← sound.coe_sources, Set.ncard_coe_finset, card_sources]
  degrees := by rw [sum_degrees, sound.length_edges]

/-- Each call does to the map what the map's own operation does, and answers what it has replaced
or removed, or how many entries it has dropped. -/
structure ActsAsMap (shard : Shard) : Prop where
  insert (edge : Edge) (within : edge.isWithin shard.bound = true)
    (own : shard.owns edge.src = true) : ∃ next,
      shard.insert edge = .ok (shard.entries edge.key, next) ∧
      next.entries = Function.update shard.entries edge.key (some edge.attrs)
  refuse (edge : Edge) (foreign : ¬ (edge.isWithin shard.bound = true ∧
    shard.owns edge.src = true)) :
      (∃ failure, shard.insert edge = .error failure) ∧ shard.change (.insert edge) = shard
  remove (src dst : VertexId) : (shard.remove src dst).1 = shard.entries (src, dst) ∧
    (shard.remove src dst).2.entries = Function.update shard.entries (src, dst) none
  retain (keep : EdgeKey → Attrs → Bool) :
    (shard.retain keep).1 =
        {key | ∃ attrs, shard.entries key = some attrs ∧ keep key attrs = false}.ncard ∧
      (shard.retain keep).2.entries = fun key => (shard.entries key).filter (keep key)
  clear : shard.clear.entries = fun _ => none

theorem allowed_iff_within (shard : Shard) (edge : Edge) :
    shard.Allowed edge.src edge.dst ↔
      edge.isWithin shard.bound = true ∧ shard.owns edge.src = true := by
  rw [allowed_iff, Edge.isWithin, Bool.and_eq_true, owns, beq_iff_eq, and_assoc]

theorem entries_put (shard : Shard) (edge : Edge) :
    (shard.put edge).entries = Function.update shard.entries edge.key (some edge.attrs) := by
  funext key
  rw [entries, get?_put]
  by_cases same : key = edge.key
  · subst same
    rw [if_pos rfl, Function.update_self]
  · rw [if_neg (Ne.symm same), Function.update_of_ne same]
    rfl

theorem entries_remove (shard : Shard) (src dst : VertexId) :
    (shard.remove src dst).2.entries = Function.update shard.entries (src, dst) none := by
  funext key
  rw [entries, get?_remove]
  by_cases same : key = (src, dst)
  · subst same
    rw [if_pos rfl, Function.update_self]
  · rw [if_neg (Ne.symm same), Function.update_of_ne same]
    rfl

theorem removed_eq_ncard (shard : Shard) (keep : EdgeKey → Attrs → Bool) :
    (shard.retain keep).1 =
      {key | ∃ attrs, shard.entries key = some attrs ∧ keep key attrs = false}.ncard := by
  have dropped : {key | ∃ attrs, shard.entries key = some attrs ∧ keep key attrs = false} =
      (((shard.edges.filter fun edge => !keep edge.key edge.attrs).map Edge.key).toFinset :
        Set EdgeKey) := by
    ext key
    simp only [Set.mem_ofPred_eq, List.coe_toFinset, List.mem_map, List.mem_filter, mem_edges,
      Bool.not_eq_true']
    constructor
    · rintro ⟨attrs, stored, gone⟩
      exact ⟨⟨key.1, key.2, attrs.weight, attrs.timestamp⟩, ⟨stored, gone⟩, rfl⟩
    · rintro ⟨edge, ⟨stored, gone⟩, rfl⟩
      exact ⟨edge.attrs, stored, gone⟩
  have nodup : ((shard.edges.filter fun edge => !keep edge.key edge.attrs).map Edge.key).Nodup :=
    shard.nodup_edge_keys.sublist (List.filter_sublist.map _)
  rw [dropped, Set.ncard_coe_finset, List.toFinset_card_of_nodup nodup, List.length_map,
    ← List.countP_eq_length_filter]
  rfl

theorem actsAsMap (shard : Shard) : shard.ActsAsMap where
  insert edge within own := by
    have allowed := (shard.allowed_iff_within edge).2 ⟨within, own⟩
    exact ⟨_, insert_of_allowed allowed, shard.entries_put edge⟩
  refuse edge foreign := by
    obtain ⟨failure, refused⟩ :=
      insert_of_not_allowed (mt (shard.allowed_iff_within edge).1 foreign)
    refine ⟨⟨failure, refused⟩, ?_⟩
    simp only [change, refused]
  remove src dst := by
    refine ⟨?_, shard.entries_remove src dst⟩
    unfold Shard.remove entries
    cases stored : shard.get? src dst <;> rfl
  retain keep := ⟨shard.removed_eq_ncard keep, funext (shard.entries_retain keep)⟩
  clear := rfl

/-- A shard that begins empty is after all its calls a proper and counted map, and shares no pair
of endpoints with a shard of another rank under the same sharing of the vertices. -/
theorem every_history_leaves_a_counted_map (rank : Nat) (partition : Partition) (bound : UInt64)
    (changes : List Change) :
    Proper rank partition bound ((Shard.empty rank partition bound).after changes) ∧
      Tallied ((Shard.empty rank partition bound).after changes) ∧
      ActsAsMap ((Shard.empty rank partition bound).after changes) ∧
      ∀ (other : Nat) (otherBound : UInt64) (otherChanges : List Change) (key : EdgeKey),
        other ≠ rank →
        (((Shard.empty rank partition bound).after changes).entries key).isSome = true →
        ((Shard.empty other partition otherBound).after otherChanges).entries key = none := by
  have kept := kept_after (Shard.empty rank partition bound) changes
  have sound := kept.sound (sound_empty ..)
  have proper := sound.proper kept.place
  refine ⟨proper, sound.tallied, actsAsMap _, ?_⟩
  intro other otherBound otherChanges key apart stored
  have otherKept := kept_after (Shard.empty other partition otherBound) otherChanges
  have otherProper := (otherKept.sound (sound_empty ..)).proper otherKept.place
  by_contra both
  have otherStored := Option.isSome_iff_ne_none.2 both
  exact apart ((otherProper.owner key otherStored).symm.trans (proper.owner key stored))

/-- Calls of which the second and part of the fourth are refused on rank one of two. -/
def oddHistory : List Change :=
  [.insert ⟨1, 2, 5, 100⟩, .insert ⟨2, 1, 1, 100⟩,
    .merge .stable
      [{ edge := ⟨1, 2, 3, 90⟩ }, { edge := ⟨3, 1, 1, 50⟩ }, { edge := ⟨1, 2, 4, 110⟩ }],
    .bulkLoad [{ edge := ⟨3, 2, 1, 70⟩ }, { edge := ⟨3, 4, 1, 70⟩ }], .remove 3 2, .evict 60]

theorem odd_history_leaves_one_edge :
    ((Shard.empty 1 (.cyclic 2) 4).after oddHistory).edges = [⟨1, 2, 12, 110⟩] ∧
      Proper 1 (.cyclic 2) 4 ((Shard.empty 1 (.cyclic 2) 4).after oddHistory) ∧
      Tallied ((Shard.empty 1 (.cyclic 2) 4).after oddHistory) ∧
      ActsAsMap ((Shard.empty 1 (.cyclic 2) 4).after oddHistory) ∧
      (((Shard.empty 1 (.cyclic 2) 4).after oddHistory).entries (1, 2)).isSome = true ∧
      ((Shard.empty 0 (.cyclic 2) 8).after [.insert ⟨1, 2, 1, 1⟩]).entries (1, 2) = none := by
  obtain ⟨proper, tallied, actsAsMap, apart⟩ :=
    every_history_leaves_a_counted_map 1 (.cyclic 2) 4 oddHistory
  have stored :
      (((Shard.empty 1 (.cyclic 2) 4).after oddHistory).entries (1, 2)).isSome = true := by
    cbv
  have left : ((Shard.empty 1 (.cyclic 2) 4).after oddHistory).edges = [⟨1, 2, 12, 110⟩] := by
    cbv
  exact ⟨left, proper, tallied, actsAsMap, stored,
    apart 0 8 [.insert ⟨1, 2, 1, 1⟩] (1, 2) (by decide) stored⟩

end StreamGraph.Shard
