import Mathlib.Data.List.SplitBy
import StreamGraph.Merge
import StreamGraph.Proofs.Shard
import StreamGraph.Proofs.Sorting

/-!
What ingestion leaves behind. For every pair of endpoints the outcome depends only on what was
stored for it and on the updates to it: a merge folds them one after the other, as they are sorted,
into the stored edge or into a fresh one, a bulk load keeps the last to arrive. The number of
inserted edges is the growth of the shard.
-/

namespace StreamGraph

namespace Update

/-- The updates to one pair of endpoints, in list order. -/
def toKey (key : EdgeKey) (updates : List Update) : List Update :=
  updates.filter fun update => update.key == key

theorem toKey_append (key : EdgeKey) (first second : List Update) :
    toKey key (first ++ second) = toKey key first ++ toKey key second :=
  List.filter_append ..

theorem toKey_cons (key : EdgeKey) (update : Update) (others : List Update) :
    toKey key (update :: others) =
      if update.key = key then update :: toKey key others else toKey key others := by
  rw [toKey, List.filter_cons]
  simp only [beq_iff_eq]
  rfl

theorem toKey_of_uniform {key : EdgeKey} {updates : List Update}
    (uniform : ∀ update ∈ updates, update.key = key) (other : EdgeKey) :
    toKey other updates = if key = other then updates else [] := by
  unfold toKey
  split
  · next same =>
      rw [List.filter_eq_self]
      intro update member
      rw [uniform update member, same, beq_self_eq_true]
  · next different =>
      rw [List.filter_eq_nil_iff]
      intro update member
      rw [uniform update member, beq_iff_eq]
      exact different

theorem applyAll_append (first second : List Update) (attrs : Attrs) :
    applyAll (first ++ second) attrs = applyAll second (applyAll first attrs) :=
  List.foldl_append ..

def timestamps (updates : List Update) : List Int64 :=
  updates.map fun update => update.edge.timestamp

theorem timestamp_applyAll (updates : List Update) (attrs : Attrs) :
    (applyAll updates attrs).timestamp = (timestamps updates).foldl max attrs.timestamp := by
  induction updates generalizing attrs with
  | nil => rfl
  | cons update updates ih => exact ih (update.applyTo attrs)

theorem timestamp_applyAll_perm {first second : List Update} (perm : first.Perm second)
    (attrs : Attrs) : (applyAll first attrs).timestamp = (applyAll second attrs).timestamp := by
  rw [timestamp_applyAll, timestamp_applyAll]
  apply (perm.map _).foldl_eq'
  intro left _ right _ newest
  rw [← Int64.toInt_inj]
  simp only [Saturation.toInt_max]
  omega

/-- The stable way to sort does not change the order of the updates to one pair. -/
theorem toKey_stable (key : EdgeKey) (updates : List Update) :
    toKey key (KeySort.stable.sort updates) = toKey key updates := by
  apply filter_mergeSort
  · intro first second third
    exact EdgeKey.le_trans _ _ _
  · intro first second
    exact EdgeKey.le_total _ _
  · intro first second inFirst inSecond
    rw [beq_iff_eq.1 inFirst, beq_iff_eq.1 inSecond]
    exact EdgeKey.le_refl key

theorem Sorted.le_getLast {updates : List Update} (sorted : Sorted updates)
    (nonempty : updates ≠ []) {update : Update} (member : update ∈ updates) :
    EdgeKey.le update.key (updates.getLast nonempty).key = true := by
  unfold Sorted at sorted
  rw [← List.dropLast_append_getLast nonempty, List.pairwise_append] at sorted
  rw [← List.dropLast_append_getLast nonempty, List.mem_append, List.mem_singleton] at member
  rcases member with inFront | rfl
  · exact sorted.2.2 update inFront _ (List.mem_singleton.2 rfl)
  · exact EdgeKey.le_refl _

theorem Sorted.head_le {updates : List Update} (sorted : Sorted updates) (nonempty : updates ≠ [])
    {update : Update} (member : update ∈ updates) :
    EdgeKey.le (updates.head nonempty).key update.key = true := by
  unfold Sorted at sorted
  rw [← List.cons_head_tail nonempty, List.pairwise_cons] at sorted
  rw [← List.cons_head_tail nonempty, List.mem_cons] at member
  rcases member with rfl | inTail
  · exact EdgeKey.le_refl _
  · exact sorted.1 update inTail

end Update

/-- Updates in the order in which ingestion meets them. -/
def IngestMode.arrange (mode : IngestMode) (order : KeySort) (updates : List Update) :
    List Update :=
  match mode with
  | .incremental => order.sort updates
  | .snapshot => updates

theorem IngestMode.arrange_perm (mode : IngestMode) (order : KeySort) (updates : List Update) :
    (mode.arrange order updates).Perm updates := by
  cases mode with
  | incremental => exact order.perm updates
  | snapshot => exact .refl updates

/-- What a pair of endpoints has after the updates to it, from what it had before. -/
def IngestMode.result (mode : IngestMode) (updates : List Update) (old : Option Attrs) :
    Option Attrs :=
  match mode with
  | .incremental =>
      if updates = [] then old else some (Update.applyAll updates (old.getD .fresh))
  | .snapshot => (updates.getLast?.map fun update => update.edge.attrs).or old

theorem IngestMode.result_of_perm {first second : List Update} (perm : first.Perm second)
    (old : Option Attrs) : IngestMode.incremental.result first old =
      if second = [] then old else some (Update.applyAll first (old.getD .fresh)) := by
  have alike : first = [] ↔ second = [] := by
    rw [← List.length_eq_zero_iff, perm.length_eq, List.length_eq_zero_iff]
  simp only [IngestMode.result, alike]

/-- The order in which the updates to a pair of endpoints are met does not show in its timestamp,
and neither does the weight that it had before. -/
theorem IngestMode.timestamp_result_arrange (mode : IngestMode) (order : KeySort)
    (updates : List Update) (key : EdgeKey) {old other : Option Attrs}
    (same : old.map Attrs.timestamp = other.map Attrs.timestamp) :
    (mode.result (Update.toKey key (mode.arrange order updates)) old).map Attrs.timestamp =
      (mode.result (Update.toKey key updates) other).map Attrs.timestamp := by
  cases mode with
  | incremental =>
      have perm : (Update.toKey key (order.sort updates)).Perm (Update.toKey key updates) :=
        (order.perm updates).filter _
      have start : (old.getD .fresh).timestamp = (other.getD .fresh).timestamp := by
        cases old <;> cases other <;> simp_all
      rw [arrange, result_of_perm perm, result]
      split
      · exact same
      · rw [Option.map_some, Option.map_some, Update.timestamp_applyAll_perm perm,
          Update.timestamp_applyAll, Update.timestamp_applyAll, start]
  | snapshot =>
      rw [arrange, result, result, Option.map_or, Option.map_or, same]

namespace Shard

open Update (Sorted)

/-- Runs of updates: none is empty, each is about one pair of endpoints, and no two about the
same. -/
structure KeyRuns (runs : List (List Update)) : Prop where
  uniform (run : List Update) (member : run ∈ runs) :
    run ≠ [] ∧ ∃ key, ∀ update ∈ run, update.key = key
  distinct : runs.Pairwise fun first second =>
    ∀ left ∈ first, ∀ right ∈ second, left.key ≠ right.key

theorem KeyRuns.of_cons {run : List Update} {runs : List (List Update)}
    (keyRuns : KeyRuns (run :: runs)) : KeyRuns runs where
  uniform other member := keyRuns.uniform other (List.mem_cons_of_mem _ member)
  distinct := (List.pairwise_cons.1 keyRuns.distinct).2

theorem uniform_of_chain {first : Update} {others : List Update}
    (chain : (first :: others).IsChain fun left right => (left.key == right.key) = true) :
    ∀ update ∈ first :: others, update.key = first.key := by
  induction others generalizing first with
  | nil => simp
  | cons second others ih =>
      rw [List.isChain_cons_cons, beq_iff_eq] at chain
      intro update member
      rcases List.mem_cons.1 member with rfl | later
      · rfl
      · rw [chain.1]
        exact ih chain.2 update later

/-- In a sorted list a pair of endpoints does not come back after another one. -/
theorem distinct_of_chain {runs : List (List Update)} (sorted : Sorted runs.flatten)
    (chain : runs.IsChain fun first second => ∃ (nonempty : first ≠ []) (others : second ≠ []),
      ((first.getLast nonempty).key == (second.head others).key) = false) :
    runs.Pairwise fun first second =>
      ∀ left ∈ first, ∀ right ∈ second, left.key ≠ right.key := by
  induction runs with
  | nil => exact List.Pairwise.nil
  | cons first rest ih =>
      have parts := sorted
      unfold Sorted at parts
      rw [List.flatten_cons, List.pairwise_append] at parts
      apply List.pairwise_cons.2
      constructor
      · cases rest with
        | nil => simp
        | cons second rest =>
            rw [List.isChain_cons_cons] at chain
            rcases chain with ⟨⟨nonempty, others, differ⟩, _⟩
            have filled : (second :: rest).flatten ≠ [] := by
              rw [List.flatten_cons]
              exact List.append_ne_nil_of_left_ne_nil others _
            have sameHead : (second :: rest).flatten.head filled = second.head others := by
              simp only [List.flatten_cons]
              exact List.head_append_left others
            intro other inRest left inFirst right inOther same
            have before := Update.Sorted.le_getLast parts.1 nonempty inFirst
            have after := Update.Sorted.head_le parts.2.1 filled
              (List.mem_flatten.2 ⟨other, inRest, inOther⟩)
            have between := parts.2.2 _ (List.getLast_mem nonempty) _ (List.head_mem filled)
            rw [sameHead] at after between
            have back : EdgeKey.le (second.head others).key (first.getLast nonempty).key = true :=
              EdgeKey.le_trans _ _ _ after (by rw [← same]; exact before)
            have equal := EdgeKey.le_antisymm _ _ between back
            rw [equal, beq_self_eq_true] at differ
            cases differ
      · exact ih parts.2.1 chain.tail

theorem flatten_runs (updates : List Update) : (runs updates).flatten = updates :=
  List.flatten_splitBy _ _

theorem mem_of_mem_runs {updates run : List Update} {update : Update} (member : run ∈ runs updates)
    (inRun : update ∈ run) : update ∈ updates := by
  rw [← flatten_runs updates]
  exact List.mem_flatten.2 ⟨run, member, inRun⟩

theorem keyRuns_runs {updates : List Update} (sorted : Sorted updates) :
    KeyRuns (runs updates) where
  uniform run member := by
    have nonempty : run ≠ [] := List.ne_nil_of_mem_splitBy member
    have chain := List.isChain_of_mem_splitBy member
    refine ⟨nonempty, ?_⟩
    cases run with
    | nil => exact absurd rfl nonempty
    | cons first others => exact ⟨first.key, uniform_of_chain chain⟩
  distinct := by
    apply distinct_of_chain
    · rw [flatten_runs]
      exact sorted
    · exact List.isChain_getLast_head_splitBy (fun left right => left.key == right.key) updates

/-- Folding a run in changes what its pair of endpoints has, if it has something. -/
theorem absorbRun_of_uniform (shard : Shard) {run : List Update} {key : EdgeKey}
    (nonempty : run ≠ []) (uniform : ∀ update ∈ run, update.key = key) :
    shard.absorbRun run =
      if shard.contains key.1 key.2 then
        some (shard.modify key.1 key.2 (Update.applyAll run), run.map Update.markDone)
      else none := by
  cases run with
  | nil => exact absurd rfl nonempty
  | cons first others =>
      have same : first.key = key := uniform first (List.mem_cons_self ..)
      rw [absorbRun, same]

/-- What folding runs into stored edges leaves: each stored edge with the updates to it folded in,
and the updates without a stored edge unmarked. -/
structure Absorbed (before after : Shard) (runs marked : List (List Update)) : Prop where
  place : SamePlace before after
  sound (sound : before.Sound) : after.Sound
  counted : after.edgeCount = before.edgeCount
  stored (src dst : VertexId) : after.get? src dst =
    (before.get? src dst).map (Update.applyAll (Update.toKey (src, dst) runs.flatten))
  left : marked.flatten.filter (fun update => !update.done) =
    runs.flatten.filter fun update => !before.contains update.edge.src update.edge.dst

theorem contains_modify (shard : Shard) (key : EdgeKey) (change : Attrs → Attrs)
    (src dst : VertexId) :
    (shard.modify key.1 key.2 change).contains src dst = shard.contains src dst := by
  unfold contains
  rw [get?_modify]
  split <;> simp

/-- A run that finds its edge is folded in and marked. -/
theorem Absorbed.folded {shard after : Shard} {run : List Update} {rest marked : List (List Update)}
    {key : EdgeKey} (same : ∀ update ∈ run, update.key = key)
    (present : shard.contains key.1 key.2 = true)
    (others : Absorbed (shard.modify key.1 key.2 (Update.applyAll run)) after rest marked) :
    Absorbed shard after (run :: rest) (run.map Update.markDone :: marked) where
  place := (samePlace_modify ..).trans others.place
  sound before := others.sound (before.modify ..)
  counted := by rw [others.counted, edgeCount_modify]
  stored src dst := by
    rw [others.stored, get?_modify, List.flatten_cons, Update.toKey_append,
      Update.toKey_of_uniform same]
    by_cases own : key = (src, dst)
    · rw [if_pos own, if_pos own, Option.map_map]
      congr 1
      funext attrs
      exact (Update.applyAll_append ..).symm
    · rw [if_neg own, if_neg own, List.nil_append]
  left := by
    have marks : (run.map Update.markDone).filter (fun update => !update.done) = [] := by
      simp [Update.markDone]
    have dropped : run.filter
        (fun update => !shard.contains update.edge.src update.edge.dst) = [] := by
      rw [List.filter_eq_nil_iff]
      intro update member
      have stored : shard.contains update.edge.src update.edge.dst = true := by
        rw [← same update member] at present
        exact present
      rw [stored]
      exact Bool.false_ne_true
    rw [List.flatten_cons, List.filter_append, marks, others.left, List.flatten_cons,
      List.filter_append, dropped]
    simp only [contains_modify]

/-- A run without an edge is passed over, and stays unmarked. -/
theorem Absorbed.passed {shard after : Shard} {run : List Update} {rest marked : List (List Update)}
    {key : EdgeKey} (same : ∀ update ∈ run, update.key = key)
    (fresh : ∀ update ∈ run, update.done = false)
    (absent : ¬ shard.contains key.1 key.2 = true) (others : Absorbed shard after rest marked) :
    Absorbed shard after (run :: rest) (run :: marked) where
  place := others.place
  sound := others.sound
  counted := others.counted
  stored src dst := by
    rw [others.stored, List.flatten_cons, Update.toKey_append, Update.toKey_of_uniform same]
    by_cases own : key = (src, dst)
    · have nothing : shard.get? src dst = none := by
        rw [own] at absent
        simpa [contains] using absent
      rw [nothing]
      rfl
    · rw [if_neg own, List.nil_append]
  left := by
    have unmarked : run.filter (fun update => !update.done) = run := by
      rw [List.filter_eq_self]
      intro update member
      rw [fresh update member]
      rfl
    have kept : run.filter
        (fun update => !shard.contains update.edge.src update.edge.dst) = run := by
      rw [List.filter_eq_self]
      intro update member
      have ends : (update.edge.src, update.edge.dst) = key := same update member
      rw [← ends] at absent
      simpa using absent
    rw [List.flatten_cons, List.filter_append, unmarked, others.left, List.flatten_cons,
      List.filter_append, kept]

theorem absorbed_absorbRuns (shard : Shard) {runs : List (List Update)}
    (uniform : ∀ run ∈ runs, run ≠ [] ∧ ∃ key, ∀ update ∈ run, update.key = key)
    (fresh : ∀ run ∈ runs, ∀ update ∈ run, update.done = false) :
    Absorbed shard (shard.absorbRuns runs).1 runs (shard.absorbRuns runs).2.1 := by
  induction runs generalizing shard with
  | nil =>
      constructor
      · exact SamePlace.refl shard
      · exact id
      · rfl
      · intro src dst
        change shard.get? src dst = (shard.get? src dst).map id
        rw [Option.map_id, id]
      · rfl
  | cons run rest ih =>
      obtain ⟨nonempty, key, same⟩ := uniform run (List.mem_cons_self ..)
      have later := fun shard => ih shard
        (fun run member => uniform run (List.mem_cons_of_mem _ member))
        (fun run member => fresh run (List.mem_cons_of_mem _ member))
      rw [absorbRuns, absorbRun_of_uniform shard nonempty same]
      by_cases present : shard.contains key.1 key.2 = true
      · rw [if_pos present]
        exact (later (shard.modify key.1 key.2 (Update.applyAll run))).folded same present
      · rw [if_neg present]
        exact (later shard).passed same (fresh run (List.mem_cons_self ..)) present

/-- What storing runs of updates without stored edges leaves: for each run one new edge. -/
structure Filed (before after : Shard) (runs : List (List Update)) : Prop where
  place : SamePlace before after
  sound (sound : before.Sound) : after.Sound
  counted : after.edgeCount = before.edgeCount + runs.length
  stored (src dst : VertexId) : after.get? src dst =
    if Update.toKey (src, dst) runs.flatten = [] then before.get? src dst
    else some (Update.applyAll (Update.toKey (src, dst) runs.flatten) .fresh)

theorem filed_nil (shard : Shard) : Filed shard shard [] where
  place := SamePlace.refl shard
  sound := id
  counted := rfl
  stored _ _ := rfl

theorem samePlace_put (shard : Shard) (edge : Edge) : SamePlace shard (shard.put edge) :=
  ⟨rfl, rfl, rfl⟩

/-- A run that is stored before others has its pair of endpoints for itself. -/
theorem Filed.cons {shard after : Shard} {run : List Update} {rest : List (List Update)}
    {edge : Edge} (made : freshEdge run = some edge)
    (same : ∀ update ∈ run, update.key = edge.key)
    (apart : ∀ other ∈ rest, ∀ update ∈ other, edge.key ≠ update.key)
    (here : shard.Allowed edge.src edge.dst) (new : shard.get? edge.src edge.dst = none)
    (others : Filed (shard.put edge) after rest) : Filed shard after (run :: rest) where
  place := (shard.samePlace_put edge).trans others.place
  sound before := others.sound (before.put here)
  counted := by
    have grown : (shard.put edge).edgeCount = shard.edgeCount + 1 := by
      simp [put, new]
    rw [others.counted, grown, List.length_cons]
    omega
  stored src dst := by
    rw [others.stored, get?_put, List.flatten_cons, Update.toKey_append,
      Update.toKey_of_uniform same]
    by_cases own : edge.key = (src, dst)
    · have gone : Update.toKey (src, dst) rest.flatten = [] := by
        rw [Update.toKey, List.filter_eq_nil_iff]
        intro update member
        rcases List.mem_flatten.1 member with ⟨other, inRest, inOther⟩
        rw [beq_iff_eq, ← own]
        exact Ne.symm (apart other inRest update inOther)
      cases run with
      | nil => cases made
      | cons first more =>
          cases made
          rw [if_pos own, if_pos own, gone, if_pos rfl, List.append_nil,
            if_neg (List.cons_ne_nil first more)]
          rfl
    · rw [if_neg own, if_neg own, List.nil_append]

theorem filed_insertAll (shard : Shard) {runs : List (List Update)} (keyRuns : KeyRuns runs)
    (absent : ∀ run ∈ runs, ∀ update ∈ run,
      shard.get? update.edge.src update.edge.dst = none)
    (allowed : ∀ run ∈ runs, ∀ update ∈ run, shard.Allowed update.edge.src update.edge.dst) :
    ∃ after, shard.insertAll (runs.filterMap freshEdge) = (after, .ok runs.length) ∧
      Filed shard after runs := by
  induction runs generalizing shard with
  | nil => exact ⟨shard, rfl, shard.filed_nil⟩
  | cons run rest ih =>
      obtain ⟨nonempty, key, same⟩ := keyRuns.uniform run (List.mem_cons_self ..)
      have apart := (List.pairwise_cons.1 keyRuns.distinct).1
      cases run with
      | nil => exact absurd rfl nonempty
      | cons first others =>
          have firstIn : first ∈ first :: others := List.mem_cons_self ..
          have runIn : first :: others ∈ (first :: others) :: rest := List.mem_cons_self ..
          obtain ⟨edge, made⟩ : ∃ edge, freshEdge (first :: others) = some edge := ⟨_, rfl⟩
          have edgeKey : edge.key = first.key := by
            cases made
            rfl
          have ends : edge.src = first.edge.src ∧ edge.dst = first.edge.dst := by
            cases made
            exact ⟨rfl, rfl⟩
          have here : shard.Allowed edge.src edge.dst := by
            rw [ends.1, ends.2]
            exact allowed _ runIn first firstIn
          have new : shard.get? edge.src edge.dst = none := by
            rw [ends.1, ends.2]
            exact absent _ runIn first firstIn
          obtain ⟨after, stores, filed⟩ := ih (shard.put edge) keyRuns.of_cons
            (by
              intro run member update inRun
              have differs : edge.key ≠ (update.edge.src, update.edge.dst) := by
                rw [edgeKey]
                exact apart run member first firstIn update inRun
              rw [get?_put, if_neg differs]
              exact absent run (List.mem_cons_of_mem _ member) update inRun)
            (by
              intro run member update inRun
              rw [(shard.samePlace_put edge).allowed_iff]
              exact allowed run (List.mem_cons_of_mem _ member) update inRun)
          have counts : shard.insertAll (((first :: others) :: rest).filterMap freshEdge) =
              (after, .ok (rest.length + 1)) := by
            rw [List.filterMap_cons, made]
            dsimp only
            rw [insertAll, insert_of_allowed here]
            dsimp only
            rw [stores]
            rfl
          have sameKey : ∀ update ∈ first :: others, update.key = edge.key := by
            intro update member
            rw [edgeKey, same update member, same first firstIn]
          have apartKey : ∀ other ∈ rest, ∀ update ∈ other, edge.key ≠ update.key := by
            rw [edgeKey]
            exact fun other member => apart other member first firstIn
          exact ⟨after, counts, filed.cons made sameKey apartKey here new⟩

/-- The shard after a list of updates, `inserted` of them new. -/
structure Takes (before after : Shard) (mode : IngestMode) (updates : List Update)
    (inserted : Nat) : Prop where
  place : SamePlace before after
  sound (sound : before.Sound) : after.Sound
  counted : after.edgeCount = before.edgeCount + inserted
  few : inserted ≤ updates.length
  stored (src dst : VertexId) : after.get? src dst =
    mode.result (Update.toKey (src, dst) updates) (before.get? src dst)

/-- All updates may be held here, and none is marked. -/
def Welcome (shard : Shard) (updates : List Update) : Prop :=
  ∀ update ∈ updates, update.done = false ∧ shard.Allowed update.edge.src update.edge.dst

instance (shard : Shard) (updates : List Update) : Decidable (shard.Welcome updates) :=
  inferInstanceAs (Decidable (∀ update ∈ updates, _ ∧ _))

theorem length_le_length_flatten_of_filled {runs : List (List Update)}
    (filled : ∀ run ∈ runs, run ≠ []) : runs.length ≤ runs.flatten.length := by
  induction runs with
  | nil => exact Nat.le_refl _
  | cons run rest ih =>
      have positive := List.length_pos_iff.2 (filled run (List.mem_cons_self ..))
      have later := ih fun run member => filled run (List.mem_cons_of_mem _ member)
      rw [List.flatten_cons, List.length_append, List.length_cons]
      omega

theorem firstFault_of_welcome {shard : Shard} {updates : List Update}
    (welcome : shard.Welcome updates) : shard.firstFault updates = none := by
  rw [firstFault, List.findSome?_eq_none_iff]
  intro update member
  rw [(welcome update member).2]

/-- The updates to pairs of endpoints that a shard does not have. -/
def newcomers (shard : Shard) (updates : List Update) : List Update :=
  updates.filter fun update => !shard.contains update.edge.src update.edge.dst

/-- The updates to a pair are all newcomers or none is, as the pair is new or not. -/
theorem toKey_newcomers (shard : Shard) (updates : List Update) (src dst : VertexId) :
    Update.toKey (src, dst) (shard.newcomers updates) =
      if (shard.get? src dst).isSome then [] else Update.toKey (src, dst) updates := by
  rw [newcomers, Update.toKey, List.filter_filter]
  split
  · next present =>
      rw [List.filter_eq_nil_iff]
      intro update _ both
      rw [Bool.and_eq_true, beq_iff_eq, Bool.not_eq_true', Update.key, Edge.key] at both
      rcases both with ⟨same, absent⟩
      cases same
      rw [contains, present] at absent
      cases absent
  · next absent =>
      rw [Update.toKey]
      apply List.filter_congr
      intro update _
      by_cases same : update.key = (src, dst)
      · have ends : update.edge.src = src ∧ update.edge.dst = dst := by
          simpa [Update.key, Edge.key] using same
        simp [same, ends, contains, absent]
      · simp [same]

theorem get?_of_mem_newcomers {shard : Shard} {updates : List Update} {update : Update}
    (member : update ∈ shard.newcomers updates) :
    update ∈ updates ∧ shard.get? update.edge.src update.edge.dst = none := by
  rw [newcomers, List.mem_filter] at member
  exact ⟨member.1, by simpa [contains] using member.2⟩

/-- Folding updates in where there is an edge, and storing the others, takes all of them. -/
theorem Absorbed.takes {shard folded after : Shard} {updates : List Update}
    {marked : List (List Update)} (sorted : Sorted updates)
    (absorbed : Absorbed shard folded (runs updates) marked)
    (filed : Filed folded after (runs (shard.newcomers updates))) :
    Takes shard after .incremental updates (runs (shard.newcomers updates)).length where
  place := absorbed.place.trans filed.place
  sound before := filed.sound (absorbed.sound before)
  counted := by rw [filed.counted, absorbed.counted]
  few := by
    have sortedNew : Sorted (shard.newcomers updates) := sorted.sublist List.filter_sublist
    have fewRuns := length_le_length_flatten_of_filled
      fun run member => ((keyRuns_runs sortedNew).uniform run member).1
    rw [flatten_runs] at fewRuns
    exact Nat.le_trans fewRuns (List.length_filter_le _ _)
  stored src dst := by
    rw [filed.stored, flatten_runs, toKey_newcomers, absorbed.stored, flatten_runs,
      IngestMode.result]
    cases shard.get? src dst with
    | none => rfl
    | some attrs =>
        by_cases nothing : Update.toKey (src, dst) updates = []
        · rw [nothing]
          rfl
        · rw [if_neg nothing]
          rfl

theorem marks_of_absorbRun {shard : Shard} {run : List Update} {folded : Shard × List Update}
    (absorbed : shard.absorbRun run = some folded) : folded.2 = run.map Update.markDone := by
  cases run with
  | nil => cases absorbed
  | cons first others =>
      simp only [absorbRun] at absorbed
      split at absorbed
      · cases absorbed
        rfl
      · cases absorbed

/-- Marks are all that folding in changes about the updates. -/
theorem marked_absorbRuns (shard : Shard) (runs : List (List Update)) :
    (shard.absorbRuns runs).2.1.flatten.map Update.markDone =
      runs.flatten.map Update.markDone := by
  induction runs generalizing shard with
  | nil => rfl
  | cons run rest ih =>
      unfold absorbRuns
      cases folded : shard.absorbRun run with
      | none => simp only [List.flatten_cons, List.map_append, ih]
      | some pair =>
          have marks : pair.2 = run.map Update.markDone := marks_of_absorbRun folded
          simp only [List.flatten_cons, List.map_append, ih, marks, List.map_map]
          rfl

theorem countP_markDone (updates : List Update) :
    (updates.map Update.markDone).countP (fun update => update.done) = updates.length := by
  have all : ∀ update ∈ updates.map Update.markDone, update.done = true := by
    intro update member
    rcases List.mem_map.1 member with ⟨_, _, rfl⟩
    rfl
  rw [List.countP_eq_length.2 all, List.length_map]

/-- A merge as it goes: the updates in the order of their endpoints, first folded in where there is
an edge, then the others stored. -/
structure Stages (before after : Shard) (order : KeySort) (updates : List Update) : Prop where
  absorbed : Absorbed before (before.absorbRuns (runs (order.sort updates))).1
    (runs (order.sort updates)) (before.absorbRuns (runs (order.sort updates))).2.1
  filed : Filed (before.absorbRuns (runs (order.sort updates))).1 after
    (runs (before.newcomers (order.sort updates)))
  result : before.merge order updates = ⟨after, (order.sort updates).map Update.markDone,
    .ok ⟨(before.absorbRuns (runs (order.sort updates))).2.2,
      (runs (before.newcomers (order.sort updates))).length, (order.sort updates).length⟩⟩

theorem stages_merge {shard : Shard} {updates : List Update} (order : KeySort)
    (welcome : shard.Welcome updates) : ∃ after, Stages shard after order updates := by
  have sorted := order.sorted updates
  have greeted : ∀ update ∈ order.sort updates, update.done = false ∧
      shard.Allowed update.edge.src update.edge.dst :=
    fun update member => welcome update ((order.perm updates).subset member)
  have absorbed := absorbed_absorbRuns shard (keyRuns_runs sorted).uniform
    fun run member update inRun => (greeted update (mem_of_mem_runs member inRun)).1
  have sortedNew : Sorted (shard.newcomers (order.sort updates)) :=
    sorted.sublist List.filter_sublist
  have new : ∀ run ∈ runs (shard.newcomers (order.sort updates)), ∀ update ∈ run,
      update ∈ order.sort updates ∧ shard.get? update.edge.src update.edge.dst = none :=
    fun run member update inRun => get?_of_mem_newcomers (mem_of_mem_runs member inRun)
  obtain ⟨after, stores, filed⟩ := filed_insertAll _ (keyRuns_runs sortedNew)
    (by
      intro run member update inRun
      rw [absorbed.stored, (new run member update inRun).2]
      rfl)
    (by
      intro run member update inRun
      rw [absorbed.place.allowed_iff]
      exact (greeted update (new run member update inRun).1).2)
  have left := absorbed.left
  rw [flatten_runs] at left
  change _ = shard.newcomers (order.sort updates) at left
  have merges := merge.eq_1 shard order updates
  rw [firstFault_of_welcome welcome] at merges
  dsimp only at merges
  rw [left, stores, marked_absorbRuns, flatten_runs, countP_markDone] at merges
  exact ⟨after, absorbed, filed, merges⟩

theorem takes_merge {shard : Shard} {updates : List Update} (order : KeySort)
    (welcome : shard.Welcome updates) :
    ∃ stats, (shard.merge order updates).outcome = .ok stats ∧
      Takes shard (shard.merge order updates).shard .incremental (order.sort updates)
        stats.inserted := by
  obtain ⟨after, stages⟩ := stages_merge order welcome
  rw [stages.result]
  exact ⟨_, rfl, stages.absorbed.takes (order.sorted updates) stages.filed⟩

theorem takes_bulkLoad {shard : Shard} {updates : List Update} (welcome : shard.Welcome updates) :
    ∃ stats, (shard.bulkLoad updates).outcome = .ok stats ∧
      Takes shard (shard.bulkLoad updates).shard .snapshot updates stats.inserted := by
  induction updates generalizing shard with
  | nil =>
      exact ⟨_, rfl, SamePlace.refl shard, fun sound => sound, rfl, Nat.le_refl _, fun _ _ => rfl⟩
  | cons update others ih =>
      have here : shard.Allowed update.edge.src update.edge.dst :=
        (welcome update (List.mem_cons_self ..)).2
      have place := shard.samePlace_put update.edge
      have welcomeOthers : (shard.put update.edge).Welcome others := by
        intro other member
        have greeted := welcome other (List.mem_cons_of_mem _ member)
        exact ⟨greeted.1, (place.allowed_iff ..).2 greeted.2⟩
      obtain ⟨stats, outcome, takes⟩ := ih welcomeOthers
      rw [bulkLoad, insert_of_allowed here]
      dsimp only
      rw [outcome]
      apply Exists.intro
      apply And.intro rfl
      constructor
      · exact place.trans takes.place
      · exact fun sound => takes.sound (sound.put here)
      · dsimp only
        rw [takes.counted]
        simp only [put]
        cases shard.get? update.edge.src update.edge.dst with
        | none =>
            simp only [Option.isNone_none, Option.isSome_none, if_true, Bool.false_eq_true,
              if_false]
            omega
        | some attrs =>
            simp only [Option.isNone_some, Option.isSome_some, if_true, Bool.false_eq_true,
              if_false]
            omega
      · have fewer := takes.few
        dsimp only
        rw [List.length_cons]
        split <;> omega
      · intro src dst
        rw [takes.stored, get?_put, Update.toKey_cons, IngestMode.result, IngestMode.result]
        by_cases same : update.key = (src, dst)
        · have keySame : update.edge.key = (src, dst) := same
          rw [if_pos keySame, if_pos same, List.getLast?_cons]
          cases (Update.toKey (src, dst) others).getLast? <;> rfl
        · have keyDiffers : ¬ update.edge.key = (src, dst) := same
          rw [if_neg keyDiffers, if_neg same]

/-- Ingestion takes all updates that may be held here, and counts the new edges. -/
theorem takes_ingest {shard : Shard} {updates : List Update} (order : KeySort) (mode : IngestMode)
    (welcome : shard.Welcome updates) :
    ∃ stats, (shard.ingest order updates mode).outcome = .ok stats ∧
      Takes shard (shard.ingest order updates mode).shard mode (mode.arrange order updates)
        stats.inserted := by
  cases mode with
  | incremental => exact takes_merge order welcome
  | snapshot => exact takes_bulkLoad welcome

end Shard

end StreamGraph
