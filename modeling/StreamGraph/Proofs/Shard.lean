import Mathlib.Data.Finset.Card
import Mathlib.Data.List.Nodup
import StreamGraph.Retention

/-!
A shard as a map from pairs of endpoints. Look-ups tell everything about the rows as long as no row
is empty, and the number beside the rows counts the pairs; every change keeps both, and keeps an
edge only where it may be held.
-/

namespace StreamGraph

namespace VertexMap

variable {Value Result : Type}

theorem get?_filterMap (map : VertexMap Value) (change : VertexId → Value → Option Result)
    (key : VertexId) : (map.filterMap change).get? key = (map.get? key).bind (change key) := by
  rcases map with ⟨entries, sorted⟩
  simp only [get?, filterMap]
  induction entries with
  | nil => rfl
  | cons head rest ih =>
      rcases head with ⟨other, value⟩
      rw [List.pairwise_cons] at sorted
      have later := ih sorted.2
      rw [List.filterMap_cons]
      by_cases same : key = other
      · subst same
        have absent : lookup key rest = none := by
          cases found : lookup key rest with
          | none => rfl
          | some other =>
              have inside := (lookup_eq_some_iff sorted.2).1 found
              exact absurd (sorted.1 _ inside) (UInt64.lt_irrefl key)
        rw [absent] at later
        cases changed : change key value with
        | none => simpa [lookup, changed] using later
        | some result => simp [lookup, changed]
      · cases changed : change other value with
        | none => simpa [lookup, changed, same] using later
        | some result => simpa [lookup, same] using later

theorem get?_filter (map : VertexMap Value) (keep : VertexId → Value → Bool) (key : VertexId) :
    (map.filter keep).get? key = (map.get? key).filter (keep key) := by
  have asChange : map.filter keep = map.filterMap fun key value =>
      if keep key value then some value else none := by
    unfold filter filterMap
    congr 1
    induction map.toList with
    | nil => rfl
    | cons head rest ih =>
        rw [List.filter_cons, List.filterMap_cons]
        by_cases kept : keep head.1 head.2 = true
        · simp [kept, ih]
        · simp [kept, ih]
  rw [asChange, get?_filterMap]
  cases map.get? key with
  | none => rfl
  | some value =>
      by_cases kept : keep key value = true
      · simp [Option.filter, kept]
      · simp [Option.filter, kept]

theorem isEmpty_iff (map : VertexMap Value) : map.isEmpty = true ↔ ∀ key, map.get? key = none := by
  unfold isEmpty
  rw [List.isEmpty_iff]
  constructor
  · intro nothing key
    rw [get?, nothing]
    rfl
  · intro nothing
    cases entries : map.toList with
    | nil => rfl
    | cons head rest =>
        have found : map.get? head.1 = some head.2 := by
          rw [get?_eq_some_iff, entries]
          exact List.mem_cons_self ..
        rw [nothing] at found
        cases found

theorem isEmpty_eq_false_iff (map : VertexMap Value) :
    map.isEmpty = false ↔ ∃ key value, map.get? key = some value := by
  rw [← Bool.not_eq_true, isEmpty_iff]
  simp only [not_forall, ← Option.ne_none_iff_exists']

theorem nodup_keys (map : VertexMap Value) : (map.toList.map Prod.fst).Nodup := by
  rw [List.Nodup, List.pairwise_map]
  apply map.sorted.imp
  intro left right before same
  rw [same] at before
  exact UInt64.lt_irrefl _ before

end VertexMap

namespace Shard

/-- The change left the shard where it is. -/
structure SamePlace (before after : Shard) : Prop where
  rank : after.rank = before.rank
  partition : after.partition = before.partition
  bound : after.bound = before.bound

theorem SamePlace.refl (shard : Shard) : SamePlace shard shard := ⟨rfl, rfl, rfl⟩

theorem SamePlace.trans {first second third : Shard} (left : SamePlace first second)
    (right : SamePlace second third) : SamePlace first third :=
  ⟨right.rank.trans left.rank, right.partition.trans left.partition,
    right.bound.trans left.bound⟩

theorem SamePlace.symm {first second : Shard} (same : SamePlace first second) :
    SamePlace second first := ⟨same.rank.symm, same.partition.symm, same.bound.symm⟩

/-- An edge between these ends may be held here. -/
def Allowed (shard : Shard) (src dst : VertexId) : Prop := shard.check src dst = .ok ()

theorem allowed_iff (shard : Shard) (src dst : VertexId) :
    shard.Allowed src dst ↔ src.isEndpoint shard.bound = true ∧
      dst.isEndpoint shard.bound = true ∧ shard.partition.owner src = shard.rank := by
  unfold Allowed check Partition.ownerWithin
  cases source : src.isEndpoint shard.bound
  · simp [bind, Except.bind]
  · cases target : dst.isEndpoint shard.bound
    · simp [bind, Except.bind, throw, throwThe, MonadExceptOf.throw]
    · by_cases own : shard.partition.owner src = shard.rank
      · simp [bind, Except.bind, own]
        rfl
      · simp [bind, Except.bind, throw, throwThe, MonadExceptOf.throw, own]

instance (shard : Shard) (src dst : VertexId) : Decidable (shard.Allowed src dst) :=
  decidable_of_iff _ (shard.allowed_iff src dst).symm

theorem SamePlace.check_eq {before after : Shard} (same : SamePlace before after)
    (src dst : VertexId) : after.check src dst = before.check src dst := by
  unfold check
  rw [same.rank, same.partition, same.bound]

theorem SamePlace.allowed_iff {before after : Shard} (same : SamePlace before after)
    (src dst : VertexId) : after.Allowed src dst ↔ before.Allowed src dst := by
  rw [Allowed, Allowed, same.check_eq]

theorem get?_row (shard : Shard) (src dst : VertexId) :
    (shard.row src).get? dst = shard.get? src dst := by
  unfold row get?
  cases shard.rows.get? src <;> rfl

theorem mem_edges (shard : Shard) (edge : Edge) :
    edge ∈ shard.edges ↔ shard.get? edge.src edge.dst = some edge.attrs := by
  simp only [edges, List.mem_flatMap, List.mem_map, Prod.exists, get?, Option.bind_eq_some_iff]
  constructor
  · rintro ⟨src, row, inRows, dst, attrs, inRow, rfl⟩
    exact ⟨row, (VertexMap.get?_eq_some_iff ..).2 inRows, (VertexMap.get?_eq_some_iff ..).2 inRow⟩
  · rintro ⟨row, inRows, inRow⟩
    exact ⟨edge.src, row, (VertexMap.get?_eq_some_iff ..).1 inRows, edge.dst, edge.attrs,
      (VertexMap.get?_eq_some_iff ..).1 inRow, rfl⟩

theorem nodup_edge_keys (shard : Shard) : (shard.edges.map Edge.key).Nodup := by
  rw [edges, List.map_flatMap, List.nodup_flatMap]
  constructor
  · intro entry _
    have nodup := entry.2.nodup_keys
    rw [List.map_map]
    apply List.Nodup.of_map Prod.snd
    simpa [List.map_map, Function.comp_def, Edge.key] using nodup
  · apply shard.rows.sorted.imp
    intro left right before key inLeft inRight
    simp only [List.map_map, List.mem_map] at inLeft inRight
    rcases inLeft with ⟨_, _, rfl⟩
    rcases inRight with ⟨_, _, same⟩
    have sources : right.1 = left.1 := congrArg (fun key : EdgeKey => key.1) same
    rw [sources] at before
    exact UInt64.lt_irrefl _ before

/-- The pairs of endpoints of all edges. -/
def keys (shard : Shard) : Finset EdgeKey := (shard.edges.map Edge.key).toFinset

theorem mem_keys (shard : Shard) (key : EdgeKey) :
    key ∈ shard.keys ↔ (shard.get? key.1 key.2).isSome = true := by
  rw [keys, List.mem_toFinset, List.mem_map, Option.isSome_iff_exists]
  constructor
  · rintro ⟨edge, inside, rfl⟩
    exact ⟨_, (shard.mem_edges edge).1 inside⟩
  · rintro ⟨attrs, found⟩
    exact ⟨⟨key.1, key.2, attrs.weight, attrs.timestamp⟩, (shard.mem_edges _).2 found, rfl⟩

theorem card_keys (shard : Shard) : shard.keys.card = shard.edges.length := by
  rw [keys, List.toFinset_card_of_nodup shard.nodup_edge_keys, List.length_map]

theorem mem_outEdges (shard : Shard) (src dst : VertexId) (attrs : Attrs) :
    (dst, attrs) ∈ shard.outEdges src ↔ shard.get? src dst = some attrs := by
  rw [outEdges, ← VertexMap.get?_eq_some_iff, get?_row]

/-- Vertices that are all different have no more edges than there are. -/
theorem length_flatMap_outEdges (shard : Shard) {vertices : List VertexId}
    (nodup : vertices.Nodup) : (vertices.flatMap shard.outEdges).length ≤ shard.edges.length := by
  have keyed : (vertices.flatMap fun src => (shard.outEdges src).map fun entry =>
      ((src, entry.1) : EdgeKey)).Nodup := by
    rw [List.nodup_flatMap]
    constructor
    · intro src _
      have nodup : ((shard.outEdges src).map Prod.fst).Nodup := (shard.row src).nodup_keys
      rw [List.Nodup, List.pairwise_map] at nodup ⊢
      exact nodup.imp fun differ same => differ (congrArg (fun key : EdgeKey => key.2) same)
    · apply nodup.imp
      intro left right differ key inLeft inRight
      rcases List.mem_map.1 inLeft with ⟨_, _, rfl⟩
      rcases List.mem_map.1 inRight with ⟨_, _, same⟩
      exact differ (congrArg (fun key : EdgeKey => key.1) same).symm
  have stored : (vertices.flatMap fun src => (shard.outEdges src).map fun entry =>
      ((src, entry.1) : EdgeKey)) ⊆ shard.edges.map Edge.key := by
    intro key member
    rcases List.mem_flatMap.1 member with ⟨src, _, inRow⟩
    rcases List.mem_map.1 inRow with ⟨⟨dst, attrs⟩, inEdges, rfl⟩
    have found := (shard.mem_outEdges ..).1 inEdges
    exact List.mem_map.2 ⟨⟨src, dst, attrs.weight, attrs.timestamp⟩, (shard.mem_edges _).2 found,
      rfl⟩
  have fewer := (keyed.subperm stored).length_le
  simpa [List.length_flatMap] using fewer

/-- No row is empty, the count is right, and every edge may be held here. -/
structure Sound (shard : Shard) : Prop where
  rows (src : VertexId) (row : Row) (stored : shard.rows.get? src = some row) :
    row.isEmpty = false
  counted : shard.edgeCount = shard.keys.card
  allowed (src dst : VertexId) (attrs : Attrs) (stored : shard.get? src dst = some attrs) :
    shard.Allowed src dst

/-- The rows of a sound shard are those with an edge. -/
theorem Sound.get?_rows {shard : Shard} (sound : shard.Sound) (src : VertexId) :
    shard.rows.get? src = if (shard.row src).isEmpty then none else some (shard.row src) := by
  unfold row
  cases stored : shard.rows.get? src with
  | none => rfl
  | some row => rw [Option.getD_some, sound.rows src row stored, if_neg Bool.false_ne_true]

/-- Sound shards in the same place with the same answers are equal. -/
theorem Sound.eq_of_get? {first second : Shard} (soundFirst : first.Sound)
    (soundSecond : second.Sound) (place : SamePlace first second)
    (same : ∀ src dst, second.get? src dst = first.get? src dst) : second = first := by
  have row (src : VertexId) : second.row src = first.row src := by
    apply VertexMap.ext_get?
    intro dst
    rw [get?_row, get?_row, same]
  have rows : second.rows = first.rows := by
    apply VertexMap.ext_get?
    intro src
    rw [soundSecond.get?_rows, soundFirst.get?_rows, row]
  have keys : second.keys = first.keys := by
    ext key
    rw [mem_keys, mem_keys, same]
  have counted : second.edgeCount = first.edgeCount := by
    rw [soundSecond.counted, soundFirst.counted, keys]
  rcases second with ⟨rank, partition, bound, rowsSecond, edgeCount⟩
  rcases place with ⟨rfl, rfl, rfl⟩
  dsimp only at rows counted
  rw [rows, counted]

theorem sound_empty (rank : Nat) (partition : Partition) (bound : UInt64) :
    (Shard.empty rank partition bound).Sound where
  rows src row stored := by cases stored
  counted := rfl
  allowed src dst attrs stored := by cases stored

theorem Sound.length_edges {shard : Shard} (sound : shard.Sound) :
    shard.edges.length = shard.edgeCount := by
  rw [sound.counted, card_keys]

/-- The shard with an edge stored over whatever its pair of endpoints had. -/
def put (shard : Shard) (edge : Edge) : Shard :=
  { shard with
    rows := shard.rows.insert edge.src ((shard.row edge.src).insert edge.dst edge.attrs)
    edgeCount := shard.edgeCount + if (shard.get? edge.src edge.dst).isNone then 1 else 0 }

theorem insert_of_allowed {shard : Shard} {edge : Edge}
    (allowed : shard.Allowed edge.src edge.dst) :
    shard.insert edge = .ok (shard.get? edge.src edge.dst, shard.put edge) := by
  unfold insert
  rw [allowed]
  rfl

theorem insert_of_check {shard : Shard} {edge : Edge} {failure : Failure}
    (refused : shard.check edge.src edge.dst = .error failure) :
    shard.insert edge = .error failure := by
  unfold insert
  rw [refused]
  rfl

theorem get?_insert_row (shard : Shard) (src : VertexId) (row : Row) (count : Nat)
    (other dst : VertexId) :
    ({ shard with rows := shard.rows.insert src row, edgeCount := count } : Shard).get? other dst =
      if other = src then row.get? dst else shard.get? other dst := by
  unfold get?
  rw [VertexMap.get?_insert]
  split <;> rfl

theorem get?_put (shard : Shard) (edge : Edge) (src dst : VertexId) :
    (shard.put edge).get? src dst =
      if edge.key = (src, dst) then some edge.attrs else shard.get? src dst := by
  rw [put, get?_insert_row, VertexMap.get?_insert, get?_row]
  simp only [Edge.key, Prod.mk.injEq]
  by_cases source : src = edge.src
  · subst source
    by_cases target : dst = edge.dst
    · simp [target]
    · simp [target, Ne.symm target]
  · simp [source, Ne.symm source]

theorem get?_modify (shard : Shard) (src dst : VertexId) (change : Attrs → Attrs)
    (other target : VertexId) :
    (shard.modify src dst change).get? other target =
      if (src, dst) = (other, target) then (shard.get? other target).map change
      else shard.get? other target := by
  unfold modify
  cases stored : shard.get? src dst with
  | none =>
      by_cases same : (src, dst) = (other, target)
      · cases same
        simp [stored]
      · simp [same]
  | some attrs =>
      dsimp only
      rw [get?_insert_row shard src _ shard.edgeCount, VertexMap.get?_insert, get?_row]
      simp only [Prod.mk.injEq]
      by_cases source : other = src
      · subst source
        by_cases same : target = dst
        · subst same
          simp [stored]
        · simp [same, Ne.symm same]
      · simp [source, Ne.symm source]

theorem samePlace_modify (shard : Shard) (src dst : VertexId) (change : Attrs → Attrs) :
    SamePlace shard (shard.modify src dst change) := by
  unfold modify
  split
  · exact SamePlace.refl shard
  · exact ⟨rfl, rfl, rfl⟩

theorem edgeCount_modify (shard : Shard) (src dst : VertexId) (change : Attrs → Attrs) :
    (shard.modify src dst change).edgeCount = shard.edgeCount := by
  unfold modify
  split <;> rfl

/-- Two shards with the same answers hold edges between the same ends. -/
theorem keys_eq_of_get? {first second : Shard}
    (same : ∀ src dst, (first.get? src dst).isSome = (second.get? src dst).isSome) :
    first.keys = second.keys := by
  ext key
  rw [mem_keys, mem_keys, same]

theorem keys_put (shard : Shard) (edge : Edge) :
    (shard.put edge).keys = Insert.insert edge.key shard.keys := by
  ext key
  rw [mem_keys, get?_put, Finset.mem_insert, mem_keys]
  by_cases same : edge.key = (key.1, key.2)
  · rw [if_pos same]
    simp [same]
  · rw [if_neg same]
    simp [Ne.symm same]

theorem isEmpty_insert (row : Row) (dst : VertexId) (attrs : Attrs) :
    (row.insert dst attrs).isEmpty = false := by
  rw [VertexMap.isEmpty_eq_false_iff]
  exact ⟨dst, attrs, by rw [VertexMap.get?_insert, if_pos rfl]⟩

theorem Sound.put {shard : Shard} (sound : shard.Sound) {edge : Edge}
    (allowed : shard.Allowed edge.src edge.dst) : (shard.put edge).Sound where
  rows src row stored := by
    simp only [Shard.put, VertexMap.get?_insert] at stored
    split at stored
    · cases stored
      exact isEmpty_insert _ _ _
    · exact sound.rows src row stored
  counted := by
    have counted := sound.counted
    rw [keys_put]
    by_cases present : edge.key ∈ shard.keys
    · have found := (shard.mem_keys edge.key).1 present
      have notNew : (shard.get? edge.src edge.dst).isNone = false := by
        simpa [Edge.key, Option.isSome_iff_ne_none] using found
      rw [Finset.insert_eq_of_mem present]
      simp only [Shard.put, notNew]
      exact counted
    · have new : (shard.get? edge.src edge.dst).isNone = true := by
        simpa [mem_keys, Edge.key] using present
      rw [Finset.card_insert_of_notMem present]
      simp only [Shard.put, new, if_true, counted]
  allowed src dst attrs stored := by
    have place : SamePlace shard (shard.put edge) := ⟨rfl, rfl, rfl⟩
    rw [place.allowed_iff]
    rw [get?_put] at stored
    split at stored
    · next same =>
        cases same
        exact allowed
    · exact sound.allowed src dst attrs stored

theorem Sound.modify {shard : Shard} (sound : shard.Sound) (src dst : VertexId)
    (change : Attrs → Attrs) : (shard.modify src dst change).Sound where
  rows other row stored := by
    unfold Shard.modify at stored
    split at stored
    · exact sound.rows other row stored
    · simp only [VertexMap.get?_insert] at stored
      split at stored
      · cases stored
        exact isEmpty_insert _ _ _
      · exact sound.rows other row stored
  counted := by
    rw [edgeCount_modify, sound.counted, keys_eq_of_get?]
    intro other target
    rw [get?_modify]
    split <;> simp
  allowed other target attrs stored := by
    rw [(samePlace_modify shard src dst change).allowed_iff]
    rw [get?_modify] at stored
    split at stored
    · obtain ⟨old, found, _⟩ := Option.map_eq_some_iff.1 stored
      exact sound.allowed other target old found
    · exact sound.allowed other target attrs stored

theorem get?_retain (shard : Shard) (keep : EdgeKey → Attrs → Bool) (src dst : VertexId) :
    (shard.retain keep).2.get? src dst = (shard.get? src dst).filter (keep (src, dst)) := by
  simp only [retain, get?, VertexMap.get?_filterMap]
  cases shard.rows.get? src with
  | none => rfl
  | some row =>
      have kept := row.get?_filter (fun dst attrs => keep (src, dst) attrs) dst
      simp only [Option.bind_some]
      split
      · next nothing =>
          have absent := (VertexMap.isEmpty_iff _).1 nothing dst
          rw [kept] at absent
          rw [absent]
          rfl
      · exact kept

theorem samePlace_retain (shard : Shard) (keep : EdgeKey → Attrs → Bool) :
    SamePlace shard (shard.retain keep).2 := ⟨rfl, rfl, rfl⟩

theorem edges_retain (shard : Shard) (keep : EdgeKey → Attrs → Bool) :
    (shard.retain keep).2.edges = shard.edges.filter fun edge => keep edge.key edge.attrs := by
  simp only [edges, retain, VertexMap.filterMap, VertexMap.filter, VertexMap.isEmpty]
  induction shard.rows.toList with
  | nil => rfl
  | cons head rest ih =>
      rcases head with ⟨src, row⟩
      rw [List.filterMap_cons, List.flatMap_cons, List.filter_append, ← ih, List.filter_map]
      have same : ((fun edge : Edge => keep edge.key edge.attrs) ∘
          fun entry : VertexId × Attrs =>
            (⟨src, entry.1, entry.2.weight, entry.2.timestamp⟩ : Edge)) =
          fun entry => keep (src, entry.1) entry.2 := rfl
      dsimp only
      rw [same]
      by_cases nothing : row.toList.filter (fun entry => keep (src, entry.1) entry.2) = []
      · simp [nothing]
      · simp [nothing]

/-- How many edges went, and how many stayed. -/
theorem removed_add_length (shard : Shard) (keep : EdgeKey → Attrs → Bool) :
    (shard.retain keep).1 + (shard.retain keep).2.edges.length = shard.edges.length := by
  rw [edges_retain, ← List.countP_eq_length_filter, retain]
  have parts := List.length_eq_countP_add_countP (fun edge : Edge => keep edge.key edge.attrs)
    (l := shard.edges)
  simp only [Bool.not_eq_true, Bool.decide_eq_false] at parts
  omega

theorem Sound.retain {shard : Shard} (sound : shard.Sound) (keep : EdgeKey → Attrs → Bool) :
    (shard.retain keep).2.Sound where
  rows src row stored := by
    simp only [Shard.retain, VertexMap.get?_filterMap] at stored
    obtain ⟨old, _, changed⟩ := Option.bind_eq_some_iff.1 stored
    split at changed
    · cases changed
    · next kept =>
        cases changed
        simpa using kept
  counted := by
    have parts := shard.removed_add_length keep
    have counted := sound.length_edges
    rw [card_keys]
    simp only [Shard.retain] at parts ⊢
    omega
  allowed src dst attrs stored := by
    rw [get?_retain] at stored
    rw [(samePlace_retain shard keep).allowed_iff]
    exact sound.allowed src dst attrs (Option.eq_some_of_filter_eq_some stored)

theorem Sound.removed_add {shard : Shard} (sound : shard.Sound) (keep : EdgeKey → Attrs → Bool) :
    (shard.retain keep).1 + (shard.retain keep).2.edgeCount = shard.edgeCount := by
  rw [← (sound.retain keep).length_edges, ← sound.length_edges, removed_add_length]

end Shard

end StreamGraph
