import StreamGraph.Analytics.Betweenness
import StreamGraph.Proofs.Analytics.Fractions
import StreamGraph.Proofs.Analytics.Betweenness.Paths

/-!
The search from one source. Vertices wait in the order of their layers, and no two that wait are
more than one layer apart; so when a vertex is taken, all vertices of the layer before have been,
and the number of paths to it is complete. The vertices before a vertex are listed in the order in
which they were taken, each once.
-/

namespace StreamGraph.Betweenness

namespace Search

/-- How far a vertex is, as far as the search has seen. -/
def depth (search : Search ℚ) (vertex : Nat) : Option Nat := search.distances.getD vertex none

/-- The number of paths to a vertex, as far as the search has seen. -/
def count (search : Search ℚ) (vertex : Nat) : ℚ := search.paths.getD vertex 0

/-- The vertices before a vertex, as far as the search has seen. -/
def previous (search : Search ℚ) (vertex : Nat) : List Nat := search.before.getD vertex []

/-- All tables have a slot for each vertex. -/
structure Sized (vertices : Nat) (search : Search ℚ) : Prop where
  distances : search.distances.size = vertices
  paths : search.paths.size = vertices
  before : search.before.size = vertices

end Search

variable {vertices here distance : Nat} {search : Search ℚ}

/-- What a search has seen after it has looked along some edges from a vertex: new vertices are one
layer further and wait, and all that are one layer further have paths over this vertex. -/
structure Looked (vertices here distance : Nat) (targets : List Nat) (first last : Search ℚ) :
    Prop where
  sized : last.Sized vertices
  depth (vertex : Nat) : last.depth vertex =
    if vertex ∈ targets ∧ first.depth vertex = none then some (distance + 1)
    else first.depth vertex
  queue : last.queue = first.queue ++ targets.filter fun target => (first.depth target).isNone
  count (vertex : Nat) : last.count vertex = first.count vertex +
    if vertex ∈ targets ∧ last.depth vertex = some (distance + 1) then first.count here else 0
  previous (vertex : Nat) : last.previous vertex = first.previous vertex ++
    if vertex ∈ targets ∧ last.depth vertex = some (distance + 1) then [here] else []

section Look

variable {target : Nat}

/-- A vertex that has not been seen before waits now, at this distance. -/
def Search.discover (search : Search ℚ) (target distance : Nat) : Search ℚ :=
  if search.depth target = none then
    { search with
      distances := search.distances.setIfInBounds target (some distance)
      queue := search.queue ++ [target] }
  else search

/-- There is one more path over a vertex. -/
def Search.through (search : Search ℚ) (here target : Nat) : Search ℚ :=
  { search with
    paths := addAt search.paths target (search.paths.getD here 0)
    before := search.before.modify target (· ++ [here]) }

theorem look_eq (here distance : Nat) (search : Search ℚ) (target : Nat) :
    look here distance search target =
      if (search.discover target (distance + 1)).depth target = some (distance + 1) then
        (search.discover target (distance + 1)).through here target
      else search.discover target (distance + 1) := rfl

namespace Search.Sized

theorem depth_discover (sized : search.Sized vertices) (inside : target < vertices)
    (distance vertex : Nat) : (search.discover target distance).depth vertex =
      if vertex = target ∧ search.depth vertex = none then some distance
      else search.depth vertex := by
  unfold discover
  by_cases fresh : search.depth target = none
  · rw [if_pos fresh]
    have changed := getD_set search.distances target vertex (some distance) none
    by_cases same : vertex = target
    · subst same
      rw [if_pos ⟨rfl, fresh⟩, depth, changed, if_pos ⟨rfl, sized.distances ▸ inside⟩]
    · rw [if_neg fun both => same both.1, depth, changed, if_neg fun both => same both.1.symm]
      rfl
  · rw [if_neg fresh, if_neg]
    intro both
    exact fresh (both.1 ▸ both.2)

theorem discover (sized : search.Sized vertices) (target distance : Nat) :
    (search.discover target distance).Sized vertices := by
  unfold Search.discover
  split
  · constructor
    · rw [Array.size_setIfInBounds, sized.distances]
    · exact sized.paths
    · exact sized.before
  · exact sized

theorem count_through (sized : search.Sized vertices) (inside : target < vertices)
    (here vertex : Nat) : (search.through here target).count vertex =
      search.count vertex + if vertex = target then search.count here else 0 := by
  simp only [through, count, addAt, getD_modify, sized.paths, inside, and_true,
    eq_comm (a := vertex)]
  split <;> simp

theorem previous_through (sized : search.Sized vertices) (inside : target < vertices)
    (here vertex : Nat) : (search.through here target).previous vertex =
      search.previous vertex ++ if vertex = target then [here] else [] := by
  simp only [through, previous, getD_modify, sized.before, inside, and_true,
    eq_comm (a := vertex)]
  split <;> simp

theorem through (sized : search.Sized vertices) (here target : Nat) :
    (search.through here target).Sized vertices where
  distances := sized.distances
  paths := by rw [Search.through, addAt, Array.size_modify, sized.paths]
  before := by rw [Search.through, Array.size_modify, sized.before]

end Search.Sized

theorem Search.queue_discover (search : Search ℚ) (target distance : Nat) :
    (search.discover target distance).queue =
      search.queue ++ if search.depth target = none then [target] else [] := by
  unfold discover
  split
  · rfl
  · rw [List.append_nil]

theorem Search.count_discover (search : Search ℚ) (target distance vertex : Nat) :
    (search.discover target distance).count vertex = search.count vertex := by
  unfold discover
  split <;> rfl

theorem Search.previous_discover (search : Search ℚ) (target distance vertex : Nat) :
    (search.discover target distance).previous vertex = search.previous vertex := by
  unfold discover
  split <;> rfl

theorem looked_look (sized : search.Sized vertices) (inside : target < vertices) :
    Looked vertices here distance [target] search (look here distance search target) := by
  have known := sized.depth_discover inside (distance + 1)
  have sizedNext := sized.discover target (distance + 1)
  have depth : ∀ vertex, (look here distance search target).depth vertex =
      (search.discover target (distance + 1)).depth vertex := by
    intro vertex
    rw [look_eq]
    split <;> rfl
  constructor
  · rw [look_eq]
    split
    · exact sizedNext.through here target
    · exact sizedNext
  · intro vertex
    simp only [depth, known, List.mem_singleton]
  · have queue : (look here distance search target).queue =
        (search.discover target (distance + 1)).queue := by
      rw [look_eq]
      split <;> rfl
    rw [queue, search.queue_discover]
    by_cases fresh : search.depth target = none
    · simp [fresh]
    · simp [fresh]
  · intro vertex
    rw [depth, look_eq]
    split
    · next near =>
        rw [sizedNext.count_through inside, search.count_discover, search.count_discover]
        by_cases same : vertex = target
        · simp [same, near]
        · simp [same]
    · next far =>
        rw [search.count_discover, if_neg, add_zero]
        intro both
        exact far (List.mem_singleton.1 both.1 ▸ both.2)
  · intro vertex
    rw [depth, look_eq]
    split
    · next near =>
        rw [sizedNext.previous_through inside, search.previous_discover]
        by_cases same : vertex = target
        · simp [same, near]
        · simp [same]
    · next far =>
        rw [search.previous_discover, if_neg, List.append_nil]
        intro both
        exact far (List.mem_singleton.1 both.1 ▸ both.2)

/-- What is seen along one edge, and then along others that lead elsewhere. -/
theorem Looked.cons {targets : List Nat} {first middle last : Search ℚ}
    (one : Looked vertices here distance [target] first middle)
    (others : Looked vertices here distance targets middle last) (elsewhere : target ∉ targets)
    (known : first.depth here = some distance) :
    Looked vertices here distance (target :: targets) first last := by
  have still : middle.depth here = some distance := by
    rw [one.depth, known, if_neg]
    intro both
    cases both.2
  have unchanged : ∀ vertex ∈ targets, middle.depth vertex = first.depth vertex := by
    intro vertex member
    rw [one.depth, if_neg]
    intro both
    exact elsewhere (List.mem_singleton.1 both.1 ▸ member)
  have final : last.depth target = middle.depth target := by
    rw [others.depth, if_neg fun both => elsewhere both.1]
  have count : middle.count here = first.count here := by
    rw [one.count, if_neg, add_zero]
    intro both
    rw [still, Option.some_inj] at both
    omega
  constructor
  · exact others.sized
  · intro vertex
    rw [others.depth]
    by_cases same : vertex = target
    · subst same
      rw [if_neg fun both => elsewhere both.1, one.depth]
      simp
    · by_cases later : vertex ∈ targets
      · simp [later, unchanged vertex later]
      · rw [if_neg fun both => later both.1, one.depth]
        simp [later, same]
  · have rest : (targets.filter fun vertex => (middle.depth vertex).isNone) =
        targets.filter fun vertex => (first.depth vertex).isNone := by
      apply List.filter_congr
      intro vertex member
      rw [unchanged vertex member]
    rw [others.queue, one.queue, rest, List.append_assoc, ← List.filter_append]
    rfl
  · intro vertex
    rw [others.count, one.count, count]
    by_cases same : vertex = target
    · subst same
      simp [elsewhere, final]
    · simp [same]
  · intro vertex
    rw [others.previous, one.previous]
    by_cases same : vertex = target
    · subst same
      simp [elsewhere, final]
    · simp [same]

theorem looked_foldl {targets : List Nat} (sized : search.Sized vertices) (once : targets.Nodup)
    (inside : ∀ target ∈ targets, target < vertices) (known : search.depth here = some distance) :
    Looked vertices here distance targets search
      (targets.foldl (look here distance) search) := by
  induction targets generalizing search with
  | nil => constructor <;> simp [sized]
  | cons target others ih =>
      have first : Looked vertices here distance [target] search
          (look here distance search target) :=
        looked_look sized (inside target (List.mem_cons_self ..))
      rcases List.nodup_cons.1 once with ⟨elsewhere, onceOthers⟩
      have still : (look here distance search target).depth here = some distance := by
        rw [first.depth, known, if_neg]
        intro both
        cases both.2
      have later := ih first.sized onceOthers
        (fun other member => inside other (List.mem_cons_of_mem _ member)) still
      exact first.cons later elsewhere known

namespace Looked

variable {targets : List Nat} {first last : Search ℚ}

/-- What has been seen is not seen again elsewhere. -/
theorem kept (looked : Looked vertices here distance targets first last) {vertex layer : Nat}
    (known : first.depth vertex = some layer) : last.depth vertex = some layer := by
  rw [looked.depth, known, if_neg]
  intro both
  cases both.2

theorem depth_new (looked : Looked vertices here distance targets first last) {vertex : Nat}
    (member : vertex ∈ targets) (fresh : first.depth vertex = none) :
    last.depth vertex = some (distance + 1) := by
  rw [looked.depth, if_pos ⟨member, fresh⟩]

theorem depth_cases (looked : Looked vertices here distance targets first last)
    {vertex layer : Nat} (known : last.depth vertex = some layer) :
    first.depth vertex = some layer ∨
      vertex ∈ targets ∧ first.depth vertex = none ∧ layer = distance + 1 := by
  rw [looked.depth] at known
  split at known
  · next fresh => exact Or.inr ⟨fresh.1, fresh.2, (Option.some.inj known).symm⟩
  · exact Or.inl known

/-- Vertices of other layers have as many paths as before. -/
theorem count_kept (looked : Looked vertices here distance targets first last)
    {vertex layer : Nat} (known : last.depth vertex = some layer) (other : layer ≠ distance + 1) :
    last.count vertex = first.count vertex := by
  rw [looked.count, if_neg, add_zero]
  intro both
  rw [known, Option.some_inj] at both
  exact other both.2

end Looked

end Look

section Explore

variable {next : Nat → Nat → Prop} {source : Nat} {order : List Nat}

/-- The rows of a snapshot hold what follows each vertex, once each. -/
structure Rows (next : Nat → Nat → Prop) (snapshot : Snapshot) : Prop where
  within {here there : Nat} (edge : next here there) :
    here < snapshot.vertices ∧ there < snapshot.vertices
  listed {here : Nat} (inside : here < snapshot.vertices) (there : Nat) :
    there ∈ snapshot.neighbors here ↔ next here there
  once {here : Nat} (inside : here < snapshot.vertices) : (snapshot.neighbors here).Nodup

/-- The vertices that a search has taken, in this order, and those that wait: they are all that have
been seen, they stand in the order of their layers, and nothing has been seen that is more than one
layer further than the first that waits. -/
structure Frontier (order : List Nat) (search : Search ℚ) : Prop where
  seen (vertex : Nat) :
    vertex ∈ order ++ search.queue ↔ ∃ layer, search.depth vertex = some layer
  once : (order ++ search.queue).Nodup
  rising : (order ++ search.queue).Pairwise fun first second =>
    level search.depth first ≤ level search.depth second
  near {head : Nat} {queue : List Nat} (waits : search.queue = head :: queue) (vertex : Nat)
    (member : vertex ∈ order ++ search.queue) :
    level search.depth vertex ≤ level search.depth head + 1

open Classical in
/-- A search that has followed the edges of the vertices that it has taken, and no others: these are
the edges that the distances, the lists and the numbers of paths come from. -/
structure Explored (next : Nat → Nat → Prop) (vertices source : Nat) (order : List Nat)
    (search : Search ℚ) : Prop extends Frontier order search where
  sized : search.Sized vertices
  first (vertex : Nat) : search.depth vertex = some 0 ↔ vertex = source
  onward {here there layer : Nat} (taken : here ∈ order) (edge : next here there)
    (known : search.depth here = some layer) :
    ∃ other ≤ layer + 1, search.depth there = some other
  before {vertex layer : Nat} (known : search.depth vertex = some (layer + 1)) :
    ∃ here ∈ order, next here vertex ∧ search.depth here = some layer
  previous (vertex : Nat) : search.previous vertex =
    order.filter fun here => Tight next search.depth here vertex
  count (vertex : Nat) : search.count vertex =
    (if vertex = source then 1 else 0) + ((search.previous vertex).map search.count).sum

theorem Search.lt_of_depth (sized : search.Sized vertices) {vertex layer : Nat}
    (known : search.depth vertex = some layer) : vertex < vertices := by
  by_contra outside
  have unreached : search.depth vertex = none := by
    rw [depth, Array.getD_eq_getD_getElem?, Array.getElem?_eq_none]
    · rfl
    · rw [sized.distances]
      exact Nat.le_of_not_lt outside
  rw [unreached] at known
  cases known

section Step

variable {head layer : Nat} {queue targets : List Nat} {after : Search ℚ}

namespace Frontier

theorem known_of_mem (frontier : Frontier order search) {vertex : Nat}
    (member : vertex ∈ order ++ search.queue) :
    search.depth vertex = some (level search.depth vertex) := by
  rcases (frontier.seen vertex).1 member with ⟨other, known⟩
  rw [level_eq known, known]

variable (frontier : Frontier order search) (waits : search.queue = head :: queue)
  (known : search.depth head = some layer)
  (looked : Looked vertices head layer targets { search with queue } after)

section Taken

include waits looked

/-- What is new waits behind all others. -/
theorem waiting_step : order ++ [head] ++ after.queue =
    order ++ search.queue ++ targets.filter fun there => (search.depth there).isNone := by
  rw [looked.queue, waits]
  simp only [List.append_assoc, List.cons_append]
  rfl

include frontier

/-- A vertex that has been taken or waits was seen before, or is new. -/
theorem cases_step {vertex : Nat} (member : vertex ∈ order ++ [head] ++ after.queue) :
    (vertex ∈ order ++ search.queue ∧ after.depth vertex = search.depth vertex) ∨
      (vertex ∈ targets ∧ search.depth vertex = none ∧
        after.depth vertex = some (layer + 1)) := by
  rw [waiting_step waits looked, List.mem_append, List.mem_filter,
    Option.isNone_iff_eq_none] at member
  rcases member with old | new
  · have found := frontier.known_of_mem old
    rw [found]
    exact Or.inl ⟨old, looked.kept found⟩
  · exact Or.inr ⟨new.1, new.2, looked.depth_new new.1 new.2⟩

theorem seen_step (vertex : Nat) :
    vertex ∈ order ++ [head] ++ after.queue ↔ ∃ other, after.depth vertex = some other := by
  constructor
  · intro member
    rcases cases_step frontier waits looked member with old | new
    · rw [old.2]
      exact (frontier.seen vertex).1 old.1
    · exact ⟨_, new.2.2⟩
  · intro seen
    rcases seen with ⟨other, found⟩
    rw [waiting_step waits looked, List.mem_append, List.mem_filter, Option.isNone_iff_eq_none]
    rcases looked.depth_cases found with old | new
    · exact Or.inl ((frontier.seen vertex).2 ⟨other, old⟩)
    · exact Or.inr ⟨new.1, new.2.1⟩

theorem once_step (once : targets.Nodup) : (order ++ [head] ++ after.queue).Nodup := by
  rw [waiting_step waits looked, List.nodup_append]
  constructor
  · exact frontier.once
  constructor
  · exact once.filter _
  · intro vertex old other new same
    rw [List.mem_filter, Option.isNone_iff_eq_none, ← same,
      frontier.known_of_mem old] at new
    cases new.2

include known

theorem level_le_step {vertex : Nat} (member : vertex ∈ order ++ search.queue) :
    level after.depth vertex = level search.depth vertex ∧
      level search.depth vertex ≤ layer + 1 := by
  have near := frontier.near waits vertex member
  rw [level_eq known] at near
  exact ⟨level_eq (looked.kept (frontier.known_of_mem member)), near⟩

theorem rising_step : (order ++ [head] ++ after.queue).Pairwise fun first second =>
    level after.depth first ≤ level after.depth second := by
  have new : ∀ vertex ∈ targets.filter fun there => (search.depth there).isNone,
      level after.depth vertex = layer + 1 := by
    intro vertex member
    rw [List.mem_filter, Option.isNone_iff_eq_none] at member
    exact level_eq (looked.depth_new member.1 member.2)
  have old : ∀ vertex ∈ order ++ search.queue,
      level after.depth vertex = level search.depth vertex ∧
        level search.depth vertex ≤ layer + 1 :=
    fun vertex member => level_le_step frontier waits known looked member
  rw [waiting_step waits looked, List.pairwise_append]
  constructor
  · apply frontier.rising.imp_of_mem
    intro first second inFirst inSecond before
    rw [(old first inFirst).1, (old second inSecond).1]
    exact before
  constructor
  · apply List.pairwise_of_forall_mem_list
    intro first inFirst second inSecond
    rw [new first inFirst, new second inSecond]
  · intro first inFirst second inSecond
    rw [(old first inFirst).1, new second inSecond]
    exact (old first inFirst).2

/-- The first that waits now stood behind the one that was taken. -/
theorem layer_le_step {first : Nat} {rest : List Nat} (waitsNow : after.queue = first :: rest) :
    layer ≤ level after.depth first := by
  have rising := rising_step frontier waits known looked
  rw [waitsNow, List.append_assoc, List.singleton_append] at rising
  have behind := (List.pairwise_cons.1 (List.pairwise_append.1 rising).2.1).1
  have before := behind first (List.mem_cons_self ..)
  rw [level_eq (looked.kept known)] at before
  exact before

/-- When the first that waits is taken, what is new is one layer further. -/
theorem step (once : targets.Nodup) : Frontier (order ++ [head]) after where
  seen := seen_step frontier waits looked
  once := once_step frontier waits looked once
  rising := rising_step frontier waits known looked
  near := by
    intro first rest waitsNow vertex member
    have behind := layer_le_step frontier waits known looked waitsNow
    rcases cases_step frontier waits looked member with old | new
    · have near := level_le_step frontier waits known looked old.1
      omega
    · rw [level_eq new.2.2]
      omega

end Taken

end Frontier

theorem explored_start (inside : source < vertices) :
    Explored next vertices source [] (start vertices source) := by
  have depth : ∀ vertex, (start vertices source).depth vertex =
      if source = vertex then some 0 else none := by
    intro vertex
    rw [Search.depth, start, getD_set, getD_replicate, Array.size_replicate]
    simp only [inside, and_true]
  have previous : ∀ vertex, (start vertices source).previous vertex = [] :=
    fun vertex => getD_replicate ..
  have queue : (start vertices source : Search ℚ).queue = [source] := rfl
  constructor
  · constructor
    · intro vertex
      simp [depth, queue, eq_comm (a := vertex)]
    · simp [queue]
    · simp [queue]
    · intro head rest waits vertex member
      rw [queue, List.nil_append, List.mem_singleton] at member
      rw [queue, List.cons.injEq] at waits
      rw [member, waits.1]
      exact Nat.le_succ _
  · constructor
    · rw [start, Array.size_setIfInBounds, Array.size_replicate]
    · rw [start, Array.size_setIfInBounds, Array.size_replicate]
    · rw [start, Array.size_replicate]
  · intro vertex
    simp [depth, eq_comm (a := vertex)]
  · intro here there layer taken
    cases taken
  · intro vertex layer known
    rw [depth] at known
    split at known <;> cases known
  · exact previous
  · intro vertex
    rw [previous, Search.count, start, getD_set, getD_replicate, Array.size_replicate]
    simp [inside, eq_comm (a := vertex)]

namespace Explored

/-- The vertices that wait have room in the order of all vertices. -/
theorem length_le (explored : Explored next vertices source order search) :
    order.length + search.queue.length ≤ vertices := by
  rw [← List.length_append, ← List.toFinset_card_of_nodup explored.once,
    ← Finset.card_range vertices]
  apply Finset.card_le_card
  intro vertex member
  have known := explored.known_of_mem (List.mem_toFinset.1 member)
  exact Finset.mem_range.2 (Search.lt_of_depth explored.sized known)

/-- No vertex that has been taken is further than the first that waits. -/
theorem level_le (explored : Explored next vertices source order search)
    (waits : search.queue = head :: queue) {here : Nat} (taken : here ∈ order) :
    level search.depth here ≤ level search.depth head := by
  have rising := explored.rising
  rw [waits, List.pairwise_append] at rising
  exact rising.2.2 here taken head (List.mem_cons_self ..)

variable (explored : Explored next vertices source order search)
  (looked : Looked vertices head layer targets { search with queue } after)

include explored looked

theorem depth_kept {here : Nat} (taken : here ∈ order) :
    after.depth here = search.depth here := by
  have before := explored.known_of_mem (List.mem_append_left search.queue taken)
  rw [before]
  exact looked.kept before

/-- Of the vertices taken before, the same ones lead one layer further to a vertex. -/
theorem tight_step {here there : Nat} (taken : here ∈ order) :
    Tight next after.depth here there ↔ Tight next search.depth here there := by
  have before := explored.known_of_mem (List.mem_append_left search.queue taken)
  unfold Tight
  apply and_congr_right
  intro edge
  rcases explored.onward taken edge before with ⟨last, _, seen⟩
  rw [depth_kept explored looked taken, seen, looked.kept seen]

variable (waits : search.queue = head :: queue) (known : search.depth head = some layer)
  (row : ∀ there, there ∈ targets ↔ next head there)

include known row

omit explored in
theorem tight_head (vertex : Nat) : Tight next after.depth head vertex ↔
    vertex ∈ targets ∧ after.depth vertex = some (layer + 1) := by
  rw [row]
  apply and_congr_right
  intro _
  rw [looked.kept known]
  constructor
  · intro further
    rcases further with ⟨other, same, seen⟩
    rw [Option.some.inj same]
    exact seen
  · intro seen
    exact ⟨layer, rfl, seen⟩

open Classical in
theorem previous_step (vertex : Nat) : after.previous vertex =
    (order ++ [head]).filter fun here => Tight next after.depth here vertex := by
  have earlier : (order.filter fun here => Tight next after.depth here vertex) =
      search.previous vertex := by
    rw [explored.previous]
    apply List.filter_congr
    intro here taken
    rw [decide_eq_decide]
    exact tight_step explored looked taken
  have unchanged : Search.previous { search with queue } vertex = search.previous vertex := rfl
  rw [List.filter_append, earlier, looked.previous, unchanged]
  congr 1
  by_cases further : Tight next after.depth head vertex
  · rw [if_pos ((tight_head looked known row vertex).1 further)]
    simp [further]
  · rw [if_neg (mt (tight_head looked known row vertex).2 further)]
    simp [further]

include waits

theorem onward_step {here there other : Nat} (taken : here ∈ order ++ [head])
    (edge : next here there) (found : after.depth here = some other) :
    ∃ last ≤ other + 1, after.depth there = some last := by
  rcases List.mem_append.1 taken with earlier | now
  · rw [depth_kept explored looked earlier] at found
    rcases explored.onward earlier edge found with ⟨last, near, seen⟩
    exact ⟨last, near, looked.kept seen⟩
  · rw [List.mem_singleton.1 now] at edge found
    rw [looked.kept known, Option.some_inj] at found
    rw [← found]
    cases seen : search.depth there with
    | none => exact ⟨layer + 1, Nat.le_refl _, looked.depth_new ((row there).2 edge) seen⟩
    | some last =>
        use last
        constructor
        · have near := explored.near waits there ((explored.seen there).2 ⟨last, seen⟩)
          rw [level_eq seen, level_eq known] at near
          exact near
        · exact looked.kept seen

/-- The number of paths to a vertex is complete when it is taken, so those over it are complete,
too. -/
theorem count_step (vertex : Nat) : after.count vertex =
    (if vertex = source then 1 else 0) + ((after.previous vertex).map after.count).sum := by
  have complete : ∀ here ∈ order ++ [head], after.count here = search.count here := by
    intro here taken
    rcases List.mem_append.1 taken with earlier | now
    · have before := explored.known_of_mem (List.mem_append_left search.queue earlier)
      have near := level_le explored waits earlier
      rw [level_eq known] at near
      exact looked.count_kept (looked.kept before) (by omega)
    · rw [List.mem_singleton.1 now]
      exact looked.count_kept (looked.kept known) (by omega)
  have members : ∀ here ∈ after.previous vertex, after.count here = search.count here := by
    intro here member
    rw [previous_step explored looked known row] at member
    exact complete here (List.mem_filter.1 member).1
  have unchanged : Search.previous { search with queue } vertex = search.previous vertex ∧
      Search.count { search with queue } vertex = search.count vertex ∧
      Search.count { search with queue } head = search.count head := ⟨rfl, rfl, rfl⟩
  rw [List.map_congr_left members, looked.count, looked.previous, unchanged.1, unchanged.2.1,
    unchanged.2.2, explored.count, List.map_append, List.sum_append, add_assoc]
  congr 2
  split <;> simp

/-- The first that waits is taken, and its edges are followed. -/
theorem step (once : targets.Nodup) :
    Explored next vertices source (order ++ [head]) after where
  toFrontier := explored.toFrontier.step waits known looked once
  sized := looked.sized
  first vertex := by
    constructor
    · intro found
      rcases looked.depth_cases found with old | new
      · exact (explored.first vertex).1 old
      · cases new.2.2
    · intro same
      exact looked.kept ((explored.first vertex).2 same)
  onward := onward_step explored looked waits known row
  before := by
    intro vertex other found
    rcases looked.depth_cases found with old | new
    · rcases explored.before old with ⟨here, taken, edge, seen⟩
      exact ⟨here, List.mem_append_left _ taken, edge, looked.kept seen⟩
    · rw [Nat.succ.inj new.2.2]
      exact ⟨head, List.mem_append_right _ (List.mem_singleton_self _), (row vertex).1 new.1,
        looked.kept known⟩
  previous := previous_step explored looked known row
  count := count_step explored looked waits known row

end Explored

end Step

/-- The first that waits is taken: its whole row is looked at. -/
theorem Explored.take {snapshot : Snapshot} (rows : Rows next snapshot)
    (explored : Explored next snapshot.vertices source order search) {head : Nat}
    {queue : List Nat} (waits : search.queue = head :: queue) :
    Explored next snapshot.vertices source (order ++ [head])
      ((snapshot.neighbors head).foldl (look head (level search.depth head))
        { search with queue }) := by
  have known : search.depth head = some (level search.depth head) :=
    explored.known_of_mem (by simp [waits])
  have inside := Search.lt_of_depth explored.sized known
  have row := rows.listed inside
  have sized : Search.Sized snapshot.vertices { search with queue } :=
    ⟨explored.sized.distances, explored.sized.paths, explored.sized.before⟩
  have looked := looked_foldl sized (rows.once inside)
    (fun there member => (rows.within ((row there).1 member)).2) known
  exact explored.step looked waits known row (rows.once inside)

/-- A search that may take as many vertices as there are leaves none that waits. -/
theorem Explored.explore {snapshot : Snapshot} (rows : Rows next snapshot) {steps : Nat}
    (explored : Explored next snapshot.vertices source order search)
    (enough : snapshot.vertices ≤ steps + order.length) :
    ∃ taken last, Betweenness.explore snapshot steps search = (taken, last) ∧
      Explored next snapshot.vertices source (order ++ taken) last ∧ last.queue = [] := by
  induction steps generalizing order search with
  | zero =>
      have room := explored.length_le
      have empty : search.queue = [] := List.eq_nil_of_length_eq_zero (by omega)
      use [], search
      rw [List.append_nil]
      exact ⟨rfl, explored, empty⟩
  | succ steps ih =>
      rw [Betweenness.explore]
      cases waits : search.queue with
      | nil =>
          use [], search
          rw [List.append_nil]
          exact ⟨rfl, explored, waits⟩
      | cons head queue =>
          rcases ih (explored.take rows waits)
              (by rw [List.length_append, List.length_singleton]; omega) with
            ⟨taken, last, run, done, empty⟩
          use head :: taken, last
          rw [List.append_assoc, List.singleton_append] at done
          constructor
          · unfold level Search.depth at run
            dsimp only
            rw [run]
          · exact ⟨done, empty⟩

namespace Explored

variable {snapshot : Snapshot} (rows : Rows next snapshot)
  (done : Explored next snapshot.vertices source order search) (empty : search.queue = [])

include done empty

theorem mem_order (vertex : Nat) : vertex ∈ order ↔ ∃ layer, search.depth vertex = some layer := by
  have seen := done.seen vertex
  rw [empty, List.append_nil] at seen
  exact seen

/-- When no vertex waits, all edges have been followed. -/
theorem layers : Layers next source search.depth where
  first := done.first
  onward edge known := done.onward ((mem_order done empty _).2 ⟨_, known⟩) edge known
  before known := by
    rcases done.before known with ⟨here, _, edge, seen⟩
    exact ⟨here, edge, seen⟩

theorem mem_previous (here vertex : Nat) :
    here ∈ search.previous vertex ↔ Tight next search.depth here vertex := by
  classical
  rw [done.previous, List.mem_filter, decide_eq_true_eq]
  constructor
  · exact And.right
  · intro tight
    rcases tight.2 with ⟨layer, known, _⟩
    exact ⟨(mem_order done empty here).2 ⟨layer, known⟩, tight⟩

theorem nodup_previous (vertex : Nat) : (search.previous vertex).Nodup := by
  classical
  have once := done.once
  rw [empty, List.append_nil] at once
  rw [done.previous]
  exact once.filter _

include rows

/-- The search has counted the ways from the source. -/
theorem count_eq {vertex layer : Nat} (known : search.depth vertex = some layer) :
    search.count vertex = between next search.depth snapshot.vertices source vertex := by
  classical
  have all := layers done empty
  induction layer using Nat.strong_induction_on generalizing vertex with
  | _ layer ih =>
      have before : ∀ here ∈ search.previous vertex, search.count here =
          between next search.depth snapshot.vertices source here := by
        intro here member
        rcases ((mem_previous done empty here vertex).1 member).2 with ⟨other, seen, further⟩
        rw [known, Option.some_inj] at further
        exact ih other (by omega) seen
      rw [done.count, List.map_congr_left before]
      by_cases first : vertex = source
      · have noPrevious : search.previous vertex = [] := by
          apply List.eq_nil_iff_forall_not_mem.2
          intro here member
          rcases ((mem_previous done empty here vertex).1 member).2 with ⟨other, _, further⟩
          rw [(all.first vertex).2 first] at further
          cases further
        rw [if_pos first, noPrevious, first, between_self]
        simp
      · have listed : (search.previous vertex).toFinset =
            (Finset.range snapshot.vertices).filter fun here =>
              Tight next search.depth here vertex := by
          ext here
          rw [List.mem_toFinset, mem_previous done empty, Finset.mem_filter, Finset.mem_range]
          constructor
          · intro tight
            exact ⟨(rows.within tight.1).1, tight⟩
          · exact And.right
        rw [if_neg first, zero_add, ← List.sum_toFinset _ (nodup_previous done empty vertex),
          listed, between_source all (fun _ _ edge => rows.within edge) first known, Nat.cast_sum]

end Explored

end Explore

end StreamGraph.Betweenness
