import StreamGraph.Proofs.Analytics.Betweenness.Dependencies
import StreamGraph.Proofs.Analytics.Betweenness.Search
import StreamGraph.Proofs.Analytics.Stages

/-!
The way back. From the last vertex taken to the first, each vertex hands its share on to those
before it. The vertices after a vertex all stand behind it in the order of the search; so its own
share is complete when its turn comes, and is what it carries of the paths from the source.
-/

namespace StreamGraph.Betweenness

variable {next : Nat → Nat → Prop} {source vertices : Nat} {depth : Nat → Option Nat}

open Classical in
/-- What some vertices have handed back to one before them. -/
noncomputable def handed (next : Nat → Nat → Prop) (depth : Nat → Option Nat)
    (vertices source : Nat) (done : List Nat) (vertex : Nat) : ℚ :=
  ((done.filter fun there => Tight next depth vertex there).map
    (due next depth vertices source vertex)).sum

open Classical in
theorem handed_cons (there : Nat) (done : List Nat) (vertex : Nat) :
    handed next depth vertices source (there :: done) vertex =
      handed next depth vertices source done vertex +
        if Tight next depth vertex there then due next depth vertices source vertex there
        else 0 := by
  unfold handed
  rw [List.filter_cons]
  by_cases further : Tight next depth vertex there
  · simp [further, add_comm]
  · simp [further]

/-- A vertex has all that it carries when all vertices after it have handed their shares back. -/
theorem handed_eq (layers : Layers next source depth)
    (within : ∀ here there, next here there → here < vertices ∧ there < vertices)
    {vertex layer : Nat} {done : List Nat} (known : depth vertex = some layer)
    (once : done.Nodup) (after : ∀ there, Tight next depth vertex there → there ∈ done) :
    handed next depth vertices source done vertex =
      dependency next depth vertices source vertex := by
  classical
  have listed : (done.filter fun there => Tight next depth vertex there).toFinset =
      (Finset.range vertices).filter fun there => Tight next depth vertex there := by
    ext there
    rw [List.mem_toFinset, List.mem_filter, Finset.mem_filter, Finset.mem_range,
      decide_eq_true_eq]
    constructor
    · intro member
      exact ⟨(within _ _ member.2.1).2, member.2⟩
    · intro member
      exact ⟨after there member.2, member.2⟩
  rw [dependency_eq layers within known, handed, ← List.sum_toFinset _ (once.filter _), listed]

section HandBack

variable {search : Search ℚ} {target : Nat}

theorem size_handBack (search : Search ℚ) (shares : Array ℚ) (target : Nat) :
    (handBack search shares target).size = shares.size :=
  size_foldl (fun _ _ => size_addAt ..) ..

/-- No vertex is before itself, so its share stays as it is while it is handed on. -/
theorem handBack_eq (later : target ∉ search.previous target) (shares : Array ℚ)
    (inside : target < shares.size) : handBack search shares target =
      (search.previous target).foldl (fun handed source => addAt handed source
        (search.count source / search.count target * (1 + shares.getD target 0))) shares := by
  suffices run : ∀ (sources : List Nat) (handed : Array ℚ), target ∉ sources →
      target < handed.size → handed.getD target 0 = shares.getD target 0 →
      sources.foldl (fun handed source => addAt handed source (search.paths.getD source 0 /
        search.paths.getD target 0 * (1 + handed.getD target 0))) handed =
      sources.foldl (fun handed source => addAt handed source
        (search.count source / search.count target * (1 + shares.getD target 0))) handed from
    run _ shares later inside rfl
  intro sources
  induction sources with
  | nil =>
      intro handed _ _ _
      rfl
  | cons source others ih =>
      intro handed apart within same
      rw [List.foldl_cons, List.foldl_cons, same]
      apply ih
      · exact fun member => apart (List.mem_cons_of_mem _ member)
      · rw [size_addAt]
        exact within
      · rw [getD_addAt _ _ _ within, if_neg, add_zero, same]
        intro equal
        exact apart (equal ▸ List.mem_cons_self ..)

theorem getD_handBack (later : target ∉ search.previous target)
    (once : (search.previous target).Nodup) {shares : Array ℚ} (inside : target < shares.size)
    {vertex : Nat} (within : vertex < shares.size) : (handBack search shares target).getD vertex 0 =
      shares.getD vertex 0 + if vertex ∈ search.previous target then
        search.count vertex / search.count target * (1 + shares.getD target 0) else 0 := by
  rw [handBack_eq later shares inside, getD_foldl_addAt_once
    (fun source => search.count source / search.count target * (1 + shares.getD target 0)) once
    shares within]

end HandBack

namespace Explored

variable {snapshot : Snapshot} {order : List Nat} {search : Search ℚ}
  (rows : Rows next snapshot) (done : Explored next snapshot.vertices source order search)
  (empty : search.queue = [])

include done empty

theorem nodup_order : order.Nodup := by
  have once := done.once
  rw [empty, List.append_nil] at once
  exact once

/-- The vertices after a vertex stand behind it in the order of the search. -/
theorem behind {front back : List Nat} {here there : Nat} (split : order = front ++ here :: back)
    (further : Tight next search.depth here there) : there ∈ back := by
  rcases further.2 with ⟨layer, known, seen⟩
  have listed := (mem_order done empty there).2 ⟨_, seen⟩
  have rising := done.rising
  rw [empty, List.append_nil, split, List.pairwise_append] at rising
  rw [split, List.mem_append, List.mem_cons] at listed
  rcases listed with before | same | after
  · have low := rising.2.2 there before here (List.mem_cons_self ..)
    rw [level_eq seen, level_eq known] at low
    omega
  · rw [same, known, Option.some_inj] at seen
    omega
  · exact after

/-- A vertex is not before itself. -/
theorem notMem_previous (vertex : Nat) : vertex ∉ search.previous vertex := by
  intro member
  rcases ((mem_previous done empty vertex vertex).1 member).2 with ⟨layer, low, high⟩
  rw [low, Option.some_inj] at high
  omega

include rows

open Classical in
/-- A vertex whose share is complete hands on what each vertex before it is to have of it. -/
theorem getD_handBack_complete {target : Nat} (taken : target ∈ order) {shares : Array ℚ}
    (sized : shares.size = snapshot.vertices) (complete : shares.getD target 0 =
      dependency next search.depth snapshot.vertices source target)
    {vertex : Nat} (inside : vertex < snapshot.vertices) :
    (handBack search shares target).getD vertex 0 = shares.getD vertex 0 +
      if Tight next search.depth vertex target then
        due next search.depth snapshot.vertices source vertex target else 0 := by
  rcases (mem_order done empty target).1 taken with ⟨layer, known⟩
  have place := Search.lt_of_depth done.sized known
  rw [← sized] at place inside
  rw [getD_handBack (notMem_previous done empty target) (nodup_previous done empty target) place
    inside, complete]
  congr 1
  by_cases before : Tight next search.depth vertex target
  · rcases before.2 with ⟨other, seen, _⟩
    rw [if_pos ((mem_previous done empty vertex target).2 before), if_pos before,
      count_eq rows done empty seen, count_eq rows done empty known, due]
  · rw [if_neg (mt (mem_previous done empty vertex target).1 before), if_neg before]

/-- When the turn of a vertex comes, all vertices after it have had theirs. -/
theorem handed_behind {front back : List Nat} {target : Nat}
    (split : order = front ++ target :: back) :
    handed next search.depth snapshot.vertices source back target =
      dependency next search.depth snapshot.vertices source target := by
  have once := nodup_order done empty
  rw [split] at once
  rcases (mem_order done empty target).1 (by rw [split]; simp) with ⟨layer, known⟩
  apply handed_eq (layers done empty) (fun _ _ edge => rows.within edge) known
  · exact (List.nodup_cons.1 (List.nodup_append.1 once).2.1).2
  · intro there further
    exact behind done empty split further

/-- On the way back, each vertex has what those after it have handed to it. -/
theorem getD_shares {back : List Nat} (suffix : back <:+ order) {vertex : Nat}
    (inside : vertex < snapshot.vertices) :
    (back.reverse.foldl (handBack search) (Array.replicate snapshot.vertices 0)).getD vertex 0 =
      handed next search.depth snapshot.vertices source back vertex := by
  induction back generalizing vertex with
  | nil =>
      rw [List.reverse_nil, List.foldl_nil, getD_replicate]
      rfl
  | cons target rest ih =>
      rcases suffix with ⟨front, split⟩
      have later : rest <:+ order := ⟨front ++ [target], by simpa using split⟩
      have taken : target ∈ order := by
        rw [← split]
        simp
      have sized : (rest.reverse.foldl (handBack search)
          (Array.replicate snapshot.vertices 0)).size = snapshot.vertices := by
        rw [size_foldl (size_handBack search), Array.size_replicate]
      have complete : (rest.reverse.foldl (handBack search)
          (Array.replicate snapshot.vertices 0)).getD target 0 =
            dependency next search.depth snapshot.vertices source target := by
        rcases (mem_order done empty target).1 taken with ⟨layer, known⟩
        rw [ih later (Search.lt_of_depth done.sized known),
          handed_behind rows done empty split.symm]
      rw [List.reverse_cons, List.foldl_append, List.foldl_cons, List.foldl_nil,
        getD_handBack_complete rows done empty taken sized complete inside, ih later inside,
        handed_cons]

/-- At the end of the way back, each vertex that has been reached has what it carries. -/
theorem getD_shares_order {vertex : Nat} (taken : vertex ∈ order) :
    (order.reverse.foldl (handBack search) (Array.replicate snapshot.vertices 0)).getD vertex 0 =
      dependency next search.depth snapshot.vertices source vertex := by
  rcases (mem_order done empty vertex).1 taken with ⟨layer, known⟩
  rw [getD_shares rows done empty (List.suffix_refl order) (Search.lt_of_depth done.sized known)]
  apply handed_eq (layers done empty) (fun _ _ edge => rows.within edge) known
    (nodup_order done empty)
  intro there further
  rcases further.2 with ⟨_, _, seen⟩
  exact (mem_order done empty there).2 ⟨_, seen⟩

end Explored

section Totals

variable {snapshot : Snapshot} (rows : Rows next snapshot)

/-- What is added to the totals of a search: the share of each vertex that was reached. -/
theorem getD_foldl_totals {order : List Nat} (once : order.Nodup) (amount : Nat → ℚ)
    (source : Nat) (totals : Array ℚ) {vertex : Nat} (inside : vertex < totals.size) :
    (order.foldl (fun totals vertex =>
      if vertex = source then totals else addAt totals vertex (amount vertex)) totals).getD
        vertex 0 = totals.getD vertex 0 +
      if vertex ∈ order ∧ vertex ≠ source then amount vertex else 0 := by
  have skip : (fun (totals : Array ℚ) (vertex : Nat) =>
      if vertex = source then totals else addAt totals vertex (amount vertex)) =
      fun totals vertex => if decide (vertex ≠ source) = true then
        addAt totals vertex (amount vertex) else totals := by
    funext totals vertex
    by_cases same : vertex = source
    · simp [same]
    · simp [same]
  rw [skip, ← List.foldl_filter, getD_foldl_addAt_once amount (once.filter _) totals inside]
  simp only [List.mem_filter, decide_eq_true_eq]

include rows

/-- A search adds to each vertex but its source what it carries of the paths from there. -/
theorem getD_accumulate {source : Nat} (start : source < snapshot.vertices) (totals : Array ℚ)
    {vertex : Nat} (inside : vertex < totals.size) :
    (accumulate snapshot totals source).getD vertex 0 = totals.getD vertex 0 +
      if vertex = source then 0 else carriedFrom next snapshot.vertices source vertex := by
  have begun : Explored next snapshot.vertices source [] (Betweenness.start _ source) :=
    explored_start start
  rcases begun.explore rows (Nat.le_add_right _ _) with ⟨order, search, run, done, empty⟩
  rw [List.nil_append] at done
  have within : ∀ here there, next here there →
      here < snapshot.vertices ∧ there < snapshot.vertices := fun _ _ edge => rows.within edge
  have all := Explored.layers done empty
  have once : order.reverse.Nodup := List.nodup_reverse.2 (Explored.nodup_order done empty)
  unfold accumulate
  rw [run]
  dsimp only
  rw [getD_foldl_totals once _ source totals inside]
  simp only [List.mem_reverse]
  congr 1
  by_cases same : vertex = source
  · simp [same]
  · by_cases taken : vertex ∈ order
    · rcases (Explored.mem_order done empty vertex).1 taken with ⟨layer, known⟩
      rw [if_pos ⟨taken, same⟩, if_neg same, carriedFrom_eq all within same known,
        Explored.getD_shares_order rows done empty taken]
    · have beyond : search.depth vertex = none := by
        apply Option.eq_none_iff_forall_ne_some.2
        intro layer known
        exact taken ((Explored.mem_order done empty vertex).2 ⟨layer, known⟩)
      rw [if_neg fun both => taken both.1, if_neg same, carriedFrom_beyond all beyond]

/-- After some searches, each vertex has in addition what it carries of the paths from their
sources. -/
theorem getD_foldl_accumulate {sources : List Nat}
    (starts : ∀ source ∈ sources, source < snapshot.vertices) (totals : Array ℚ) {vertex : Nat}
    (inside : vertex < totals.size) :
    (sources.foldl (accumulate snapshot) totals).getD vertex 0 =
      totals.getD vertex 0 + betweenness next snapshot.vertices sources vertex := by
  induction sources generalizing totals with
  | nil => simp [betweenness]
  | cons source others ih =>
      have later := ih (fun other member => starts other (List.mem_cons_of_mem _ member))
        (accumulate snapshot totals source) ((size_accumulate snapshot totals source).symm ▸ inside)
      rw [List.foldl_cons, later,
        getD_accumulate rows (starts source (List.mem_cons_self ..)) totals
        inside, add_assoc, betweenness_cons]

theorem toList_fromSources {sources : List Nat}
    (starts : ∀ source ∈ sources, source < snapshot.vertices) :
    (fromSources snapshot sources).toList =
      (List.range snapshot.vertices).map (betweenness next snapshot.vertices sources) := by
  have size : (fromSources snapshot sources : Array ℚ).size = snapshot.vertices := by
    rw [← Array.length_toList, length_fromSources]
  rw [toList_eq_map _ 0, size]
  apply List.map_congr_left
  intro vertex member
  have inside : vertex < (Array.replicate snapshot.vertices (0 : ℚ)).size := by
    rw [Array.size_replicate]
    exact List.mem_range.1 member
  rw [fromSources, getD_foldl_accumulate rows starts _ inside, getD_replicate, zero_add]

end Totals

end StreamGraph.Betweenness
