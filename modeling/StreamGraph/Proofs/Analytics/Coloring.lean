import StreamGraph.Analytics.Coloring
import StreamGraph.Proofs.Snapshot

/-!
First-fit colours. The table of taken colours has one place more than there are neighbours, so one
of its places stays free, and no colour beyond it can be the least free one. That each vertex has
the least colour that no smaller vertex joined to it has determines all colours, one vertex after
the other; so neither the order of the edges nor their distribution matters.
-/

namespace StreamGraph.Coloring

/-- Each vertex has the least colour that no smaller vertex joined to it has. -/
def FirstFit (joined : Nat → Nat → Prop) (colors : List Nat) : Prop :=
  ∀ vertex color, colors[vertex]? = some color → IsLeast
    {free | ∀ smaller < vertex, joined smaller vertex → colors[smaller]? ≠ some free} color

section Table

variable {colors : Array Nat} {neighbors : List Nat}

theorem getElem?_foldl_mark (marks : List Nat) (table : Array Bool) (color : Nat) :
    (marks.foldl (fun table color => table.setIfInBounds color true) table)[color]? =
      table[color]?.map (· || decide (color ∈ marks)) := by
  induction marks generalizing table with
  | nil => simp
  | cons mark others ih =>
      rw [List.foldl_cons, ih, Array.getElem?_setIfInBounds]
      by_cases here : mark = color
      · subst here
        by_cases inside : mark < table.size
        · simp [inside]
        · simp [inside]
      · have apart : color ≠ mark := fun same => here same.symm
        simp [here, apart]

theorem getElem?_taken (colors : Array Nat) (neighbors : List Nat) (color : Nat) :
    (taken colors neighbors)[color]? = if color < neighbors.length + 1 then
      some (decide (∃ neighbor ∈ neighbors, colors[neighbor]? = some color)) else none := by
  rw [taken, getElem?_foldl_mark, Array.getElem?_replicate]
  simp only [List.mem_filterMap]
  split
  · simp
  · rfl

theorem size_taken : (taken colors neighbors).size = neighbors.length + 1 := by
  rw [taken, size_foldl (fun _ _ => Array.size_setIfInBounds), Array.size_replicate]

/-- There are more places in the table than neighbours that could mark them. -/
theorem exists_free (colors : Array Nat) (neighbors : List Nat) :
    ∃ color ≤ neighbors.length, ∀ neighbor ∈ neighbors, colors[neighbor]? ≠ some color := by
  have few : ((neighbors.filterMap fun neighbor => colors[neighbor]?).toFinset).card <
      (Finset.range (neighbors.length + 1)).card := by
    rw [Finset.card_range]
    apply Nat.lt_succ_of_le
    exact (List.toFinset_card_le _).trans (List.length_filterMap_le ..)
  rcases Finset.exists_mem_notMem_of_card_lt_card few with ⟨color, inside, free⟩
  use color
  constructor
  · exact Nat.le_of_lt_succ (Finset.mem_range.1 inside)
  · intro neighbor member same
    exact free (List.mem_toFinset.2 (List.mem_filterMap.2 ⟨neighbor, member, same⟩))

/-- The table shows a free colour, and it is the least of all that no neighbour has. -/
theorem firstFree_taken (colors : Array Nat) (neighbors : List Nat) :
    ∃ color, firstFree (taken colors neighbors) = some color ∧ color ≤ neighbors.length ∧
      IsLeast {free | ∀ neighbor ∈ neighbors, colors[neighbor]? ≠ some free} color := by
  have place : ∀ color (inside : color < (taken colors neighbors).size),
      (taken colors neighbors)[color] = true ↔
        ∃ neighbor ∈ neighbors, colors[neighbor]? = some color := by
    intro color inside
    have entry := getElem?_taken colors neighbors color
    rw [if_pos (size_taken ▸ inside), Array.getElem?_eq_getElem inside, Option.some_inj] at entry
    rw [entry, decide_eq_true_eq]
  rcases exists_free colors neighbors with ⟨other, small, free⟩
  have inTable : other < (taken colors neighbors).size := by
    rw [size_taken]
    exact Nat.lt_succ_of_le small
  cases first : firstFree (taken colors neighbors) with
  | none =>
      have marked := Array.findIdx?_eq_none_iff.1 first _ (Array.getElem_mem inTable)
      rw [Bool.not_eq_false'] at marked
      rcases (place other inTable).1 marked with ⟨neighbor, member, same⟩
      exact absurd same (free neighbor member)
  | some color =>
      rcases Array.findIdx?_eq_some_iff_getElem.1 first with ⟨inside, unmarked, before⟩
      use color
      constructor
      · rfl
      constructor
      · rw [size_taken] at inside
        exact Nat.le_of_lt_succ inside
      constructor
      · intro neighbor member same
        rw [(place color inside).2 ⟨neighbor, member, same⟩] at unmarked
        cases unmarked
      · intro lower lowerFree
        by_contra below
        have marked := before lower (Nat.lt_of_not_le below)
        rw [Bool.not_eq_true, Bool.not_eq_false'] at marked
        rcases (place lower _).1 marked with ⟨neighbor, member, same⟩
        exact lowerFree neighbor member same

end Table

section Rows

/-- The colours of some vertices, from which those of more vertices follow row by row. -/
structure Extends (colors : Array Nat) (rows : List (List Nat)) (last : Array Nat) : Prop where
  size : last.size = colors.size + rows.length
  kept : last.extract 0 colors.size = colors
  chosen (index : Nat) (row : List Nat) (found : rows[index]? = some row) :
    firstFree (taken (last.extract 0 (colors.size + index)) row) = last[colors.size + index]?

theorem extends_foldl (rows : List (List Nat)) (colors : Array Nat) :
    Extends colors rows (rows.foldl colorNext colors) := by
  induction rows generalizing colors with
  | nil =>
      constructor
      · rfl
      · simp
      · intro index row found
        cases found
  | cons row others ih =>
      have later := ih (colorNext colors row)
      rcases firstFree_taken colors row with ⟨color, first, _, _⟩
      have next : colorNext colors row = colors.push color := by
        rw [colorNext, first, Option.getD_some]
      rw [List.foldl_cons]
      rw [next] at later ⊢
      have behind := later.kept
      have size := later.size
      rw [Array.size_push] at behind size
      have before :
          (others.foldl colorNext (colors.push color)).extract 0 colors.size = colors := by
        have shorter := congrArg (fun table : Array Nat => table.extract 0 colors.size) behind
        simpa using shorter
      constructor
      · rw [size, List.length_cons]
        omega
      · exact before
      · intro index other found
        cases index with
        | zero =>
            cases found
            have here := congrArg (fun table : Array Nat => table[colors.size]?) behind
            simp only [Array.getElem?_push_size] at here
            rw [Nat.add_zero, before, first, ← here, Array.getElem?_extract]
            simp
        | succ index =>
            have chosen := later.chosen index other found
            rw [Array.size_push, Nat.add_right_comm] at chosen
            exact chosen

end Rows

section Edges

variable {vertices : Nat} {edges : List Edge}

/-- Two vertices are joined by some edge. -/
def Joined (edges : List Edge) (first second : Nat) : Prop :=
  ∃ edge ∈ edges, edge.Joins first second

instance (edges : List Edge) (first second : Nat) : Decidable (Joined edges first second) :=
  inferInstanceAs (Decidable (∃ _ ∈ _, _))

/-- The other vertices that edges join to a vertex. -/
def neighbours (vertices : Nat) (edges : List Edge) (vertex : Nat) : Finset Nat :=
  (Finset.range vertices).filter fun other => other ≠ vertex ∧ Joined edges other vertex

theorem length_run (vertices : Nat) (edges : List Edge) :
    (run (.ofEdges vertices edges)).length = vertices := by
  have size := (extends_foldl (Snapshot.ofEdges vertices edges).undirected #[]).size
  rw [Array.size_empty, Nat.zero_add, Snapshot.length_undirected] at size
  rw [run, Array.length_toList, size]

/-- Every vertex gets the colour that its table shows. -/
theorem firstFree_run {vertex : Nat} {row : List Nat}
    (found : (Snapshot.ofEdges vertices edges).undirected[vertex]? = some row) :
    firstFree (taken ((run (.ofEdges vertices edges)).take vertex).toArray row) =
      (run (.ofEdges vertices edges))[vertex]? := by
  have chosen := (extends_foldl (Snapshot.ofEdges vertices edges).undirected #[]).chosen
    vertex row found
  rw [Array.size_empty, Nat.zero_add] at chosen
  rw [run, Array.getElem?_toList, ← chosen]
  congr 2
  apply Array.toList_inj.1
  simp

/-- The colour of a vertex is the least that no smaller neighbour has, and no greater than the
number of its neighbours. -/
theorem isLeast_run (within : ∀ edge ∈ edges, edge.src.toNat < vertices) {vertex color : Nat}
    {row : List Nat} (found : (Snapshot.ofEdges vertices edges).undirected[vertex]? = some row)
    (colored : (run (.ofEdges vertices edges))[vertex]? = some color) :
    color ≤ row.length ∧ IsLeast {free | ∀ smaller < vertex, Joined edges smaller vertex →
      (run (.ofEdges vertices edges))[smaller]? ≠ some free} color := by
  rcases List.getElem?_eq_some_iff.1 found with ⟨inside, same⟩
  rcases firstFree_taken ((run (.ofEdges vertices edges)).take vertex).toArray row with
    ⟨least, first, small, isLeast⟩
  rw [firstFree_run found, colored, Option.some_inj] at first
  rw [← first] at small isLeast
  have members : ∀ other, other ∈ row ↔ other ≠ vertex ∧ Joined edges other vertex := by
    intro other
    rw [← same]
    exact Snapshot.mem_undirected inside within
  have allowed : {free | ∀ smaller < vertex, Joined edges smaller vertex →
      (run (.ofEdges vertices edges))[smaller]? ≠ some free} =
      {free | ∀ neighbor ∈ row,
        ((run (.ofEdges vertices edges)).take vertex).toArray[neighbor]? ≠ some free} := by
    ext free
    simp only [Set.mem_ofPred_eq, List.getElem?_toArray, List.getElem?_take, members]
    constructor
    · intro unused neighbor joined
      split
      · next below => exact unused neighbor below joined.2
      · exact (Option.some_ne_none free).symm
    · intro unused smaller below joined
      have other := unused smaller ⟨Nat.ne_of_lt below, joined⟩
      rw [if_pos below] at other
      exact other
  rw [allowed]
  exact ⟨small, isLeast⟩

theorem exists_row (edges : List Edge) {vertex : Nat} (inside : vertex < vertices) :
    ∃ row, (Snapshot.ofEdges vertices edges).undirected[vertex]? = some row := by
  rw [← Snapshot.length_undirected vertices edges] at inside
  exact ⟨_, List.getElem?_eq_getElem inside⟩

theorem lt_of_colored {vertex color : Nat}
    (colored : (run (.ofEdges vertices edges))[vertex]? = some color) : vertex < vertices := by
  rw [← length_run vertices edges]
  exact (List.getElem?_eq_some_iff.1 colored).1

theorem exists_colored (edges : List Edge) {vertex : Nat} (inside : vertex < vertices) :
    ∃ color, (run (.ofEdges vertices edges))[vertex]? = some color := by
  rw [← length_run vertices edges] at inside
  exact ⟨_, List.getElem?_eq_getElem inside⟩

theorem firstFit_run (within : ∀ edge ∈ edges, edge.src.toNat < vertices) :
    FirstFit (Joined edges) (run (.ofEdges vertices edges)) := by
  intro vertex color colored
  rcases exists_row edges (lt_of_colored colored) with ⟨row, found⟩
  exact (isLeast_run within found colored).2

/-- The least free colour is no greater than the number of neighbours. -/
theorem color_le (within : ∀ edge ∈ edges, edge.src.toNat < vertices ∧ edge.dst.toNat < vertices)
    {vertex color : Nat} (colored : (run (.ofEdges vertices edges))[vertex]? = some color) :
    color ≤ (neighbours vertices edges vertex).card := by
  have leaves : ∀ edge ∈ edges, edge.src.toNat < vertices := fun edge given => (within edge given).1
  rcases exists_row edges (lt_of_colored colored) with ⟨row, found⟩
  apply (isLeast_run leaves found colored).1.trans
  rcases List.getElem?_eq_some_iff.1 found with ⟨inside, same⟩
  have nodup : row.Nodup := by
    rw [← same]
    exact Snapshot.nodup_undirected inside
  rw [← List.toFinset_card_of_nodup nodup]
  apply Finset.card_le_card
  intro other member
  rw [List.mem_toFinset, ← same, Snapshot.mem_undirected inside leaves] at member
  rcases member.2 with ⟨edge, given, joins⟩
  rw [neighbours, Finset.mem_filter, Finset.mem_range]
  constructor
  · rcases joins with ends | ends
    · rw [← ends.1]
      exact (within edge given).1
    · rw [← ends.2]
      exact (within edge given).2
  · exact member

theorem colored_zero
    (within : ∀ edge ∈ edges, edge.src.toNat < vertices ∧ edge.dst.toNat < vertices) {vertex : Nat}
    (inside : vertex < vertices) (alone : neighbours vertices edges vertex = ∅) :
    (run (.ofEdges vertices edges))[vertex]? = some 0 := by
  rcases exists_colored edges inside with ⟨color, colored⟩
  have small := color_le within colored
  rw [alone, Finset.card_empty] at small
  rw [colored, Nat.le_zero.1 small]

/-- Each table shows a colour, so none is made up. -/
theorem exists_firstFree {vertex : Nat} {row : List Nat}
    (found : (Snapshot.ofEdges vertices edges).undirected[vertex]? = some row) :
    ∃ color, firstFree (taken ((run (.ofEdges vertices edges)).take vertex).toArray row) =
      some color ∧ (run (.ofEdges vertices edges))[vertex]? = some color := by
  have inside := (List.getElem?_eq_some_iff.1 found).1
  rw [Snapshot.length_undirected] at inside
  rcases exists_colored edges inside with ⟨color, colored⟩
  exact ⟨color, (firstFree_run found).trans colored, colored⟩

end Edges

namespace FirstFit

variable {joined : Nat → Nat → Prop} {colors : List Nat}

/-- Of two vertices that are joined, the greater one avoids the colour of the smaller one. -/
theorem proper (fit : FirstFit joined colors)
    (symmetric : ∀ first second, joined first second → joined second first) {first second : Nat}
    (apart : first ≠ second) (inside : first < colors.length ∧ second < colors.length)
    (both : joined first second) : colors[first]? ≠ colors[second]? := by
  intro same
  rcases Nat.lt_or_gt_of_ne apart with less | more
  · have found := List.getElem?_eq_getElem inside.2
    exact (fit second _ found).1 first less both (same.trans found)
  · have found := List.getElem?_eq_getElem inside.1
    exact (fit first _ found).1 second more (symmetric _ _ both) (same.symm.trans found)

/-- Each colour is determined by the colours of smaller vertices. -/
theorem unique {others : List Nat} (fit : FirstFit joined colors) (other : FirstFit joined others)
    (length : colors.length = others.length) : colors = others := by
  apply List.ext_getElem?
  intro vertex
  induction vertex using Nat.strong_induction_on with
  | _ vertex ih =>
      by_cases inside : vertex < colors.length
      · have left := List.getElem?_eq_getElem inside
        have right := List.getElem?_eq_getElem (length ▸ inside)
        have first := fit vertex _ left
        have second := other vertex _ right
        have allowed : {free | ∀ smaller < vertex, joined smaller vertex →
            colors[smaller]? ≠ some free} = {free | ∀ smaller < vertex, joined smaller vertex →
            others[smaller]? ≠ some free} := by
          ext free
          apply forall₂_congr
          intro smaller below
          rw [ih smaller below]
        rw [allowed] at first
        rw [left, right, first.unique second]
      · rw [List.getElem?_eq_none (Nat.le_of_not_lt inside),
          List.getElem?_eq_none (length ▸ Nat.le_of_not_lt inside)]

theorem congr (fit : FirstFit joined colors) {other : Nat → Nat → Prop}
    (same : ∀ first second, joined first second ↔ other first second) :
    FirstFit other colors := by
  have equal : joined = other := by
    funext first second
    exact propext (same first second)
  rw [← equal]
  exact fit

end FirstFit

/-- It is enough to look at the colours below the one that a vertex has. -/
theorem firstFit_iff (joined : Nat → Nat → Prop) (colors : List Nat) :
    FirstFit joined colors ↔ ∀ vertex < colors.length,
      (∀ smaller < vertex, joined smaller vertex → colors[smaller]? ≠ colors[vertex]?) ∧
      ∀ lower < colors.getD vertex 0, ∃ smaller < vertex, joined smaller vertex ∧
        colors[smaller]? = some lower := by
  constructor
  · intro fit vertex inside
    have found := List.getElem?_eq_getElem inside
    have least := fit vertex _ found
    rw [List.getD_eq_getElem?_getD, found, Option.getD_some]
    constructor
    · exact least.1
    · intro lower below
      by_contra noSmaller
      apply Nat.not_le_of_lt below
      apply least.2
      intro smaller before both same
      exact noSmaller ⟨smaller, before, both, same⟩
  · intro looks vertex color found
    have looked := looks vertex (List.getElem?_eq_some_iff.1 found).1
    rw [List.getD_eq_getElem?_getD, found, Option.getD_some] at looked
    constructor
    · exact looked.1
    · intro lower free
      by_contra below
      rcases looked.2 lower (Nat.lt_of_not_le below) with ⟨smaller, before, both, same⟩
      exact free smaller before both same

section Edges

variable {vertices : Nat} {edges : List Edge}

theorem run_apart
    (within : ∀ edge ∈ edges, edge.src.toNat < vertices ∧ edge.dst.toNat < vertices) {edge : Edge}
    (given : edge ∈ edges) (apart : edge.src ≠ edge.dst) :
    (run (.ofEdges vertices edges))[edge.src.toNat]? ≠
      (run (.ofEdges vertices edges))[edge.dst.toNat]? := by
  apply (firstFit_run fun other member => (within other member).1).proper
  · intro first second both
    rcases both with ⟨other, member, joins⟩
    exact ⟨other, member, joins.symm⟩
  · intro same
    exact apart (UInt64.toNat_inj.1 same)
  · rw [length_run]
    exact within edge given
  · exact ⟨edge, given, Or.inl ⟨rfl, rfl⟩⟩

/-- The order of the edges does not matter. -/
theorem run_eq_of_perm (within : ∀ edge ∈ edges, edge.src.toNat < vertices) {others : List Edge}
    (perm : edges.Perm others) :
    run (.ofEdges vertices others) = run (.ofEdges vertices edges) := by
  have same : ∀ edge, edge ∈ others ↔ edge ∈ edges := fun edge => perm.mem_iff.symm
  have other : FirstFit (Joined edges) (run (.ofEdges vertices others)) := by
    apply (firstFit_run fun edge given => within edge ((same edge).1 given)).congr
    intro first second
    unfold Joined
    simp only [same]
  apply other.unique (firstFit_run within)
  rw [length_run, length_run]

end Edges

/-- The greedy colours are the first-fit colours of every list of edges, in whatever order and
however often these are given, and all groups that hold a graph settle with those of its edges. -/
theorem greedy_colours_fit_first :
    (∀ (vertices : Nat) (edges : List Edge),
      (∀ edge ∈ edges, edge.src.toNat < vertices ∧ edge.dst.toNat < vertices) →
      ∃ colors, run (.ofEdges vertices edges) = colors ∧ colors.length = vertices ∧
        FirstFit (Joined edges) colors ∧
        (∀ edge ∈ edges, edge.src ≠ edge.dst →
          colors[edge.src.toNat]? ≠ colors[edge.dst.toNat]?) ∧
        (∀ vertex color, colors[vertex]? = some color →
          color ≤ (neighbours vertices edges vertex).card) ∧
        (∀ vertex < vertices, neighbours vertices edges vertex = ∅ → colors[vertex]? = some 0) ∧
        (∀ vertex row, (Snapshot.ofEdges vertices edges).undirected[vertex]? = some row →
          ∃ color, firstFree (taken (colors.take vertex).toArray row) = some color ∧
            colors[vertex]? = some color) ∧
        ∀ others, edges.Perm others → run (.ofEdges vertices others) = colors) ∧
    ∀ graph : Shard, graph.edgeCount * 32 < UInt64.size → graph.bound.toNat * 8 < UInt64.size →
      graph.SettlesEverywhere (fun scan => return run (← Snapshot.gatherAlong scan))
        (run (.ofEdges graph.bound.toNat graph.edges)) := by
  constructor
  · intro vertices edges within
    have leaves : ∀ edge ∈ edges, edge.src.toNat < vertices :=
      fun edge given => (within edge given).1
    use run (.ofEdges vertices edges)
    constructor
    · rfl
    constructor
    · exact length_run vertices edges
    constructor
    · exact firstFit_run leaves
    constructor
    · intro edge given apart
      exact run_apart within given apart
    constructor
    · intro vertex color colored
      exact color_le within colored
    constructor
    · intro vertex inside alone
      exact colored_zero within inside alone
    constructor
    · intro vertex row found
      exact exists_firstFree found
    · intro others perm
      exact run_eq_of_perm leaves perm
  · intro graph edges _ size partition parts hosted scans
    have gathered := hosted.together_gatherAlong edges scans
    have colors : Collective.Together
        (fun rank => return run (← Snapshot.gatherAlong (scans rank)))
        fun _ => .ok (run (.ofEdges graph.bound.toNat graph.edges)) :=
      Collective.together_bind gathered (Collective.together_pure _)
    exact Plan.lockstep_settles hosted.inhabited colors

open Shard in
theorem islands_are_coloured :
    run (.ofEdges 7 (islandEdges ++ [⟨3, 1, 1, 0⟩, ⟨4, 4, 1, 0⟩, ⟨5, 6, 0, 0⟩])) =
      [0, 0, 1, 2, 0, 0, 1] ∧
    (Plan.group fun rank : Fin 3 => (do
      return run (← Snapshot.gather (twoIslands.cut (.cyclic 3) rank)) :
        Collective (List Nat)).run).Settles (List.ofFn fun _ : Fin 3 =>
          .ok [0, 0, 1, 2, 0, 0, 1]) := by
  rcases greedy_colours_fit_first with ⟨anyEdges, everywhere⟩
  have colours : ∀ edges : List Edge,
      (∀ edge ∈ edges, edge.src.toNat < 7 ∧ edge.dst.toNat < 7) →
      FirstFit (Joined edges) [0, 0, 1, 2, 0, 0, 1] →
      run (.ofEdges 7 edges) = [0, 0, 1, 2, 0, 0, 1] := by
    intro edges within fit
    rcases anyEdges 7 edges within with ⟨colors, same, length, first, _⟩
    rw [same]
    exact first.unique fit length
  constructor
  · exact colours _ (by decide) ((firstFit_iff ..).2 (by decide))
  · have settles := everywhere twoIslands (by decide) (by decide) 3 _ _ hosted_threeCyclic
      fun _ => .ascending _
    have all := colours twoIslands.edges (by decide) ((firstFit_iff ..).2 (by decide))
    have bound : twoIslands.bound.toNat = 7 := rfl
    rw [bound, all] at settles
    exact settles

end StreamGraph.Coloring
