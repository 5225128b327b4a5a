import Mathlib.Algebra.BigOperators.Ring.Finset
import Mathlib.Data.Set.Card

/-!
Shortest paths. Where each vertex is known to lie so many steps from a source, the shortest paths
from the source are those that go one layer further with every step. Such paths are counted step by
step, from the front or from the back, and those through a vertex by their two parts: the vertex
stands on all of them at the place that its layer says.
-/

namespace StreamGraph.Betweenness

/-- The vertices of a path, from the first to the last. -/
inductive Path (next : Nat → Nat → Prop) : Nat → Nat → List Nat → Prop
  | stop (vertex : Nat) : Path next vertex vertex [vertex]
  | step {first second last : Nat} {path : List Nat} (edge : next first second)
      (rest : Path next second last path) : Path next first last (first :: path)

def Reaches (next : Nat → Nat → Prop) (source target : Nat) : Prop :=
  ∃ path, Path next source target path

/-- The paths with the fewest vertices. -/
def shortest (next : Nat → Nat → Prop) (source target : Nat) : Set (List Nat) :=
  {path | Path next source target path ∧
    ∀ other, Path next source target other → path.length ≤ other.length}

section Walks

open Classical in
/-- The paths of so many steps. -/
noncomputable def walks (step : Nat → Nat → Prop) (vertices : Nat) :
    Nat → Nat → Nat → Finset (List Nat)
  | 0, source, target => if source = target then {[source]} else ∅
  | steps + 1, source, target =>
      ((Finset.range vertices).filter (step source)).biUnion fun second =>
        (walks step vertices steps second target).image (source :: ·)

/-- The number of paths of so many steps. -/
noncomputable def ways (step : Nat → Nat → Prop) (vertices steps source target : Nat) : Nat :=
  (walks step vertices steps source target).card

variable {step : Nat → Nat → Prop} {vertices : Nat}

theorem mem_walks (within : ∀ first second, step first second → second < vertices)
    (steps source target : Nat) (path : List Nat) :
    path ∈ walks step vertices steps source target ↔
      Path step source target path ∧ path.length = steps + 1 := by
  induction steps generalizing source path with
  | zero =>
      rw [walks]
      constructor
      · intro member
        split at member
        · next same =>
            rw [Finset.mem_singleton.1 member, same]
            exact ⟨.stop target, rfl⟩
        · exact absurd member (Finset.notMem_empty _)
      · intro walk
        rcases walk with ⟨walk, short⟩
        cases walk with
        | stop vertex =>
            rw [if_pos rfl]
            exact Finset.mem_singleton_self _
        | step edge rest => cases rest <;> cases short
  | succ steps ih =>
      rw [walks]
      simp only [Finset.mem_biUnion, Finset.mem_filter, Finset.mem_range, Finset.mem_image, ih]
      constructor
      · intro member
        rcases member with ⟨second, edge, rest, walk, same⟩
        rw [← same]
        exact ⟨.step edge.2 walk.1, congrArg (· + 1) walk.2⟩
      · intro walk
        rcases walk with ⟨walk, long⟩
        cases walk with
        | stop vertex => cases long
        | step edge rest =>
            exact ⟨_, ⟨within _ _ edge, edge⟩, _, ⟨rest, Nat.succ.inj long⟩, rfl⟩

theorem head_of_mem_walks {steps source target : Nat} {path : List Nat}
    (member : path ∈ walks step vertices steps source target) : path.head? = some source := by
  cases steps with
  | zero =>
      rw [walks] at member
      split at member
      · rw [Finset.mem_singleton.1 member]
        rfl
      · exact absurd member (Finset.notMem_empty _)
  | succ steps =>
      rw [walks] at member
      simp only [Finset.mem_biUnion, Finset.mem_image] at member
      rcases member with ⟨_, _, rest, _, same⟩
      rw [← same]
      rfl

/-- Paths that go on over different vertices are different. -/
theorem disjoint_walks (steps source target : Nat) (seconds : Finset Nat) :
    (seconds : Set Nat).PairwiseDisjoint fun second =>
      (walks step vertices steps second target).image (source :: ·) := by
  intro left _ right _ apart
  rw [Function.onFun, Finset.disjoint_left]
  intro path inLeft inRight
  rcases Finset.mem_image.1 inLeft with ⟨first, firstMember, same⟩
  rcases Finset.mem_image.1 inRight with ⟨second, secondMember, other⟩
  have rests : first = second := (List.cons.inj (same.trans other.symm)).2
  have heads := (head_of_mem_walks firstMember).symm.trans
    (rests ▸ head_of_mem_walks secondMember)
  exact apart (Option.some.inj heads)

theorem ways_zero (source target : Nat) :
    ways step vertices 0 source target = if source = target then 1 else 0 := by
  rw [ways, walks]
  split <;> rfl

open Classical in
/-- A path is counted by its second vertex. -/
theorem ways_succ (steps source target : Nat) : ways step vertices (steps + 1) source target =
    ∑ second ∈ Finset.range vertices with step source second,
      ways step vertices steps second target := by
  rw [ways, walks, Finset.card_biUnion]
  · apply Finset.sum_congr rfl
    intro second _
    exact Finset.card_image_of_injective _ (List.cons_injective)
  · intro left inLeft right inRight apart
    exact disjoint_walks steps source target _ inLeft inRight apart

open Classical in
/-- A path is counted by its last vertex but one. -/
theorem ways_succ_last
    (within : ∀ first second, step first second → first < vertices ∧ second < vertices)
    (steps source target : Nat) : ways step vertices (steps + 1) source target =
    ∑ before ∈ Finset.range vertices with step before target,
      ways step vertices steps source before := by
  induction steps generalizing source with
  | zero =>
      rw [ways_succ]
      simp only [ways_zero, Finset.sum_ite_eq, Finset.sum_ite_eq', Finset.mem_filter,
        Finset.mem_range]
      by_cases edge : step source target
      · simp [edge, within _ _ edge]
      · simp [edge]
  | succ steps ih =>
      rw [ways_succ]
      simp only [ih]
      rw [Finset.sum_comm]
      apply Finset.sum_congr rfl
      intro before _
      rw [ways_succ]

open Classical in
/-- The paths that have a vertex at some place are made of a path to it and a path from it. -/
theorem card_walks_through (before after source target vertex : Nat) :
    ((walks step vertices (before + after) source target).filter fun path =>
      path[before]? = some vertex).card =
        ways step vertices before source vertex * ways step vertices after vertex target := by
  induction before generalizing source with
  | zero =>
      rw [ways_zero, Nat.zero_add]
      by_cases same : source = vertex
      · rw [if_pos same, Nat.one_mul, ways, Finset.filter_true_of_mem, same]
        intro path member
        rw [← List.head?_eq_getElem?, head_of_mem_walks member, same]
      · rw [if_neg same, Nat.zero_mul, Finset.card_eq_zero, Finset.filter_eq_empty_iff]
        intro path member here
        rw [← List.head?_eq_getElem?, head_of_mem_walks member] at here
        exact same (Option.some.inj here)
  | succ before ih =>
      have longer : before + 1 + after = before + after + 1 := Nat.add_right_comm ..
      rw [longer, walks, Finset.filter_biUnion, Finset.card_biUnion, ways_succ, Finset.sum_mul]
      · apply Finset.sum_congr rfl
        intro second _
        rw [← ih second, Finset.filter_image, Finset.card_image_of_injective _ List.cons_injective]
        rfl
      · intro left inLeft right inRight apart
        apply Finset.disjoint_filter_filter
        exact disjoint_walks (before + after) source target _ inLeft inRight apart

end Walks

section Layers

variable {next : Nat → Nat → Prop} {source target : Nat} {depth : Nat → Option Nat}

/-- How many steps each vertex lies from a source, if any path leads to it: an edge leads at most
one layer further, and to each layer but the first some edge leads from the layer before. -/
structure Layers (next : Nat → Nat → Prop) (source : Nat) (depth : Nat → Option Nat) : Prop where
  first (vertex : Nat) : depth vertex = some 0 ↔ vertex = source
  onward {here there layer : Nat} (edge : next here there) (known : depth here = some layer) :
    ∃ other ≤ layer + 1, depth there = some other
  before {vertex layer : Nat} (known : depth vertex = some (layer + 1)) :
    ∃ here, next here vertex ∧ depth here = some layer

/-- An edge that leads one layer further. -/
def Tight (next : Nat → Nat → Prop) (depth : Nat → Option Nat) (here there : Nat) : Prop :=
  next here there ∧ ∃ layer, depth here = some layer ∧ depth there = some (layer + 1)

/-- A path leads no further than it has steps. -/
theorem Path.depth_le (layers : Layers next source depth) {here layer : Nat} {path : List Nat}
    (walk : Path next here target path) (known : depth here = some layer) :
    ∃ other, depth target = some other ∧ other + 1 ≤ layer + path.length := by
  induction walk generalizing layer with
  | stop vertex => exact ⟨layer, known, Nat.le_refl _⟩
  | step edge rest ih =>
      rcases layers.onward edge known with ⟨middle, near, reached⟩
      rcases ih reached with ⟨other, last, few⟩
      rw [List.length_cons]
      exact ⟨other, last, by omega⟩

/-- A path of edges that lead one layer further stands in each layer at the place of that layer. -/
theorem Path.getElem?_tight {here layer : Nat} {path : List Nat}
    (walk : Path (Tight next depth) here target path) (known : depth here = some layer) :
    (∀ place vertex, path[place]? = some vertex → depth vertex = some (layer + place)) ∧
      depth target = some (layer + (path.length - 1)) := by
  induction walk generalizing layer with
  | stop vertex =>
      constructor
      · intro place other found
        rcases List.getElem?_eq_some_iff.1 found with ⟨inside, same⟩
        have first : place = 0 := Nat.lt_one_iff.1 inside
        subst first
        rw [← same]
        exact known
      · exact known
  | @step first second last path edge rest ih =>
      rcases edge.2 with ⟨level, here, there⟩
      rw [known, Option.some_inj] at here
      rw [← here] at there
      rcases ih there with ⟨places, final⟩
      constructor
      · intro place vertex found
        cases place with
        | zero =>
            rw [List.getElem?_cons_zero, Option.some_inj] at found
            rw [← found]
            exact known
        | succ place =>
            rw [List.getElem?_cons_succ] at found
            rw [places place vertex found, Nat.add_assoc, Nat.add_comm 1]
      · have positive : 0 < path.length := by cases rest <;> exact Nat.succ_pos _
        rw [final, List.length_cons]
        congr 1
        omega

theorem Path.imp {weaker : Nat → Nat → Prop} (weakens : ∀ here there, next here there →
    weaker here there) {first last : Nat} {path : List Nat} (walk : Path next first last path) :
    Path weaker first last path := by
  induction walk with
  | stop vertex => exact .stop vertex
  | step edge _ ih => exact .step (weakens _ _ edge) ih

theorem Path.append_step {first last : Nat} {path : List Nat} (walk : Path next first last path)
    {vertex : Nat} (edge : next last vertex) : Path next first vertex (path ++ [vertex]) := by
  induction walk with
  | stop _ => exact .step edge (.stop vertex)
  | step before _ ih => exact .step before (ih edge)

/-- Layer by layer, a path leads to every vertex that is in a layer. -/
theorem Layers.exists_tight (layers : Layers next source depth) {layer : Nat}
    (known : depth target = some layer) :
    ∃ path, Path (Tight next depth) source target path ∧ path.length = layer + 1 := by
  induction layer generalizing target with
  | zero =>
      rw [(layers.first target).1 known]
      exact ⟨_, .stop source, rfl⟩
  | succ layer ih =>
      rcases layers.before known with ⟨here, edge, before⟩
      rcases ih before with ⟨path, walk, length⟩
      use path ++ [target]
      constructor
      · exact walk.append_step ⟨edge, layer, before, known⟩
      · rw [List.length_append, length]
        rfl

theorem Layers.reaches_iff (layers : Layers next source depth) :
    Reaches next source target ↔ ∃ layer, depth target = some layer := by
  constructor
  · intro reaches
    rcases reaches with ⟨path, walk⟩
    rcases walk.depth_le layers ((layers.first source).2 rfl) with ⟨layer, known, _⟩
    exact ⟨layer, known⟩
  · intro known
    rcases known with ⟨layer, known⟩
    rcases layers.exists_tight known with ⟨path, walk, _⟩
    exact ⟨path, walk.imp fun _ _ edge => edge.1⟩

/-- A path with no more steps than there are layers between its ends wastes none. -/
theorem Path.tight (layers : Layers next source depth) {here layer last : Nat} {path : List Nat}
    (walk : Path next here target path) (known : depth here = some layer)
    (reached : depth target = some last) (short : layer + path.length ≤ last + 1) :
    Path (Tight next depth) here target path := by
  induction walk generalizing layer with
  | stop vertex => exact .stop vertex
  | @step first second _ path edge rest ih =>
      rcases layers.onward edge known with ⟨middle, near, there⟩
      rcases rest.depth_le layers there with ⟨other, same, far⟩
      rw [reached, Option.some_inj] at same
      rw [List.length_cons] at short
      have further : middle = layer + 1 := by omega
      rw [further] at there
      exact .step ⟨edge, layer, known, there⟩ (ih there reached (by omega))

/-- The shortest paths are those that lead one layer further with every step. -/
theorem Layers.mem_shortest (layers : Layers next source depth) {layer : Nat}
    (known : depth target = some layer) (path : List Nat) : path ∈ shortest next source target ↔
      Path (Tight next depth) source target path ∧ path.length = layer + 1 := by
  have start : depth source = some 0 := (layers.first source).2 rfl
  have far : ∀ other, Path next source target other → layer + 1 ≤ other.length := by
    intro other walk
    rcases walk.depth_le layers start with ⟨reached, same, few⟩
    rw [known, Option.some_inj] at same
    omega
  constructor
  · intro least
    rcases layers.exists_tight known with ⟨best, walk, length⟩
    have few := least.2 best (walk.imp fun _ _ edge => edge.1)
    rw [length] at few
    constructor
    · exact least.1.tight layers start known (by omega)
    · exact Nat.le_antisymm few (far path least.1)
  · intro tight
    constructor
    · exact tight.1.imp fun _ _ edge => edge.1
    · intro other walk
      rw [tight.2]
      exact far other walk

end Layers

section Counts

variable {next : Nat → Nat → Prop} {source : Nat} {depth : Nat → Option Nat} {vertices : Nat}

def level (depth : Nat → Option Nat) (vertex : Nat) : Nat := (depth vertex).getD 0

/-- The number of ways from one vertex to another that lead one layer further with every step. -/
noncomputable def between (next : Nat → Nat → Prop) (depth : Nat → Option Nat) (vertices : Nat)
    (here there : Nat) : Nat :=
  ways (Tight next depth) vertices (level depth there - level depth here) here there

theorem level_eq {vertex layer : Nat} (known : depth vertex = some layer) :
    level depth vertex = layer := by
  rw [level, known, Option.getD_some]

theorem between_eq {here there before after : Nat} (left : depth here = some before)
    (right : depth there = some after) : between next depth vertices here there =
      ways (Tight next depth) vertices (after - before) here there := by
  rw [between, level_eq left, level_eq right]

theorem between_self (vertex : Nat) : between next depth vertices vertex vertex = 1 := by
  rw [between, Nat.sub_self, ways_zero, if_pos rfl]

/-- No way leads back, nor to another vertex of the same layer. -/
theorem between_eq_zero {here there : Nat} (apart : here ≠ there)
    (back : level depth there ≤ level depth here) : between next depth vertices here there = 0 := by
  rw [between, Nat.sub_eq_zero_of_le back, ways_zero, if_neg apart]

open Classical in
/-- A way to another vertex leads over a vertex of the next layer. -/
theorem between_onward {here there before after : Nat} (apart : here ≠ there)
    (left : depth here = some before) (right : depth there = some after) :
    between next depth vertices here there =
      ∑ second ∈ Finset.range vertices with Tight next depth here second,
        between next depth vertices second there := by
  have tight : ∀ second, Tight next depth here second → depth second = some (before + 1) := by
    intro second edge
    rcases edge.2 with ⟨layer, same, further⟩
    rw [left, Option.some_inj] at same
    rw [same]
    exact further
  by_cases further : before < after
  · have steps : after - before = after - (before + 1) + 1 := by omega
    rw [between_eq left right, steps, ways_succ]
    apply Finset.sum_congr rfl
    intro second member
    rw [between_eq (tight second (Finset.mem_filter.1 member).2) right]
  · rw [between_eq_zero apart, Finset.sum_eq_zero]
    · intro second member
      have known := tight second (Finset.mem_filter.1 member).2
      apply between_eq_zero
      · intro same
        rw [same, right, Option.some_inj] at known
        omega
      · rw [level_eq known, level_eq right]
        omega
    · rw [level_eq left, level_eq right]
      omega

variable (layers : Layers next source depth)
  (within : ∀ here there, next here there → here < vertices ∧ there < vertices)

include layers within

open Classical in
/-- A way from the source to another vertex leads over a vertex of the layer before. -/
theorem between_source {vertex layer : Nat} (apart : vertex ≠ source)
    (known : depth vertex = some layer) : between next depth vertices source vertex =
      ∑ before ∈ Finset.range vertices with Tight next depth before vertex,
        between next depth vertices source before := by
  have start : depth source = some 0 := (layers.first source).2 rfl
  cases layer with
  | zero => exact absurd ((layers.first vertex).1 known) apart
  | succ layer =>
      rw [between_eq start known, Nat.sub_zero,
        ways_succ_last fun _ _ edge => within _ _ edge.1]
      apply Finset.sum_congr rfl
      intro before member
      rcases (Finset.mem_filter.1 member).2.2 with ⟨other, here, there⟩
      rw [known, Option.some_inj] at there
      rw [between_eq start here, Nat.succ.inj there, Nat.sub_zero]

/-- The ways from the source are the shortest paths. -/
theorem ncard_shortest {target layer : Nat} (known : depth target = some layer) :
    (shortest next source target).ncard = between next depth vertices source target := by
  have start : depth source = some 0 := (layers.first source).2 rfl
  have same : shortest next source target =
      ↑(walks (Tight next depth) vertices layer source target) := by
    ext path
    rw [layers.mem_shortest known, Finset.mem_coe,
      mem_walks fun _ _ edge => (within _ _ edge.1).2]
  rw [same, Set.ncard_coe_finset, between_eq start known, Nat.sub_zero, ways]

theorem between_pos {vertex layer : Nat} (known : depth vertex = some layer) :
    0 < between next depth vertices source vertex := by
  have start : depth source = some 0 := (layers.first source).2 rfl
  rcases layers.exists_tight known with ⟨path, walk, length⟩
  rw [between_eq start known, ways, Finset.card_pos]
  use path
  rw [mem_walks fun _ _ edge => (within _ _ edge.1).2]
  exact ⟨walk, length⟩

/-- A shortest path through a vertex is a way to it and a way from it. -/
theorem ncard_through {vertex target layer last : Nat} (known : depth vertex = some layer)
    (reached : depth target = some last) :
    {path ∈ shortest next source target | vertex ∈ path}.ncard =
      between next depth vertices source vertex * between next depth vertices vertex target := by
  classical
  have start : depth source = some 0 := (layers.first source).2 rfl
  have place : ∀ path ∈ shortest next source target,
      (vertex ∈ path ↔ path[layer]? = some vertex) := by
    intro path member
    rcases (layers.mem_shortest reached path).1 member with ⟨walk, _⟩
    constructor
    · intro inPath
      rcases List.mem_iff_getElem?.1 inPath with ⟨index, found⟩
      have same := (walk.getElem?_tight start).1 index vertex found
      rw [known, Option.some_inj, Nat.zero_add] at same
      rw [same]
      exact found
    · exact List.mem_of_getElem?
  by_cases near : layer ≤ last
  · have all : {path ∈ shortest next source target | vertex ∈ path} =
        ↑((walks (Tight next depth) vertices (layer + (last - layer)) source target).filter
          fun path => path[layer]? = some vertex) := by
      ext path
      rw [Nat.add_sub_cancel' near, Finset.coe_filter, Set.mem_sep_iff, Set.mem_ofPred_eq,
        mem_walks fun _ _ edge => (within _ _ edge.1).2, ← layers.mem_shortest reached]
      exact and_congr_right (place path)
    rw [all, Set.ncard_coe_finset, card_walks_through, between_eq start known,
      between_eq known reached, Nat.sub_zero]
  · have empty : {path ∈ shortest next source target | vertex ∈ path} = ∅ := by
      rw [Set.eq_empty_iff_forall_notMem]
      intro path member
      have found := (place path member.1).1 member.2
      have inside := (List.getElem?_eq_some_iff.1 found).1
      have length := ((layers.mem_shortest reached path).1 member.1).2
      omega
    have apart : vertex ≠ target := by
      intro same
      rw [same, reached, Option.some_inj] at known
      omega
    rw [empty, Set.ncard_empty, between_eq_zero apart, Nat.mul_zero]
    rw [level_eq known, level_eq reached]
    omega

omit within in
/-- No shortest path leads through a vertex that is in no layer. -/
theorem ncard_through_beyond {vertex target : Nat} (beyond : depth vertex = none) :
    {path ∈ shortest next source target | vertex ∈ path}.ncard = 0 := by
  have start : depth source = some 0 := (layers.first source).2 rfl
  have empty : {path ∈ shortest next source target | vertex ∈ path} = ∅ := by
    rw [Set.eq_empty_iff_forall_notMem]
    intro path member
    rcases layers.reaches_iff.1 ⟨path, member.1.1⟩ with ⟨last, reached⟩
    rcases (layers.mem_shortest reached path).1 member.1 with ⟨walk, _⟩
    rcases List.mem_iff_getElem?.1 member.2 with ⟨index, found⟩
    have known := (walk.getElem?_tight start).1 index vertex found
    rw [beyond] at known
    cases known
  rw [empty, Set.ncard_empty]

end Counts

end StreamGraph.Betweenness
