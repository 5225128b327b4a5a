import StreamGraph.Proofs.Collective
import StreamGraph.Proofs.Ownership
import StreamGraph.Proofs.Sorting
import StreamGraph.Routing

/-!
Updates on their way to their owners. A split leaves each rank's run as the updates that it owns,
in list order; the ranks agree before anything travels, so either all of them go on or all of them
fail; and what a rank gets from all senders are their runs for it, by sender.
-/

namespace StreamGraph

/-- The updates whose source a rank owns, in list order. -/
def Partition.share (partition : Partition) (rank : Nat) (updates : List Update) : List Update :=
  updates.filter fun update => partition.owner update.edge.src == rank

theorem Partition.firstOutside_eq_none_iff (bound : UInt64) (updates : List Update) :
    firstOutside bound updates = none ↔ ∀ update ∈ updates, update.edge.isWithin bound = true := by
  simp [firstOutside, Edge.isWithin]

/-- The only fault of a batch is an end out of range. -/
theorem Partition.split_cases (partition : Partition) (bound : UInt64) (updates : List Update) :
    ((∀ update ∈ updates, update.edge.isWithin bound = true) ∧
        ∃ runs, partition.split bound updates = .ok runs) ∨
      ∃ vertex, partition.split bound updates = .error (.vertexOutOfRange vertex bound) := by
  unfold split
  cases outside : firstOutside bound updates with
  | none => exact Or.inl ⟨(firstOutside_eq_none_iff bound updates).1 outside, _, rfl⟩
  | some vertex => exact Or.inr ⟨vertex, rfl⟩

theorem Partition.split_of_within {partition : Partition} {bound : UInt64} {updates : List Update}
    (within : ∀ update ∈ updates, update.edge.isWithin bound = true) :
    ∃ runs, partition.split bound updates = .ok runs := by
  unfold split
  rw [(firstOutside_eq_none_iff bound updates).2 within]
  exact ⟨_, rfl⟩

/-- A rank's run are the updates it owns, none lost, none moved and in list order. -/
theorem Partition.run_of_split {partition : Partition} {bound : UInt64} {updates : List Update}
    {runs : OwnerRuns} (split : partition.split bound updates = .ok runs) {rank : Nat}
    (inside : rank < partition.parts) : runs.run rank = partition.share rank updates := by
  unfold Partition.split at split
  cases outside : firstOutside bound updates with
  | some vertex =>
      rw [outside] at split
      cases split
  | none =>
      rw [outside] at split
      cases split
      have transitive : ∀ first second third : Update,
          decide (partition.owner first.edge.src ≤ partition.owner second.edge.src) = true →
          decide (partition.owner second.edge.src ≤ partition.owner third.edge.src) = true →
          decide (partition.owner first.edge.src ≤ partition.owner third.edge.src) = true := by
        intro first second third
        simp only [decide_eq_true_eq]
        omega
      have total : ∀ first second : Update,
          (decide (partition.owner first.edge.src ≤ partition.owner second.edge.src) ||
            decide (partition.owner second.edge.src ≤ partition.owner first.edge.src)) = true := by
        intro first second
        simp only [Bool.or_eq_true, decide_eq_true_eq]
        omega
      have sorted := List.pairwise_mergeSort transitive total updates
      simp only [decide_eq_true_eq] at sorted
      have counts : ∀ part : Nat,
          updates.countP (fun update => partition.owner update.edge.src == part) =
            (updates.mergeSort fun left right =>
              decide (partition.owner left.edge.src ≤ partition.owner right.edge.src)).countP
                fun update => partition.owner update.edge.src == part := by
        intro part
        exact ((List.mergeSort_perm updates _).countP_eq _).symm
      unfold OwnerRuns.run
      dsimp only
      rw [← List.map_take, List.take_range, Nat.min_eq_left inside.le]
      simp only [counts]
      rw [foldl_counts fun update : Update => partition.owner update.edge.src,
        List.getD_eq_getElem _ _ (by simpa using inside), List.getElem_map, List.getElem_range,
        run_of_sorted (fun update : Update => partition.owner update.edge.src) rank sorted]
      apply filter_mergeSort transitive total
      intro first second firstOwned secondOwned
      simp only [beq_iff_eq] at firstOwned secondOwned
      rw [firstOwned, secondOwned]
      exact decide_eq_true (Nat.le_refl _)

namespace Routing

open Collective Network Plan

variable {size : Nat} {Value : Type}

theorem lowest_le (start : UInt64) (flags : List UInt64) :
    flags.foldl (fun left right => if right < left then right else left) start ≤ start ∧
      ∀ flag ∈ flags,
        flags.foldl (fun left right => if right < left then right else left) start ≤ flag := by
  induction flags generalizing start with
  | nil => simp
  | cons first others ih =>
      rw [List.foldl_cons]
      have later := ih (if first < start then first else start)
      have least : (if first < start then first else start) ≤ start ∧
          (if first < start then first else start) ≤ first := by
        simp only [UInt64.le_iff_toNat_le, UInt64.lt_iff_toNat_lt]
        split_ifs <;> omega
      constructor
      · exact UInt64.le_trans later.1 least.1
      · intro flag member
        rcases List.mem_cons.1 member with rfl | inOthers
        · exact UInt64.le_trans later.1 least.2
        · exact later.2 flag inOthers

theorem le_lowest {start word : UInt64} {flags : List UInt64} (first : word ≤ start)
    (others : ∀ flag ∈ flags, word ≤ flag) :
    word ≤ flags.foldl (fun left right => if right < left then right else left) start := by
  induction flags generalizing start with
  | nil => exact first
  | cons flag flags ih =>
      rw [List.foldl_cons]
      apply ih
      · have second := others flag (List.mem_cons_self ..)
        split <;> assumption
      · exact fun other member => others other (List.mem_cons_of_mem _ member)

theorem lowest_of_accepted {flags : List UInt64} (all : ∀ flag ∈ flags, flag = accepted) :
    flags.foldl (fun left right => if right < left then right else left) accepted = accepted := by
  induction flags with
  | nil => rfl
  | cons first others ih =>
      have same : first = accepted := all first (List.mem_cons_self ..)
      rw [List.foldl_cons, same, if_neg (UInt64.lt_irrefl _)]
      exact ih fun flag member => all flag (List.mem_cons_of_mem _ member)

/-- What a rank says about itself when the ranks agree. -/
def flag (rank : Nat) (mine : Except Failure Value) : UInt64 :=
  match mine with
  | .ok _ => accepted
  | .error _ => UInt64.ofNat rank + 1

/-- What a rank concludes from the lowest of all flags. -/
def verdict (lowest : UInt64) (mine : Except Failure Value) : Except Failure Value :=
  match mine with
  | .error failure => .error failure
  | .ok value => if lowest ≠ accepted then .error (.peerRejected (lowest - 1).toNat) else .ok value

theorem together_agree (inhabited : 0 < size) (tag : Tag) (mine : Fin size → Except Failure Value) :
    Together (fun rank => agree ⟨rank, size⟩ tag (mine rank)) fun rank =>
      verdict ((List.ofFn fun peer : Fin size => flag peer (mine peer)).foldl
        (fun left right => if right < left then right else left) accepted) (mine rank) := by
  have lowest := together_reduced inhabited (some accepted) tag
    (fun left right : UInt64 => if right < left then right else left)
    fun rank : Fin size => flag rank (mine rank)
  apply together_bind lowest
  apply together_answers
  intro rank
  unfold verdict combine
  cases mine rank with
  | error failure => rfl
  | ok value =>
      dsimp only
      split_ifs <;> rfl

theorem together_agree_ok (inhabited : 0 < size) (tag : Tag) (values : Fin size → Value) :
    Together (fun rank => agree ⟨rank, size⟩ tag (.ok (values rank)))
      fun rank => .ok (values rank) := by
  have agreed := together_agree inhabited tag fun rank => .ok (values rank)
  rw [lowest_of_accepted] at agreed
  · exact agreed
  · intro word member
    rcases List.mem_ofFn.1 member with ⟨rank, rfl⟩
    rfl

theorem toNat_flag_of_error {mine : Except Failure Value} {failure : Failure} {rank : Fin size}
    (few : size + 1 < UInt64.size) (refused : mine = .error failure) :
    (flag rank mine).toNat = rank + 1 := by
  have inGroup := rank.isLt
  have sizeIs : UInt64.size = 18446744073709551616 := rfl
  subst refused
  rw [flag, UInt64.toNat_add, UInt64.toNat_ofNat', UInt64.toNat_one]
  omega

/-- The lowest of all flags is that of the lowest rank that is not ready. -/
theorem lowest_of_culprit (few : size + 1 < UInt64.size) {mine : Fin size → Except Failure Value}
    {culprit : Fin size} {failure : Failure} (refused : mine culprit = .error failure)
    (least : ∀ rank < culprit, ∃ value, mine rank = .ok value) :
    ((List.ofFn fun rank : Fin size => flag rank (mine rank)).foldl
      (fun left right => if right < left then right else left) accepted).toNat = culprit + 1 := by
  have raised : (flag culprit (mine culprit)).toNat = culprit + 1 :=
    toNat_flag_of_error few refused
  have whole : accepted.toNat = UInt64.size - 1 := rfl
  have inGroup := culprit.isLt
  have above : flag culprit (mine culprit) ≤ (List.ofFn fun rank : Fin size =>
      flag rank (mine rank)).foldl (fun left right => if right < left then right else left)
        accepted := by
    apply le_lowest
    · rw [UInt64.le_iff_toNat_le]
      omega
    · intro word member
      rcases List.mem_ofFn.1 member with ⟨rank, rfl⟩
      rw [UInt64.le_iff_toNat_le, raised]
      cases outcome : mine rank with
      | ok value =>
          change _ ≤ accepted.toNat
          omega
      | error other =>
          rw [toNat_flag_of_error few rfl]
          by_contra lower
          obtain ⟨value, ready⟩ := least rank (Fin.lt_def.2 (by omega))
          rw [ready] at outcome
          cases outcome
  have below := (lowest_le accepted (List.ofFn fun rank : Fin size => flag rank (mine rank))).2 _
    (List.mem_ofFn.2 ⟨culprit, rfl⟩)
  rw [UInt64.le_iff_toNat_le] at above below
  omega

/-- What a rank reports when `culprit` is the lowest rank that is not ready. -/
def report (culprit : Nat) (mine : Except Failure Value) : Failure :=
  match mine with
  | .error failure => failure
  | .ok _ => .peerRejected culprit

/-- Ranks that are not ready keep their own failures; the others name the lowest of them. -/
theorem together_agree_culprit (few : size + 1 < UInt64.size) (tag : Tag)
    {mine : Fin size → Except Failure Value} {culprit : Fin size} {failure : Failure}
    (refused : mine culprit = .error failure)
    (least : ∀ rank < culprit, ∃ value, mine rank = .ok value) :
    Together (fun rank => agree ⟨rank, size⟩ tag (mine rank))
      fun rank => .error (report culprit (mine rank)) := by
  have agreed := together_agree culprit.pos tag mine
  have lowest := lowest_of_culprit few refused least
  generalize (List.ofFn fun peer : Fin size => flag peer (mine peer)).foldl
    (fun left right => if right < left then right else left) accepted = word at agreed lowest
  have inGroup := culprit.isLt
  have whole : accepted.toNat = UInt64.size - 1 := rfl
  have differs : word ≠ accepted := by
    rintro rfl
    omega
  have names : (word - 1).toNat = culprit := by
    rw [UInt64.toNat_sub_of_le _ _ (by rw [UInt64.le_iff_toNat_le, UInt64.toNat_one]; omega),
      UInt64.toNat_one]
    omega
  have verdicts : (fun rank => verdict word (mine rank)) =
      fun rank => .error (report culprit (mine rank)) := by
    funext rank
    unfold verdict report
    cases mine rank with
    | error failure => rfl
    | ok value =>
        dsimp only
        rw [if_pos differs, names]
  rwa [verdicts] at agreed

theorem exists_culprit {mine : Fin size → Except Failure Value} {rank : Fin size}
    {failure : Failure} (refused : mine rank = .error failure) :
    ∃ culprit cause, mine culprit = .error cause ∧
      ∀ lower < culprit, ∃ value, mine lower = .ok value := by
  obtain ⟨culprit, ⟨cause, fails⟩, least⟩ := WellFounded.has_min wellFounded_lt
    {rank : Fin size | ∃ failure, mine rank = .error failure} ⟨rank, failure, refused⟩
  refine ⟨culprit, cause, fails, fun lower below => ?_⟩
  cases outcome : mine lower with
  | ok value => exact ⟨value, rfl⟩
  | error other => exact absurd below (least lower ⟨other, outcome⟩)

/-- When one rank is not ready, all ranks fail: with their own failure or with the news of a
peer's. -/
theorem together_agree_error (few : size + 1 < UInt64.size) (tag : Tag)
    (mine : Fin size → Except Failure Value) {culprit : Fin size} {failure : Failure}
    (refused : mine culprit = .error failure) :
    ∃ failures : Fin size → Failure,
      (∀ rank, mine rank = .error (failures rank) ∨ ∃ peer, failures rank = .peerRejected peer) ∧
      Together (fun rank => agree ⟨rank, size⟩ tag (mine rank)) fun rank =>
        .error (failures rank) := by
  obtain ⟨lowest, cause, fails, ready⟩ := exists_culprit refused
  refine ⟨fun rank => report lowest (mine rank), fun rank => ?_,
    together_agree_culprit few tag fails ready⟩
  unfold report
  dsimp only
  cases mine rank with
  | error failure => exact Or.inl rfl
  | ok value => exact Or.inr ⟨_, rfl⟩

theorem together_checkLayout {partition : Partition} (parts : partition.parts = size) :
    Together (fun rank : Fin size => checkLayout ⟨rank, size⟩ partition) fun _ => .ok () := by
  apply together_answers
  intro rank
  unfold checkLayout
  rw [if_neg (not_not_intro parts)]
  rfl

/-- What travels arrives without marks. -/
theorem unmarked {updates : List Update} (fresh : ∀ update ∈ updates, update.done = false) :
    (updates.map Update.edge).map (fun edge => ({ edge } : Update)) = updates := by
  rw [List.map_map]
  conv_rhs => rw [← List.map_id updates]
  apply List.map_congr_left
  intro update member
  have clear := fresh update member
  cases update with
  | mk edge done =>
      dsimp only at clear
      rw [clear]
      rfl

/-- Every rank gets its run of the root's runs; the runs of the others are ignored. -/
theorem together_route (tag : Tag) (root : Fin size) (passed : Fin size → Option OwnerRuns)
    {runs : OwnerRuns} (given : passed root = some runs)
    (fresh : ∀ rank : Fin size, ∀ update ∈ runs.run rank, update.done = false)
    (fits : ∀ rank : Fin size, Fits ((runs.run rank).map Update.edge)) :
    Together (fun rank => route ⟨rank, size⟩ root (passed rank) tag)
      fun rank => .ok (runs.run rank) := by
  have scattered := together_scatter tag root
    (fun rank => (List.range size).map fun peer =>
      (((passed rank).getD (.none size)).run peer).map Update.edge)
    (by simp)
    (by
      intro piece member
      rcases List.mem_map.1 member with ⟨peer, inside, rfl⟩
      rw [given]
      exact fits ⟨peer, List.mem_range.1 inside⟩)
  apply together_bind scattered
  apply together_answers
  intro rank
  rw [heard_eq, given, List.getD_eq_getElem _ _ (by simp), List.getElem_map, List.getElem_range]
  dsimp only
  by_cases own : rank = root
  · subst own
    rw [if_pos rfl, given]
    rfl
  · rw [if_neg fun same => own (Fin.ext same)]
    exact congrArg (fun updates => Plan.done (Except.ok updates)) (unmarked (fresh rank))

/-- The updates of all roots for a rank, by root. -/
theorem together_routeAll (tag : Tag) (runs : Fin size → OwnerRuns)
    (fresh : ∀ root rank : Fin size, ∀ update ∈ (runs root).run rank, update.done = false)
    (fits : ∀ root rank : Fin size, Fits (((runs root).run rank).map Update.edge))
    (roots : List (Fin size)) :
    Together (fun rank => routeAll ⟨rank, size⟩ (runs rank) tag (roots.map Fin.val))
      fun rank => .ok (roots.flatMap fun root => (runs root).run rank) := by
  induction roots with
  | nil => exact together_pure _
  | cons root roots ih =>
      have first := together_route tag root
        (fun rank => if root.val = rank.val then some (runs rank) else none) (if_pos rfl)
        (fresh root) (fits root)
      exact together_bind first (together_bind ih (together_pure _))

/-- A rank's part of a batch is fit to travel: no mark is set, every end is in range, and its bytes
can be counted by a word. -/
structure Routable (bound : UInt64) (updates : List Update) : Prop where
  fresh : ∀ update ∈ updates, update.done = false
  within : ∀ update ∈ updates, update.edge.isWithin bound = true
  fits : Fits (updates.map Update.edge)

theorem fresh_share {updates : List Update} (partition : Partition) (rank : Nat)
    (fresh : ∀ update ∈ updates, update.done = false) :
    ∀ update ∈ partition.share rank updates, update.done = false := by
  intro update member
  exact fresh update (List.mem_of_mem_filter member)

theorem fits_share {updates : List Update} (partition : Partition) (rank : Nat)
    (fits : Fits (updates.map Update.edge)) :
    Fits ((partition.share rank updates).map Update.edge) := by
  have shorter : (partition.share rank updates).length ≤ updates.length :=
    List.length_filter_le _ _
  unfold Fits at fits ⊢
  rw [List.length_map] at fits ⊢
  exact lt_of_le_of_lt (Nat.mul_le_mul_right _ shorter) fits

theorem together_exchange (inhabited : 0 < size) {partition : Partition}
    (parts : partition.parts = size) (bound : UInt64) {slices : Fin size → List Update}
    (routable : ∀ rank, Routable bound (slices rank)) :
    Together (fun rank => exchange ⟨rank, size⟩ partition bound (slices rank)) fun rank =>
      .ok ((List.finRange size).flatMap fun sender => partition.share rank (slices sender)) := by
  have split : ∀ rank, ∃ runs, partition.split bound (slices rank) = .ok runs :=
    fun rank => Partition.split_of_within (routable rank).within
  choose runs splits using split
  have run_eq : ∀ sender rank : Fin size,
      (runs sender).run rank = partition.share rank (slices sender) := by
    intro sender rank
    exact Partition.run_of_split (splits sender) (by rw [parts]; exact rank.isLt)
  apply together_bind (together_checkLayout parts)
  simp only [splits]
  apply together_bind (together_agree_ok inhabited _ runs)
  simp only [range_eq_map_finRange]
  have routed := together_routeAll (tag.offset 4) runs
    (by intro sender rank; rw [run_eq]; exact fresh_share _ _ (routable sender).fresh)
    (by intro sender rank; rw [run_eq]; exact fits_share _ _ (routable sender).fits)
    (List.finRange size)
  simpa only [run_eq] using routed

/-- When an end is out of range on some rank, no rank gets anything. -/
theorem together_exchange_rejected (few : size + 1 < UInt64.size)
    {partition : Partition} (parts : partition.parts = size) (bound : UInt64)
    (slices : Fin size → List Update) {culprit : Fin size} {update : Update}
    (member : update ∈ slices culprit) (outside : update.edge.isWithin bound = false) :
    ∃ failures : Fin size → Failure,
      (∀ rank, (∃ vertex, failures rank = .vertexOutOfRange vertex bound) ∨
        ∃ peer, failures rank = .peerRejected peer) ∧
      Together (fun rank => exchange ⟨rank, size⟩ partition bound (slices rank)) fun rank =>
        .error (failures rank) := by
  have refused : ∃ vertex,
      partition.split bound (slices culprit) = .error (.vertexOutOfRange vertex bound) := by
    rcases partition.split_cases bound (slices culprit) with ⟨within, _⟩ | refused
    · rw [within update member] at outside
      cases outside
    · exact refused
  rcases refused with ⟨vertex, split⟩
  obtain ⟨failures, causes, agreed⟩ := together_agree_error few (tag.offset 6)
    (fun rank => partition.split bound (slices rank)) split
  refine ⟨failures, fun rank => ?_, together_bind (together_checkLayout parts)
    (together_bind_error _ agreed)⟩
  rcases causes rank with own | peer
  · rcases partition.split_cases bound (slices rank) with ⟨_, runs, accepted⟩ | ⟨vertex, refused⟩
    · rw [accepted] at own
      cases own
    · rw [refused] at own
      injection own with same
      exact Or.inl ⟨vertex, same.symm⟩
  · exact Or.inr peer

theorem together_distribute (inhabited : 0 < size) {partition : Partition}
    (parts : partition.parts = size) (bound : UInt64) (root : Fin size)
    {passed : Fin size → List Update} (routable : Routable bound (passed root)) :
    Together (fun rank => distribute ⟨rank, size⟩ partition bound root (passed rank))
      fun rank => .ok (partition.share rank (passed root)) := by
  obtain ⟨runs, split⟩ := @Partition.split_of_within partition _ _ routable.within
  have run_eq : ∀ rank : Fin size, runs.run rank = partition.share rank (passed root) := by
    intro rank
    exact Partition.run_of_split split (by rw [parts]; exact rank.isLt)
  have mine : ∀ rank : Fin size,
      (if rank.val = root.val then (partition.split bound (passed rank)).map some else .ok none) =
        .ok (if rank = root then some runs else none) := by
    intro rank
    by_cases own : rank = root
    · subst own
      rw [if_pos rfl, if_pos rfl, split]
      rfl
    · rw [if_neg fun same => own (Fin.ext same), if_neg own]
  apply together_bind (together_checkLayout parts)
  simp only [mine]
  apply together_bind (together_agree_ok inhabited _ _)
  have routed := together_route tag root (fun rank => if rank = root then some runs else none)
    (if_pos rfl)
    (by intro rank; rw [run_eq]; exact fresh_share _ _ routable.fresh)
    (by intro rank; rw [run_eq]; exact fits_share _ _ routable.fits)
  simpa only [run_eq] using routed

end Routing

end StreamGraph
