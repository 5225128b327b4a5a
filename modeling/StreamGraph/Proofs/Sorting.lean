import Mathlib.Data.List.Basic

/-!
Stable sorting. Entries that stand in order stay in their order, so the entries of one class come
out of a sort as they went in; and a list sorted by a number falls into runs that begin where the
classes of lower numbers end. The first entries of a list in strict order are those that few others
come before. Dropping repetitions from a sorted list leaves each entry once.
-/

namespace StreamGraph

variable {Entry : Type}

theorem filter_mergeSort {le : Entry → Entry → Bool}
    (transitive : ∀ first second third, le first second → le second third → le first third)
    (total : ∀ first second, le first second || le second first) (inside : Entry → Bool)
    (alike : ∀ first second, inside first → inside second → le first second)
    (entries : List Entry) :
    (entries.mergeSort le).filter inside = entries.filter inside := by
  have ordered : (entries.filter inside).Pairwise fun first second => le first second := by
    apply List.pairwise_of_forall_mem_list
    intro first firstMember second secondMember
    exact alike first second (List.mem_filter.1 firstMember).2 (List.mem_filter.1 secondMember).2
  have kept : (entries.filter inside).Sublist ((entries.mergeSort le).filter inside) := by
    have sublist := List.sublist_mergeSort transitive total ordered List.filter_sublist
    have filtered := sublist.filter inside
    simpa only [List.filter_filter, Bool.and_self] using filtered
  have count : (entries.filter inside).length = ((entries.mergeSort le).filter inside).length :=
    ((List.mergeSort_perm entries le).filter inside).length_eq.symm
  exact (kept.eq_of_length count).symm

/-- A list sorted by a number falls apart where the numbers reach a limit. -/
theorem filter_append_filter_of_sorted (number : Entry → Nat) (limit : Nat) {entries : List Entry}
    (sorted : entries.Pairwise fun first second => number first ≤ number second) :
    entries.filter (fun entry => decide (number entry < limit)) ++
      entries.filter (fun entry => decide (limit ≤ number entry)) = entries := by
  induction entries with
  | nil => rfl
  | cons entry others ih =>
      rw [List.pairwise_cons] at sorted
      by_cases below : number entry < limit
      · have notAbove : ¬ limit ≤ number entry := Nat.not_le_of_lt below
        simp [below, notAbove, ih sorted.2]
      · have above : limit ≤ number entry := Nat.le_of_not_lt below
        have noneBelow : others.filter (fun other => decide (number other < limit)) = [] := by
          rw [List.filter_eq_nil_iff]
          intro other member
          have after := sorted.1 other member
          simp only [decide_eq_true_eq]
          omega
        have allAbove : others.filter (fun other => decide (limit ≤ number other)) = others := by
          have rest := ih sorted.2
          rwa [noneBelow, List.nil_append] at rest
        simp [below, above, noneBelow, allAbove]

/-- The run of a number begins behind all entries of lower numbers. -/
theorem run_of_sorted (number : Entry → Nat) (kind : Nat) {entries : List Entry}
    (sorted : entries.Pairwise fun first second => number first ≤ number second) :
    (entries.drop (entries.countP fun entry => decide (number entry < kind))).take
        (entries.countP fun entry => number entry == kind) =
      entries.filter fun entry => number entry == kind := by
  have outer := filter_append_filter_of_sorted number kind sorted
  have inner := filter_append_filter_of_sorted number (kind + 1)
    (sorted.sublist (List.filter_sublist (p := fun entry => decide (kind ≤ number entry))))
  have own : (entries.filter fun entry => decide (kind ≤ number entry)).filter
      (fun entry => decide (number entry < kind + 1)) =
      entries.filter fun entry => number entry == kind := by
    rw [List.filter_filter]
    apply List.filter_congr
    intro entry _
    rw [← Bool.decide_and, Bool.beq_eq_decide_eq, decide_eq_decide]
    omega
  rw [own] at inner
  have dropped : ∀ low high : List Entry, (low ++ high).drop low.length = high :=
    fun low high => List.drop_left
  have taken : ∀ low high : List Entry, (low ++ high).take low.length = low :=
    fun low high => List.take_left
  have behind := dropped (entries.filter fun entry => decide (number entry < kind))
    (entries.filter fun entry => decide (kind ≤ number entry))
  have front := taken (entries.filter fun entry => number entry == kind)
    ((entries.filter fun entry => decide (kind ≤ number entry)).filter
      fun entry => decide (kind + 1 ≤ number entry))
  rw [outer] at behind
  rw [inner] at front
  rw [List.countP_eq_length_filter, List.countP_eq_length_filter, behind, front]

theorem countP_below_succ (number : Entry → Nat) (limit : Nat) (entries : List Entry) :
    entries.countP (fun entry => decide (number entry < limit + 1)) =
      entries.countP (fun entry => decide (number entry < limit)) +
        entries.countP fun entry => number entry == limit := by
  induction entries with
  | nil => rfl
  | cons entry others ih =>
      simp only [List.countP_cons, ih, decide_eq_true_eq, beq_iff_eq]
      split_ifs <;> omega

/-- The counts of the first classes add up to the number of entries below them. -/
theorem foldl_counts (number : Entry → Nat) (limit : Nat) (entries : List Entry) :
    ((List.range limit).map fun kind =>
        entries.countP fun entry => number entry == kind).foldl (· + ·) 0 =
      entries.countP fun entry => decide (number entry < limit) := by
  induction limit with
  | zero => simp
  | succ limit ih =>
      rw [List.range_succ, List.map_append, List.foldl_append, ih, countP_below_succ]
      rfl

/-- The classes below a limit have each entry below it once. -/
theorem flatMap_classes_perm (number : Entry → Nat) (limit : Nat) (entries : List Entry) :
    ((List.range limit).flatMap fun kind =>
        entries.filter fun entry => number entry == kind).Perm
      (entries.filter fun entry => decide (number entry < limit)) := by
  induction limit with
  | zero => simp
  | succ limit ih =>
      have parts := List.filter_append_perm (fun entry => decide (number entry < limit))
        (entries.filter fun entry => decide (number entry < limit + 1))
      have low : (entries.filter fun entry => decide (number entry < limit + 1)).filter
          (fun entry => decide (number entry < limit)) =
          entries.filter fun entry => decide (number entry < limit) := by
        rw [List.filter_filter]
        apply List.filter_congr
        intro entry _
        rw [← Bool.decide_and, decide_eq_decide]
        omega
      have last : (entries.filter fun entry => decide (number entry < limit + 1)).filter
          (fun entry => !decide (number entry < limit)) =
          entries.filter fun entry => number entry == limit := by
        rw [List.filter_filter]
        apply List.filter_congr
        intro entry _
        rw [← decide_not, ← Bool.decide_and, Bool.beq_eq_decide_eq, decide_eq_decide]
        omega
      rw [low, last] at parts
      rw [List.range_succ, List.flatMap_append, List.flatMap_singleton]
      exact (ih.append_right _).trans parts

section Front

variable {above : Entry → Entry → Prop}

/-- An entry is among the first ones if it has not too many above it. -/
theorem mem_take_of_sorted [DecidableRel above]
    (asymmetric : ∀ first second, above first second → ¬ above second first)
    {entries : List Entry} (sorted : entries.Pairwise above) {entry : Entry}
    (member : entry ∈ entries) (count : Nat) : entry ∈ entries.take count ↔
      entries.countP (fun other => decide (above other entry)) < count := by
  induction entries generalizing count with
  | nil => cases member
  | cons head others ih =>
      rw [List.pairwise_cons] at sorted
      cases count with
      | zero => simp
      | succ count =>
          rw [List.take_succ_cons, List.mem_cons, List.countP_cons]
          by_cases same : entry = head
          · subst same
            have noneAbove : others.countP (fun other => decide (above other entry)) = 0 := by
              rw [List.countP_eq_zero]
              intro other later isAbove
              exact asymmetric _ _ (sorted.1 other later) (of_decide_eq_true isAbove)
            have notItself : ¬ above entry entry := fun isAbove => asymmetric _ _ isAbove isAbove
            simp [noneAbove, notItself]
          · have later := (List.mem_cons.1 member).resolve_left same
            have isAbove := sorted.1 entry later
            simp [same, isAbove, ih sorted.2 later]

theorem nodup_of_sorted (asymmetric : ∀ first second, above first second → ¬ above second first)
    {entries : List Entry} (sorted : entries.Pairwise above) : entries.Nodup := by
  apply sorted.imp
  rintro first _ isAbove rfl
  exact asymmetric _ _ isAbove isAbove

/-- Entries stand in strict order in one way only. -/
theorem eq_of_sorted (asymmetric : ∀ first second, above first second → ¬ above second first)
    {left right : List Entry} (leftSorted : left.Pairwise above)
    (rightSorted : right.Pairwise above) (same : ∀ entry, entry ∈ left ↔ entry ∈ right) :
    left = right := by
  have perm : left.Perm right := (List.perm_ext_iff_of_nodup (nodup_of_sorted asymmetric leftSorted)
    (nodup_of_sorted asymmetric rightSorted)).2 same
  exact perm.eq_of_pairwise
    (fun first second _ _ before after => absurd after (asymmetric _ _ before))
    leftSorted rightSorted

/-- Leaving out entries behind the first ones does not change these. -/
theorem take_filter_of_kept {kept : Entry → Bool} {entries : List Entry} {count : Nat}
    (all : ∀ entry ∈ entries.take count, kept entry = true) :
    (entries.filter kept).take count = entries.take count := by
  rcases Nat.le_total entries.length count with few | enough
  · rw [List.take_of_length_le few] at all ⊢
    rw [List.filter_eq_self.2 all, List.take_of_length_le few]
  · have front : (entries.take count).length = count := List.length_take_of_le enough
    have parts : entries.filter kept = entries.take count ++ (entries.drop count).filter kept := by
      calc entries.filter kept = (entries.take count ++ entries.drop count).filter kept := by
            rw [List.take_append_drop]
        _ = entries.take count ++ (entries.drop count).filter kept := by
            rw [List.filter_append, List.filter_eq_self.2 all]
    rw [parts, List.take_left' front]

end Front

section Repetitions

variable [BEq Entry]

theorem eraseReps_loop (entry : Entry) (others front : List Entry) :
    List.eraseRepsBy.loop (· == ·) entry others front =
      front.reverse ++ List.eraseRepsBy.loop (· == ·) entry others [] := by
  induction others generalizing entry front with
  | nil => simp [List.eraseRepsBy.loop]
  | cons other others ih =>
      simp only [List.eraseRepsBy.loop]
      split
      · exact ih entry front
      · rw [ih other (entry :: front), ih other [entry], List.reverse_cons, List.append_assoc]
        rfl

theorem eraseReps_sublist (entries : List Entry) : entries.eraseReps.Sublist entries := by
  cases entries with
  | nil => exact List.Sublist.slnil
  | cons entry others =>
      change (List.eraseRepsBy.loop (· == ·) entry others []).Sublist (entry :: others)
      induction others generalizing entry with
      | nil => simp [List.eraseRepsBy.loop]
      | cons other others ih =>
          simp only [List.eraseRepsBy.loop]
          split
          · exact (ih entry).trans ((List.sublist_cons_self other others).cons_cons entry)
          · rw [eraseReps_loop]
            exact (ih other).cons_cons entry

variable [LawfulBEq Entry]

theorem mem_eraseReps_loop (entry : Entry) (others : List Entry) (member : Entry) :
    member ∈ List.eraseRepsBy.loop (· == ·) entry others [] ↔ member ∈ entry :: others := by
  induction others generalizing entry with
  | nil => simp [List.eraseRepsBy.loop]
  | cons other others ih =>
      simp only [List.eraseRepsBy.loop]
      split
      · next same =>
          rw [ih, ← beq_iff_eq.1 same]
          simp
      · rw [eraseReps_loop, List.mem_append, ih]
        simp

theorem mem_eraseReps {entries : List Entry} {member : Entry} :
    member ∈ entries.eraseReps ↔ member ∈ entries := by
  cases entries with
  | nil => rfl
  | cons entry others => exact mem_eraseReps_loop entry others member

/-- In a list in order, an entry that does not come at once does not come later. -/
theorem nodup_eraseReps {le : Entry → Entry → Bool}
    (antisymmetric : ∀ first second, le first second → le second first → first = second)
    {entries : List Entry} (sorted : entries.Pairwise fun first second => le first second = true) :
    entries.eraseReps.Nodup := by
  cases entries with
  | nil => exact List.nodup_nil
  | cons entry others =>
      change (List.eraseRepsBy.loop (· == ·) entry others []).Nodup
      induction others generalizing entry with
      | nil => simp [List.eraseRepsBy.loop]
      | cons other others ih =>
          rw [List.pairwise_cons] at sorted
          simp only [List.eraseRepsBy.loop]
          split
          · apply ih
            rw [List.pairwise_cons]
            exact ⟨fun later member => sorted.1 later (List.mem_cons_of_mem _ member),
              (List.pairwise_cons.1 sorted.2).2⟩
          · next differ =>
              rw [eraseReps_loop, List.reverse_singleton, List.singleton_append, List.nodup_cons,
                mem_eraseReps_loop]
              refine ⟨?_, ih other sorted.2⟩
              intro again
              have before := sorted.1 other (List.mem_cons_self ..)
              have after : le other entry = true := by
                rcases List.mem_cons.1 again with rfl | later
                · exact before
                · exact (List.pairwise_cons.1 sorted.2).1 entry later
              rw [antisymmetric entry other before after, beq_self_eq_true] at differ
              cases differ

end Repetitions

end StreamGraph
