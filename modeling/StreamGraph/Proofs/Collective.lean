import Mathlib.Algebra.BigOperators.Fin
import StreamGraph.Collective
import StreamGraph.Proofs.Lockstep

/-!
What the collective operations answer when all ranks of a group call them together. The three
that move records answer by definition of a group in step; those made of them answer with the
lists of all ranks in the order of the ranks, or with what the operation makes of them from left
to right. Nothing is asked of the operation itself.

Records that are changed by travelling are followed as well, since machine numbers are not known
to survive; for lawful records the laws say what the root, or each rank, has passed.
-/

namespace StreamGraph

/-- What a rank has of a value that another, or the rank itself, let it have. -/
def Plan.heardOne {Value : Type} [Record Value] {size : Nat} (own rank : Fin size)
    (value : Value) : Value :=
  if rank = own then value else Record.carried value

@[simp] theorem Plan.heardOne_eq {Value : Type} [Record Value] [LawfulRecord Value] {size : Nat}
    (own rank : Fin size) (value : Value) : Plan.heardOne own rank value = value := by
  simp [Plan.heardOne]

theorem Plan.heard_singleton {Value : Type} [Record Value] {size : Nat} (own rank : Fin size)
    (value : Value) : Plan.heard own rank [value] = [Plan.heardOne own rank value] := by
  unfold Plan.heard Plan.heardOne
  split <;> rfl

@[simp] theorem Plan.length_heard {Value : Type} [Record Value] {size : Nat}
    (own rank : Fin size) (values : List Value) :
    (Plan.heard own rank values).length = values.length := by
  unfold Plan.heard
  split <;> simp

theorem fits_singleton {Value : Type} [Record Value] [SizedRecord Value] (value : Value) :
    Fits [value] := by
  have small : 8 * Record.width Value < UInt64.size := SizedRecord.width_lt
  simpa [Fits, Record.size] using small

namespace Collective

open Plan

variable {size : Nat} {Value : Type}

theorem flatten_ofFn_singleton (values : Fin size → Value) :
    (List.ofFn fun rank => [values rank]).flatten = List.ofFn values := by
  rw [← List.flatMap_id, List.ofFn_eq_map, List.flatMap_map]
  rw [List.ofFn_eq_map, ← List.flatMap_pure_eq_map]
  rfl

theorem ofFn_eq_cons (inhabited : 0 < size) {Entry : Type} (entries : Fin size → Entry) :
    List.ofFn entries = entries ⟨0, inhabited⟩ :: (List.ofFn entries).tail := by
  obtain ⟨size, rfl⟩ := Nat.exists_eq_succ_of_ne_zero inhabited.ne'
  rw [List.ofFn_succ]
  rfl

theorem combineEach_eq (operation : Value → Value → Value) (rank : Nat) (combined : List Value)
    (others : List (List Value)) (even : ∀ other ∈ others, other.length = combined.length) :
    combineEach operation rank combined others =
      .ok (others.foldl (List.zipWith operation) combined) := by
  induction others generalizing rank combined with
  | nil => rfl
  | cons part others ih =>
      have same : part.length = combined.length := even part (List.mem_cons_self ..)
      rw [combineEach, if_neg (not_not_intro same), List.foldl_cons]
      apply ih
      intro other member
      rw [even other (List.mem_cons_of_mem _ member), List.length_zipWith, same, Nat.min_self]

theorem length_foldl_zipWith (operation : Value → Value → Value) (combined : List Value)
    (others : List (List Value)) (even : ∀ other ∈ others, other.length = combined.length) :
    (others.foldl (List.zipWith operation) combined).length = combined.length := by
  induction others generalizing combined with
  | nil => rfl
  | cons part others ih =>
      have same : part.length = combined.length := even part (List.mem_cons_self ..)
      have merged : (List.zipWith operation combined part).length = combined.length := by
        rw [List.length_zipWith, same, Nat.min_self]
      rw [List.foldl_cons, ih, merged]
      intro other member
      rw [even other (List.mem_cons_of_mem _ member), merged]

/-- The values of all ranks combined slot by slot, from left to right. -/
def columns (operation : Value → Value → Value) (inhabited : 0 < size)
    (parts : Fin size → List Value) : List Value :=
  (List.ofFn parts).tail.foldl (List.zipWith operation) (parts ⟨0, inhabited⟩)

/-- A slot of the combined vectors is what the operation makes of that slot of all ranks, from
left to right. -/
theorem getElem?_columns (operation : Value → Value → Value) (inhabited : 0 < size)
    (parts : Fin size → List Value) {length slot : Nat}
    (even : ∀ rank, (parts rank).length = length) (inside : slot < length) :
    (columns operation inhabited parts)[slot]? =
      ((parts ⟨0, inhabited⟩)[slot]?).map fun first =>
        ((List.ofFn parts).tail.filterMap fun part => part[slot]?).foldl operation first := by
  have others : ∀ part ∈ (List.ofFn parts).tail, part.length = length := by
    intro part member
    rcases List.mem_ofFn.1 (List.mem_of_mem_tail member) with ⟨rank, rfl⟩
    exact even rank
  have first := even ⟨0, inhabited⟩
  unfold columns
  generalize (List.ofFn parts).tail = tail at others ⊢
  generalize parts ⟨0, inhabited⟩ = combined at first ⊢
  induction tail generalizing combined with
  | nil => simp
  | cons part tail ih =>
      have same : part.length = length := others part (List.mem_cons_self ..)
      have left : slot < combined.length := by omega
      have right : slot < part.length := by omega
      have merged : (List.zipWith operation combined part)[slot]? =
          some (operation combined[slot] part[slot]) := by
        rw [List.getElem?_zipWith, List.getElem?_eq_getElem left, List.getElem?_eq_getElem right]
      have long : (List.zipWith operation combined part).length = length := by
        rw [List.length_zipWith]
        omega
      rw [List.foldl_cons, ih (fun other member => others other (List.mem_cons_of_mem _ member)) _
        long, merged, List.getElem?_eq_getElem left,
        List.filterMap_cons, List.getElem?_eq_getElem right]
      rfl

theorem length_columns (operation : Value → Value → Value) (inhabited : 0 < size)
    (parts : Fin size → List Value) {length : Nat} (even : ∀ rank, (parts rank).length = length) :
    (columns operation inhabited parts).length = length := by
  rw [columns, length_foldl_zipWith, even]
  intro other member
  rcases List.mem_ofFn.1 (List.mem_of_mem_tail member) with ⟨rank, rfl⟩
  rw [even, even]

theorem cutBack_flatten (pieces : List (List Value)) :
    cutBack (pieces.map List.length) pieces.reverse.flatten = some pieces := by
  induction pieces with
  | nil => rfl
  | cons piece pieces ih =>
      have total : (pieces.reverse.flatten ++ piece).length - piece.length =
          pieces.reverse.flatten.length := by
        rw [List.length_append]
        omega
      have enough : ¬ (pieces.reverse.flatten ++ piece).length < piece.length := by
        rw [List.length_append]
        omega
      rw [List.reverse_cons, List.flatten_append, List.flatten_singleton, List.map_cons, cutBack,
        if_neg enough, total, List.take_left, List.drop_left, ih]
      rfl

/-- The words that announce the lengths of some pieces. -/
def lengths (pieces : List (List Value)) : List UInt64 :=
  pieces.map fun piece => UInt64.ofNat piece.length

theorem foldl_ofNat (numbers : List Nat) (start : Nat) :
    (numbers.map UInt64.ofNat).foldl (· + ·) (UInt64.ofNat start) =
      UInt64.ofNat (start + numbers.sum) := by
  induction numbers generalizing start with
  | nil => rfl
  | cons number numbers ih =>
      have next : UInt64.ofNat start + UInt64.ofNat number = UInt64.ofNat (start + number) :=
        (UInt64.ofNat_add _ _).symm
      rw [List.map_cons, List.foldl_cons, next, ih, List.sum_cons, Nat.add_assoc]

theorem length_le_length_flatten {pieces : List (List Value)} {piece : List Value}
    (member : piece ∈ pieces) : piece.length ≤ pieces.flatten.length :=
  (List.sublist_flatten_of_mem member).length_le

theorem mem_flatten_ofFn {values : Fin size → List Value} {value : Value} :
    value ∈ (List.ofFn values).flatten ↔ ∃ rank, value ∈ values rank := by
  simp [List.mem_flatten, List.mem_ofFn]

/-- What the ranks list is listed once, if each lists it once and only what it owns. -/
theorem nodup_flatten_ofFn {values : Fin size → List Value} (owner : Value → Nat)
    (each : ∀ rank, (values rank).Nodup)
    (owned : ∀ rank, ∀ value ∈ values rank, owner value = rank) :
    (List.ofFn values).flatten.Nodup := by
  rw [List.nodup_flatten, List.pairwise_ofFn]
  constructor
  · intro list member
    rcases List.mem_ofFn.1 member with ⟨rank, same⟩
    rw [← same]
    exact each rank
  · intro first second before value inFirst inSecond
    have same := (owned first value inFirst).symm.trans (owned second value inSecond)
    exact absurd same (Nat.ne_of_lt before)

theorem length_flatten_ofFn (values : Fin size → List Value) :
    (List.ofFn values).flatten.length = ∑ rank, (values rank).length := by
  rw [List.length_flatten, List.map_ofFn, List.sum_ofFn]
  rfl

variable [Record Value]

section Sized

variable [SizedRecord Value]

theorem together_broadcast (tag : Tag) (root : Fin size) (values : Fin size → List Value)
    (fits : Fits (values root)) :
    Together (fun rank => broadcast tag root (values rank))
      fun rank => .ok (heard root rank (values root)) :=
  ⟨_, .broadcast tag root values fits _ (.done _)⟩

theorem together_scatter (tag : Tag) (root : Fin size) (pieces : Fin size → List (List Value))
    (enough : (pieces root).length = size) (fits : ∀ piece ∈ pieces root, Fits piece) :
    Together (fun rank => scatter tag root (pieces rank))
      fun rank => .ok (heard root rank ((pieces root).getD rank [])) :=
  ⟨_, .scatter tag root pieces enough fits _ (.done _)⟩

theorem together_gather (tag : Tag) (root : Fin size) (values : Fin size → List Value)
    (fits : ∀ rank, Fits (values rank)) :
    Together (fun rank => gather tag root (values rank))
      fun rank => .ok (if rank = root then
        some (List.ofFn fun peer => heard root peer (values peer)) else none) :=
  ⟨_, .gather tag root values fits _ (.done _)⟩

theorem performs_broadcastOne (tag : Tag) (root : Fin size) (values : Fin size → Value) :
    Performs (fun rank => (broadcastOne tag root (values rank)).run) [.broadcast tag root]
      fun rank => .ok (heardOne root rank (values root)) := by
  apply performs_bind (.broadcast tag root _ (fits_singleton _) _ (.done _))
  simp only [heard_singleton]
  exact .done _

theorem together_broadcastOne (tag : Tag) (root : Fin size) (values : Fin size → Value) :
    Together (fun rank => broadcastOne tag root (values rank))
      fun rank => .ok (heardOne root rank (values root)) :=
  ⟨_, performs_broadcastOne tag root values⟩

/-- Every rank gets what rank zero makes of the values of all ranks. -/
theorem together_reduceFrom (inhabited : 0 < size) (start : Option Value) (tag : Tag)
    (operation : Value → Value → Value) (values : Fin size → Value) :
    Together (fun rank => reduceFrom start tag operation (values rank))
      fun rank => .ok (heardOne ⟨0, inhabited⟩ rank
        (combine start operation (values ⟨0, inhabited⟩)
          (List.ofFn fun peer => heardOne ⟨0, inhabited⟩ peer (values peer)))) := by
  apply together_bind
    (together_gather tag ⟨0, inhabited⟩ _ fun rank => fits_singleton (values rank))
  have answers := together_broadcastOne (tag.offset 1) ⟨0, inhabited⟩ fun rank =>
    if rank = ⟨0, inhabited⟩ then
      combine start operation (values rank)
        (List.ofFn fun peer => heardOne ⟨0, inhabited⟩ peer (values peer))
    else values rank
  rw [if_pos rfl] at answers
  refine together_congr (fun rank => ?_) answers
  by_cases coordinator : rank = ⟨0, inhabited⟩
  · simp only [coordinator, if_pos, heard_singleton, flatten_ofFn_singleton]
  · simp only [coordinator, if_neg, not_false_eq_true]

/-- Every rank gets the vectors of all ranks combined slot by slot, if they are equally long. -/
theorem together_reduceEach (inhabited : 0 < size) (tag : Tag)
    (operation : Value → Value → Value) (values : Fin size → List Value) {length : Nat}
    (even : ∀ rank, (values rank).length = length)
    (fits : length * Record.size Value < UInt64.size) :
    Together (fun rank => reduceEach tag operation (values rank))
      fun rank => .ok (heard ⟨0, inhabited⟩ rank (columns operation inhabited
        fun peer => heard ⟨0, inhabited⟩ peer (values peer))) := by
  have gathered := together_gather tag ⟨0, inhabited⟩ values
    fun rank => by rw [Fits, even]; exact fits
  apply together_bind gathered
  have evenHeard : ∀ peer, (heard ⟨0, inhabited⟩ peer (values peer)).length = length := by
    intro peer
    rw [length_heard, even]
  have answers := together_broadcast (tag.offset 1) ⟨0, inhabited⟩
    (fun rank => if rank = ⟨0, inhabited⟩ then columns operation inhabited
      fun peer => heard ⟨0, inhabited⟩ peer (values peer) else [])
    (by rw [if_pos rfl, Fits, length_columns operation inhabited _ evenHeard]; exact fits)
  rw [if_pos rfl] at answers
  refine together_congr (fun rank => ?_) answers
  by_cases coordinator : rank = ⟨0, inhabited⟩
  · rw [if_pos coordinator, if_pos coordinator, ofFn_eq_cons inhabited]
    dsimp only
    rw [combineEach_eq]
    · rfl
    · intro other member
      rcases List.mem_ofFn.1 (List.mem_of_mem_tail member) with ⟨peer, rfl⟩
      rw [evenHeard, evenHeard]
  · rw [if_neg coordinator, if_neg coordinator]
    rfl

end Sized

/-- The sum of some words, however great. -/
def wordSum (words : List UInt64) : Nat := (words.map UInt64.toNat).sum

theorem wordSum_cons (word : UInt64) (words : List UInt64) :
    wordSum (word :: words) = word.toNat + wordSum words := by
  rw [wordSum, List.map_cons, List.sum_cons, wordSum]

theorem foldlM_addChecked_eq_some_iff {words : List UInt64} {start total : UInt64} :
    words.foldlM Saturation.addChecked start = some total ↔
      total.toNat = start.toNat + wordSum words := by
  induction words generalizing start with
  | nil =>
      change some start = some total ↔ _
      rw [Option.some.injEq, ← UInt64.toNat_inj]
      exact eq_comm
  | cons word words ih =>
      have below := total.toNat_lt_size
      rw [List.foldlM_cons, Option.bind_eq_bind, Option.bind_eq_some_iff, wordSum_cons,
        ← Nat.add_assoc]
      simp only [ih, Saturation.addChecked_eq_some_iff]
      constructor
      · rintro ⟨next, added, same⟩
        rw [same, added]
      · intro same
        have fits : start.toNat + word.toNat < UInt64.size := by omega
        have sum := UInt64.toNat_ofNat_of_lt' fits
        exact ⟨_, sum, by rw [sum, same]⟩

theorem checkedSum_eq_some_iff {words : List UInt64} {total : UInt64} :
    checkedSum words = some total ↔ total.toNat = wordSum words := by
  rw [checkedSum, foldlM_addChecked_eq_some_iff, UInt64.toNat_zero, Nat.zero_add]

theorem checkedSum_eq_none_iff {words : List UInt64} :
    checkedSum words = none ↔ UInt64.size ≤ wordSum words := by
  rw [Option.eq_none_iff_forall_ne_some, ← not_lt]
  simp only [ne_eq, checkedSum_eq_some_iff]
  constructor
  · intro unequal fits
    exact unequal _ (UInt64.toNat_ofNat_of_lt' fits)
  · intro beyond total same
    exact beyond (same ▸ total.toNat_lt_size)

omit [Record Value] in
theorem map_toNat_lengths {pieces : List (List Value)}
    (small : pieces.flatten.length < UInt64.size) :
    (lengths pieces).map UInt64.toNat = pieces.map List.length := by
  rw [lengths, List.map_map]
  apply List.map_congr_left
  intro piece member
  exact UInt64.toNat_ofNat_of_lt' (lt_of_le_of_lt (length_le_length_flatten member) small)

theorem cutPieces_flatten [SizedRecord Value] {pieces : List (List Value)}
    (fits : Fits pieces.flatten) :
    cutPieces (lengths pieces) pieces.flatten = pure pieces := by
  have small := fits.length_lt
  have counts := map_toNat_lengths small
  have whole := UInt64.toNat_ofNat_of_lt' small
  have total : checkedSum (lengths pieces) = some (UInt64.ofNat pieces.flatten.length) := by
    rw [checkedSum_eq_some_iff, whole, wordSum, counts, List.length_flatten]
  have cut := cutBack_flatten pieces.reverse
  rw [List.reverse_reverse] at cut
  unfold cutPieces
  rw [total, List.map_reverse, counts, ← List.map_reverse, cut]
  simp only [whole, ne_eq, not_true_eq_false, if_false, List.reverse_reverse]

/-- The lists of all ranks can be put together on one rank. -/
structure Gatherable (values : Fin size → List Value) : Prop where
  ranks : size * 8 < UInt64.size
  all : Fits (List.ofFn values).flatten

theorem Gatherable.each {values : Fin size → List Value} (fits : Gatherable values)
    (rank : Fin size) : Fits (values rank) := by
  have member : values rank ∈ List.ofFn values := List.mem_ofFn.2 ⟨rank, rfl⟩
  have part := length_le_length_flatten member
  exact lt_of_le_of_lt (Nat.mul_le_mul_right _ part) fits.all

variable [LawfulRecord Value]

theorem together_allgather (inhabited : 0 < size) (tag : Tag) (values : Fin size → List Value)
    (fits : Gatherable values) :
    Together (fun rank => allgather tag (values rank)) fun _ => .ok (List.ofFn values) := by
  apply together_bind (together_gather tag ⟨0, inhabited⟩ values fits.each)
  simp only [heard_eq]
  have counts := together_broadcast (tag.offset 1) ⟨0, inhabited⟩ (fun rank : Fin size =>
    ((if rank = ⟨0, inhabited⟩ then some (List.ofFn values) else none).getD []).map
      fun piece => UInt64.ofNat piece.length)
    (by simpa [Fits, Record.size, Record.width] using fits.ranks)
  apply together_bind counts
  have flat := together_broadcast (tag.offset 2) ⟨0, inhabited⟩ (fun rank : Fin size =>
    ((if rank = ⟨0, inhabited⟩ then some (List.ofFn values) else none).getD []).flatten)
    (by simpa using fits.all)
  apply together_bind flat
  simp only [heard_eq, if_true, Option.getD_some]
  rw [← lengths, cutPieces_flatten fits.all]
  exact together_pure _

theorem together_reduced (inhabited : 0 < size) (start : Option Value) (tag : Tag)
    (operation : Value → Value → Value) (values : Fin size → Value) :
    Together (fun rank => reduceFrom start tag operation (values rank)) fun _ =>
      .ok (combine start operation (values ⟨0, inhabited⟩) (List.ofFn values)) := by
  simpa using together_reduceFrom inhabited start tag operation values

theorem together_reducedEach (inhabited : 0 < size) (tag : Tag)
    (operation : Value → Value → Value) (values : Fin size → List Value)
    (even : ∀ rank other, (values rank).length = (values other).length)
    (fits : ∀ rank, Fits (values rank)) :
    Together (fun rank => reduceEach tag operation (values rank))
      fun _ => .ok (columns operation inhabited values) := by
  simpa using together_reduceEach inhabited tag operation values
    (fun rank => even rank ⟨0, inhabited⟩) (fits ⟨0, inhabited⟩)

theorem together_allgatherFlat (inhabited : 0 < size) (tag : Tag)
    (values : Fin size → List Value) (fits : Gatherable values) :
    Together (fun rank => allgatherFlat tag (values rank))
      fun _ => .ok (List.ofFn values).flatten :=
  together_bind (together_allgather inhabited tag values fits) (together_pure _)

/-- A repetition ends together on all ranks if they are in the same state before each round, and
`inRounds` bounds the number of rounds to come. -/
theorem together_repeatUntil {State Answer : Type}
    (step : Fin size → State → Collective (State ⊕ Answer)) (inRounds : Nat → State → Prop)
    (found : Answer → Prop)
    (round : ∀ rounds state, inRounds rounds state →
      (∃ answer, found answer ∧ Together (fun rank => step rank state) fun _ => .ok (.inr answer)) ∨
      ∃ next fewer, fewer < rounds ∧ inRounds fewer next ∧
        Together (fun rank => step rank state) fun _ => .ok (.inl next))
    {rounds : Nat} {state : State} (begins : inRounds rounds state) (few : rounds < roundLimit) :
    ∃ answer, found answer ∧
      Together (fun rank => repeatUntil (step rank) state) fun _ => .ok answer := by
  unfold repeatUntil
  generalize roundLimit = limit at few
  induction limit generalizing rounds state with
  | zero => exact absurd few (Nat.not_lt_zero _)
  | succ limit ih =>
      rcases round rounds state begins with ⟨answer, good, ends⟩ | ⟨next, fewer, less, goes, steps⟩
      · exact ⟨answer, good, together_bind ends (together_pure _)⟩
      · obtain ⟨answer, good, ends⟩ := ih goes (by omega)
        exact ⟨answer, good, together_bind steps ends⟩

end Collective

end StreamGraph
