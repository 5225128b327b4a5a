import Mathlib.Algebra.Order.Field.Rat
import StreamGraph.Analytics.Scalar
import StreamGraph.Proofs.Analytics.Traversal

/-!
Exact numbers. Read as fractions, the amounts that are added to the slots of a vector add up in any
order, and so do the vectors of the ranks. Records of a fixed width cannot tell all fractions apart;
a group computes exactly as long as the numbers that it exchanges arrive as they were sent, and
there is a record that achieves this for any few of them.
-/

namespace StreamGraph

theorem size_addAt {Scalar : Type} [Add Scalar] (vector : Array Scalar) (slot : Nat)
    (amount : Scalar) : (addAt vector slot amount).size = vector.size := Array.size_modify

theorem getD_addAt (vector : Array ℚ) (slot : Nat) (amount : ℚ) {other : Nat}
    (inside : other < vector.size) : (addAt vector slot amount).getD other 0 =
      vector.getD other 0 + if slot = other then amount else 0 := by
  rw [addAt, getD_modify]
  by_cases here : slot = other
  · rw [if_pos ⟨here, here ▸ inside⟩, if_pos here]
  · rw [if_neg fun both => here both.1, if_neg here, add_zero]

/-- A slot has in the end what it had and all that was added to it. -/
theorem getD_foldl_addAt {Entry : Type} (slot : Entry → Nat) (amount : Entry → ℚ)
    (entries : List Entry) (vector : Array ℚ) {other : Nat} (inside : other < vector.size) :
    (entries.foldl (fun vector entry => addAt vector (slot entry) (amount entry)) vector).getD
        other 0 =
      vector.getD other 0 + ((entries.filter fun entry => slot entry == other).map amount).sum := by
  induction entries generalizing vector with
  | nil => simp
  | cons entry others ih =>
      have after : other < (addAt vector (slot entry) (amount entry)).size :=
        (size_addAt vector _ _).symm ▸ inside
      rw [List.foldl_cons, ih _ after, getD_addAt _ _ _ inside, List.filter_cons]
      by_cases here : slot entry = other
      · simp [here, add_assoc]
      · simp [here]

/-- If each slot comes once, nothing else is added to it. -/
theorem getD_foldl_addAt_once (amount : Nat → ℚ) {slots : List Nat} (once : slots.Nodup)
    (vector : Array ℚ) {other : Nat} (inside : other < vector.size) :
    (slots.foldl (fun vector slot => addAt vector slot (amount slot)) vector).getD other 0 =
      vector.getD other 0 + if other ∈ slots then amount other else 0 := by
  rw [getD_foldl_addAt _ _ _ _ inside, List.filter_beq, once.count]
  congr 1
  split <;> simp

namespace Record

variable {Value : Type}

/-- Values that arrive as they were sent. -/
def Carries [Record Value] (values : List Value) : Prop := ∀ value ∈ values, carried value = value

variable [DecidableEq Value] [Inhabited Value]

/-- A record that names values by their places in a list. -/
@[reducible] def numbered (values : List Value) : Record Value where
  width := 1
  toWords value := [UInt64.ofNat (values.idxOf value)]
  ofWords words := values.getD (words.headD 0).toNat default

theorem sized_numbered (values : List Value) : @SizedRecord Value (numbered values) := by
  have small : 8 * 1 < UInt64.size := by decide
  exact @SizedRecord.mk Value (numbered values) (fun _ => rfl) Nat.one_pos small

/-- Each of not too many values has a place that a word can name. -/
theorem carries_numbered {values : List Value} (few : values.length ≤ UInt64.size) :
    @Carries Value (numbered values) values := by
  intro value member
  have place := List.idxOf_lt_length_of_mem member
  change values.getD (UInt64.ofNat (values.idxOf value)).toNat default = value
  rw [UInt64.toNat_ofNat_of_lt' (Nat.lt_of_lt_of_le place few), List.getD_eq_getElem?_getD,
    List.getElem?_eq_getElem place, List.getElem_idxOf, Option.getD_some]

/-- One word is enough for each of not too many values. -/
theorem exists_carries {values : List Value} (few : values.length ≤ UInt64.size) :
    ∃ (_ : Record Value) (_ : SizedRecord Value), Record.size Value = 8 ∧ Carries values := by
  use numbered values, sized_numbered values
  constructor
  · rfl
  · exact carries_numbered few

end Record

namespace Collective

open Plan

variable {size : Nat}

theorem foldl_add (numbers : List ℚ) (first : ℚ) :
    numbers.foldl (· + ·) first = first + numbers.sum := by
  induction numbers generalizing first with
  | nil => simp
  | cons number others ih => rw [List.foldl_cons, ih, List.sum_cons, add_assoc]

/-- The vectors of all ranks added up slot by slot. -/
def added (length : Nat) (parts : Fin size → List ℚ) : List ℚ :=
  (List.range length).map fun slot => ∑ rank, (parts rank).getD slot 0

theorem columns_eq_added (inhabited : 0 < size) (parts : Fin size → List ℚ) {length : Nat}
    (even : ∀ rank, (parts rank).length = length) :
    columns (· + ·) inhabited parts = added length parts := by
  apply List.ext_getElem?
  intro slot
  by_cases inside : slot < length
  · have each : ∀ part ∈ List.ofFn parts, part[slot]? = some (part.getD slot 0) := by
      intro part member
      rcases List.mem_ofFn.1 member with ⟨rank, same⟩
      rw [← same, List.getD_eq_getElem?_getD, List.getElem?_eq_getElem (even rank ▸ inside),
        Option.getD_some]
    have others : ((List.ofFn parts).tail.filterMap fun part => part[slot]?) =
        (List.ofFn parts).tail.map fun part => part.getD slot 0 := by
      rw [← List.filterMap_eq_map]
      apply List.filterMap_congr
      intro part member
      exact each part (List.mem_of_mem_tail member)
    have all : ∑ rank, (parts rank).getD slot 0 =
        ((List.ofFn parts).map fun part => part.getD slot 0).sum := by
      rw [List.map_ofFn, List.sum_ofFn]
      rfl
    rw [getElem?_columns _ inhabited parts even inside, others,
      each _ (List.mem_ofFn.2 ⟨⟨0, inhabited⟩, rfl⟩), added, List.getElem?_map,
      List.getElem?_range inside, Option.map_some, Option.map_some, all,
      ofFn_eq_cons inhabited parts, List.map_cons, List.sum_cons, List.tail_cons, foldl_add]
  · have outside := Nat.le_of_not_lt inside
    rw [List.getElem?_eq_none, List.getElem?_eq_none]
    · rw [added, List.length_map, List.length_range]
      exact outside
    · rw [length_columns _ inhabited parts even]
      exact outside

variable [Record ℚ]

theorem heard_of_carries {values : List ℚ} (carries : Record.Carries values)
    (own rank : Fin size) : heard own rank values = values := by
  unfold heard
  split
  · rfl
  · rw [List.map_congr_left carries, List.map_id']

theorem heardOne_of_carries {value : ℚ} (carries : Record.carried value = value)
    (own rank : Fin size) : heardOne own rank value = value := by
  unfold heardOne
  split
  · rfl
  · exact carries

variable [SizedRecord ℚ]

theorem together_addEach (inhabited : 0 < size) (tag : Tag) (parts : Fin size → List ℚ)
    {length : Nat} (even : ∀ rank, (parts rank).length = length)
    (fits : length * Record.size ℚ < UInt64.size) (each : ∀ rank, Record.Carries (parts rank))
    (total : Record.Carries (added length parts)) :
    Together (fun rank => reduceEach tag (· + ·) (parts rank))
      fun _ => .ok (added length parts) := by
  have answers := together_reduceEach inhabited tag (· + ·) parts even fits
  simp only [heard_of_carries (each _), columns_eq_added inhabited parts even,
    heard_of_carries total] at answers
  exact answers

theorem together_addUp (inhabited : 0 < size) (tag : Tag) (values : Fin size → ℚ)
    (each : ∀ rank, Record.carried (values rank) = values rank)
    (total : Record.carried (∑ rank, values rank) = ∑ rank, values rank) :
    Together (fun rank => sum tag (values rank)) fun _ => .ok (∑ rank, values rank) := by
  have answers := together_reduceFrom inhabited (some 0) tag (· + ·) values
  have all : (List.ofFn values).foldl (· + ·) 0 = ∑ rank, values rank := by
    rw [foldl_add, List.sum_ofFn, zero_add]
  simp only [heardOne_of_carries (each _), combine, all, heardOne_of_carries total] at answers
  exact answers

end Collective

end StreamGraph
