import StreamGraph.Plan
import StreamGraph.Saturation

/-!
Collective operations made of the three that move records. A list of lists travels as the
lengths and the records one after another; a reduction is a gather and a broadcast from rank
zero, which applies the operation in the order of the ranks.
-/

namespace StreamGraph.Collective

variable {Value : Type} [Record Value]

def broadcastOne (tag : Tag) (root : Nat) (value : Value) : Collective Value := do
  match ← broadcast tag root [value] with
  | [only] => return only
  | other =>
      throw (.messageLength root (Record.size Value) (other.length * Record.size Value))

/-- Cuts pieces of the given lengths off the end of a list, the last length first. There is no
answer when a length goes beyond the beginning. -/
def cutBack : List Nat → List Value → Option (List (List Value))
  | [], _ => some []
  | count :: counts, flat =>
      if flat.length < count then none
      else
        (cutBack counts (flat.take (flat.length - count))).map
          (flat.drop (flat.length - count) :: ·)

/-- The sum of some words, unless it is beyond the greatest. -/
def checkedSum (words : List UInt64) : Option UInt64 := words.foldlM Saturation.addChecked 0

/-- Cuts a list into pieces of announced lengths, which must add up to the length of the list. The
rank breaks off when their sum is beyond the greatest word. -/
def cutPieces (counts : List UInt64) (flat : List Value) : Collective (List (List Value)) := do
  match checkedSum counts with
  | none => broken
  | some total =>
      if total.toNat ≠ flat.length then
        throw (.layout (.counts total flat.length))
      match cutBack (counts.reverse.map UInt64.toNat) flat with
      | none => broken
      | some pieces => return pieces.reverse

/-- Every rank gets the list of every rank, by rank. -/
def allgather (tag : Tag) (values : List Value) : Collective (List (List Value)) := do
  -- only rank zero has the pieces; the others take the lengths and the records from it
  let pieces := (← gather tag 0 values).getD []
  let counts ← broadcast (tag.offset 1) 0 (pieces.map fun piece => UInt64.ofNat piece.length)
  let flat ← broadcast (tag.offset 2) 0 pieces.flatten
  cutPieces counts flat

def allgatherFlat (tag : Tag) (values : List Value) : Collective (List Value) := do
  return (← allgather tag values).flatten

/-- What the values of all ranks come to, from left to right; `own` stands for no value at all. -/
def combine (start : Option Value) (operation : Value → Value → Value) (own : Value)
    (values : List Value) : Value :=
  match start, values with
  | some first, values => values.foldl operation first
  | none, first :: others => others.foldl operation first
  | none, [] => own

def reduceFrom (start : Option Value) (tag : Tag) (operation : Value → Value → Value)
    (value : Value) : Collective Value := do
  let reduced := match ← gather tag 0 [value] with
    | none => value
    | some pieces => combine start operation value pieces.flatten
  broadcastOne (tag.offset 1) 0 reduced

/-- Every rank gets what the values of all ranks come to, starting with that of rank zero. -/
def reduce (tag : Tag) (operation : Value → Value → Value) (value : Value) : Collective Value :=
  reduceFrom none tag operation value

def sum [Add Value] [OfNat Value 0] (tag : Tag) (value : Value) : Collective Value :=
  reduceFrom (some 0) tag (· + ·) value

/-- The cluster-wide maximum, `least` being below all values. -/
def maximum [LT Value] [DecidableLT Value] (least : Value) (tag : Tag) (value : Value) :
    Collective Value :=
  reduceFrom (some least) tag (fun left right => if left < right then right else left) value

def minimum [LT Value] [DecidableLT Value] (greatest : Value) (tag : Tag) (value : Value) :
    Collective Value :=
  reduceFrom (some greatest) tag (fun left right => if right < left then right else left) value

/-- Combines vectors slot by slot; `rank` is the number of the rank that gave the first of the
others. All have to be as long as the one before. -/
def combineEach (operation : Value → Value → Value) (rank : Nat) (combined : List Value) :
    List (List Value) → Except Failure (List Value)
  | [] => .ok combined
  | part :: others =>
      if part.length ≠ combined.length then
        .error (.layout (.contribution rank part.length combined.length))
      else combineEach operation (rank + 1) (List.zipWith operation combined part) others

def reduceEach (tag : Tag) (operation : Value → Value → Value) (values : List Value) :
    Collective (List Value) := do
  let reduced ← match ← gather tag 0 values with
    | some (first :: others) => ExceptT.mk (pure (combineEach operation 1 first others))
    | _ => pure []
  broadcast (tag.offset 1) 0 reduced

/-- More rounds than any repetition here ever needs. -/
def roundLimit : Nat := 2 * UInt64.size

def repeatFor {State Answer : Type} (step : State → Collective (State ⊕ Answer)) :
    Nat → State → Collective Answer
  | 0, _ => broken
  | rounds + 1, state => do
      match ← step state with
      | .inl next => repeatFor step rounds next
      | .inr answer => return answer

def repeatUntil {State Answer : Type} (step : State → Collective (State ⊕ Answer))
    (state : State) : Collective Answer :=
  repeatFor step roundLimit state

end StreamGraph.Collective
