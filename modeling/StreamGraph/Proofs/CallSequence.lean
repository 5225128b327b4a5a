import StreamGraph.Proofs.Collective

/-!
Sequences of collective calls. Each call comes with what every rank passes to it, and with what
every rank should get; the calls of a sequence may move records of different kinds, and their tags
may be the same or run into each other. Whatever the schedule, a group that issues such a sequence
ends with the answers that it should get, whether messages are stored on their way or each post
waits for the rank that takes it.

A call is asked for nothing but a root of the group, one piece for each rank, vectors of one
length, and lists whose bytes can be counted by a word.
-/

namespace StreamGraph

open Relation

/-- A collective operation called by all ranks of a group, with what each of them passes. -/
inductive Call (size : Nat) : Type 1 where
  | broadcast (Value : Type) [Record Value] [LawfulRecord Value] (tag : Tag) (root : Fin size)
      (passed : Fin size → List Value)
  | broadcastOne (Value : Type) [Record Value] [LawfulRecord Value] (tag : Tag) (root : Fin size)
      (passed : Fin size → Value)
  | scatter (Value : Type) [Record Value] [LawfulRecord Value] (tag : Tag) (root : Fin size)
      (pieces : Fin size → List (List Value))
  | gather (Value : Type) [Record Value] [LawfulRecord Value] (tag : Tag) (root : Fin size)
      (passed : Fin size → List Value)
  | allgather (Value : Type) [Record Value] [LawfulRecord Value] (tag : Tag)
      (passed : Fin size → List Value)
  | reduce (Value : Type) [Record Value] [LawfulRecord Value] (tag : Tag)
      (operation : Value → Value → Value) (passed : Fin size → Value)
  | reduceEach (Value : Type) [Record Value] [LawfulRecord Value] (tag : Tag)
      (operation : Value → Value → Value) (passed : Fin size → List Value)
  | sum (Value : Type) [Record Value] [LawfulRecord Value] [Add Value] [OfNat Value 0] (tag : Tag)
      (passed : Fin size → Value)
  | maximum (Value : Type) [Record Value] [LawfulRecord Value] [LT Value] [DecidableLT Value]
      (least : Value) (tag : Tag) (passed : Fin size → Value)
  | minimum (Value : Type) [Record Value] [LawfulRecord Value] [LT Value] [DecidableLT Value]
      (greatest : Value) (tag : Tag) (passed : Fin size → Value)

namespace Call

variable {size : Nat}

def Answer : Call size → Type
  | broadcast Value _ _ _ => List Value
  | broadcastOne Value _ _ _ => Value
  | scatter Value _ _ _ => List Value
  | gather Value _ _ _ => Option (List (List Value))
  | allgather Value _ _ => List (List Value)
  | reduce Value _ _ _ => Value
  | reduceEach Value _ _ _ => List Value
  | sum Value _ _ => Value
  | maximum Value _ _ _ => Value
  | minimum Value _ _ _ => Value

/-- What a rank does in a call. -/
def program (rank : Fin size) : (call : Call size) → Collective call.Answer
  | broadcast _ tag root passed => Collective.broadcast tag root (passed rank)
  | broadcastOne Value tag root passed =>
      (Collective.broadcastOne tag root (passed rank) : Collective Value)
  | scatter _ tag root pieces => Collective.scatter tag root (pieces rank)
  | gather _ tag root passed => Collective.gather tag root (passed rank)
  | allgather _ tag passed => Collective.allgather tag (passed rank)
  | reduce Value tag operation passed =>
      (Collective.reduce tag operation (passed rank) : Collective Value)
  | reduceEach _ tag operation passed => Collective.reduceEach tag operation (passed rank)
  | sum Value tag passed => (Collective.sum tag (passed rank) : Collective Value)
  | maximum Value least tag passed =>
      (Collective.maximum least tag (passed rank) : Collective Value)
  | minimum Value greatest tag passed =>
      (Collective.minimum greatest tag (passed rank) : Collective Value)

/-- What a rank should get from a call. -/
def reference (inhabited : 0 < size) (rank : Fin size) : (call : Call size) → call.Answer
  | broadcast _ _ root passed => passed root
  | broadcastOne _ _ root passed => passed root
  | scatter _ _ root pieces => (pieces root).getD rank []
  | gather _ _ root passed => if rank = root then some (List.ofFn passed) else none
  | allgather _ _ passed => List.ofFn passed
  | reduce _ _ operation passed =>
      (List.ofFn passed).tail.foldl operation (passed ⟨0, inhabited⟩)
  | reduceEach _ _ operation passed => Collective.columns operation inhabited passed
  | sum Value _ passed => ((List.ofFn passed).foldl (· + ·) 0 : Value)
  | maximum Value least _ passed =>
      (List.ofFn passed).foldl
        (fun left right : Value => if left < right then right else left) least
  | minimum Value greatest _ passed =>
      (List.ofFn passed).foldl
        (fun left right : Value => if right < left then right else left) greatest

/-- What the ranks pass has the form that the call asks for. -/
def Valid : Call size → Prop
  | broadcast _ _ root passed => Fits (passed root)
  | broadcastOne _ _ _ _ => True
  | scatter _ _ root pieces => (pieces root).length = size ∧ ∀ piece ∈ pieces root, Fits piece
  | gather _ _ _ passed => ∀ rank, Fits (passed rank)
  | allgather _ _ passed => Collective.Gatherable passed
  | reduce _ _ _ _ => True
  | reduceEach _ _ _ passed =>
      (∀ rank other, (passed rank).length = (passed other).length) ∧ ∀ rank, Fits (passed rank)
  | sum _ _ _ => True
  | maximum _ _ _ _ => True
  | minimum _ _ _ _ => True

theorem together (inhabited : 0 < size) {call : Call size} (valid : call.Valid) :
    Collective.Together (fun rank => call.program rank)
      fun rank => .ok (call.reference inhabited rank) := by
  cases call with
  | broadcast Value tag root passed =>
      simpa [program, reference, Answer] using Collective.together_broadcast tag root passed valid
  | broadcastOne Value tag root passed =>
      simpa [program, reference, Answer] using Collective.together_broadcastOne tag root passed
  | scatter Value tag root pieces =>
      simpa [program, reference, Answer] using
        Collective.together_scatter tag root pieces valid.1 valid.2
  | gather Value tag root passed =>
      simpa [program, reference, Answer] using Collective.together_gather tag root passed valid
  | allgather Value tag passed => exact Collective.together_allgather inhabited tag passed valid
  | reduce Value tag operation passed =>
      have reduced := Collective.together_reduced inhabited none tag operation passed
      rw [Collective.ofFn_eq_cons inhabited] at reduced
      exact reduced
  | reduceEach Value tag operation passed =>
      exact Collective.together_reducedEach inhabited tag operation passed valid.1 valid.2
  | sum Value tag passed =>
      exact Collective.together_reduced inhabited (some 0) tag (· + ·) passed
  | maximum Value least tag passed =>
      exact Collective.together_reduced inhabited (some least) tag _ passed
  | minimum Value greatest tag passed =>
      exact Collective.together_reduced inhabited (some greatest) tag _ passed

/-- One answer for each call of a sequence. -/
def Answers : List (Call size) → Type
  | [] => Unit
  | call :: calls => call.Answer × Answers calls

/-- A rank that issues a sequence of calls and keeps all answers. -/
def programs (rank : Fin size) : (calls : List (Call size)) → Collective (Answers calls)
  | [] => return ()
  | call :: calls => do
      let answer ← call.program rank
      let answers ← programs rank calls
      return (answer, answers)

def references (inhabited : 0 < size) (rank : Fin size) :
    (calls : List (Call size)) → Answers calls
  | [] => ()
  | call :: calls => (call.reference inhabited rank, references inhabited rank calls)

theorem sequence_together (inhabited : 0 < size) {calls : List (Call size)}
    (valid : ∀ call ∈ calls, call.Valid) :
    Collective.Together (fun rank => programs rank calls)
      fun rank => .ok (references inhabited rank calls) := by
  induction calls with
  | nil => exact Collective.together_pure _
  | cons call calls ih =>
      have first := together inhabited (valid call (List.mem_cons_self ..))
      have others := ih fun other member => valid other (List.mem_cons_of_mem _ member)
      exact Collective.together_bind first
        (Collective.together_bind others (Collective.together_pure _))

/-- No schedule of the messages stops a valid sequence of calls before its end, none goes on for
ever, and at the end every rank has the answers it should get. The same holds when no message can
wait on its way and each post stands until its message is taken. -/
theorem every_schedule_gives_the_references (inhabited : 0 < size) (calls : List (Call size))
    (valid : ∀ call ∈ calls, call.Valid) :
    (Plan.group fun rank => (programs rank calls).run).Settles
        (List.ofFn fun rank => .ok (references inhabited rank calls)) ∧
      ∀ reached,
        ReflTransGen Network.Handover
          (fun rank => (programs rank calls).run.steps ⟨rank, size⟩) reached →
        (∃ next, Network.Handover reached next) ∨
          reached = fun rank => .done (.ok (references inhabited rank calls)) := by
  have together := sequence_together inhabited valid
  constructor
  · exact Plan.lockstep_settles inhabited together
  · intro reached run
    exact Group.handed_over_of_handovers (Plan.lockstep_handed_over inhabited together) run

/-- Three ranks whose calls share tags: the second list of the gathering and the broadcast after it
travel under one tag, and so do the two messages of the subtraction and of the sum. -/
def crossing : List (Call 3) :=
  [.allgather UInt64 7 fun rank => List.replicate rank (UInt64.ofNat rank),
    .broadcast Edge 8 2 fun rank => [⟨UInt64.ofNat rank, 1, 0, 0⟩],
    .reduce Int64 65535 (· - ·) fun rank => Int64.ofNat rank,
    .sum UInt64 0 fun rank => UInt64.ofNat (rank + 1)]

theorem crossing_valid : ∀ call ∈ crossing, call.Valid := by
  intro call member
  simp only [crossing, List.mem_cons, List.not_mem_nil, or_false] at member
  rcases member with rfl | rfl | rfl | rfl
  · exact ⟨by decide, by decide⟩
  · exact (by decide : 1 * 32 < UInt64.size)
  · trivial
  · trivial

theorem crossing_gives_the_references :
    (Plan.group fun rank => (programs rank crossing).run).Settles
      (List.ofFn fun _ : Fin 3 => .ok
        ([[], [1], [2, 2]], [⟨2, 1, 0, 0⟩], (-3 : Int64), (6 : UInt64), ())) := by
  have settles := (every_schedule_gives_the_references (by decide) crossing crossing_valid).1
  have answers : (fun rank : Fin 3 => references (by decide) rank crossing) =
      fun _ => ([[], [1], [2, 2]], [⟨2, 1, 0, 0⟩], (-3 : Int64), (6 : UInt64), ()) := rfl
  exact congrArg (fun given => List.ofFn fun rank => Except.ok (given rank)) answers ▸ settles

end Call

end StreamGraph
