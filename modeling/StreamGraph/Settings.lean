import StreamGraph.Analytics
import StreamGraph.Merge
import StreamGraph.Retention
import StreamGraph.SourcePicker

/-!
What a run is told to do. A request holds the numbers as they were given, signed; settings hold
numbers that make sense.
-/

namespace StreamGraph

inductive SourceSelection where
  | random
  | highestDegree
  deriving DecidableEq, Inhabited

def SourceSelection.ofName (text : String) : Except Failure SourceSelection :=
  if text = "random" then .ok .random
  else if text = "highest-degree" then .ok .highestDegree
  else .error (.invalidArgument (.unknownSelection text))

structure GraphSettings where
  layout : Layout
  snapshotFirst : Bool
  selection : SourceSelection
  /-- The seed of the picker, the same on every rank. -/
  seed : UInt64
  deriving DecidableEq, Inhabited

def GraphSettings.standard : GraphSettings :=
  ⟨.cyclic, false, .random, SourcePicker.defaultSeed⟩

/-- A run as it was asked for. -/
structure RunRequest where
  algorithms : List String
  path : String
  batches : Int64
  /-- The width of the window; a negative one asks for deletions. -/
  window : Int64
  trials : Int64
  /-- A number above all vertices, if one is given. -/
  bound : Option Int64
  graph : GraphSettings
  deriving DecidableEq, Inhabited

/-- A run that can be carried out. -/
structure RunSettings where
  algorithms : List Algorithm
  path : String
  batches : Nat
  window : RetentionWindow
  trials : Nat
  bound : Option UInt64
  graph : GraphSettings
  deriving DecidableEq, Inhabited

namespace RunRequest

def positive (name : String) (value : Int64) : Except Failure UInt64 :=
  if value ≤ 0 then .error (.invalidArgument (.notPositive name value))
  else .ok value.toUInt64

/-- Refuses numbers that make no sense, the first of them in the order of the fields. -/
def settings (request : RunRequest) : Except Failure RunSettings := do
  let algorithms ← Algorithm.ofNames request.algorithms
  let batches ← positive "num_batches" request.batches
  if request.window = 0 then throw (.invalidArgument .emptyWindow)
  let trials ← positive "num_trials" request.trials
  let bound ← match request.bound with
    | none => pure none
    | some bound => (positive "max_vertex_id" bound).map some
  return {
    algorithms
    path := request.path
    batches := batches.toNat
    window := .ofSigned request.window
    trials := trials.toNat
    bound
    graph := request.graph }

end RunRequest

end StreamGraph
