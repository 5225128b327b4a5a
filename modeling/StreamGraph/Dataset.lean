import StreamGraph.Edge
import StreamGraph.Failure
import StreamGraph.Saturation

/-!
A stream of edges, cut into batches by position. Every batch knows its newest timestamp in the
whole cluster, which a rank's share of the batch alone does not show.
-/

namespace StreamGraph

structure Batch where
  /-- The edges of the stretch, or a rank's share of them. -/
  edges : List Edge
  /-- The newest timestamp of the whole stretch. -/
  newest : Int64
  deriving DecidableEq, Inhabited

def Batch.threshold (batch : Batch) (width : Int64) : Int64 := Saturation.sub batch.newest width

structure Dataset where
  /-- Every vertex of the stream is below this number. -/
  bound : UInt64
  batches : List Batch
  deriving DecidableEq, Inhabited

namespace Dataset

/-- Cuts a list into pieces of `length` entries; the last of them takes what is left. -/
def cutEvery {Entry : Type} (length : Nat) : Nat → List Entry → List (List Entry)
  | 0, _ => []
  | 1, entries => [entries]
  | parts + 1, entries => entries.take length :: cutEvery length parts (entries.drop length)

/-- Cuts a list into a number of pieces, as many entries in each but the last; the last takes the
remainder too. -/
def cutEven {Entry : Type} (parts : Nat) (entries : List Entry) : List (List Entry) :=
  cutEvery (entries.length / parts) parts entries

def shares (ranks : Nat) (edges : List Edge) : List (List Edge) := cutEven (max ranks 1) edges

def newest (edges : List Edge) : Int64 :=
  edges.foldl (fun latest edge => max latest edge.timestamp) Int64.minValue

/-- The least number above all ends of all edges, and one if there are no edges. Without a word
for such a number the evaluation breaks off. -/
def boundOf (edges : List Edge) : Option UInt64 := do
  match ← edges.mapM fun edge => Saturation.addChecked (max edge.src edge.dst) 1 with
  | [] => return 1
  | first :: others => return others.foldl max first

/-- The first end of an edge, in stream order and the source first, at or above a bound. -/
def firstBeyond (bound : UInt64) (edges : List Edge) : Option VertexId :=
  (edges.flatMap fun edge => [edge.src, edge.dst]).find? fun vertex => decide (bound ≤ vertex)

/-- The bound of a stream: the given one, which no end may reach, or else the least possible, if
there is one. -/
def chooseBound (edges : List Edge) : Option UInt64 → Option (Except Failure UInt64)
  | none => (boundOf edges).map .ok
  | some bound => some <|
      match firstBeyond bound edges with
      | some vertex => .error (.vertexOutOfRange vertex bound)
      | none => .ok bound

/-- Cuts a stream into batches, unless the bound's evaluation breaks off. -/
def ofEdges (edges : List Edge) (count : Nat) (bound : Option UInt64) :
    Option (Except Failure Dataset) :=
  if count = 0 then some (.error (.invalidArgument .noBatches))
  else (chooseBound edges bound).map fun chosen => chosen.map fun bound =>
    ⟨bound, (cutEven count edges).map fun piece => ⟨piece, newest piece⟩⟩

/-- Puts a rank's shares of all batches together. -/
def ofShares (pieces : List (List Edge)) (stamps : List Int64) (bound : UInt64) :
    Except Failure Dataset :=
  if pieces.length ≠ stamps.length then
    .error (.layout (.timestamps pieces.length stamps.length))
  else .ok ⟨bound, List.zipWith Batch.mk pieces stamps⟩

def edges (dataset : Dataset) : List Edge := dataset.batches.flatMap Batch.edges

def batch (dataset : Dataset) (index : Nat) : Except Failure Batch :=
  match dataset.batches[index]? with
  | some batch => .ok batch
  | none => .error (.noSuchBatch index dataset.batches.length)

def threshold (dataset : Dataset) (index : Nat) (width : Int64) : Except Failure Int64 := do
  return (← dataset.batch index).threshold width

end Dataset

end StreamGraph
