import StreamGraph.Failure
import StreamGraph.Saturation

/-!
Which rank owns which vertex. The rule is a function of the vertex and of the layout alone, so
every rank evaluates it by itself and all get the same answer. An edge belongs to the owner of
its source.
-/

namespace StreamGraph

inductive Layout where
  /-- Neighbouring numbers go to neighbouring ranks, round and round. -/
  | cyclic
  /-- Each rank has one run of consecutive numbers. -/
  | block
  deriving DecidableEq, Inhabited

def Layout.ofName (text : String) : Except Failure Layout :=
  if text = "cyclic" ∨ text = "round-robin" then .ok .cyclic
  else if text = "block" then .ok .block
  else .error (.invalidArgument (.unknownLayout text))

inductive Partition where
  /-- Vertex `v` goes to rank `v % parts`. -/
  | cyclic (parts : Nat)
  /-- Vertices below `bound` are cut into runs of equal length. -/
  | block (parts : Nat) (bound : UInt64)
  deriving DecidableEq, Inhabited

/-- The sharing over `parts` ranks of the vertices below `bound`; there is at least one part. -/
def Layout.build (layout : Layout) (parts : Nat) (bound : UInt64) : Partition :=
  match layout with
  | .cyclic => .cyclic (max parts 1)
  | .block => .block (max parts 1) bound

namespace Partition

/-- The length of a run when `bound` vertices are cut for `parts` ranks: the least that covers
all of them, and never zero. -/
def runLength (parts : Nat) (bound : UInt64) : Nat :=
  max 1 ((bound.toNat + parts - 1) / parts)

def parts : Partition → Nat
  | cyclic parts => parts
  | block parts _ => parts

/-- The rank that owns a vertex. Numbers beyond the bound of a block layout go to the last
rank. -/
def owner (partition : Partition) (vertex : VertexId) : Nat :=
  match partition with
  | cyclic parts => vertex.toNat % parts
  | block parts bound => min (vertex.toNat / runLength parts bound) (parts - 1)

def ownerWithin (partition : Partition) (vertex : VertexId) (bound : UInt64) :
    Except Failure Nat :=
  if vertex.isEndpoint bound then .ok (partition.owner vertex)
  else .error (.vertexOutOfRange vertex bound)

/-- The vertices from a number on, below a bound, in steps of equal width. -/
def stepping (start width : Nat) (bound : UInt64) : List VertexId :=
  (List.range ((bound.toNat - start + (width - 1)) / width)).map fun turn =>
    UInt64.ofNat (start + turn * width)

/-- Where the run of a rank begins when `bound` vertices are cut for `parts` ranks, or the bound
if that is less. -/
def runStart (parts : Nat) (bound : UInt64) (rank : Nat) : UInt64 :=
  min (Saturation.clampUnsigned (rank * runLength parts bound)) bound

/-- Where the run of a rank ends. The last rank has everything that is left. -/
def runStop (parts : Nat) (bound : UInt64) (rank : Nat) : UInt64 :=
  if rank + 1 = parts then bound
  else
    let start := runStart parts bound rank
    min (Saturation.clampUnsigned (start.toNat + runLength parts bound)) bound

/-- The vertices below `bound` that `rank` owns, in ascending order. -/
def owned (partition : Partition) (rank : Nat) (bound : UInt64) : List VertexId :=
  match partition with
  | cyclic parts => stepping rank parts bound
  | block parts _ => stepping (runStart parts bound rank).toNat 1 (runStop parts bound rank)

end Partition

end StreamGraph
