import StreamGraph.Analytics.Scalar
import StreamGraph.Analytics.Traversal

/-!
PageRank by repeated spreading. In each round every vertex passes its mass on in equal shares
along its edges; the mass of vertices without edges is spread evenly over all. Each rank spreads
the mass of the vertices that it owns, and the contributions of all ranks are added up.
-/

namespace StreamGraph.PageRank

variable {Scalar : Type} [Add Scalar] [Sub Scalar] [Mul Scalar] [Div Scalar] [NatCast Scalar]
  [OfNat Scalar 0] [OfNat Scalar 1]

def tag : Tag := 0x0560

structure Options (Scalar : Type) where
  rounds : Nat
  /-- The part of the mass that follows the edges. -/
  damping : Scalar

/-- Twenty rounds; seventeen twentieths follow the edges. -/
def Options.standard : Options Float := ⟨20, 0.85⟩

structure Outflow (Scalar : Type) where
  arriving : Array Scalar
  dangling : Scalar

def spread {shard : Shard} (scan : Scan shard) (mass : Array Scalar) (flow : Outflow Scalar)
    (vertex : VertexId) : Outflow Scalar :=
  let own := mass.getD vertex.toNat 0
  let degree := shard.outDegree vertex
  if degree = 0 then { flow with dangling := flow.dangling + own }
  else
    let share := own / (degree : Scalar)
    { flow with
      arriving := (scan.outEdges vertex).foldl (fun arriving edge =>
        addAt arriving edge.1.toNat share) flow.arriving }

/-- What a rank passes on of the mass of its vertices. -/
def outflow {shard : Shard} (scan : Scan shard) (mass : Array Scalar) : Outflow Scalar :=
  (shard.partition.owned shard.rank shard.bound).foldl (spread scan mass)
    ⟨Array.replicate shard.bound.toNat 0, 0⟩

/-- The mass of each vertex after a round: what every vertex gets, and what arrived. -/
def settle (options : Options Scalar) (base : Scalar) (mass arrived : Array Scalar) :
    Array Scalar :=
  mass.mapIdx fun vertex own =>
    if vertex = 0 then own
    else match arrived[vertex]? with
      | some amount => base + options.damping * amount
      | none => own

variable [Record Scalar] {shard : Shard}

def advance (scan : Scan shard) (options : Options Scalar) (mass : Array Scalar) :
    Collective (Array Scalar) := do
  let vertices : Scalar := ((shard.bound.toNat - 1 : Nat) : Scalar)
  let flow := outflow scan mass
  let arrived ← Collective.reduceEach tag (· + ·) flow.arriving.toList
  let dangling ← Collective.sum (tag.offset 4) flow.dangling
  -- what every vertex gets: its part of the fixed mass, and of the mass that had no edge to follow
  let base := (1 - options.damping) / vertices + options.damping * dangling / vertices
  return settle options base mass arrived.toArray

def rounds (scan : Scan shard) (options : Options Scalar) : Nat → Array Scalar →
    Collective (Array Scalar)
  | 0, mass => return mass
  | count + 1, mass => do rounds scan options count (← advance scan options mass)

/-- The mass of each vertex at the start: the same for all but vertex zero, which has none. -/
def start (bound : UInt64) : Array Scalar :=
  (Array.replicate bound.toNat (1 / ((bound.toNat - 1 : Nat) : Scalar))).setIfInBounds 0 0

/-- The mass of each vertex in the end. A graph without room for an edge has no mass. -/
def runAlong (scan : Scan shard) (options : Options Scalar) : Collective (Array Scalar) := do
  if shard.bound ≤ 1 then
    return Array.replicate shard.bound.toNat 0
  rounds scan options options.rounds (start shard.bound)

def run (shard : Shard) (options : Options Scalar) : Collective (Array Scalar) :=
  runAlong (.ascending shard) options

end StreamGraph.PageRank
