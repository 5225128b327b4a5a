import StreamGraph.Query
import StreamGraph.Random

/-!
Choosing where a traversal starts. All ranks draw the same candidates from generators in the
same state, and ask together whether a candidate has an outgoing edge anywhere; so they agree on
the choice without telling each other.
-/

namespace StreamGraph

structure SourcePicker (generator : Generator) where
  state : generator.State
  maxTries : Nat

namespace SourcePicker

variable {generator : Generator}

def defaultSeed : UInt64 := 42

def defaultTries : Nat := 10000

def tag : Tag := 0x0400

def ofSeed (generator : Generator) (seed : UInt64) : SourcePicker generator :=
  ⟨generator.ofSeed seed, defaultTries⟩

/-- Draws candidates until one has an outgoing edge, at most `tries` of them. The generator goes
on from its last draw, whatever came of it. -/
def search (shard : Shard) : Nat → generator.State →
    Plan (Except Failure (Option VertexId) × generator.State)
  | 0, state => return (.ok none, state)
  | tries + 1, state => do
      let (candidate, after) := generator.endpoint shard.bound state
      let degree ← (Collective.maximum 0 tag
        (UInt64.ofNat (Query.localDegree shard candidate))).run
      match degree with
      | .error failure => return (.error failure, after)
      | .ok degree =>
          if 0 < degree then return (.ok (some candidate), after)
          search shard tries after

/-- Chooses a vertex with an outgoing edge. A graph without room for an edge is refused before
anything is drawn. -/
def choose (picker : SourcePicker generator) (shard : Shard) :
    Plan (Except Failure VertexId × SourcePicker generator) := do
  if shard.bound ≤ 1 then
    return (.error (.noUsableSource 0), picker)
  let (found, state) ← search shard picker.maxTries picker.state
  let chosen := match found with
    | .error failure => .error failure
    | .ok none => .error (.noUsableSource picker.maxTries)
    | .ok (some vertex) => .ok vertex
  return (chosen, { picker with state })

end SourcePicker

end StreamGraph
