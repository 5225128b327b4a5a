import StreamGraph.Analytics.Traversal

/-!
Weakly connected components. Every vertex starts with its own number as its label; along each
edge the smaller label is proposed for the other end, until no rank has anything to propose.
-/

namespace StreamGraph.Components

def tag : Tag := 0x0540

def start (bound : UInt64) : Labels :=
  ((List.range bound.toNat).map Int64.ofNat).toArray

/-- The labels that an edge lowers. -/
def lower (labels : Labels) (edge : Edge) : Option Proposal :=
  let source := labels.of edge.src
  let target := labels.of edge.dst
  if source < target then some ⟨edge.dst, source⟩
  else if target < source then some ⟨edge.src, target⟩
  else none

def accept (labels : Labels) (proposal : Proposal) : Labels :=
  labels.put proposal.vertex (min (labels.of proposal.vertex) proposal.value)

variable {shard : Shard}

/-- One round of proposals; the answer when there are none. -/
def advance (scan : Scan shard) (labels : Labels) : Collective (Labels ⊕ Labels) := do
  let proposals ← Traversal.propose tag (scan.edges.filterMap (lower labels))
  if proposals.isEmpty then
    return .inr labels
  return .inl (proposals.foldl accept labels)

def runAlong (scan : Scan shard) : Collective Labels :=
  Collective.repeatUntil (advance scan) (start shard.bound)

/-- The smallest number in the component of each vertex. -/
def run (shard : Shard) : Collective Labels := runAlong (.ascending shard)

end StreamGraph.Components
