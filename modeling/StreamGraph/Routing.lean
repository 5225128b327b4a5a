import StreamGraph.Collective
import StreamGraph.Ownership

/-!
Bringing updates to the ranks that own their sources. A batch is sorted by owner, keeping the
order of updates to one owner, and each rank gets its run. All ranks first agree that every
update is in range, so a bad vertex stops the batch everywhere before any update travels.
-/

namespace StreamGraph

/-- The updates of a batch, sorted by owner. -/
structure OwnerRuns where
  updates : List Update
  counts : List Nat
  deriving DecidableEq

namespace OwnerRuns

def run (runs : OwnerRuns) (rank : Nat) : List Update :=
  (runs.updates.drop ((runs.counts.take rank).foldl (· + ·) 0)).take (runs.counts.getD rank 0)

def none (ranks : Nat) : OwnerRuns := ⟨[], List.replicate ranks 0⟩

end OwnerRuns

namespace Partition

/-- The first end of an edge, in list order and the source first, that is no endpoint. -/
def firstOutside (bound : UInt64) (updates : List Update) : Option VertexId :=
  (updates.flatMap fun update => [update.edge.src, update.edge.dst]).find? fun vertex =>
    !vertex.isEndpoint bound

/-- Sorts a batch by owner; one end out of range refuses the whole batch. -/
def split (partition : Partition) (bound : UInt64) (updates : List Update) :
    Except Failure OwnerRuns :=
  match firstOutside bound updates with
  | some vertex => .error (.vertexOutOfRange vertex bound)
  | none =>
      let owner (update : Update) := partition.owner update.edge.src
      .ok {
        updates := updates.mergeSort fun left right => decide (owner left ≤ owner right)
        counts := (List.range partition.parts).map fun rank =>
          updates.countP fun update => owner update == rank }

end Partition

namespace Routing

def tag : Tag := 0x0200

/-- The word by which a rank says that its part of a batch is in order. -/
def accepted : UInt64 := 18446744073709551615

def checkLayout (member : Member) (partition : Partition) : Collective Unit := do
  if partition.parts ≠ member.size then
    throw (.layout (.ranks partition.parts member.size))

/-- Agrees with all ranks whether each of them is ready. A rank that is not keeps its own
failure; the others learn the lowest such rank. -/
def agree {Value : Type} (member : Member) (tag : Tag) (mine : Except Failure Value) :
    Collective Value := do
  -- the minimum of these flags is one above the lowest rank that is not ready
  let flag := match mine with
    | .ok _ => accepted
    | .error _ => UInt64.ofNat member.rank + 1
  let lowest ← Collective.minimum accepted tag flag
  match mine with
  | .error failure => throw failure
  | .ok value =>
      if lowest ≠ accepted then throw (.peerRejected (lowest - 1).toNat)
      return value

/-- Hands the root's runs to their owners; only the root passes some. -/
def route (member : Member) (root : Nat) (runs : Option OwnerRuns) (tag : Tag) :
    Collective (List Update) := do
  let own := runs.getD (.none member.size)
  let arrived ← Collective.scatter tag root
    ((List.range member.size).map fun rank => (own.run rank).map Update.edge)
  -- the root keeps its own run as it was; what travels arrives without marks
  if member.rank = root then return own.run root
  return arrived.map fun edge => { edge }

/-- Hands the updates of one root to their owners; what the other ranks pass is ignored. -/
def distribute (member : Member) (partition : Partition) (bound : UInt64) (root : Nat)
    (updates : List Update) : Collective (List Update) := do
  checkLayout member partition
  let mine :=
    if member.rank = root then (partition.split bound updates).map some else .ok none
  route member root (← agree member (tag.offset 2) mine) tag

/-- Each rank in turn hands its runs to their owners; the updates of lower ranks come first. -/
def routeAll (member : Member) (runs : OwnerRuns) (tag : Tag) : List Nat →
    Collective (List Update)
  | [] => return []
  | root :: others => do
      let first ← route member root (if root = member.rank then some runs else none) tag
      let later ← routeAll member runs tag others
      return first ++ later

/-- Every rank contributes a slice of a batch and gets the updates it owns from all slices. -/
def exchange (member : Member) (partition : Partition) (bound : UInt64) (slice : List Update) :
    Collective (List Update) := do
  checkLayout member partition
  let runs ← agree member (tag.offset 6) (partition.split bound slice)
  routeAll member runs (tag.offset 4) (List.range member.size)

end Routing

end StreamGraph
