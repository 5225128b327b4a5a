import StreamGraph.Shard

/-!
Folding updates into a shard. The merge adds up the weights of all updates to one pair of
endpoints and keeps their newest timestamp; the bulk load takes each update as it is, a later
one over an earlier one. The merge changes nothing unless every update may be held here; the
bulk load stops at the first that may not. In which order the merge meets updates to the same pair
is left open (`KeySort`).
-/

namespace StreamGraph

inductive IngestMode where
  /-- Updates add to what is stored. -/
  | incremental
  /-- Updates replace what is stored. -/
  | snapshot
  deriving DecidableEq, Inhabited

structure MergeStats where
  updated : Nat
  inserted : Nat
  consumed : Nat
  deriving DecidableEq, Inhabited

/-- A way to sort updates by their endpoints. Updates to one pair come out in any order. -/
structure KeySort where
  sort (updates : List Update) : List Update
  perm (updates : List Update) : (sort updates).Perm updates
  sorted (updates : List Update) : Update.Sorted (sort updates)

/-- Updates to one pair stay in the order in which they came. -/
def KeySort.stable : KeySort where
  sort updates := updates.mergeSort fun left right => EdgeKey.le left.key right.key
  perm updates := List.mergeSort_perm ..
  sorted updates := by
    apply List.pairwise_mergeSort
    · intro first second third
      exact EdgeKey.le_trans _ _ _
    · intro first second
      exact EdgeKey.le_total _ _

structure Ingestion where
  shard : Shard
  /-- The updates after the pass, with their marks. -/
  updates : List Update
  outcome : Except Failure MergeStats

namespace Shard

def firstFault (shard : Shard) (updates : List Update) : Option Failure :=
  updates.findSome? fun update =>
    match shard.check update.edge.src update.edge.dst with
    | .ok _ => none
    | .error failure => some failure

def runs (updates : List Update) : List (List Update) :=
  updates.splitBy fun left right => left.key == right.key

/-- Folds a run of updates to one pair of endpoints into the stored edge, and marks them. A run
without a stored edge is left as it is. -/
def absorbRun (shard : Shard) (run : List Update) : Option (Shard × List Update) :=
  match run with
  | [] => none
  | first :: _ =>
      let (src, dst) := first.key
      if shard.contains src dst then
        some (shard.modify src dst (Update.applyAll run), run.map Update.markDone)
      else none

/-- Folds every run with a stored edge in; answers also the number of these runs. -/
def absorbRuns (shard : Shard) : List (List Update) → Shard × List (List Update) × Nat
  | [] => (shard, [], 0)
  | run :: rest =>
      match shard.absorbRun run with
      | none =>
          let (after, runs, updated) := shard.absorbRuns rest
          (after, run :: runs, updated)
      | some (next, marked) =>
          let (after, runs, updated) := next.absorbRuns rest
          (after, marked :: runs, updated + 1)

def freshEdge (run : List Update) : Option Edge :=
  run.head?.map fun first =>
    let attrs := Update.applyAll run .fresh
    ⟨first.edge.src, first.edge.dst, attrs.weight, attrs.timestamp⟩

/-- Stores edges one after the other, counting them, up to the first that is refused. -/
def insertAll (shard : Shard) : List Edge → Shard × Except Failure Nat
  | [] => (shard, .ok 0)
  | edge :: rest =>
      match shard.insert edge with
      | .error failure => (shard, .error failure)
      | .ok (_, next) =>
          let (after, stored) := next.insertAll rest
          (after, stored.map (· + 1))

/-- Adds a list of updates to the shard. The updates come back sorted by their endpoints and
marked; if one of them is refused, shard and updates stay as they are. -/
def merge (shard : Shard) (order : KeySort) (updates : List Update) : Ingestion :=
  match shard.firstFault updates with
  | some failure => ⟨shard, updates, .error failure⟩
  | none =>
      let ordered := order.sort updates
      -- first the pairs of endpoints that are stored already, then the new ones
      let (absorbed, marked, updated) := shard.absorbRuns (runs ordered)
      let unmarked := marked.flatten.filter fun update => !update.done
      let (after, stored) := absorbed.insertAll ((runs unmarked).filterMap freshEdge)
      let finished := marked.flatten.map Update.markDone
      ⟨after, finished, stored.map fun inserted =>
        ⟨updated, inserted, finished.countP fun update => update.done⟩⟩

/-- Stores a list of updates as they are, in list order, up to the first that is refused. -/
def bulkLoad (shard : Shard) : List Update → Ingestion
  | [] => ⟨shard, [], .ok ⟨0, 0, 0⟩⟩
  | update :: rest =>
      match shard.insert update.edge with
      | .error failure => ⟨shard, update :: rest, .error failure⟩
      | .ok (replaced, next) =>
          let later := next.bulkLoad rest
          ⟨later.shard, update.markDone :: later.updates, later.outcome.map fun stats =>
            { stats with
              updated := stats.updated + if replaced.isSome then 1 else 0
              inserted := stats.inserted + if replaced.isSome then 0 else 1
              consumed := stats.consumed + 1 }⟩

def ingest (shard : Shard) (order : KeySort) (updates : List Update) : IngestMode → Ingestion
  | .incremental => shard.merge order updates
  | .snapshot => shard.bulkLoad updates

end Shard

end StreamGraph
