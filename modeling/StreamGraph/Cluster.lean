import StreamGraph.Routing
import StreamGraph.Settings

/-!
One rank's part of the distributed graph. All ranks call the same operations in the same order.
An operation that fails says so beside the state that it leaves behind, which is not always the
state it found: a refused bulk load keeps what it stored, and a picker never goes back.
-/

namespace StreamGraph

/-- The orders that a rank does not choose: how a batch is sorted, and how the rank comes across its
edges when a number of batches has come in. They need not be those of another rank. -/
structure Orders where
  sort (batch : Nat) : KeySort
  scan (batches : Nat) (shard : Shard) : Scan shard

def Orders.ascending : Orders where
  sort _ := .stable
  scan _ := .ascending

structure ClusterGraph (generator : Generator) where
  member : Member
  shard : Shard
  settings : GraphSettings
  retention : Retention
  picker : SourcePicker generator
  inserted : Nat
  orders : Orders

namespace ClusterGraph

variable {generator : Generator}

def empty (generator : Generator) (orders : Orders) (member : Member) (bound : UInt64)
    (settings : GraphSettings) : ClusterGraph generator where
  member := member
  shard := .empty member.rank (settings.layout.build member.size bound) bound
  settings := settings
  retention := .start
  picker := .ofSeed generator settings.seed
  inserted := 0
  orders := orders

/-- Drops the edges older than the highest threshold so far; answers how many this rank had. -/
def evict (graph : ClusterGraph generator) (threshold : Int64) :
    Plan (Nat × ClusterGraph generator) := do
  let retention := graph.retention.advance threshold
  let (removed, shard) := graph.shard.evictOlderThan retention.threshold
  Plan.meet
  return (removed, { graph with shard, retention })

/-- How the next batch goes in: the first may be stored as it is. -/
def nextMode (graph : ClusterGraph generator) : IngestMode :=
  if graph.inserted = 0 ∧ graph.settings.snapshotFirst then .snapshot else .incremental

/-- How the next batch is sorted. -/
def nextSort (graph : ClusterGraph generator) : KeySort := graph.orders.sort graph.inserted

/-- How the rank comes across its edges now. -/
def scan (graph : ClusterGraph generator) : Scan graph.shard :=
  graph.orders.scan graph.inserted graph.shard

/-- Brings this rank's share of a batch to the owners and takes in what this rank owns. -/
def insert (graph : ClusterGraph generator) (edges : List Edge) :
    Plan (Except Failure MergeStats × ClusterGraph generator) := do
  let arrived ← (Routing.exchange graph.member graph.shard.partition graph.shard.bound
    (edges.map fun edge => { edge })).run
  match arrived with
  | .error failure => return (.error failure, graph)
  | .ok mine =>
      let ingestion := graph.shard.ingest graph.nextSort mine graph.nextMode
      let after := { graph with shard := ingestion.shard }
      match ingestion.outcome with
      | .error failure => return (.error failure, after)
      | .ok stats =>
          Plan.meet
          return (.ok stats, { after with inserted := graph.inserted + 1 })

def pickSources (graph : ClusterGraph generator) :
    Plan (Except Failure (List VertexId) × ClusterGraph generator) := do
  match graph.settings.selection with
  | .random =>
      let (chosen, picker) ← graph.picker.choose graph.shard
      return (chosen.map fun vertex => [vertex], { graph with picker })
  | .highestDegree =>
      let highest ← (Query.highestDegreeVertex graph.shard).run
      let chosen := match highest with
        | .error failure => .error failure
        | .ok none => .error (.noUsableSource 1)
        | .ok (some vertex) => .ok [vertex]
      return (chosen, graph)

/-- Runs a stage from given sources, and waits for all ranks if it succeeds. -/
def runFrom (graph : ClusterGraph generator) (algorithm : Algorithm) (sources : List VertexId) :
    Plan (Except Failure VertexValues) := do
  match ← (algorithm.run graph.scan sources).run with
  | .error failure => return .error failure
  | .ok values =>
      Plan.meet
      return .ok values

def analyze (graph : ClusterGraph generator) (algorithm : Algorithm) :
    Plan (Except Failure VertexValues × ClusterGraph generator) := do
  if algorithm.needsSources then
    let (chosen, after) ← graph.pickSources
    match chosen with
    | .error failure => return (.error failure, after)
    | .ok sources => return (← after.runFrom algorithm sources, after)
  else
    return (← graph.runFrom algorithm [], graph)

/-- Runs stages one after the other, up to the first that fails. -/
def analyzeAll (graph : ClusterGraph generator) : List Algorithm →
    Plan (Except Failure Unit × ClusterGraph generator)
  | [] => return (.ok (), graph)
  | algorithm :: others => do
      let (outcome, after) ← graph.analyze algorithm
      match outcome with
      | .error failure => return (.error failure, after)
      | .ok _ => after.analyzeAll others

def summary (graph : ClusterGraph generator) : Collective GraphSummary :=
  GraphSummary.collect graph.member graph.shard

end ClusterGraph

end StreamGraph
