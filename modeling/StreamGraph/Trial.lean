import StreamGraph.Cluster
import StreamGraph.Dataset.Distribution
import StreamGraph.Dataset.File
import StreamGraph.Interchange

/-!
Playing a stream. For every batch the old edges go, the new ones come in, the stages run, and
each rank writes one line with the size of the graph. Every trial starts from an empty graph.
-/

namespace StreamGraph

structure Sink where
  lines : List String
  /-- How many more lines there is room for; without a number there is always room. -/
  room : Option Nat
  deriving DecidableEq, Inhabited

namespace Sink

def empty (room : Option Nat) : Sink := ⟨[], room⟩

def write (sink : Sink) (line : String) : Except Failure Unit × Sink :=
  match sink.room with
  | some 0 => (.error (.io (.refused "disk full")), sink)
  | room => (.ok (), ⟨sink.lines ++ [line], room.map (· - 1)⟩)

end Sink

structure BatchReport where
  batch : Nat
  threshold : Option Int64
  evicted : Nat
  inserted : Nat
  summary : GraphSummary
  deriving DecidableEq, Inhabited

structure TrialReport where
  trial : Nat
  batches : List BatchReport
  deriving DecidableEq, Inhabited

namespace Trial

variable {generator : Generator}

structure State (generator : Generator) where
  graph : ClusterGraph generator
  sink : Sink

def thresholdAt (settings : RunSettings) (batch : Batch) : Option Int64 :=
  if settings.window.deletes then some (batch.threshold settings.window.width) else none

def evictBefore (threshold : Option Int64) (graph : ClusterGraph generator) :
    Plan (Nat × ClusterGraph generator) :=
  match threshold with
  | none => return (0, graph)
  | some threshold => graph.evict threshold

def playBatch (settings : RunSettings) (index : Nat) (batch : Batch) (state : State generator) :
    Plan (Except Failure BatchReport × State generator) := do
  let threshold := thresholdAt settings batch
  let (evicted, graph) ← evictBefore threshold state.graph
  let (stored, graph) ← graph.insert batch.edges
  match stored with
  | .error failure => return (.error failure, { state with graph })
  | .ok stats =>
      let (analyzed, graph) ← graph.analyzeAll settings.algorithms
      match analyzed with
      | .error failure => return (.error failure, { state with graph })
      | .ok () =>
          match ← graph.summary.run with
          | .error failure => return (.error failure, { state with graph })
          | .ok summary =>
              let (written, sink) := state.sink.write (Interchange.write summary)
              return (written.map fun _ => ⟨index, threshold, evicted, stats.inserted, summary⟩,
                { graph, sink })

/-- Plays batches, of which the first has the given number, up to the first that fails. -/
def playBatches (settings : RunSettings) (index : Nat) (state : State generator) :
    List Batch → Plan (Except Failure (List BatchReport) × State generator)
  | [] => return (.ok [], state)
  | batch :: batches => do
      let (played, after) ← playBatch settings index batch state
      match played with
      | .error failure => return (.error failure, after)
      | .ok report =>
          let (others, last) ← playBatches settings (index + 1) after batches
          return (others.map (report :: ·), last)

/-- Plays trials, of which the first has the given number; each has orders of its own. -/
def playTrials (generator : Generator) (orders : Nat → Orders) (settings : RunSettings)
    (member : Member) (dataset : Dataset) :
    (count trial : Nat) → Sink → Plan (Except Failure (List TrialReport) × Sink)
  | 0, _, sink => return (.ok [], sink)
  | count + 1, trial, sink => do
      let graph := ClusterGraph.empty generator (orders trial) member dataset.bound settings.graph
      let (played, state) ← playBatches settings 0 ⟨graph, sink⟩ dataset.batches
      match played with
      | .error failure => return (.error failure, state.sink)
      | .ok batches =>
          let (others, last) ←
            playTrials generator orders settings member dataset count (trial + 1) state.sink
          return (others.map (⟨trial, batches⟩ :: ·), last)

def run (generator : Generator) (orders : Nat → Orders) (settings : RunSettings)
    (member : Member) (dataset : Dataset) (sink : Sink) :
    Plan (Except Failure (List TrialReport) × Sink) :=
  playTrials generator orders settings member dataset settings.trials 0 sink

/-- Shares out what the coordinator loaded, and plays all trials; the other ranks have loaded
nothing. When loading failed, the coordinator fails with that failure and every other rank with its
own. -/
def runLoaded (generator : Generator) (orders : Nat → Orders) (settings : RunSettings)
    (member : Member) (loaded : Option (Except Failure Dataset)) (sink : Sink) :
    Plan (Except Failure (List TrialReport) × Sink) := do
  let shared ←
    (Dataset.distribute member (loaded.bind Except.toOption) settings.batches).run
  match loaded, shared with
  | some (.error failure), _ => return (.error failure, sink)
  | _, .error failure => return (.error failure, sink)
  | _, .ok dataset => run generator orders settings member dataset sink

/-- The run of a file that the coordinator reads. If loading breaks off, so does the coordinator,
before it has told the others anything. -/
def runFile (generator : Generator) (orders : Nat → Orders) (settings : RunSettings)
    (contents : Except IoFault Bytes) (member : Member) (sink : Sink) :
    Plan (Except Failure (List TrialReport) × Sink) :=
  if member.isCoordinator then
    match Dataset.load settings.path contents settings.batches settings.bound with
    | none => .broken
    | some loaded => runLoaded generator orders settings member (some loaded) sink
  else runLoaded generator orders settings member none sink

end Trial

end StreamGraph
