import StreamGraph.Vertex

/-!
Everything that can go wrong, by cause. The wording of each failure is a function of its cause
and of nothing else; `Failure.isConfiguration` separates what the user asked for wrongly from
what went wrong while running.
-/

namespace StreamGraph

inductive ArgumentFault where
  | unknownLayout (text : String)
  | unknownSelection (text : String)
  | noBatches
  | notPositive (name : String) (value : Int64)
  | emptyWindow
  | bucketWidth (width : Int64)
  | noSources (algorithm : String)
  deriving DecidableEq

namespace ArgumentFault

def name : ArgumentFault → String
  | unknownLayout _ => "partition"
  | unknownSelection _ => "source_selection"
  | noBatches => "num_batches"
  | notPositive name _ => name
  | emptyWindow => "window_size"
  | bucketWidth _ => "delta"
  | noSources _ => "sources"

def reason : ArgumentFault → String
  | unknownLayout text => "unknown partition scheme `" ++ text ++ "`"
  | unknownSelection text => "unknown source selection `" ++ text ++ "`"
  | noBatches => "must be positive"
  | notPositive _ value => "must be positive, got " ++ toString value.toInt
  | emptyWindow => "must be non-zero"
  | bucketWidth width => "bucket width must be positive, got " ++ toString width.toInt
  | noSources algorithm => algorithm ++ " needs at least one source vertex"

end ArgumentFault

inductive LinkFault where
  | noCount
  /-- The announced records would take more bytes than a word can count. -/
  | oversized (count : Nat)
  | noPayload
  deriving DecidableEq

inductive LayoutFault where
  | pieces (needed got : Nat)
  | counts (total : UInt64) (records : Nat)
  /-- A rank's vector is longer or shorter than that of rank zero. -/
  | contribution (rank length expected : Nat)
  /-- The vertices are shared out over another number of ranks. -/
  | ranks (parts size : Nat)
  | timestamps (pieces stamps : Nat)
  | noDataset
  | batches (announced expected : Nat)
  deriving DecidableEq

inductive RecordFault where
  | missing (field : String)
  | invalid (field text : String)
  | trailing
  | reservedVertex
  | partialRecord (fileLength recordLength : Nat)
  deriving DecidableEq

inductive IoFault where
  | noSuchFile
  | notText
  /-- Any other refusal, in the system's own words. -/
  | refused (text : String)
  deriving DecidableEq

inductive Failure where
  | unknownAlgorithm (name : String)
  | invalidArgument (fault : ArgumentFault)
  | foreignSource (src : VertexId) (owner rank : Nat)
  | vertexOutOfRange (vertex : VertexId) (bound : UInt64)
  | peerRejected (rank : Nat)
  | link (peer : Nat) (fault : LinkFault)
  | messageLength (peer expected got : Nat)
  | layout (fault : LayoutFault)
  /-- A record of a data set cannot be read; lines and records are counted from one. -/
  | malformed (line : Nat) (fault : RecordFault)
  | noSuchBatch (index count : Nat)
  | noUsableSource (tries : Nat)
  | io (fault : IoFault)
  deriving DecidableEq

namespace LinkFault

def message (peer : Nat) : LinkFault → String
  | noCount => s!"failed to receive size from rank {peer}"
  | oversized count => s!"payload of {count} records from rank {peer} overflows"
  | noPayload => "No data received (wait returned None)"

end LinkFault

namespace LayoutFault

def message : LayoutFault → String
  | pieces needed got => s!"scatter needs {needed} pieces, got {got}"
  | counts total records =>
      "allgather counts sum to " ++ toString total.toNat ++ s!" but {records} records arrived"
  | contribution rank length expected =>
      s!"rank {rank} contributed {length} elements, expected {expected}"
  | ranks owners size => s!"partition has {owners} parts but the group has {size} ranks"
  | timestamps given stamps => s!"{given} batch pieces but {stamps} batch timestamps"
  | noDataset => "coordinator has no dataset to distribute"
  | batches announced expected =>
      s!"coordinator announced {announced} batches, expected {expected}"

end LayoutFault

namespace RecordFault

def message : RecordFault → String
  | missing field => "missing " ++ field
  | invalid field text => "invalid " ++ field ++ ": " ++ text
  | trailing => "trailing fields"
  | reservedVertex => "vertex id 0 is reserved"
  | partialRecord fileLength recordLength =>
      s!"file length {fileLength} is not a multiple of {recordLength} bytes"

end RecordFault

namespace IoFault

def message : IoFault → String
  | noSuchFile => "No such file or directory (os error 2)"
  | notText => "stream did not contain valid UTF-8"
  | refused text => text

end IoFault

namespace Failure

def message : Failure → String
  | unknownAlgorithm name => "Algorithm " ++ name ++ " not implemented"
  | invalidArgument fault => "Invalid argument `" ++ fault.name ++ "`: " ++ fault.reason
  | foreignSource src owner rank =>
      s!"Ownership violation: rank {rank} asked to store edge from vertex " ++
        toString src.toNat ++ s!" owned by rank {owner}"
  | vertexOutOfRange vertex bound =>
      "Vertex " ++ toString vertex.toNat ++ " out of range (must be non-zero and < " ++
        toString bound.toNat ++ ")"
  | peerRejected rank => s!"Batch rejected by rank {rank}"
  | link peer fault => s!"Communication error with rank {peer}: " ++ fault.message peer
  | messageLength peer expected got =>
      s!"Buffer size mismatch from rank {peer}: expected {expected} bytes, got {got}"
  | layout fault => "Collective layout error: " ++ fault.message
  | malformed line fault => s!"Dataset parse error at line {line}: " ++ fault.message
  | noSuchBatch index count => s!"Batch {index} out of range (dataset has {count} batches)"
  | noUsableSource tries =>
      s!"No vertex with non-zero out-degree found after {tries} candidates"
  | io fault => "I/O error: " ++ fault.message

/-- Whether the user's choices, and not the run, are at fault. -/
def isConfiguration : Failure → Bool
  | unknownAlgorithm _ => true
  | invalidArgument _ => true
  | _ => false

end Failure

end StreamGraph
