import StreamGraph.Shard

/-!
The sliding window. Edges older than a threshold are dropped; the threshold follows the newest
timestamp of each batch at the distance of the window's width and never moves back.
-/

namespace StreamGraph

namespace Shard

def evictOlderThan (shard : Shard) (threshold : Int64) : Nat × Shard :=
  shard.retain fun _ attrs => decide (threshold ≤ attrs.timestamp)

end Shard

structure RetentionWindow where
  width : Int64
  deletes : Bool
  deriving DecidableEq, Inhabited

namespace RetentionWindow

/-- The window of a signed number: its distance from zero is the width, and a negative number
asks for deletions. -/
def ofSigned (number : Int64) : RetentionWindow where
  width := Saturation.abs number
  deletes := decide (number < 0)

def thresholdFor (window : RetentionWindow) (newest : Int64) : Int64 :=
  Saturation.sub newest window.width

end RetentionWindow

/-- The highest threshold of a trial so far. -/
structure Retention where
  threshold : Int64
  deriving DecidableEq, Inhabited

namespace Retention

/-- Before the first eviction nothing is too old. -/
def start : Retention := ⟨Int64.minValue⟩

/-- Moves the threshold forward to a candidate, and never back. -/
def advance (retention : Retention) (candidate : Int64) : Retention :=
  ⟨max retention.threshold candidate⟩

end Retention

end StreamGraph
