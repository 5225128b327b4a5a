import StreamGraph.Failure
import StreamGraph.Record

/-!
Streams of edges as packed records, one after the other and nothing between them.
-/

namespace StreamGraph.Dataset.Packed

def write (edges : List Edge) : Bytes := Record.encodeMany edges

/-- Refuses an edge with an end at vertex zero; `number` counts the records from one. -/
def checkFrom (number : Nat) : List Edge → Except Failure Unit
  | [] => .ok ()
  | edge :: edges =>
      if edge.src = 0 ∨ edge.dst = 0 then .error (.malformed number .reservedVertex)
      else checkFrom (number + 1) edges

def read (bytes : Bytes) : Except Failure (List Edge) := do
  let size := Record.size Edge
  if bytes.length % size ≠ 0 then
    throw (.malformed (bytes.length / size + 1) (.partialRecord bytes.length size))
  let edges : List Edge := Record.decodeMany (bytes.length / size) bytes
  checkFrom 1 edges
  return edges

end StreamGraph.Dataset.Packed
