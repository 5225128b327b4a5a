import StreamGraph.Dataset
import StreamGraph.Dataset.Packed
import StreamGraph.Dataset.Text

/-!
Streams of edges in files. A file whose name ends in `.bin` holds packed records, any other text.
-/

namespace StreamGraph.Dataset

/-- The last component of a path; a path that ends with `..` names no file. -/
def fileName (path : List Char) : Option (List Char) :=
  match ((StreamGraph.Text.cut (· == '/') path).filter fun component =>
      !component.isEmpty && component != ['.']).getLast? with
  | some name => if name = ['.', '.'] then none else some name
  | none => none

/-- What follows the last point of a file's name, unless the point is its first character. -/
def extension (name : List Char) : Option (List Char) :=
  let pieces := StreamGraph.Text.cut (· == '.') name
  if pieces.length < 2 ∨ pieces.dropLast = [[]] then none else pieces.getLast?

def isPacked (path : String) : Bool :=
  ((fileName path.toList).bind extension) == some ['b', 'i', 'n']

def readFile (path : String) (contents : Except IoFault Bytes) : Except Failure (List Edge) := do
  let bytes ← contents.mapError Failure.io
  if isPacked path then Packed.read bytes else Text.read bytes

/-- The data set of a file, unless the evaluation breaks off. -/
def load (path : String) (contents : Except IoFault Bytes) (count : Nat)
    (bound : Option UInt64) : Option (Except Failure Dataset) :=
  match readFile path contents with
  | .error failure => some (.error failure)
  | .ok edges => ofEdges edges count bound

end StreamGraph.Dataset
