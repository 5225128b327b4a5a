import StreamGraph.Edge
import StreamGraph.Failure
import StreamGraph.Text.Blank
import StreamGraph.Text.Decimal
import StreamGraph.Text.Utf8

/-!
Streams of edges as text, one edge on each line: source, destination, weight and timestamp with
blanks between them. Lines without words, and those that begin with `#` or `%`, are comments.
-/

namespace StreamGraph.Dataset.Text

def field {Value : Type} (name : String) (read : List Char → Option Value) :
    List (List Char) → Except RecordFault (Value × List (List Char))
  | [] => .error (.missing name)
  | word :: words =>
      match read word with
      | some value => .ok (value, words)
      | none => .error (.invalid name (String.ofList word))

def readEdge (words : List (List Char)) : Except RecordFault Edge := do
  let (src, words) ← field "source" Decimal.readWord words
  let (dst, words) ← field "destination" Decimal.readWord words
  let (weight, words) ← field "weight" Decimal.readSignedWord words
  let (timestamp, words) ← field "timestamp" Decimal.readSignedWord words
  if !words.isEmpty then throw .trailing
  if src = 0 ∨ dst = 0 then throw .reservedVertex
  return ⟨src, dst, weight, timestamp⟩

/-- Whether a line holds no edge by its first word. -/
def isComment (words : List (List Char)) : Bool :=
  match words with
  | (first :: _) :: _ => first == '#' || first == '%'
  | _ => true

def readLine (line : List Char) : Except RecordFault (Option Edge) :=
  let words := StreamGraph.Text.words line
  if isComment words then .ok none else (readEdge words).map some

/-- Reads lines, of which the first has the given number, up to the first that cannot be read. -/
def readLines (number : Nat) : List (List (Option Char)) → Except Failure (List Edge)
  | [] => .ok []
  | line :: lines => do
      let some chars := line.mapM id | throw (.io .notText)
      let edge ← (readLine chars).mapError (.malformed number)
      let others ← readLines (number + 1) lines
      return edge.toList ++ others

def read (bytes : Bytes) : Except Failure (List Edge) :=
  readLines 1 (StreamGraph.Text.lines (fun char => char == some '\n') (Utf8.decode bytes))

end StreamGraph.Dataset.Text
