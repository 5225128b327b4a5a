import StreamGraph.Query
import StreamGraph.Settings
import StreamGraph.Text.Json

/-!
The types of the library in JSON notation. A structure is read from its members in any order, or
from the list of its fields; members of other names are passed over, but each field has to be
there once. A variant is its name, followed by its fields if it has any.
-/

namespace StreamGraph

class Interchange (Value : Type) where
  ofJson : Json → Option Value
  write : Value → String

namespace Interchange

def read {Value : Type} [Interchange Value] (text : String) : Option Value :=
  (Json.read text).bind ofJson

def valuesOf (entries : List (Option String × Json)) (name : String) : List Json :=
  (entries.filter fun entry => entry.1 == some name).map Prod.snd

/-- The fields of a structure, in the order of their names. -/
def fields (names : List String) : Json → Option (List Json)
  | .list items => if items.length = names.length then some items else none
  | .members entries =>
      if entries.any fun entry => entry.1.isNone then none
      else names.mapM fun name => match valuesOf entries name with
        | [value] => some value
        | _ => none
  | _ => none

/-- The name and the fields of a variant; a variant without fields has none or the word `null`. -/
def variant : Json → Option (String × Option Json)
  | .string (some name) => some (name, none)
  | .members [(some name, content)] => some (name, some content)
  | _ => none

def plainVariant {Value : Type} (names : List (String × Value)) (json : Json) : Option Value :=
  match variant json with
  | some (name, none) => names.lookup name
  | some (name, some .null) => names.lookup name
  | _ => none

/-- A written string; the names of this module need no escapes. -/
def quote (name : String) : String := "\"" ++ name ++ "\""

def writeFields (fields : List (String × String)) : String :=
  "\x7b" ++ ",".intercalate (fields.map fun (name, value) => quote name ++ ":" ++ value) ++ "\x7d"

def word : Json → Option UInt64
  | .whole value =>
      if 0 ≤ value ∧ value < UInt64.size then some (UInt64.ofNat value.toNat) else none
  | _ => none

def signedWord : Json → Option Int64
  | .whole value =>
      if Saturation.least ≤ value ∧ value ≤ Saturation.greatest then some (Int64.ofInt value)
      else none
  | _ => none

def truth : Json → Option Bool
  | .bool value => some value
  | _ => none

def writeWord (value : UInt64) : String := toString value.toNat

def writeSigned (value : Int64) : String := toString value.toInt

def writeTruth (value : Bool) : String := if value then "true" else "false"

instance : Interchange VertexId where
  ofJson := word
  write := writeWord

instance : Interchange Edge where
  ofJson json := do
    match ← fields ["src", "dst", "weight", "timestamp"] json with
    | [src, dst, weight, timestamp] =>
        return ⟨← word src, ← word dst, ← signedWord weight, ← signedWord timestamp⟩
    | _ => none
  write edge := writeFields [("src", writeWord edge.src), ("dst", writeWord edge.dst),
    ("weight", writeSigned edge.weight), ("timestamp", writeSigned edge.timestamp)]

instance : Interchange Attrs where
  ofJson json := do
    match ← fields ["weight", "timestamp"] json with
    | [weight, timestamp] => return ⟨← signedWord weight, ← signedWord timestamp⟩
    | _ => none
  write attrs := writeFields [("weight", writeSigned attrs.weight),
    ("timestamp", writeSigned attrs.timestamp)]

instance : Interchange Partition where
  ofJson json := do
    let (name, content) ← variant json
    if name = "Cyclic" then
      match ← fields ["n_parts"] (← content) with
      | [parts] => return .cyclic (← word parts).toNat
      | _ => none
    else if name = "Block" then
      match ← fields ["n_parts", "max_vertex_id"] (← content) with
      | [parts, bound] => return .block (← word parts).toNat (← word bound)
      | _ => none
    else none
  write
    | .cyclic parts =>
        writeFields [("Cyclic", writeFields [("n_parts", toString parts)])]
    | .block parts bound =>
        writeFields [("Block", writeFields [("n_parts", toString parts),
          ("max_vertex_id", writeWord bound)])]

instance : Interchange Layout where
  ofJson := plainVariant [("Cyclic", .cyclic), ("Block", .block)]
  write
    | .cyclic => quote "Cyclic"
    | .block => quote "Block"

instance : Interchange IngestMode where
  ofJson := plainVariant [("Incremental", .incremental), ("Snapshot", .snapshot)]
  write
    | .incremental => quote "Incremental"
    | .snapshot => quote "Snapshot"

instance : Interchange RetentionWindow where
  ofJson json := do
    match ← fields ["size", "deletions_enabled"] json with
    | [width, deletes] => return ⟨← signedWord width, ← truth deletes⟩
    | _ => none
  write window := writeFields [("size", writeSigned window.width),
    ("deletions_enabled", writeTruth window.deletes)]

instance : Interchange GraphSummary where
  ofJson json := do
    match ← fields ["pid", "num_vertices", "num_edges"] json with
    | [rank, vertices, edges] => return ⟨(← word rank).toNat, ← word vertices, ← word edges⟩
    | _ => none
  write summary := writeFields [("pid", toString summary.rank),
    ("num_vertices", writeWord summary.vertices), ("num_edges", writeWord summary.edges)]

instance : Interchange Algorithm where
  ofJson := plainVariant (Algorithm.all.map fun algorithm => (algorithm.name, algorithm))
  write algorithm := quote algorithm.name

instance : Interchange SourceSelection where
  ofJson := plainVariant [("Random", .random), ("HighestDegree", .highestDegree)]
  write
    | .random => quote "Random"
    | .highestDegree => quote "HighestDegree"

instance : Interchange GraphSettings where
  ofJson json := do
    match ← fields ["partition", "snapshot_first_batch", "source_selection", "seed"] json with
    | [layout, snapshotFirst, selection, seed] =>
        return ⟨← ofJson layout, ← truth snapshotFirst, ← ofJson selection, ← word seed⟩
    | _ => none
  write settings := writeFields [("partition", write settings.layout),
    ("snapshot_first_batch", writeTruth settings.snapshotFirst),
    ("source_selection", write settings.selection), ("seed", writeWord settings.seed)]

end Interchange

end StreamGraph
