import StreamGraph.Snapshot

/-!
First-fit colouring. Vertices are coloured in ascending order, each with the least colour that
none of its coloured neighbours has; the direction of edges does not matter.
-/

namespace StreamGraph.Coloring

/-- Marks the colours of the neighbours, in a table with room for as many colours as there are
neighbours and one more. What has no colour yet, or one beyond the table, leaves no mark. -/
def taken (colors : Array Nat) (neighbors : List Nat) : Array Bool :=
  (neighbors.filterMap fun neighbor => colors[neighbor]?).foldl
    (fun table color => table.setIfInBounds color true)
    (Array.replicate (neighbors.length + 1) false)

/-- The least colour of a table that is not taken. -/
def firstFree (table : Array Bool) : Option Nat := table.findIdx? (!·)

def colorNext (colors : Array Nat) (neighbors : List Nat) : Array Nat :=
  colors.push ((firstFree (taken colors neighbors)).getD 0)

def run (snapshot : Snapshot) : List Nat :=
  (snapshot.undirected.foldl colorNext #[]).toList

end StreamGraph.Coloring
