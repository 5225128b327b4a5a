import StreamGraph.CommandLine

/-!
The program: it hands arguments, environment and the file's contents to the command line, and
prints what comes back.
-/

namespace StreamGraph

/-- The contents of a file, or why they cannot be had. -/
def fileContents (path : String) : IO (Except IoFault Bytes) := do
  try
    return .ok (← IO.FS.readBinFile path).toList
  catch problem =>
    match problem with
    | .noFileOrDirectory .. => return .error .noSuchFile
    | other => return .error (.refused (toString other))

def printOutcome (outcome : CommandLine.Outcome) : IO UInt32 := do
  for line in outcome.lines do
    IO.println line
  unless outcome.complaint.isEmpty do
    IO.eprint outcome.complaint
  return UInt32.ofNat outcome.code

end StreamGraph

def main (arguments : List String) : IO UInt32 := do
  let mut found : List (String × String) := []
  for (name, _) in StreamGraph.CommandLine.Flag.environmentNames do
    if let some value ← IO.getEnv name then
      found := (name, value) :: found
  match StreamGraph.CommandLine.prepare arguments (fun name => List.lookup name found) with
  | .finished outcome => StreamGraph.printOutcome outcome
  | .ready settings ranks =>
      let contents ← StreamGraph.fileContents settings.path
      StreamGraph.printOutcome (StreamGraph.CommandLine.play settings ranks contents)
