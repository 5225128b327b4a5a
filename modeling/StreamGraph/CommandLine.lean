import StreamGraph.Message.Group
import StreamGraph.Trial

/-!
The command line. Options are read from left to right, each with the text after it or after an
equals sign as its value; an option that is not given may be set by the environment, and some
have a value of their own otherwise. A request that is read and makes sense is played on a group
of ranks in one place.
-/

namespace StreamGraph.CommandLine

inductive Flag where
  | algorithms
  | path
  | batches
  | window
  | trials
  | bound
  | layout
  | selection
  | seed
  | snapshotFirst
  | ranks
  deriving DecidableEq

namespace Flag

def names : List (String × Flag) :=
  [("alg-names", algorithms), ("input-path", path), ("num-batches", batches),
    ("window-size", window), ("num-trials", trials), ("max-vertex-id", bound),
    ("partition", layout), ("source-selection", selection), ("seed", seed),
    ("snapshot-first-batch", snapshotFirst), ("local-ranks", ranks)]

def environmentNames : List (String × Flag) :=
  [("DYNOGRAPH_ALG_NAMES", algorithms), ("DYNOGRAPH_INPUT_PATH", path),
    ("DYNOGRAPH_NUM_BATCHES", batches), ("DYNOGRAPH_WINDOW_SIZE", window),
    ("DYNOGRAPH_NUM_TRIALS", trials), ("DYNOGRAPH_MAX_VERTEX_ID", bound),
    ("DYNOGRAPH_LOCAL_RANKS", ranks)]

/-- Whether a value that begins with a minus sign may follow as a text of its own. -/
def allowsNegative (flag : Flag) : Bool :=
  [batches, window, trials, bound].contains flag

end Flag

structure Given where
  algorithms : Option String := none
  path : Option String := none
  batches : Option Int64 := none
  window : Option Int64 := none
  trials : Option Int64 := none
  bound : Option Int64 := none
  layout : Option Layout := none
  selection : Option SourceSelection := none
  seed : Option UInt64 := none
  snapshotFirst : Option Unit := none
  ranks : Option UInt64 := none

inductive Stop where
  | usage
  | version
  | help
  deriving DecidableEq

/-- Fills a place that must be empty with a value that must be readable. -/
def fill {Value : Type} (place : Option Value) (value : Option Value) :
    Except Stop (Option Value) :=
  match place, value with
  | none, some value => .ok (some value)
  | _, _ => .error .usage

namespace Given

def has (given : Given) : Flag → Bool
  | .algorithms => given.algorithms.isSome
  | .path => given.path.isSome
  | .batches => given.batches.isSome
  | .window => given.window.isSome
  | .trials => given.trials.isSome
  | .bound => given.bound.isSome
  | .layout => given.layout.isSome
  | .selection => given.selection.isSome
  | .seed => given.seed.isSome
  | .snapshotFirst => given.snapshotFirst.isSome
  | .ranks => given.ranks.isSome

/-- Gives an option its value; none may be given twice. -/
def set (given : Given) (flag : Flag) (value : String) : Except Stop Given := do
  let chars := value.toList
  match flag with
  | .algorithms => return { given with algorithms := ← fill given.algorithms (some value) }
  | .path =>
      let path := if value.isEmpty then none else some value
      return { given with path := ← fill given.path path }
  | .batches =>
      return { given with batches := ← fill given.batches (Decimal.readSignedWord chars) }
  | .window => return { given with window := ← fill given.window (Decimal.readSignedWord chars) }
  | .trials => return { given with trials := ← fill given.trials (Decimal.readSignedWord chars) }
  | .bound => return { given with bound := ← fill given.bound (Decimal.readSignedWord chars) }
  | .layout => return { given with layout := ← fill given.layout (Layout.ofName value).toOption }
  | .selection =>
      let selection := (SourceSelection.ofName value).toOption
      return { given with selection := ← fill given.selection selection }
  | .seed => return { given with seed := ← fill given.seed (Decimal.readWord chars) }
  | .snapshotFirst => throw .usage
  | .ranks => return { given with ranks := ← fill given.ranks (Decimal.readWord chars) }

def note (given : Given) : Except Stop Given := do
  return { given with snapshotFirst := ← fill given.snapshotFirst (some ()) }

end Given

def splitEquals : List Char → List Char × Option (List Char)
  | [] => ([], none)
  | '=' :: rest => ([], some rest)
  | char :: rest =>
      let (name, value) := splitEquals rest
      (char :: name, value)

/-- What a text is at the place of an option. -/
inductive Argument where
  | awaiting (flag : Flag)
  | closed (flag : Flag) (value : String)
  | plain
  | stop (stop : Stop)
  | endMark
  deriving DecidableEq

def classify (text : String) : Argument :=
  match text.toList with
  | ['-', '-'] => .endMark
  | '-' :: '-' :: long =>
      let (name, value) := splitEquals long
      let name := String.ofList name
      match Flag.names.lookup name, value with
      | some .snapshotFirst, none => .plain
      | some .snapshotFirst, some _ => .stop .usage
      | some flag, none => .awaiting flag
      | some flag, some value => .closed flag (String.ofList value)
      | none, none =>
          if name = "version" then .stop .version
          else if name = "help" then .stop .help
          else .stop .usage
      | none, some _ => .stop .usage
  | '-' :: 'V' :: _ => .stop .version
  | '-' :: 'h' :: _ => .stop .help
  | _ => .stop .usage

/-- Whether a text can be the value of an option before it. -/
def isValue (flag : Flag) (text : String) : Bool :=
  match text.toList with
  | '-' :: '-' :: _ => false
  | '-' :: _ :: _ => flag.allowsNegative
  | _ => true

def readOptions (given : Given) : List String → Except Stop Given
  | [] => .ok given
  | text :: texts =>
      match classify text with
      | .stop stop => .error stop
      | .endMark => if texts.isEmpty then .ok given else .error .usage
      | .plain => do readOptions (← given.note) texts
      | .closed flag value => do readOptions (← given.set flag value) texts
      | .awaiting flag =>
          match texts with
          | [] => .error .usage
          | value :: others =>
              if isValue flag value then do readOptions (← given.set flag value) others
              else .error .usage

/-- Lets the environment stand in for options that are not given. -/
def readVariables (environment : String → Option String) (given : Given) :
    List (String × Flag) → Except Stop Given
  | [] => .ok given
  | (variableName, flag) :: others => do
      if given.has flag then readVariables environment given others
      else match environment variableName with
        | none => readVariables environment given others
        | some value => readVariables environment (← given.set flag value) others

structure Invocation where
  request : RunRequest
  ranks : Nat
  deriving DecidableEq

/-- The request of the given options; the file, the number of batches and the window have no
value of their own. -/
def Given.invocation (given : Given) : Except Stop Invocation :=
  match given.path, given.batches, given.window with
  | some path, some batches, some window =>
      let names := StreamGraph.Text.words (given.algorithms.getD "all").toList
      .ok {
        request := {
          algorithms := names.map String.ofList
          path
          batches
          window
          trials := given.trials.getD 1
          bound := given.bound
          graph := {
            layout := given.layout.getD .cyclic
            snapshotFirst := given.snapshotFirst.isSome
            selection := given.selection.getD .random
            seed := given.seed.getD SourcePicker.defaultSeed } }
        ranks := max 1 ((given.ranks.getD 1).toNat) }
  | _, _, _ => .error .usage

def read (arguments : List String) (environment : String → Option String) :
    Except Stop Invocation := do
  let given ← readOptions {} arguments
  (← readVariables environment given Flag.environmentNames).invocation

structure Outcome where
  code : Nat
  lines : List String
  complaint : String
  deriving DecidableEq, Inhabited

def stopped : Stop → Outcome
  | .usage => ⟨2, [], "error: the arguments are not understood; see --help\n"⟩
  | .version => ⟨0, ["dynograph 0.3.0"], ""⟩
  | .help => ⟨0, "Streaming dynamic-graph benchmark over a partitioned edge store" :: "" ::
      "Options:" :: Flag.names.map fun (name, _) => "  --" ++ name, ""⟩

/-- Plays a run on a group of ranks, given the contents of its file. A rank that fails makes the
whole call fail, without a complaint; one that breaks off takes the call with it. -/
def play (settings : RunSettings) (ranks : Nat) (contents : Except IoFault Bytes) : Outcome :=
  let results := Group.runAll ranks fun member =>
    (Trial.runFile .standard (fun _ => .ascending) settings contents member (.empty none)).steps
      member
  let succeeded := results.all fun result =>
    match result with
    | some (.ok _, _) => true
    | _ => false
  { code := if succeeded then 0 else if results.any Option.isNone then 101 else 255
    lines := results.flatMap fun result => (result.map fun (_, sink) => sink.lines).getD []
    complaint := "" }

inductive Prepared where
  | finished (outcome : Outcome)
  | ready (settings : RunSettings) (ranks : Nat)

/-- Reads the options and checks the request; what makes no sense is said on standard error. -/
def prepare (arguments : List String) (environment : String → Option String) : Prepared :=
  match read arguments environment with
  | .error stop => .finished (stopped stop)
  | .ok invocation =>
      match invocation.request.settings with
      | .error failure => .finished ⟨255, [], failure.message ++ "\n"⟩
      | .ok settings => .ready settings invocation.ranks

end StreamGraph.CommandLine
