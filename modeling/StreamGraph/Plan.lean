import StreamGraph.Message.Steps

/-!
What a rank does together with its group, as a tree of collective operations. All ranks of a
group run such a plan side by side and take part in the same operations in the same order. There
are three operations that move records (the root hands out one list to all, or one to each, or
collects one from each) and one that only waits. `Plan.steps` says which messages each of them
is made of; no two ranks ever post to each other in the same operation.
-/

namespace StreamGraph

inductive Plan (Result : Type) : Type 1 where
  | done (result : Result)
  /-- The rank breaks off and will never have a result. -/
  | broken
  /-- Every rank gets the root's list. -/
  | broadcast {Value : Type} (record : Record Value) (tag : Tag) (root : Nat)
      (values : List Value) (next : Except Failure (List Value) → Plan Result)
  /-- Every rank gets its own piece of the root's pieces. -/
  | scatter {Value : Type} (record : Record Value) (tag : Tag) (root : Nat)
      (pieces : List (List Value)) (next : Except Failure (List Value) → Plan Result)
  /-- The root gets the list of every rank, by rank. -/
  | gather {Value : Type} (record : Record Value) (tag : Tag) (root : Nat)
      (values : List Value)
      (next : Except Failure (Option (List (List Value))) → Plan Result)
  | barrier (next : Plan Result)

namespace Plan

variable {First Second Result : Type}

def bind : Plan First → (First → Plan Second) → Plan Second
  | done result, after => after result
  | broken, _ => broken
  | broadcast record tag root values next, after =>
      broadcast record tag root values fun answer => (next answer).bind after
  | scatter record tag root pieces next, after =>
      scatter record tag root pieces fun answer => (next answer).bind after
  | gather record tag root values next, after =>
      gather record tag root values fun answer => (next answer).bind after
  | barrier next, after => barrier (next.bind after)

instance : Monad Plan where
  pure := done
  bind := bind

/-- The messages of a broadcast: the root sends its list to every other rank. -/
def broadcastSteps {Value : Type} [Record Value] (member : Member) (tag : Tag) (root : Nat)
    (values : List Value) : Exchange (List Value) := do
  if member.rank = root then
    (member.peersOf root).forM fun peer => Exchange.sendRecords peer tag values
    return values
  else
    Exchange.receiveRecords root tag

/-- The messages of a scatter: the root keeps its own piece and sends every other rank its piece.
A root that has not one piece for each rank sends nothing. -/
def scatterSteps {Value : Type} [Record Value] (member : Member) (tag : Tag) (root : Nat)
    (pieces : List (List Value)) : Exchange (List Value) := do
  if member.rank ≠ root then
    Exchange.receiveRecords root tag
  else if pieces.length ≠ member.size then
    throw (.layout (.pieces member.size pieces.length))
  else
    (member.peersOf root).forM fun peer => Exchange.sendRecords peer tag (pieces.getD peer [])
    return pieces.getD root []

/-- Takes one list from each of some ranks, in their order; the root's own list needs no
message. -/
def collect {Value : Type} [Record Value] (tag : Tag) (root : Nat) (values : List Value) :
    List Nat → Exchange (List (List Value))
  | [] => return []
  | peer :: others => do
      let first ← if peer = root then pure values else Exchange.receiveRecords peer tag
      let later ← collect tag root values others
      return first :: later

/-- The messages of a gather: every other rank sends its list to the root, which takes them in
the order of the ranks. -/
def gatherSteps {Value : Type} [Record Value] (member : Member) (tag : Tag) (root : Nat)
    (values : List Value) : Exchange (Option (List (List Value))) := do
  if member.rank ≠ root then
    Exchange.sendRecords root tag values
    return none
  else
    let collected ← collect tag root values (List.range member.size)
    return some collected

def steps (member : Member) : Plan Result → Steps Result
  | done result => .done result
  | broken => .broken
  | broadcast _ tag root values next =>
      (broadcastSteps member tag root values).run.bind fun answer => (next answer).steps member
  | scatter _ tag root pieces next =>
      (scatterSteps member tag root pieces).run.bind fun answer => (next answer).steps member
  | gather _ tag root values next =>
      (gatherSteps member tag root values).run.bind fun answer => (next answer).steps member
  | barrier next => .barrier (next.steps member)

def meet : Plan Unit := barrier (done ())

end Plan

abbrev Collective := ExceptT Failure Plan

namespace Collective

variable {Value : Type} [record : Record Value]

/-- Every rank gets the root's list; what the others pass is ignored. -/
def broadcast (tag : Tag) (root : Nat) (values : List Value) : Collective (List Value) :=
  ExceptT.mk (.broadcast record tag root values .done)

/-- Every rank gets its own piece of the root's pieces; what the others pass is ignored. -/
def scatter (tag : Tag) (root : Nat) (pieces : List (List Value)) : Collective (List Value) :=
  ExceptT.mk (.scatter record tag root pieces .done)

/-- The root gets the list of every rank, by rank; the others get nothing. -/
def gather (tag : Tag) (root : Nat) (values : List Value) :
    Collective (Option (List (List Value))) :=
  ExceptT.mk (.gather record tag root values .done)

def broken {Result : Type} : Collective Result := ExceptT.mk .broken

def exchange {Result : Type} (collective : Collective Result) (member : Member) :
    Exchange Result :=
  ExceptT.mk (collective.run.steps member)

end Collective

end StreamGraph
