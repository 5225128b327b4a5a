import StreamGraph.Failure
import StreamGraph.Record

/-!
What one rank does, as a tree of message steps. A rank posts messages, waits for messages and
waits for all other ranks; between these steps it only computes. Who delivers the messages is
left open: a group of ranks and a script of prepared messages both run the same trees.
-/

namespace StreamGraph

/-- The stream that a message between two ranks belongs to. -/
abbrev Tag := UInt16

/-- A stream of its own beside that of a tag; tags wrap around. -/
def Tag.offset (tag : Tag) (distance : Nat) : Tag := tag + UInt16.ofNat distance

structure Member where
  rank : Nat
  size : Nat
  deriving DecidableEq, Inhabited

namespace Member

/-- Rank zero reads input and reports what is wrong with it. -/
def isCoordinator (member : Member) : Bool := member.rank == 0

def peersOf (member : Member) (rank : Nat) : List Nat :=
  (List.range member.size).filter fun peer => peer ≠ rank

end Member

inductive Steps (Result : Type) where
  | done (result : Result)
  /-- The rank breaks off and will never have a result. -/
  | broken
  | post (peer : Nat) (tag : Tag) (body : Bytes) (next : Steps Result)
  /-- Waits for a message, of which at most `limit` bytes are taken. Without a sender the
  answer is `none`. -/
  | await (peer : Nat) (tag : Tag) (limit : Nat) (next : Option Bytes → Steps Result)
  /-- Waits until every rank waits here. -/
  | barrier (next : Steps Result)

namespace Steps

variable {First Second Result : Type}

def bind : Steps First → (First → Steps Second) → Steps Second
  | done result, after => after result
  | broken, _ => broken
  | post peer tag body next, after => post peer tag body (next.bind after)
  | await peer tag limit next, after => await peer tag limit fun body => (next body).bind after
  | barrier next, after => barrier (next.bind after)

instance : Monad Steps where
  pure := done
  bind := bind

@[simp] theorem pure_eq (result : Result) : (pure result : Steps Result) = done result := rfl

@[simp] theorem bind_eq (process : Steps First) (after : First → Steps Second) :
    process >>= after = process.bind after := rfl

theorem bind_done (process : Steps Result) : process.bind done = process := by
  induction process with
  | done => rfl
  | broken => rfl
  | post _ _ _ _ ih => simp [bind, ih]
  | await _ _ _ _ ih => simp [bind, ih]
  | barrier _ ih => simp [bind, ih]

theorem bind_assoc {Third : Type} (process : Steps First) (after : First → Steps Second)
    (last : Second → Steps Third) :
    (process.bind after).bind last = process.bind fun result => (after result).bind last := by
  induction process with
  | done => rfl
  | broken => rfl
  | post _ _ _ _ ih => simp [bind, ih]
  | await _ _ _ _ ih => simp [bind, ih]
  | barrier _ ih => simp [bind, ih]

def result? : Steps Result → Option Result
  | done result => some result
  | _ => none

def atBarrier : Steps Result → Bool
  | barrier _ => true
  | _ => false

end Steps

abbrev Exchange := ExceptT Failure Steps

namespace Exchange

def post (peer : Nat) (tag : Tag) (body : Bytes) : Exchange Unit :=
  ExceptT.lift (.post peer tag body (.done ()))

def await (peer : Nat) (tag : Tag) (limit : Nat) : Exchange (Option Bytes) :=
  ExceptT.lift (.await peer tag limit .done)

def barrier : Exchange Unit := ExceptT.lift (.barrier (.done ()))

def broken {Result : Type} : Exchange Result := ExceptT.mk .broken

variable {Value : Type} [Record Value]

/-- Sends a list of records: a message with their number, and one with all of them unless there
are none. -/
def sendRecords (peer : Nat) (tag : Tag) (values : List Value) : Exchange Unit := do
  post peer tag (LittleEndian.encode (UInt64.ofNat values.length))
  if !values.isEmpty then
    post peer tag (Record.encodeMany values)

/-- Takes the message with all of an announced number of records. -/
def receivePayload (peer : Nat) (tag : Tag) (count : Nat) : Exchange (List Value) := do
  let expected := count * Record.size Value
  let some payload ← await peer tag expected | throw (.link peer .noPayload)
  if payload.length ≠ expected then
    throw (.messageLength peer expected payload.length)
  return Record.decodeMany count payload

def receiveRecords (peer : Nat) (tag : Tag) : Exchange (List Value) := do
  let some announcement ← await peer tag 8 | throw (.link peer .noCount)
  if announcement.length ≠ 8 then
    throw (.messageLength peer 8 announcement.length)
  let count := (LittleEndian.decode announcement).toNat
  if UInt64.size ≤ count * Record.size Value then
    throw (.link peer (.oversized count))
  if count = 0 then
    return []
  receivePayload peer tag count

end Exchange

end StreamGraph
