import StreamGraph.Message.Script
import StreamGraph.Proofs.Lockstep

/-!
Lists of records as messages. A list travels as its length and, unless it is empty, one message
with all of its records. A receiver takes exactly these messages for the list, whatever comes after
them; of anything else that may arrive it reports the first thing that is wrong, and finds no list.
So lists of different kinds can follow each other on one channel without marks between them.
-/

namespace StreamGraph

open Relation Function

/-- The messages that carry a list of records. -/
def frames {Value : Type} [Record Value] (values : List Value) : List Bytes :=
  LittleEndian.encode (UInt64.ofNat values.length) ::
    if values = [] then [] else [Record.encodeMany values]

namespace Letter

/-- The prepared messages from a sender on a tag, the oldest first. -/
def channel (src : Nat) (tag : Tag) (mail : List Letter) : List (Option Bytes) :=
  (mail.filter fun letter => letter.src = src ∧ letter.tag = tag).map Letter.body

variable {src other : Nat} {tag stream : Tag}

theorem channel_cons_of_mine {letter : Letter} (mine : letter.src = src ∧ letter.tag = tag)
    (mail : List Letter) :
    channel src tag (letter :: mail) = letter.body :: channel src tag mail := by
  simp [channel, mine]

theorem channel_cons_of_not_mine {letter : Letter}
    (others : ¬ (letter.src = src ∧ letter.tag = tag)) (mail : List Letter) :
    channel src tag (letter :: mail) = channel src tag mail := by
  rw [channel, List.filter_cons, if_neg (by rwa [decide_eq_true_iff]), channel]

/-- The oldest message of a channel is taken; a channel without messages answers as a failed
receive does. -/
theorem take_eq (src : Nat) (tag : Tag) (mail : List Letter) :
    (take src tag mail).1 = (channel src tag mail).head?.join ∧
      channel src tag (take src tag mail).2 = (channel src tag mail).tail := by
  induction mail with
  | nil => exact ⟨rfl, rfl⟩
  | cons letter rest ih =>
      by_cases mine : letter.src = src ∧ letter.tag = tag
      · rw [take, if_pos mine, channel_cons_of_mine mine]
        exact ⟨rfl, rfl⟩
      · rw [take, if_neg mine, channel_cons_of_not_mine mine]
        exact ⟨ih.1, (channel_cons_of_not_mine mine _).trans ih.2⟩

/-- Taking a message leaves the other channels as they are. -/
theorem channel_take_of_ne (apart : ¬ (src = other ∧ tag = stream)) (mail : List Letter) :
    channel other stream (take src tag mail).2 = channel other stream mail := by
  induction mail with
  | nil => rfl
  | cons letter rest ih =>
      by_cases mine : letter.src = src ∧ letter.tag = tag
      · have notTheirs : ¬ (letter.src = other ∧ letter.tag = stream) := by
          intro theirs
          exact apart ⟨mine.1.symm.trans theirs.1, mine.2.symm.trans theirs.2⟩
        rw [take, if_pos mine, channel_cons_of_not_mine notTheirs]
      · rw [take, if_neg mine]
        by_cases theirs : letter.src = other ∧ letter.tag = stream
        · rw [channel_cons_of_mine theirs rest, ← ih]
          exact channel_cons_of_mine theirs _
        · rw [channel_cons_of_not_mine theirs rest, ← ih]
          exact channel_cons_of_not_mine theirs _

end Letter

open Letter (channel)

/-- Some messages of one channel were taken, down to a rest, and nothing else was touched. -/
structure TakenFrom (peer : Nat) (tag : Tag) (mail : List Letter) (rest : List (Option Bytes))
    (unread : List Letter) : Prop where
  rest : channel peer tag unread = rest
  others (src : Nat) (stream : Tag) (apart : ¬ (peer = src ∧ tag = stream)) :
    channel src stream unread = channel src stream mail

theorem takenFrom_take (peer : Nat) (tag : Tag) (mail : List Letter) :
    TakenFrom peer tag mail (channel peer tag mail).tail (Letter.take peer tag mail).2 where
  rest := (Letter.take_eq peer tag mail).2
  others _ _ apart := Letter.channel_take_of_ne apart mail

theorem TakenFrom.trans {peer : Nat} {tag : Tag} {mail between unread : List Letter}
    {first rest : List (Option Bytes)} (before : TakenFrom peer tag mail first between)
    (after : TakenFrom peer tag between rest unread) : TakenFrom peer tag mail rest unread where
  rest := after.rest
  others src stream apart := (after.others src stream apart).trans (before.others src stream apart)

namespace Exchange

/-- On this mail a program comes to an answer; it sends nothing, and takes the messages of one
channel down to a rest. -/
def Takes {Answer : Type} (program : Exchange Answer) (peer : Nat) (tag : Tag) (mail : List Letter)
    (answer : Except Failure Answer) (rest : List (Option Bytes)) : Prop :=
  ∃ unread, program.run.replay mail = ⟨some answer, [], 0, unread⟩ ∧
    TakenFrom peer tag mail rest unread

variable {Value Result : Type} [Record Value] {peer : Nat} {tag : Tag}

section Receiving

/-- How a receiver takes the front of a channel: the answer, and the messages that it leaves. A
channel that has no more messages stands for receives that fail. -/
inductive Reads (peer : Nat) :
    List (Option Bytes) → Except Failure (List Value) → List (Option Bytes) → Prop
  | whole {values : List Value} {rest : List (Option Bytes)} (fits : Fits values) :
      Reads peer ((frames values).map some ++ rest) (.ok values) rest
  | noCount {queue : List (Option Bytes)} (missing : queue.head?.join = none) :
      Reads peer queue (.error (.link peer .noCount)) queue.tail
  | countLength {announcement : Bytes} {rest : List (Option Bytes)}
      (odd : announcement.length ≠ 8) :
      Reads peer (some announcement :: rest)
        (.error (.messageLength peer 8 announcement.length)) rest
  | oversized {announcement : Bytes} {count : Nat} {rest : List (Option Bytes)}
      (full : announcement.length = 8) (counts : (LittleEndian.decode announcement).toNat = count)
      (beyond : UInt64.size ≤ count * Record.size Value) :
      Reads peer (some announcement :: rest) (.error (.link peer (.oversized count))) rest
  | noPayload {announcement : Bytes} {count : Nat} {queue : List (Option Bytes)}
      (full : announcement.length = 8) (counts : (LittleEndian.decode announcement).toNat = count)
      (nonzero : count ≠ 0) (room : count * Record.size Value < UInt64.size)
      (missing : queue.head?.join = none) :
      Reads peer (some announcement :: queue) (.error (.link peer .noPayload)) queue.tail
  | payloadLength {announcement payload : Bytes} {count : Nat} {rest : List (Option Bytes)}
      (full : announcement.length = 8) (counts : (LittleEndian.decode announcement).toNat = count)
      (nonzero : count ≠ 0) (room : count * Record.size Value < UInt64.size)
      (wrong : payload.length ≠ count * Record.size Value) :
      Reads peer (some announcement :: some payload :: rest)
        (.error (.messageLength peer (count * Record.size Value) payload.length)) rest

theorem eq_cons_of_head {queue : List (Option Bytes)} {body : Bytes}
    (first : queue.head?.join = some body) : queue = some body :: queue.tail := by
  cases queue with
  | nil => cases first
  | cons head rest =>
      have same : head = some body := first
      rw [same]
      rfl

theorem frames_nil {announcement : Bytes} (full : announcement.length = 8)
    (zero : (LittleEndian.decode announcement).toNat = 0) :
    frames ([] : List Value) = [announcement] := by
  have zero : UInt64.ofNat ([] : List Value).length = LittleEndian.decode announcement := by
    rw [← UInt64.toNat_inj, zero]
    rfl
  rw [frames, if_pos rfl, zero, LittleEndian.encode_decode full]

variable [LawfulRecord Value]

/-- A count of eight bytes and as many records are the frames of these records. -/
theorem frames_decodeMany {announcement payload : Bytes} {count : Nat}
    (full : announcement.length = 8) (counts : (LittleEndian.decode announcement).toNat = count)
    (nonzero : count ≠ 0) (length : payload.length = count * Record.size Value) :
    frames (Record.decodeMany count payload : List Value) = [announcement, payload] := by
  have listed : (Record.decodeMany count payload : List Value) ≠ [] := by
    intro nothing
    have lengths := congrArg List.length nothing
    rw [Record.length_decodeMany] at lengths
    exact nonzero lengths
  rw [frames, if_neg listed, Record.length_decodeMany, ← counts, UInt64.ofNat_toNat,
    LittleEndian.encode_decode full, counts, Record.encodeMany_decodeMany count length]

/-- After a count the receiver takes one message more, and that is all. -/
theorem receivePayload_reads {announcement : Bytes} {count : Nat}
    (full : announcement.length = 8) (counts : (LittleEndian.decode announcement).toNat = count)
    (nonzero : count ≠ 0) (room : count * Record.size Value < UInt64.size) (peer : Nat) (tag : Tag)
    (mail : List Letter) :
    ∃ (answer : Except Failure (List Value)) (rest : List (Option Bytes)),
      (receivePayload peer tag count).Takes peer tag mail answer rest ∧
      Reads peer (some announcement :: channel peer tag mail) answer rest := by
  have taken := takenFrom_take peer tag mail
  have first := (Letter.take_eq peer tag mail).1
  unfold Takes
  rw [receivePayload_run, Steps.replay]
  generalize Letter.take peer tag mail = pair at taken first
  rcases pair with ⟨body, unread⟩
  dsimp only at taken first ⊢
  generalize channel peer tag mail = queue at taken first
  refine ⟨_, _, ⟨unread, rfl, taken⟩, ?_⟩
  cases body with
  | none => exact .noPayload full counts nonzero room first.symm
  | some payload =>
      rw [eq_cons_of_head first.symm, judgePayload]
      by_cases wrong : payload.length ≠ count * Record.size Value
      · rw [if_pos wrong]
        exact .payloadLength full counts nonzero room wrong
      · have length : payload.length = count * Record.size Value := not_not.1 wrong
        have fits : Fits (Record.decodeMany count payload : List Value) := by
          rwa [Fits, Record.length_decodeMany]
        have reads : Reads peer ((frames (Record.decodeMany count payload : List Value)).map some ++
            queue.tail) (.ok (Record.decodeMany count payload)) queue.tail := .whole fits
        rw [frames_decodeMany full counts nonzero length] at reads
        rw [if_neg wrong]
        exact reads

/-- Whatever its mail, a receiver finds a list or a reason against one, takes no more than that
needs and sends nothing. -/
theorem receiveRecords_reads (peer : Nat) (tag : Tag) (mail : List Letter) :
    ∃ (answer : Except Failure (List Value)) (rest : List (Option Bytes)),
      (receiveRecords peer tag).Takes peer tag mail answer rest ∧
      Reads peer (channel peer tag mail) answer rest := by
  have taken := takenFrom_take peer tag mail
  have first := (Letter.take_eq peer tag mail).1
  unfold Takes
  rw [receiveRecords_run, Steps.replay]
  generalize Letter.take peer tag mail = pair at taken first
  rcases pair with ⟨body, between⟩
  dsimp only at taken first ⊢
  cases body with
  | none => exact ⟨_, _, ⟨between, rfl, taken⟩, .noCount first.symm⟩
  | some announcement =>
      rw [eq_cons_of_head first.symm, judgeCount]
      by_cases odd : announcement.length ≠ 8
      · rw [if_pos odd]
        exact ⟨_, _, ⟨between, rfl, taken⟩, .countLength odd⟩
      have full : announcement.length = 8 := not_not.1 odd
      rw [if_neg odd]
      by_cases beyond : UInt64.size ≤ (LittleEndian.decode announcement).toNat * Record.size Value
      · rw [if_pos beyond]
        exact ⟨_, _, ⟨between, rfl, taken⟩, .oversized full rfl beyond⟩
      have room := Nat.lt_of_not_le beyond
      rw [if_neg beyond]
      by_cases zero : (LittleEndian.decode announcement).toNat = 0
      · have fits : Fits ([] : List Value) := by
          rw [Fits, List.length_nil, Nat.zero_mul]
          decide
        have reads : Reads peer ((frames ([] : List Value)).map some ++
            (channel peer tag mail).tail) (.ok []) (channel peer tag mail).tail := .whole fits
        rw [frames_nil full zero] at reads
        rw [if_pos zero]
        exact ⟨_, _, ⟨between, rfl, taken⟩, reads⟩
      · rw [if_neg zero]
        rcases receivePayload_reads full rfl zero room peer tag between with
          ⟨answer, rest, ⟨unread, heard, later⟩, reads⟩
        rw [taken.rest] at reads
        exact ⟨answer, rest, ⟨unread, heard, taken.trans later⟩, reads⟩

end Receiving

section Runs

theorem frames_cons {values : List Value} (nonempty : values ≠ []) :
    frames values =
      [LittleEndian.encode (UInt64.ofNat values.length), Record.encodeMany values] := by
  rw [frames, if_neg nonempty]

theorem send_replay (peer : Nat) (tag : Tag) (values : List Value) (mail : List Letter)
    (after : Except Failure Unit → Steps Result) :
    ((sendRecords peer tag values).run.bind after).replay mail =
      let later := (after (.ok ())).replay mail
      { later with sent := (frames values).map (Parcel.mk peer tag) ++ later.sent } := by
  rw [send_run]
  by_cases empty : values = []
  · subst empty
    rfl
  · rw [if_neg empty, frames_cons empty]
    rfl

variable [SizedRecord Value]

/-- A receiver that finds the frames of a list at the front of a channel goes on with that list and
leaves what comes after them. -/
theorem receive_replay {values : List Value} (fits : Fits values) {mail : List Letter}
    {rest : List (Option Bytes)}
    (arrived : channel peer tag mail = (frames values).map some ++ rest)
    (after : Except Failure (List Value) → Steps Result) :
    ∃ unread, ((receiveRecords peer tag : Exchange (List Value)).run.bind after).replay mail =
        (after (.ok (values.map Record.carried))).replay unread ∧
      TakenFrom peer tag mail rest unread := by
  have taken := takenFrom_take peer tag mail
  have first := (Letter.take_eq peer tag mail).1
  rcases receive_run peer tag values fits after with ⟨answer, waits, hears⟩
  rw [List.take_of_length_le (LittleEndian.length_encode _).le] at hears
  rw [waits, Steps.replay]
  generalize Letter.take peer tag mail = pair at taken first
  rcases pair with ⟨body, between⟩
  dsimp only at taken first ⊢
  by_cases empty : values = []
  · subst empty
    rw [frames, if_pos rfl] at arrived
    rw [arrived] at taken first
    rw [first]
    change ∃ unread, (answer (some (LittleEndian.encode _))).replay between = _ ∧ _
    rw [hears, if_pos rfl]
    exact ⟨between, rfl, taken⟩
  · rw [frames_cons empty] at arrived
    rw [arrived] at taken first
    rw [first]
    change ∃ unread, (answer (some (LittleEndian.encode _))).replay between = _ ∧ _
    rw [hears, if_neg empty]
    rcases payload_run peer tag values after with ⟨judge, waitsForAll, judges⟩
    rw [List.take_of_length_le (Record.length_encodeMany values).le] at judges
    rw [waitsForAll, Steps.replay]
    have later := takenFrom_take peer tag between
    have second := (Letter.take_eq peer tag between).1
    rw [taken.rest] at later second
    refine ⟨(Letter.take peer tag between).2, ?_, taken.trans later⟩
    dsimp only
    rw [second]
    change (judge (some (Record.encodeMany values))).replay _ = _
    rw [judges]

example : ((Exchange.receiveRecords 1 7 : Exchange (List Int64)).run.replay
    ((frames ([5, -1] : List Int64)).map fun body => ⟨1, 7, some body⟩)).result? =
      some (.ok [5, -1]) := by rfl

end Runs

end Exchange

/-- The kinds of records that travel between ranks. -/
inductive RecordKind where
  | word
  | signed
  | edge
  | degree
  | proposal
  deriving DecidableEq

namespace RecordKind

def Value : RecordKind → Type
  | word => UInt64
  | signed => Int64
  | edge => Edge
  | degree => VertexDegree
  | proposal => Proposal

instance (kind : RecordKind) : Record kind.Value :=
  match kind with
  | word => inferInstanceAs (Record UInt64)
  | signed => inferInstanceAs (Record Int64)
  | edge => inferInstanceAs (Record Edge)
  | degree => inferInstanceAs (Record VertexDegree)
  | proposal => inferInstanceAs (Record Proposal)

instance (kind : RecordKind) : LawfulRecord kind.Value :=
  match kind with
  | word => inferInstanceAs (LawfulRecord UInt64)
  | signed => inferInstanceAs (LawfulRecord Int64)
  | edge => inferInstanceAs (LawfulRecord Edge)
  | degree => inferInstanceAs (LawfulRecord VertexDegree)
  | proposal => inferInstanceAs (LawfulRecord Proposal)

end RecordKind

/-- A list of records of one kind. -/
structure Shipment where
  kind : RecordKind
  values : List kind.Value

namespace Shipment

def bodies (shipment : Shipment) : List Bytes := frames shipment.values

/-- A list that a memory of 64-bit addresses can hold. -/
def Fits (shipment : Shipment) : Prop := StreamGraph.Fits shipment.values

end Shipment

namespace Exchange

/-- Sends several lists, one behind the other on one channel. -/
def sendAll (peer : Nat) (tag : Tag) : List Shipment → Exchange Unit
  | [] => pure ()
  | shipment :: shipments => do
      sendRecords peer tag shipment.values
      sendAll peer tag shipments

/-- Receives a list of each of these kinds. -/
def receiveAll (peer : Nat) (tag : Tag) : List RecordKind → Exchange (List Shipment)
  | [] => pure []
  | kind :: kinds => do
      let values ← receiveRecords peer tag
      let others ← receiveAll peer tag kinds
      return ⟨kind, values⟩ :: others

section Sequences

variable {Result : Type} {peer : Nat} {tag : Tag}

theorem sendAll_replay (peer : Nat) (tag : Tag) (shipments : List Shipment) (mail : List Letter)
    (after : Except Failure Unit → Steps Result) :
    ((sendAll peer tag shipments).run.bind after).replay mail =
      let later := (after (.ok ())).replay mail
      { later with
        sent := (shipments.flatMap Shipment.bodies).map (Parcel.mk peer tag) ++ later.sent } := by
  induction shipments with
  | nil => rfl
  | cons shipment shipments ih =>
      rw [sendAll, bind_run, send_replay]
      dsimp only
      rw [ih]
      dsimp only
      rw [List.flatMap_cons, List.map_append, List.append_assoc, Shipment.bodies]

/-- What a receiver does after the first of its lists. -/
def afterFirst (peer : Nat) (tag : Tag) (kind : RecordKind) (kinds : List RecordKind)
    (after : Except Failure (List Shipment) → Steps Result) :
    Except Failure (List kind.Value) → Steps Result
  | .ok values => (receiveAll peer tag kinds).run.bind fun answer =>
      after (answer.map (Shipment.mk kind values :: ·))
  | .error failure => after (.error failure)

theorem receiveAll_cons_run (kind : RecordKind) (kinds : List RecordKind)
    (after : Except Failure (List Shipment) → Steps Result) :
    (receiveAll peer tag (kind :: kinds)).run.bind after =
      (receiveRecords peer tag).run.bind (afterFirst peer tag kind kinds after) := by
  rw [receiveAll, bind_run]
  congr 1
  funext answer
  cases answer with
  | error failure => rfl
  | ok values =>
      dsimp only
      rw [bind_run, afterFirst]
      congr 1
      funext others
      cases others <;> rfl

theorem receiveAll_replay {shipments : List Shipment} (fits : ∀ shipment ∈ shipments, shipment.Fits)
    {mail : List Letter} {rest : List (Option Bytes)}
    (arrived : channel peer tag mail = (shipments.flatMap Shipment.bodies).map some ++ rest)
    (after : Except Failure (List Shipment) → Steps Result) :
    ∃ unread, ((receiveAll peer tag (shipments.map Shipment.kind)).run.bind after).replay mail =
        (after (.ok shipments)).replay unread ∧
      TakenFrom peer tag mail rest unread := by
  induction shipments generalizing mail after with
  | nil => exact ⟨mail, rfl, arrived, fun _ _ _ => rfl⟩
  | cons shipment shipments ih =>
      rw [List.forall_mem_cons] at fits
      rw [List.flatMap_cons, List.map_append, List.append_assoc] at arrived
      rw [List.map_cons, receiveAll_cons_run]
      rcases receive_replay fits.1 arrived
        (afterFirst peer tag shipment.kind (shipments.map Shipment.kind) after) with
        ⟨between, hears, taken⟩
      rw [hears, Record.carried_eq_id, List.map_id, afterFirst]
      rcases ih fits.2 taken.rest fun answer => after (answer.map (shipment :: ·)) with
        ⟨unread, goes, later⟩
      exact ⟨unread, goes, taken.trans later⟩

end Sequences

end Exchange

namespace Network

variable {size : Nat} {Result : Type}

/-- Lists that are sent one behind the other are taken one behind the other. -/
theorem shipments_handed_over {src dst : Fin size} {tag : Tag} {shipments : List Shipment}
    {afterSend : Except Failure Unit → Steps Result}
    {afterReceive : Except Failure (List Shipment) → Steps Result} (different : src ≠ dst)
    (fits : ∀ shipment ∈ shipments, shipment.Fits) {ranks : Fin size → Steps Result}
    (sends : ranks src = (Exchange.sendAll dst tag shipments).run.bind afterSend)
    (receives : ranks dst =
      (Exchange.receiveAll src tag (shipments.map Shipment.kind)).run.bind afterReceive) :
    ReflTransGen Handover ranks
      (update (update ranks src (afterSend (.ok ()))) dst (afterReceive (.ok shipments))) := by
  induction shipments generalizing ranks afterReceive with
  | nil =>
      have first : update ranks src (afterSend (.ok ())) = ranks := by
        rw [update_eq_iff]
        exact ⟨sends.symm, fun _ _ => rfl⟩
      have second : update ranks dst (afterReceive (.ok [])) = ranks := by
        rw [update_eq_iff]
        exact ⟨receives.symm, fun _ _ => rfl⟩
      rw [first, second]
  | cons shipment shipments ih =>
      rw [List.forall_mem_cons] at fits
      rw [Exchange.sendAll, Exchange.bind_run] at sends
      rw [List.map_cons, Exchange.receiveAll_cons_run] at receives
      apply (records_handed_over different fits.1 sends receives).trans
      rw [Record.carried_eq_id, List.map_id, Exchange.afterFirst]
      have stillSends : update (update ranks src
          ((Exchange.sendAll dst tag shipments).run.bind afterSend)) dst
          ((Exchange.receiveAll src tag (shipments.map Shipment.kind)).run.bind fun answer =>
            afterReceive (answer.map (shipment :: ·))) src =
          (Exchange.sendAll dst tag shipments).run.bind afterSend := by
        rw [update_of_ne different, update_self]
      have later := ih fits.2 stillSends (update_self _ _ _)
      rwa [update_comm different.symm, update_idem, update_idem] at later

/-- One rank sends lists to another on one channel; the rest have nothing to do. -/
def shipping (src dst : Fin size) (tag : Tag) (shipments : List Shipment) (rank : Fin size) :
    Steps (Except Failure (List Shipment)) :=
  if rank = src then (Exchange.sendAll dst tag shipments).run.bind fun _ => .done (.ok [])
  else if rank = dst then (Exchange.receiveAll src tag (shipments.map Shipment.kind)).run
  else .done (.ok [])

theorem shipping_settles {src dst : Fin size} (different : src ≠ dst) (tag : Tag)
    {shipments : List Shipment} (fits : ∀ shipment ∈ shipments, shipment.Fits) :
    (Group.start (List.ofFn (shipping src dst tag shipments))).Settles
      (List.ofFn fun rank => .ok (if rank = dst then shipments else [])) := by
  apply Group.settles_of_handovers
  have sends : shipping src dst tag shipments src =
      (Exchange.sendAll dst tag shipments).run.bind fun _ => .done (.ok []) := if_pos rfl
  have receives : shipping src dst tag shipments dst =
      (Exchange.receiveAll src tag (shipments.map Shipment.kind)).run.bind .done := by
    rw [shipping, if_neg different.symm, if_pos rfl, Steps.bind_done]
  have run := shipments_handed_over different fits sends receives
  convert run using 1
  funext rank
  by_cases isDst : rank = dst
  · subst isDst
    rw [if_pos rfl, update_self]
  · rw [if_neg isDst, update_of_ne isDst]
    by_cases isSrc : rank = src
    · subst isSrc
      rw [update_self]
    · rw [update_of_ne isSrc, shipping, if_neg isSrc, if_neg isDst]

end Network

/-- The messages of a list are read back as that list and as nothing else. A sender posts exactly
these messages; a receiver that finds a list has taken exactly these, and otherwise names the
message that is missing or has a wrong length. So lists of any kinds that follow each other on one
channel are read back in order, also in a group under every schedule. -/
theorem frames_are_read_back_exactly :
    (∀ (kind : RecordKind) (values : List kind.Value) (peer : Nat) (tag : Tag)
      (mail : List Letter), (Exchange.sendRecords peer tag values).run.replay mail =
        ⟨some (.ok ()), (frames values).map (Parcel.mk peer tag), 0, mail⟩) ∧
    (∀ (kind : RecordKind) (values : List kind.Value) (peer : Nat) (tag : Tag)
      (mail : List Letter) (rest : List (Option Bytes)), Fits values →
      channel peer tag mail = (frames values).map some ++ rest →
      (Exchange.receiveRecords peer tag).Takes peer tag mail (.ok values) rest) ∧
    (∀ (kind : RecordKind) (peer : Nat) (tag : Tag) (mail : List Letter),
      ∃ (answer : Except Failure (List kind.Value)) (rest : List (Option Bytes)),
        (Exchange.receiveRecords peer tag).Takes peer tag mail answer rest ∧
        Exchange.Reads peer (channel peer tag mail) answer rest) ∧
    (∀ (shipments : List Shipment) (peer : Nat) (tag : Tag) (mail : List Letter),
      (Exchange.sendAll peer tag shipments).run.replay mail =
        ⟨some (.ok ()), (shipments.flatMap Shipment.bodies).map (Parcel.mk peer tag), 0, mail⟩) ∧
    (∀ (shipments : List Shipment) (peer : Nat) (tag : Tag) (mail : List Letter)
      (rest : List (Option Bytes)), (∀ shipment ∈ shipments, shipment.Fits) →
      channel peer tag mail = (shipments.flatMap Shipment.bodies).map some ++ rest →
      (Exchange.receiveAll peer tag (shipments.map Shipment.kind)).Takes peer tag mail
        (.ok shipments) rest) ∧
    ∀ (size : Nat) (src dst : Fin size) (tag : Tag) (shipments : List Shipment), src ≠ dst →
      (∀ shipment ∈ shipments, shipment.Fits) →
      (Group.start (List.ofFn (Network.shipping src dst tag shipments))).Settles
        (List.ofFn fun rank => .ok (if rank = dst then shipments else [])) := by
  refine ⟨?_, ?_, ?_, ?_, ?_, ?_⟩
  · intro kind values peer tag mail
    have sent := Exchange.send_replay peer tag values mail .done
    rw [Steps.bind_done] at sent
    rw [sent, Steps.replay]
    dsimp only
    rw [List.append_nil]
  · intro kind values peer tag mail rest fits arrived
    rcases Exchange.receive_replay fits arrived .done with ⟨unread, heard, taken⟩
    rw [Steps.bind_done, Record.carried_eq_id, List.map_id] at heard
    exact ⟨unread, heard, taken⟩
  · intro kind peer tag mail
    exact Exchange.receiveRecords_reads peer tag mail
  · intro shipments peer tag mail
    have sent := Exchange.sendAll_replay peer tag shipments mail .done
    rw [Steps.bind_done] at sent
    rw [sent, Steps.replay]
    dsimp only
    rw [List.append_nil]
  · intro shipments peer tag mail rest fits arrived
    rcases Exchange.receiveAll_replay fits arrived .done with ⟨unread, heard, taken⟩
    rw [Steps.bind_done] at heard
    exact ⟨unread, heard, taken⟩
  · intro size src dst tag shipments different fits
    exact Network.shipping_settles different tag fits

theorem two_shipments_arrive :
    (Group.start (List.ofFn (Network.shipping (0 : Fin 2) 1 7
      [⟨.signed, ([5, -1] : List Int64)⟩, ⟨.word, ([] : List UInt64)⟩]))).Settles
      [.ok [], .ok [⟨.signed, ([5, -1] : List Int64)⟩, ⟨.word, ([] : List UInt64)⟩]] := by
  have fits : ∀ shipment ∈ [⟨.signed, ([5, -1] : List Int64)⟩, ⟨.word, ([] : List UInt64)⟩],
      Shipment.Fits shipment := by
    rw [List.forall_mem_cons, List.forall_mem_singleton]
    have two : Fits ([5, -1] : List Int64) := by decide
    have nothing : Fits ([] : List UInt64) := by decide
    exact ⟨two, nothing⟩
  exact frames_are_read_back_exactly.2.2.2.2.2 2 0 1 7 _ (by decide) fits

end StreamGraph
