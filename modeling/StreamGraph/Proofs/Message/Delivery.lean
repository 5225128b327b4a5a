import Mathlib.Data.List.FinRange
import Mathlib.Data.List.GetD
import StreamGraph.Plan
import StreamGraph.Proofs.Message.Schedule

/-!
Lists of records on their way from one rank to another, and the messages of the operations that
move records. In each of them every message can be handed over as soon as it is posted, so a
whole operation is a run without any store of messages.
-/

namespace StreamGraph

open Relation Function

/-- The number of records, and the bytes that they take, can be counted by a word. -/
def Fits {Value : Type} [Record Value] (values : List Value) : Prop :=
  values.length * Record.size Value < UInt64.size

instance {Value : Type} [Record Value] (values : List Value) : Decidable (Fits values) :=
  inferInstanceAs (Decidable (_ < _))

theorem Fits.length_lt {Value : Type} [Record Value] [SizedRecord Value] {values : List Value}
    (fits : Fits values) : values.length < UInt64.size := by
  have positive : 0 < Record.size Value := by
    have width : 0 < Record.width Value := SizedRecord.width_pos
    simp only [Record.size]
    omega
  unfold Fits at fits
  exact lt_of_le_of_lt (Nat.le_mul_of_pos_right _ positive) fits

theorem Fits.sublist {Value : Type} [Record Value] {values part : List Value}
    (fits : Fits values) (inside : part.Sublist values) : Fits part :=
  lt_of_le_of_lt (Nat.mul_le_mul_right _ inside.length_le) fits

/-- What a rank has of a list that another, or the rank itself, let it have: what travels arrives
as its words say, and the rank's own list is not changed. -/
def Plan.heard {Value : Type} [Record Value] {size : Nat} (own rank : Fin size)
    (values : List Value) : List Value :=
  if rank = own then values else values.map Record.carried

@[simp] theorem Plan.heard_eq {Value : Type} [Record Value] [LawfulRecord Value] {size : Nat}
    (own rank : Fin size) (values : List Value) : Plan.heard own rank values = values := by
  simp [Plan.heard]

namespace Exchange

variable {First Second Result Value : Type}

theorem bind_run (program : Exchange First) (next : First → Exchange Second)
    (after : Except Failure Second → Steps Result) :
    (program >>= next).run.bind after = program.run.bind fun
      | .ok value => (next value).run.bind after
      | .error failure => after (.error failure) := by
  change (Steps.bind program.run _).bind after = _
  rw [Steps.bind_assoc]
  congr 1
  funext answer
  cases answer <;> rfl

theorem pure_run (value : First) (after : Except Failure First → Steps Result) :
    (pure value : Exchange First).run.bind after = after (.ok value) := rfl

theorem cons_run (first : Value) (others : Exchange (List Value))
    (after : Except Failure (List Value) → Steps Result) :
    (do let later ← others; return first :: later : Exchange (List Value)).run.bind after =
      others.run.bind fun answer => after (answer.map (first :: ·)) := by
  rw [bind_run]
  congr 1
  funext answer
  cases answer <;> rfl

variable [Record Value]

theorem send_run (peer : Nat) (tag : Tag) (values : List Value)
    (after : Except Failure Unit → Steps Result) :
    (sendRecords peer tag values).run.bind after =
      .post peer tag (LittleEndian.encode (UInt64.ofNat values.length))
        (if values = [] then after (.ok ())
          else .post peer tag (Record.encodeMany values) (after (.ok ()))) := by
  cases values with
  | nil => rfl
  | cons value values => rfl

/-- What a rank finds in the message that should hold an announced number of records. -/
def judgePayload (peer count : Nat) : Option Bytes → Except Failure (List Value)
  | none => .error (.link peer .noPayload)
  | some payload =>
      if payload.length ≠ count * Record.size Value then
        .error (.messageLength peer (count * Record.size Value) payload.length)
      else .ok (Record.decodeMany count payload)

theorem receivePayload_run (peer : Nat) (tag : Tag) (count : Nat) :
    (receivePayload peer tag count : Exchange (List Value)).run =
      .await peer tag (count * Record.size Value) fun body =>
        .done (judgePayload peer count body) := by
  change Steps.await peer tag (count * Record.size Value) _ = _
  congr 1
  funext body
  cases body with
  | none => rfl
  | some payload =>
      change ExceptT.run (if payload.length ≠ count * Record.size Value then _ else _) = _
      rw [judgePayload]
      by_cases wrong : payload.length ≠ count * Record.size Value
      · rw [if_pos wrong, if_pos wrong]
        rfl
      · rw [if_neg wrong, if_neg wrong]
        rfl

/-- What a rank does about the message that should hold the number of records. -/
def judgeCount (peer : Nat) (tag : Tag) :
    Option Bytes → Steps (Except Failure (List Value))
  | none => .done (.error (.link peer .noCount))
  | some announcement =>
      let count := (LittleEndian.decode announcement).toNat
      if announcement.length ≠ 8 then
        .done (.error (.messageLength peer 8 announcement.length))
      else if UInt64.size ≤ count * Record.size Value then
        .done (.error (.link peer (.oversized count)))
      else if count = 0 then .done (.ok [])
      else (receivePayload peer tag count : Exchange (List Value)).run

theorem receiveRecords_run (peer : Nat) (tag : Tag) :
    (receiveRecords peer tag : Exchange (List Value)).run =
      .await peer tag 8 (judgeCount peer tag) := by
  change Steps.await peer tag 8 _ = _
  congr 1
  funext body
  cases body with
  | none => rfl
  | some announcement =>
      rw [judgeCount]
      change ExceptT.run (if announcement.length ≠ 8 then _ else _) = _
      by_cases odd : announcement.length ≠ 8
      · rw [if_pos odd, if_pos odd]
        rfl
      · rw [if_neg odd, if_neg odd]
        change ExceptT.run (if UInt64.size ≤ (LittleEndian.decode announcement).toNat *
          Record.size Value then _ else _) = _
        by_cases beyond : UInt64.size ≤
            (LittleEndian.decode announcement).toNat * Record.size Value
        · rw [if_pos beyond, if_pos beyond]
          rfl
        · rw [if_neg beyond, if_neg beyond]
          change ExceptT.run (if (LittleEndian.decode announcement).toNat = 0 then _ else _) = _
          by_cases zero : (LittleEndian.decode announcement).toNat = 0
          · rw [if_pos zero, if_pos zero]
            rfl
          · rw [if_neg zero, if_neg zero]

variable [SizedRecord Value]

theorem announced_count {values : List Value} (fits : Fits values) :
    (LittleEndian.decode ((LittleEndian.encode (UInt64.ofNat values.length)).take 8)).toNat =
      values.length := by
  rw [List.take_of_length_le (by rw [LittleEndian.length_encode]), LittleEndian.decode_encode,
    UInt64.toNat_ofNat_of_lt' fits.length_lt]

/-- A rank that has been told how many records come waits for exactly their bytes. -/
theorem payload_run (peer : Nat) (tag : Tag) (values : List Value)
    (after : Except Failure (List Value) → Steps Result) :
    ∃ answer,
      (receivePayload peer tag values.length : Exchange (List Value)).run.bind after =
        .await peer tag (values.length * Record.size Value) answer ∧
      answer (some ((Record.encodeMany values).take (values.length * Record.size Value))) =
        after (.ok (values.map Record.carried)) := by
  rw [receivePayload_run]
  refine ⟨_, rfl, ?_⟩
  have length := Record.length_encodeMany values
  dsimp only
  rw [List.take_of_length_le length.le, judgePayload, if_neg (not_not.2 length),
    Record.decodeMany_encodeMany_carried]
  rfl

/-- A rank that waits for records waits for their number first, and then, if there are any, for
the records. -/
theorem receive_run (peer : Nat) (tag : Tag) (values : List Value) (fits : Fits values)
    (after : Except Failure (List Value) → Steps Result) :
    ∃ answer,
      (receiveRecords peer tag : Exchange (List Value)).run.bind after =
        .await peer tag 8 answer ∧
      answer (some ((LittleEndian.encode (UInt64.ofNat values.length)).take 8)) =
        if values = [] then after (.ok [])
        else (receivePayload peer tag values.length : Exchange (List Value)).run.bind after := by
  rw [receiveRecords_run]
  refine ⟨_, rfl, ?_⟩
  have count := announced_count fits
  have full : ((LittleEndian.encode (UInt64.ofNat values.length)).take 8).length = 8 := by
    simp
  rw [judgeCount, if_neg (not_not.2 full), count, if_neg (Nat.not_le_of_lt fits)]
  by_cases empty : values = []
  · rw [if_pos (List.length_eq_zero_iff.2 empty), if_pos empty]
    rfl
  · rw [if_neg (fun zero => empty (List.length_eq_zero_iff.1 zero)), if_neg empty]

end Exchange

namespace Network

variable {size : Nat} {Result Value : Type} [Record Value] [SizedRecord Value]

/-- A rank that sends records to a rank that waits for them is done with all of them before
anyone else has to do anything. -/
theorem records_handed_over {ranks : Fin size → Steps Result} {src dst : Fin size} {tag : Tag}
    {values : List Value} {afterSend : Except Failure Unit → Steps Result}
    {afterReceive : Except Failure (List Value) → Steps Result} (different : src ≠ dst)
    (fits : Fits values)
    (sends : ranks src = (Exchange.sendRecords dst tag values).run.bind afterSend)
    (receives : ranks dst = (Exchange.receiveRecords src tag).run.bind afterReceive) :
    ReflTransGen Handover ranks
      (update (update ranks src (afterSend (.ok ()))) dst
        (afterReceive (.ok (values.map Record.carried)))) := by
  rw [Exchange.send_run] at sends
  obtain ⟨answer, waits, hears⟩ := Exchange.receive_run src tag values fits afterReceive
  rw [waits] at receives
  have announced := Handover.pass src dst tag _ _ _ _ different sends receives
  rw [hears] at announced
  apply ReflTransGen.head announced
  by_cases empty : values = []
  · simp only [empty, if_true, List.map_nil]
    exact ReflTransGen.refl
  · obtain ⟨take, waitsForAll, takes⟩ := Exchange.payload_run src tag values afterReceive
    rw [if_neg empty, if_neg empty, waitsForAll]
    have posts : update (update ranks src
        (.post dst tag (Record.encodeMany values) (afterSend (.ok ())))) dst
        (.await src tag (values.length * Record.size Value) take) src =
          .post dst tag (Record.encodeMany values) (afterSend (.ok ())) := by
      rw [update_of_ne different, update_self]
    have handed := Handover.pass src dst tag _ _ _ _ different posts (update_self _ _ _)
    rw [takes, update_comm different.symm, update_idem, update_idem] at handed
    exact ReflTransGen.single handed

/-- The root serves the ranks that wait for it one after the other. -/
theorem served_in_turn {root : Fin size} {tag : Tag} (pieceOf : Nat → List Value)
    {afterSend : Except Failure Unit → Steps Result}
    {afterReceive : Fin size → Except Failure (List Value) → Steps Result}
    (peers : List (Fin size)) (once : peers.Nodup) (others : root ∉ peers)
    (fits : ∀ peer ∈ peers, Fits (pieceOf peer)) (ranks : Fin size → Steps Result)
    (sends : ranks root = (((peers.map Fin.val).forM fun peer =>
      Exchange.sendRecords peer tag (pieceOf peer)) : Exchange Unit).run.bind afterSend)
    (receives : ∀ peer ∈ peers, ranks peer =
      (Exchange.receiveRecords root tag : Exchange (List Value)).run.bind (afterReceive peer)) :
    ReflTransGen Handover ranks fun rank =>
      if rank = root then afterSend (.ok ())
      else if rank ∈ peers then afterReceive rank (.ok ((pieceOf rank).map Record.carried))
      else ranks rank := by
  induction peers generalizing ranks with
  | nil =>
      have unchanged : ranks = fun rank =>
          if rank = root then afterSend (.ok ())
          else if rank ∈ ([] : List (Fin size)) then
            afterReceive rank (.ok ((pieceOf rank).map Record.carried))
          else ranks rank := by
        funext rank
        by_cases same : rank = root
        · rw [if_pos same, same, sends]
          rfl
        · simp [same]
      rw [← unchanged]
  | cons peer peers ih =>
      rw [List.nodup_cons] at once
      have apart : root ≠ peer := fun same => others (by simp [same])
      rw [List.map_cons, List.forM, Exchange.bind_run] at sends
      apply (records_handed_over apart (fits peer (by simp)) sends
        (receives peer (by simp))).trans
      dsimp only
      have rest := ih once.2 (fun member => others (by simp [member]))
        (fun other member => fits other (by simp [member]))
        (update (update ranks root _) peer
          (afterReceive peer (.ok ((pieceOf peer).map Record.carried))))
        (by rw [update_of_ne apart, update_self])
        (fun other member => by
          have notPeer : other ≠ peer := fun same => once.1 (same ▸ member)
          have notRoot : other ≠ root := fun same => others (by simp [← same, member])
          rw [update_of_ne notPeer, update_of_ne notRoot, receives other (by simp [member])])
      convert rest using 1
      funext rank
      by_cases isRoot : rank = root
      · simp [isRoot]
      · by_cases isPeer : rank = peer
        · subst isPeer
          simp [isRoot, once.1]
        · simp [isRoot, isPeer]

/-- The root takes a list from each rank, one after the other. -/
theorem collected_in_turn {root : Fin size} {tag : Tag} (values : Fin size → List Value)
    {afterSend : Fin size → Except Failure Unit → Steps Result}
    (peers : List (Fin size)) (once : peers.Nodup)
    (fits : ∀ peer ∈ peers, Fits (values peer)) (ranks : Fin size → Steps Result)
    (afterCollect : Except Failure (List (List Value)) → Steps Result)
    (collects : ranks root =
      (Plan.collect tag root (values root) (peers.map Fin.val)).run.bind afterCollect)
    (sends : ∀ peer ∈ peers, peer ≠ root → ranks peer =
      (Exchange.sendRecords root tag (values peer)).run.bind (afterSend peer)) :
    ReflTransGen Handover ranks fun rank =>
      if rank = root then
        afterCollect (.ok (peers.map fun peer => Plan.heard root peer (values peer)))
      else if rank ∈ peers then afterSend rank (.ok ())
      else ranks rank := by
  induction peers generalizing ranks afterCollect with
  | nil =>
      have unchanged : ranks = fun rank =>
          if rank = root then afterCollect (.ok [])
          else if rank ∈ ([] : List (Fin size)) then afterSend rank (.ok ())
          else ranks rank := by
        funext rank
        by_cases same : rank = root
        · rw [if_pos same, same, collects]
          rfl
        · simp [same]
      simp only [List.map_nil]
      rw [← unchanged]
  | cons peer peers ih =>
      rw [List.nodup_cons] at once
      rw [List.map_cons, Plan.collect] at collects
      have restFits : ∀ other ∈ peers, Fits (values other) :=
        fun other member => fits other (by simp [member])
      by_cases own : peer = root
      · subst own
        rw [if_pos rfl, Exchange.bind_run, Exchange.pure_run] at collects
        dsimp only at collects
        rw [Exchange.cons_run] at collects
        have rest := ih once.2 restFits ranks _ collects
          (fun other member => sends other (by simp [member]))
        convert rest using 1
        funext rank
        by_cases isRoot : rank = peer
        · simp [isRoot, Plan.heard, Except.map]
        · simp [isRoot]
      · rw [if_neg (fun same => own (Fin.ext same)), Exchange.bind_run] at collects
        apply (records_handed_over own (fits peer (by simp))
          (sends peer (by simp) own) collects).trans
        dsimp only
        rw [Exchange.cons_run]
        have waiting : ∀ next, ∀ other ∈ peers, other ≠ root →
            update (update ranks peer (afterSend peer (.ok ()))) root next other =
              (Exchange.sendRecords root tag (values other)).run.bind (afterSend other) := by
          intro next other member notRoot
          have notPeer : other ≠ peer := fun same => once.1 (same ▸ member)
          rw [update_of_ne notRoot, update_of_ne notPeer, sends other (by simp [member]) notRoot]
        have rest := ih once.2 restFits _
          (fun answer => afterCollect (answer.map ((values peer).map Record.carried :: ·)))
          (update_self _ _ _) (waiting _)
        convert rest using 1
        funext rank
        by_cases isRoot : rank = root
        · simp [isRoot, Plan.heard, own, Except.map]
        · by_cases isPeer : rank = peer
          · subst isPeer
            simp [isRoot, once.1]
          · simp [isRoot, isPeer]

/-- All ranks of a group but one, in ascending order. -/
def allBut (root : Fin size) : List (Fin size) :=
  (List.finRange size).filter fun peer => peer ≠ root

theorem mem_allBut (root peer : Fin size) : peer ∈ allBut root ↔ peer ≠ root := by
  simp [allBut]

theorem nodup_allBut (root : Fin size) : (allBut root).Nodup :=
  List.Nodup.filter _ (List.nodup_finRange size)

theorem range_eq_map_finRange (size : Nat) :
    List.range size = (List.finRange size).map Fin.val := by
  apply List.ext_getElem <;> simp

theorem peersOf_eq (root : Fin size) :
    Member.peersOf ⟨root, size⟩ root = (allBut root).map Fin.val := by
  rw [Member.peersOf, range_eq_map_finRange, List.filter_map]
  congr 1
  apply List.filter_congr
  intro peer _
  simp [Fin.ext_iff]

theorem broadcast_handed_over {tag : Tag} {root : Fin size} {values : Fin size → List Value}
    (fits : Fits (values root)) (after : Fin size → Except Failure (List Value) → Steps Result) :
    ReflTransGen Handover
      (fun rank => (Plan.broadcastSteps ⟨rank, size⟩ tag root (values rank)).run.bind (after rank))
      fun rank => after rank (.ok (Plan.heard root rank (values root))) := by
  have sends : (Plan.broadcastSteps ⟨root, size⟩ tag root (values root)).run.bind (after root) =
      (((allBut root).map Fin.val).forM fun peer =>
        Exchange.sendRecords peer tag (values root) : Exchange Unit).run.bind fun answer =>
          after root (answer.map fun _ => values root) := by
    simp only [Plan.broadcastSteps, if_true]
    rw [peersOf_eq, Exchange.bind_run]
    congr 1
    funext answer
    cases answer <;> rfl
  have receives : ∀ peer ∈ allBut root,
      (Plan.broadcastSteps ⟨peer, size⟩ tag root (values peer)).run.bind (after peer) =
        (Exchange.receiveRecords root tag : Exchange (List Value)).run.bind (after peer) := by
    intro peer member
    have notRoot := (mem_allBut root peer).1 member
    simp only [Plan.broadcastSteps]
    rw [if_neg (fun same => notRoot (Fin.ext same))]
  have served := served_in_turn (fun _ => values root) (allBut root) (nodup_allBut root)
    (by simp [mem_allBut]) (fun _ _ => fits) _ sends receives
  convert served using 1
  funext rank
  by_cases isRoot : rank = root
  · simp [isRoot, Plan.heard, Except.map]
  · simp [isRoot, Plan.heard, mem_allBut]

theorem scatter_handed_over {tag : Tag} {root : Fin size}
    {pieces : Fin size → List (List Value)} (enough : (pieces root).length = size)
    (fits : ∀ piece ∈ pieces root, Fits piece)
    (after : Fin size → Except Failure (List Value) → Steps Result) :
    ReflTransGen Handover
      (fun rank => (Plan.scatterSteps ⟨rank, size⟩ tag root (pieces rank)).run.bind (after rank))
      fun rank => after rank (.ok (Plan.heard root rank ((pieces root).getD rank []))) := by
  have sends : (Plan.scatterSteps ⟨root, size⟩ tag root (pieces root)).run.bind (after root) =
      (((allBut root).map Fin.val).forM fun peer =>
        Exchange.sendRecords peer tag ((pieces root).getD peer []) : Exchange Unit).run.bind
          fun answer => after root (answer.map fun _ => (pieces root).getD root []) := by
    simp only [Plan.scatterSteps, ne_eq, not_true, if_false, enough]
    rw [peersOf_eq, Exchange.bind_run]
    congr 1
    funext answer
    cases answer <;> rfl
  have receives : ∀ peer ∈ allBut root,
      (Plan.scatterSteps ⟨peer, size⟩ tag root (pieces peer)).run.bind (after peer) =
        (Exchange.receiveRecords root tag : Exchange (List Value)).run.bind (after peer) := by
    intro peer member
    have notRoot := (mem_allBut root peer).1 member
    simp only [Plan.scatterSteps]
    rw [if_pos (fun same => notRoot (Fin.ext same))]
  have pieceFits : ∀ peer ∈ allBut root, Fits ((pieces root).getD peer []) := by
    intro peer _
    have inside : peer.val < (pieces root).length := enough.symm ▸ peer.isLt
    rw [List.getD_eq_getElem _ _ inside]
    exact fits _ (List.getElem_mem inside)
  have served := served_in_turn (fun peer => (pieces root).getD peer []) (allBut root)
    (nodup_allBut root) (by simp [mem_allBut]) pieceFits _ sends receives
  convert served using 1
  funext rank
  by_cases isRoot : rank = root
  · simp [isRoot, Plan.heard, Except.map]
  · simp [isRoot, Plan.heard, mem_allBut]

theorem gather_handed_over {tag : Tag} {root : Fin size} {values : Fin size → List Value}
    (fits : ∀ rank, Fits (values rank))
    (after : Fin size → Except Failure (Option (List (List Value))) → Steps Result) :
    ReflTransGen Handover
      (fun rank => (Plan.gatherSteps ⟨rank, size⟩ tag root (values rank)).run.bind (after rank))
      fun rank => after rank (.ok
        (if rank = root then some (List.ofFn fun peer => Plan.heard root peer (values peer))
          else none)) := by
  have collects : (Plan.gatherSteps ⟨root, size⟩ tag root (values root)).run.bind (after root) =
      (Plan.collect tag root (values root) ((List.finRange size).map Fin.val)).run.bind
        fun answer => after root (answer.map some) := by
    simp only [Plan.gatherSteps, ne_eq, not_true, if_false]
    rw [← range_eq_map_finRange, Exchange.bind_run]
    congr 1
    funext answer
    cases answer <;> rfl
  have sends : ∀ peer ∈ List.finRange size, peer ≠ root →
      (Plan.gatherSteps ⟨peer, size⟩ tag root (values peer)).run.bind (after peer) =
        (Exchange.sendRecords root tag (values peer)).run.bind
          fun answer => after peer (answer.map fun _ => none) := by
    intro peer _ notRoot
    simp only [Plan.gatherSteps]
    rw [if_pos (fun same => notRoot (Fin.ext same)), Exchange.bind_run]
    congr 1
    funext answer
    cases answer <;> rfl
  have collected := collected_in_turn values (List.finRange size) (List.nodup_finRange size)
    (fun peer _ => fits peer) _ _ collects sends
  convert collected using 1
  funext rank
  by_cases isRoot : rank = root
  · simp [isRoot, Except.map, List.ofFn_eq_map]
  · simp [isRoot, Except.map]

end Network

end StreamGraph
