import Mathlib.Logic.Relation
import StreamGraph.Message.Group

/-!
Channels as queues. Members post and take in any order; all letters lie in one list, but on each
channel the messages are taken in the order in which they were posted, each of them once, and what
goes on elsewhere is not noticed. What a rank cuts off a message is gone. So the answers on a
channel, and what is left there, follow from the calls on that channel alone.
-/

namespace StreamGraph

open Relation

/-- A call of one member: it posts a message to a peer, or waits for one from a peer and gets at
most `limit` bytes of it. -/
inductive MailCall where
  | post (rank peer : Nat) (tag : Tag) (body : Bytes)
  | await (rank peer : Nat) (tag : Tag) (limit : Nat)
  deriving DecidableEq

namespace MailCall

def rank : MailCall → Nat
  | post rank _ _ _ => rank
  | await rank _ _ _ => rank

/-- The call as the only step of its member. -/
def steps : MailCall → Steps (Option Bytes)
  | post _ peer tag body => .post peer tag body (.done none)
  | await _ peer tag limit => .await peer tag limit .done

/-- Performs a call that need not wait. -/
def perform? (call : MailCall) (mail : Mailbox) : Option (Mailbox × Option Bytes) :=
  match call.steps.advance? mail call.rank with
  | some (rest, .done answer) => some (rest, answer)
  | _ => none

/-- What the call adds to a channel. -/
def sent (channel : Channel) : MailCall → List Bytes
  | post rank peer tag body => if (⟨rank, peer, tag⟩ : Channel) = channel then [body] else []
  | await .. => []

/-- How much the call asks of a channel. -/
def asked (channel : Channel) : MailCall → List Nat
  | post .. => []
  | await rank peer tag limit => if (⟨peer, rank, tag⟩ : Channel) = channel then [limit] else []

/-- What the call hears from a channel. -/
def heard (channel : Channel) (call : MailCall) (answer : Option Bytes) : List Bytes :=
  if call.asked channel = [] then [] else answer.toList

theorem perform_post (rank peer : Nat) (tag : Tag) (body : Bytes) (mail : Mailbox) :
    (post rank peer tag body).perform? mail = some (mail.post ⟨rank, peer, tag⟩ body, none) := rfl

theorem perform_await (rank peer : Nat) (tag : Tag) (limit : Nat) (mail : Mailbox) :
    (await rank peer tag limit).perform? mail =
      (mail.take? ⟨peer, rank, tag⟩).map fun (body, rest) => (rest, some (body.take limit)) := by
  simp only [perform?, steps, MailCall.rank, Steps.advance?]
  cases mail.take? ⟨peer, rank, tag⟩ <;> rfl

/-- The first messages, each as far as it was asked for. -/
def cut (limits : List Nat) (bodies : List Bytes) : List Bytes :=
  List.zipWith (fun limit body => body.take limit) limits bodies

/-- One call takes as many messages off the front of a channel as it asks for there, and hears of
them what it asks for. -/
theorem perform_channel {call : MailCall} {mail rest : Mailbox} {answer : Option Bytes}
    (performed : call.perform? mail = some (rest, answer)) (channel : Channel) :
    ∃ taken : List Bytes, taken.length = (call.asked channel).length ∧
      mail.queue channel ++ call.sent channel = taken ++ rest.queue channel ∧
      call.heard channel answer = cut (call.asked channel) taken := by
  cases call with
  | post rank peer tag body =>
      rw [perform_post] at performed
      cases performed
      exact ⟨[], rfl, (mail.queue_post _ channel body).symm, rfl⟩
  | await rank peer tag limit =>
      rw [perform_await, Option.map_eq_some_iff] at performed
      obtain ⟨⟨body, left⟩, taken, same⟩ := performed
      cases same
      have queues := mail.queue_take rest ⟨peer, rank, tag⟩ channel body taken
      by_cases own : (⟨peer, rank, tag⟩ : Channel) = channel
      · rw [if_pos own] at queues
        exact ⟨[body], by simp [asked, own], by simpa [sent] using queues,
          by simp [heard, asked, own, cut]⟩
      · rw [if_neg own] at queues
        exact ⟨[], by simp [asked, own], by simpa [sent] using queues,
          by simp [heard, asked, own, cut]⟩

/-- A call need not wait when each channel has what the call asks for. -/
theorem exists_perform {call : MailCall} {mail : Mailbox}
    (supplied : ∀ channel,
      (call.asked channel).length ≤ (mail.queue channel ++ call.sent channel).length) :
    ∃ rest answer, call.perform? mail = some (rest, answer) := by
  cases call with
  | post rank peer tag body => exact ⟨_, _, perform_post ..⟩
  | await rank peer tag limit =>
      rw [perform_await]
      cases taken : mail.take? ⟨peer, rank, tag⟩ with
      | some first => exact ⟨_, _, rfl⟩
      | none =>
          have nothing := (mail.take_eq_none_iff _).1 taken
          have enough := supplied ⟨peer, rank, tag⟩
          simp [asked, sent, nothing] at enough

end MailCall

/-- Some calls of the members of a group, in the order in which they are made. -/
abbrev History := List MailCall

namespace History

open MailCall (cut)

def sent (channel : Channel) (calls : History) : List Bytes := calls.flatMap (MailCall.sent channel)

def asked (channel : Channel) (calls : History) : List Nat := calls.flatMap (MailCall.asked channel)

/-- Performs the calls one after the other, unless one of them has to wait. -/
def perform? : History → Mailbox → Option (Mailbox × List (Option Bytes))
  | [], mail => some (mail, [])
  | call :: calls, mail => do
      let (between, answer) ← call.perform? mail
      let (rest, answers) ← perform? calls between
      return (rest, answer :: answers)

/-- What is heard from a channel. -/
def heard (channel : Channel) (calls : History) (answers : List (Option Bytes)) : List Bytes :=
  (calls.zip answers).flatMap fun (call, answer) => call.heard channel answer

/-- No call waits on an empty channel. -/
def Supplied (mail : Mailbox) (calls : History) : Prop :=
  ∀ front, front <+: calls → ∀ channel,
    (asked channel front).length ≤ (mail.queue channel ++ sent channel front).length

theorem perform_cons_eq_some_iff {call : MailCall} {calls : History} {mail rest : Mailbox}
    {answers : List (Option Bytes)} :
    perform? (call :: calls) mail = some (rest, answers) ↔ ∃ between answer later,
      call.perform? mail = some (between, answer) ∧ perform? calls between = some (rest, later) ∧
        answers = answer :: later := by
  simp only [perform?, Option.bind_eq_bind, Option.bind_eq_some_iff, Option.pure_def,
    Option.some.injEq, Prod.mk.injEq]
  constructor
  · rintro ⟨⟨between, answer⟩, first, ⟨last, later⟩, others, rfl, rfl⟩
    exact ⟨between, answer, later, first, others, rfl⟩
  · rintro ⟨between, answer, later, first, others, rfl⟩
    exact ⟨⟨between, answer⟩, first, ⟨rest, later⟩, others, rfl, rfl⟩

theorem perform_append {front back : History} {mail between rest : Mailbox}
    {before after : List (Option Bytes)} (first : front.perform? mail = some (between, before))
    (second : back.perform? between = some (rest, after)) :
    perform? (front ++ back) mail = some (rest, before ++ after) := by
  induction front generalizing mail before with
  | nil =>
      cases first
      exact second
  | cons call calls ih =>
      obtain ⟨next, answer, later, step, others, rfl⟩ := perform_cons_eq_some_iff.1 first
      exact perform_cons_eq_some_iff.2 ⟨next, answer, _, step, ih others, rfl⟩

theorem exists_perform_front {front back : History} {mail rest : Mailbox}
    {answers : List (Option Bytes)}
    (performed : perform? (front ++ back) mail = some (rest, answers)) :
    ∃ between before, front.perform? mail = some (between, before) := by
  induction front generalizing mail answers with
  | nil => exact ⟨mail, [], rfl⟩
  | cons call calls ih =>
      obtain ⟨next, answer, later, step, others, _⟩ := perform_cons_eq_some_iff.1 performed
      obtain ⟨between, before, first⟩ := ih others
      exact ⟨between, _, perform_cons_eq_some_iff.2 ⟨next, answer, before, step, first, rfl⟩⟩

/-- What a history leaves and what it has heard, channel by channel: of the messages that were there
or came in, the first are heard, as many as were asked for, and all others are left. -/
structure InOrder (mail : Mailbox) (calls : History) (rest : Mailbox)
    (answers : List (Option Bytes)) : Prop where
  answered : answers.length = calls.length
  enough (channel : Channel) :
    (asked channel calls).length ≤ (mail.queue channel ++ sent channel calls).length
  heard (channel : Channel) : heard channel calls answers =
    cut (asked channel calls) (mail.queue channel ++ sent channel calls)
  left (channel : Channel) : rest.queue channel =
    (mail.queue channel ++ sent channel calls).drop (asked channel calls).length

theorem inOrder_nil (mail : Mailbox) : InOrder mail [] mail [] where
  answered := rfl
  enough _ := Nat.zero_le _
  heard _ := rfl
  left channel := (List.append_nil (mail.queue channel)).symm

theorem InOrder.cons {call : MailCall} {calls : History} {mail between rest : Mailbox}
    {answer : Option Bytes} {answers : List (Option Bytes)}
    (performed : call.perform? mail = some (between, answer))
    (later : InOrder between calls rest answers) :
    InOrder mail (call :: calls) rest (answer :: answers) := by
  have step : ∀ channel, ∃ taken : List Bytes, taken.length = (call.asked channel).length ∧
      mail.queue channel ++ sent channel (call :: calls) =
        taken ++ (between.queue channel ++ sent channel calls) ∧
      asked channel (call :: calls) = call.asked channel ++ asked channel calls ∧
      call.heard channel answer = cut (call.asked channel) taken := by
    intro channel
    obtain ⟨taken, length, queues, hears⟩ := MailCall.perform_channel performed channel
    refine ⟨taken, length, ?_, List.flatMap_cons, hears⟩
    rw [sent, List.flatMap_cons, ← List.append_assoc, queues, List.append_assoc, ← sent]
  constructor
  · rw [List.length_cons, List.length_cons, later.answered]
  · intro channel
    obtain ⟨taken, length, queues, asks, _⟩ := step channel
    have enough := later.enough channel
    rw [queues, asks, List.length_append, List.length_append, length]
    omega
  · intro channel
    obtain ⟨taken, length, queues, asks, hears⟩ := step channel
    rw [queues, asks, cut, List.zipWith_append length.symm, ← cut, ← cut, ← hears,
      ← later.heard channel]
    rfl
  · intro channel
    obtain ⟨taken, length, queues, asks, _⟩ := step channel
    rw [queues, asks, List.length_append, ← length, ← List.drop_drop, List.drop_left,
      later.left channel]

theorem inOrder_of_perform {calls : History} {mail rest : Mailbox} {answers : List (Option Bytes)}
    (performed : calls.perform? mail = some (rest, answers)) : InOrder mail calls rest answers := by
  induction calls generalizing mail answers with
  | nil =>
      cases performed
      exact inOrder_nil rest
  | cons call calls ih =>
      obtain ⟨between, answer, later, first, others, rfl⟩ := perform_cons_eq_some_iff.1 performed
      exact .cons first (ih others)

/-- Exactly the histories without a wait on an empty channel are performed to their end. -/
theorem supplied_iff {mail : Mailbox} {calls : History} :
    Supplied mail calls ↔ ∃ rest answers, calls.perform? mail = some (rest, answers) := by
  constructor
  · intro supplied
    induction calls generalizing mail with
    | nil => exact ⟨mail, [], rfl⟩
    | cons call calls ih =>
        obtain ⟨between, answer, first⟩ := MailCall.exists_perform fun channel => by
          have enough := supplied [call] ⟨calls, rfl⟩ channel
          simpa [asked, sent] using enough
        have others : Supplied between calls := by
          intro front isPrefix channel
          obtain ⟨taken, length, queues, _⟩ := MailCall.perform_channel first channel
          have enough := supplied (call :: front) (List.cons_prefix_cons.2 ⟨rfl, isPrefix⟩) channel
          rw [sent, List.flatMap_cons, ← List.append_assoc, queues, ← sent, asked,
            List.flatMap_cons, ← asked] at enough
          simp only [List.length_append] at enough ⊢
          omega
        obtain ⟨rest, answers, later⟩ := ih others
        exact ⟨rest, _, perform_cons_eq_some_iff.2 ⟨between, answer, answers, first, later, rfl⟩⟩
  · rintro ⟨rest, answers, performed⟩ front ⟨back, rfl⟩ channel
    obtain ⟨between, before, first⟩ := exists_perform_front performed
    exact (inOrder_of_perform first).enough channel

/-- A step that a rank takes alone is a call. -/
theorem exists_call_of_advance {Result : Type} {process next : Steps Result} {mail rest : Mailbox}
    {rank : Nat} (step : process.advance? mail rank = some (rest, next)) :
    ∃ call answer, MailCall.rank call = rank ∧ call.perform? mail = some (rest, answer) := by
  cases process with
  | done => cases step
  | broken => cases step
  | barrier => cases step
  | post peer tag body =>
      cases step
      exact ⟨.post rank peer tag body, none, rfl, rfl⟩
  | await peer tag limit =>
      simp only [Steps.advance?, Option.map_eq_some_iff] at step
      obtain ⟨⟨body, left⟩, taken, same⟩ := step
      cases same
      refine ⟨.await rank peer tag limit, some (body.take limit), rfl, ?_⟩
      rw [MailCall.perform_await, taken]
      rfl

/-- Whatever a group runs and whoever goes first, the mail is at any time what some history of its
ranks has left. -/
theorem exists_history_of_run {Result : Type} {ranks : List (Steps Result)}
    {reached : Group Result} (run : ReflTransGen Group.Step (Group.start ranks) reached) :
    reached.ranks.length = ranks.length ∧ ∃ (calls : History) (answers : List (Option Bytes)),
      (∀ call ∈ calls, call.rank < ranks.length) ∧
      calls.perform? .empty = some (reached.mail, answers) := by
  induction run with
  | refl => exact ⟨rfl, [], [], by simp, rfl⟩
  | tail _ step ih =>
      obtain ⟨length, calls, answers, members, performed⟩ := ih
      cases step with
      | advance rank inside step =>
          obtain ⟨call, answer, own, last⟩ := exists_call_of_advance step
          refine ⟨(List.length_set ..).trans length, calls ++ [call], answers ++ [answer], ?_,
            perform_append performed (perform_cons_eq_some_iff.2 ⟨_, answer, [], last, rfl, rfl⟩)⟩
          intro other member
          rcases List.mem_append.1 member with earlier | isLast
          · exact members other earlier
          · rw [List.mem_singleton.1 isLast, own, ← length]
            exact inside
      | release nonempty waiting =>
          exact ⟨(List.length_map _).trans length, calls, answers, members, performed⟩

/-- Any calls of any members are performed in their order, if none waits on an empty channel. On
each channel they hear the first messages, each once and cut to what was asked for, and all later
ones are left; calls on other channels make no difference. No group, under any schedule, has mail
that did not come about like that. -/
theorem channels_deliver_in_order :
    (∀ (mail : Mailbox) (calls : History), Supplied mail calls →
      ∃ rest answers, calls.perform? mail = some (rest, answers) ∧
        InOrder mail calls rest answers) ∧
    (∀ (channel : Channel) (first second : History) (left right : Mailbox)
      (answers others : List (Option Bytes)),
      first.perform? .empty = some (left, answers) →
      second.perform? .empty = some (right, others) →
      sent channel first = sent channel second → asked channel first = asked channel second →
      heard channel first answers = heard channel second others ∧
        left.queue channel = right.queue channel) ∧
    ∀ (Result : Type) (ranks : List (Steps Result)) (reached : Group Result),
      ReflTransGen Group.Step (Group.start ranks) reached →
      ∃ (calls : History) (answers : List (Option Bytes)),
        (∀ call ∈ calls, call.rank < ranks.length) ∧ Supplied .empty calls ∧
        InOrder .empty calls reached.mail answers := by
  refine ⟨?_, ?_, ?_⟩
  · intro mail calls supplied
    obtain ⟨rest, answers, performed⟩ := supplied_iff.1 supplied
    exact ⟨rest, answers, performed, inOrder_of_perform performed⟩
  · intro channel first second left right answers others runsFirst runsSecond sends asks
    have inFirst := inOrder_of_perform runsFirst
    have inSecond := inOrder_of_perform runsSecond
    rw [inFirst.heard, inSecond.heard, inFirst.left, inSecond.left, sends, asks]
    exact ⟨rfl, rfl⟩
  · intro Result ranks reached run
    obtain ⟨_, calls, answers, members, performed⟩ := exists_history_of_run run
    exact ⟨calls, answers, members, supplied_iff.2 ⟨_, _, performed⟩,
      inOrder_of_perform performed⟩

/-- Three members on two channels that differ in the sender only, and on one that leads back. The
first message for rank one is taken in part. -/
def crossed : History :=
  [.post 0 1 7 [1, 2, 3], .post 2 1 7 [9], .await 1 0 7 2, .post 0 1 7 [4], .post 1 0 7 [],
    .post 0 1 7 [5, 6], .await 1 2 7 8, .await 0 1 7 8, .await 1 0 7 8]

theorem crossed_is_delivered :
    Supplied .empty crossed ∧ ∃ rest answers, crossed.perform? .empty = some (rest, answers) ∧
      heard ⟨0, 1, 7⟩ crossed answers = [[1, 2], [4]] ∧ rest.queue ⟨0, 1, 7⟩ = [[5, 6]] ∧
      heard ⟨2, 1, 7⟩ crossed answers = [[9]] ∧ rest.queue ⟨2, 1, 7⟩ = [] := by
  have supplied : Supplied .empty crossed := supplied_iff.2 ⟨_, _, rfl⟩
  obtain ⟨rest, answers, performed, inOrder⟩ :=
    channels_deliver_in_order.1 .empty crossed supplied
  refine ⟨supplied, rest, answers, performed, ?_, ?_, ?_, ?_⟩
  · rw [inOrder.heard]
    decide
  · rw [inOrder.left]
    decide
  · rw [inOrder.heard]
    decide
  · rw [inOrder.left]
    decide

end History

end StreamGraph
