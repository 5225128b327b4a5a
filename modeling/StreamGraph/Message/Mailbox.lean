import StreamGraph.Message.Steps

/-!
Messages on their way. Each pair of ranks has one channel for each tag, and a channel hands its
messages over in the order in which they were posted. The letters of all channels lie in one
list; `Mailbox.queue` is the view of a single channel.
-/

namespace StreamGraph

/-- One direction between two ranks, on one tag. -/
structure Channel where
  src : Nat
  dst : Nat
  tag : Tag
  deriving DecidableEq, Inhabited

/-- The messages that were posted and not yet taken, the oldest first. -/
structure Mailbox where
  letters : List (Channel × Bytes)
  deriving DecidableEq, Inhabited

namespace Mailbox

def empty : Mailbox := ⟨[]⟩

/-- The messages of one channel, the oldest first. -/
def queue (mail : Mailbox) (channel : Channel) : List Bytes :=
  (mail.letters.filter fun letter => letter.1 = channel).map Prod.snd

def post (mail : Mailbox) (channel : Channel) (body : Bytes) : Mailbox :=
  ⟨mail.letters ++ [(channel, body)]⟩

def takeFrom (channel : Channel) : List (Channel × Bytes) → Option (Bytes × List (Channel × Bytes))
  | [] => none
  | letter :: rest =>
      if letter.1 = channel then some (letter.2, rest)
      else (takeFrom channel rest).map fun (body, others) => (body, letter :: others)

def take? (mail : Mailbox) (channel : Channel) : Option (Bytes × Mailbox) :=
  (takeFrom channel mail.letters).map fun (body, letters) => (body, ⟨letters⟩)

theorem queue_post (mail : Mailbox) (channel other : Channel) (body : Bytes) :
    (mail.post channel body).queue other =
      mail.queue other ++ if channel = other then [body] else [] := by
  by_cases same : channel = other <;> simp [queue, post, List.filter_append, same]

theorem queue_takeFrom (channel : Channel) (letters : List (Channel × Bytes)) :
    match takeFrom channel letters with
    | none => queue ⟨letters⟩ channel = []
    | some (body, rest) => ∀ other, queue ⟨letters⟩ other =
        (if channel = other then [body] else []) ++ queue ⟨rest⟩ other := by
  induction letters with
  | nil => simp [takeFrom, queue]
  | cons letter rest ih =>
      simp only [takeFrom]
      by_cases mine : letter.1 = channel
      · simp only [mine, if_true]
        intro other
        by_cases same : channel = other <;> simp [queue, mine, same]
      · simp only [mine, if_false]
        cases found : takeFrom channel rest with
        | none =>
            rw [found] at ih
            simpa [queue, List.filter_cons, mine] using ih
        | some taken =>
            obtain ⟨body, others⟩ := taken
            rw [found] at ih
            simp only [Option.map_some]
            intro other
            have later := ih other
            by_cases same : channel = other
            · subst same
              simpa [queue, List.filter_cons, mine] using later
            · by_cases head : letter.1 = other <;>
                simpa [queue, List.filter_cons, head, same] using later

/-- The oldest message of a channel is taken; no other channel is touched. -/
theorem queue_take (mail rest : Mailbox) (channel other : Channel) (body : Bytes)
    (taken : mail.take? channel = some (body, rest)) :
    mail.queue other = (if channel = other then [body] else []) ++ rest.queue other := by
  have law := queue_takeFrom channel mail.letters
  simp only [take?, Option.map_eq_some_iff, Prod.mk.injEq] at taken
  obtain ⟨⟨first, letters⟩, found, rfl, rfl⟩ := taken
  rw [found] at law
  exact law other

/-- Nothing can be taken from a channel exactly when it is empty. -/
theorem take_eq_none_iff (mail : Mailbox) (channel : Channel) :
    mail.take? channel = none ↔ mail.queue channel = [] := by
  have law := queue_takeFrom channel mail.letters
  simp only [take?, Option.map_eq_none_iff]
  cases found : takeFrom channel mail.letters with
  | none => rw [found] at law; exact ⟨fun _ => law, fun _ => rfl⟩
  | some taken =>
      rw [found] at law
      refine ⟨fun impossible => (nomatch impossible), fun nothing => ?_⟩
      have first : mail.queue channel = _ := law channel
      simp [nothing] at first

end Mailbox

end StreamGraph
