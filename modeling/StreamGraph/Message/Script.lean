import StreamGraph.Message.Steps

/-!
One rank alone, with its mail prepared. Every message that the rank waits for is looked up among
the prepared ones, whole and in order for each sender and tag; a missing message answers `none`.
What the rank posts is kept and delivered to nobody. Without prepared mail this is a rank that
has no peers at all.
-/

namespace StreamGraph

/-- A prepared message; without a body it stands for a receive that fails. -/
structure Letter where
  src : Nat
  tag : Tag
  body : Option Bytes
  deriving DecidableEq, Inhabited

structure Parcel where
  dst : Nat
  tag : Tag
  body : Bytes
  deriving DecidableEq, Inhabited

/-- What is seen of a rank that runs on prepared mail. -/
structure Transcript (Result : Type) where
  result? : Option Result
  sent : List Parcel
  barriers : Nat
  unread : List Letter

namespace Letter

/-- Takes the first prepared message from a sender on a tag out of the mail. -/
def take (src : Nat) (tag : Tag) : List Letter → Option Bytes × List Letter
  | [] => (none, [])
  | letter :: rest =>
      if letter.src = src ∧ letter.tag = tag then (letter.body, rest)
      else
        let (body, others) := take src tag rest
        (body, letter :: others)

end Letter

namespace Steps

variable {Result : Type}

def replay : Steps Result → List Letter → Transcript Result
  | .done result, mail => ⟨some result, [], 0, mail⟩
  | .broken, mail => ⟨none, [], 0, mail⟩
  | .post peer tag body next, mail =>
      let later := next.replay mail
      { later with sent := ⟨peer, tag, body⟩ :: later.sent }
  | .await peer tag _ next, mail =>
      let (body, rest) := Letter.take peer tag mail
      (next body).replay rest
  | .barrier next, mail =>
      let later := next.replay mail
      { later with barriers := later.barriers + 1 }

/-- Runs a rank that has no peers: nothing it posts arrives, and nothing comes. -/
def alone (process : Steps Result) : Option Result := (process.replay []).result?

end Steps

def Member.single : Member := ⟨0, 1⟩

end StreamGraph
