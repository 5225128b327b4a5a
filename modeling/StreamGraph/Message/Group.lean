import StreamGraph.Message.Mailbox

/-!
A group of ranks in one place, sharing one mailbox. `Group.Step` lets any rank go first that
can go on; `Group.run` always lets the one of lowest number go first. Every step uses up a node
of some rank's tree, so every run ends.
-/

namespace StreamGraph

structure Group (Result : Type) where
  mail : Mailbox
  ranks : List (Steps Result)

namespace Steps

variable {Result : Type}

/-- The tree that remains after one step of a rank. -/
inductive After : Steps Result → Steps Result → Prop
  | post {peer tag body next} : After next (.post peer tag body next)
  | await {peer tag limit} {next : Option Bytes → Steps Result} (body : Option Bytes) :
      After (next body) (.await peer tag limit next)
  | barrier {next} : After next (.barrier next)

theorem acc_after (process : Steps Result) : Acc After process := by
  induction process with
  | done => exact ⟨_, fun _ step => nomatch step⟩
  | broken => exact ⟨_, fun _ step => nomatch step⟩
  | post _ _ _ _ ih => exact ⟨_, fun _ step => by cases step; exact ih⟩
  | await _ _ _ _ ih => exact ⟨_, fun _ step => by cases step with | await body => exact ih body⟩
  | barrier _ ih => exact ⟨_, fun _ step => by cases step; exact ih⟩

/-- A step that needs no other rank to stand still: posting, or taking a message that is there. -/
def advance? (mail : Mailbox) (rank : Nat) : Steps Result → Option (Mailbox × Steps Result)
  | .post peer tag body next => some (mail.post ⟨rank, peer, tag⟩ body, next)
  | .await peer tag limit next =>
      (mail.take? ⟨peer, rank, tag⟩).map fun (body, rest) => (rest, next (some (body.take limit)))
  | _ => none

theorem after_of_advance {mail rest : Mailbox} {rank : Nat} {process next : Steps Result}
    (step : process.advance? mail rank = some (rest, next)) : After next process := by
  cases process with
  | done => simp [advance?] at step
  | broken => simp [advance?] at step
  | barrier => simp [advance?] at step
  | post =>
      simp only [advance?, Option.some.injEq, Prod.mk.injEq] at step
      rw [← step.2]
      exact .post
  | await =>
      simp only [advance?, Option.map_eq_some_iff, Prod.mk.injEq] at step
      obtain ⟨_, _, _, rfl⟩ := step
      exact .await _

def release : Steps Result → Steps Result
  | .barrier next => next
  | other => other

end Steps

namespace Group

variable {Result : Type}

/-- Some ranks have taken steps, and no rank has gone back. -/
inductive Later : List (Steps Result) → List (Steps Result) → Prop
  | first {next process ranks} (step : Steps.After next process) :
      Later (next :: ranks) (process :: ranks)
  | others {process rests ranks} (steps : Later rests ranks) :
      Later (process :: rests) (process :: ranks)
  | both {next process rests ranks} (step : Steps.After next process)
      (steps : Later rests ranks) : Later (next :: rests) (process :: ranks)

theorem acc_later_cons {process : Steps Result} (first : Acc Steps.After process)
    {ranks : List (Steps Result)} (others : Acc Later ranks) : Acc Later (process :: ranks) := by
  induction first generalizing ranks with
  | intro process _ ihFirst =>
      induction others with
      | intro ranks deeper ihOthers =>
          refine ⟨_, fun later step => ?_⟩
          cases step with
          | first forward => exact ihFirst _ forward ⟨_, deeper⟩
          | others steps => exact ihOthers _ steps
          | both forward steps => exact ihFirst _ forward (deeper _ steps)

theorem acc_later (ranks : List (Steps Result)) : Acc Later ranks := by
  induction ranks with
  | nil => exact ⟨_, fun _ step => nomatch step⟩
  | cons process _ ih => exact acc_later_cons process.acc_after ih

instance : WellFoundedRelation (Group Result) where
  rel := InvImage Later Group.ranks
  wf := InvImage.wf _ ⟨acc_later⟩

/-- The first rank that can go on takes its step; `rank` is the number of the first in the list. -/
def advanceFirst (mail : Mailbox) (rank : Nat) :
    List (Steps Result) → Option (Mailbox × List (Steps Result))
  | [] => none
  | process :: others =>
      match process.advance? mail rank with
      | some (rest, next) => some (rest, next :: others)
      | none => (advanceFirst mail (rank + 1) others).map fun (rest, later) =>
          (rest, process :: later)

theorem later_of_advanceFirst {mail rest : Mailbox} {rank : Nat}
    {ranks later : List (Steps Result)}
    (step : advanceFirst mail rank ranks = some (rest, later)) : Later later ranks := by
  induction ranks generalizing rank rest later with
  | nil => simp [advanceFirst] at step
  | cons process others ih =>
      simp only [advanceFirst] at step
      split at step
      · next found =>
          simp only [Option.some.injEq, Prod.mk.injEq] at step
          rw [← step.2]
          exact .first (Steps.after_of_advance found)
      · simp only [Option.map_eq_some_iff, Prod.mk.injEq] at step
        obtain ⟨⟨_, _⟩, found, _, rfl⟩ := step
        exact .others (ih found)

def allAtBarrier (ranks : List (Steps Result)) : Bool :=
  !ranks.isEmpty && ranks.all Steps.atBarrier

theorem later_of_release {ranks : List (Steps Result)} (nonempty : ranks ≠ [])
    (waiting : ranks.all Steps.atBarrier = true) :
    Later (ranks.map Steps.release) ranks := by
  induction ranks with
  | nil => exact absurd rfl nonempty
  | cons process others ih =>
      simp only [List.all_cons, Bool.and_eq_true] at waiting
      have step : Steps.After process.release process := by
        cases process <;> simp only [Steps.atBarrier, Bool.false_eq_true, false_and] at waiting
        exact .barrier
      cases others with
      | nil => exact .first step
      | cons second rest => exact .both step (ih (by simp) waiting.2)

/-- One step of the group: a rank goes on, or all leave the barrier together. -/
def step? (group : Group Result) : Option (Group Result) :=
  match advanceFirst group.mail 0 group.ranks with
  | some (mail, ranks) => some ⟨mail, ranks⟩
  | none =>
      if allAtBarrier group.ranks then some ⟨group.mail, group.ranks.map Steps.release⟩
      else none

theorem later_of_step {group next : Group Result} (step : group.step? = some next) :
    Later next.ranks group.ranks := by
  simp only [step?] at step
  split at step
  · next found =>
      cases step
      exact later_of_advanceFirst found
  · split at step
    · next waiting =>
        cases step
        simp only [allAtBarrier, Bool.and_eq_true, Bool.not_eq_true', List.isEmpty_eq_false_iff]
          at waiting
        exact later_of_release waiting.1 waiting.2
    · cases step

def run (group : Group Result) : Group Result :=
  match _taken : group.step? with
  | none => group
  | some next => run next
termination_by group
decreasing_by exact later_of_step _taken

def start (ranks : List (Steps Result)) : Group Result := ⟨.empty, ranks⟩

/-- What each rank has found; a rank that is stuck or has broken off has found nothing. -/
def results (group : Group Result) : List (Option Result) := group.ranks.map Steps.result?

/-- Any step that some schedule can take. -/
inductive Step : Group Result → Group Result → Prop
  | advance {mail rest : Mailbox} {ranks : List (Steps Result)} {next : Steps Result}
      (rank : Nat) (inside : rank < ranks.length)
      (step : ranks[rank].advance? mail rank = some (rest, next)) :
      Step ⟨mail, ranks⟩ ⟨rest, ranks.set rank next⟩
  | release {mail : Mailbox} {ranks : List (Steps Result)} (nonempty : ranks ≠ [])
      (waiting : ∀ process ∈ ranks, process.atBarrier = true) :
      Step ⟨mail, ranks⟩ ⟨mail, ranks.map Steps.release⟩

end Group

/-- The members of a group of `size` ranks; there is at least one. -/
def Member.all (size : Nat) : List Member :=
  (List.range (max size 1)).map fun rank => ⟨rank, max size 1⟩

/-- Runs the same program on every rank of a group, each in its own place. -/
def Group.runAll {Result : Type} (size : Nat) (program : Member → Steps Result) :
    List (Option Result) :=
  (Group.start ((Member.all size).map program)).run.results

end StreamGraph
