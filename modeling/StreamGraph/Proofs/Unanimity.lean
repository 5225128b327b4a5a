import StreamGraph.Proofs.Collective

/-!
Groups that are of one mind. Ranks that take part in the same operations need not have the same
answers, but either all of them have one or all of them were refused, and a refusal is about what
the group was given: never about a message, nor about the length of a list.
-/

namespace StreamGraph

/-- Whether a failure is about a vertex of a batch or of a traversal. -/
def Failure.IsRefusal : Failure → Prop
  | vertexOutOfRange _ _ => True
  | peerRejected _ => True
  | noUsableSource _ => True
  | _ => False

/-- All ranks have an answer, or all ranks were refused. -/
inductive Unanimous {size : Nat} {Answer : Type} : (Fin size → Except Failure Answer) → Prop
  | answered (answers : Fin size → Answer) : Unanimous fun rank => .ok (answers rank)
  | refused (failures : Fin size → Failure) (refusals : ∀ rank, (failures rank).IsRefusal) :
      Unanimous fun rank => .error (failures rank)

/-- An answer or a refusal, and no other failure. -/
inductive Verdict {Answer : Type} : Except Failure Answer → Prop
  | answer (answer : Answer) : Verdict (.ok answer)
  | refusal (failure : Failure) (isRefusal : failure.IsRefusal) : Verdict (.error failure)

variable {size : Nat} {First Second Answer : Type}

theorem Verdict.unanimous {outcome : Except Failure Answer} (verdict : Verdict outcome) :
    Unanimous fun _ : Fin size => outcome := by
  cases verdict with
  | answer answer => exact .answered fun _ => answer
  | refusal failure isRefusal => exact .refused (fun _ => failure) fun _ => isRefusal

theorem Unanimous.map {outcomes : Fin size → Except Failure First} (one : Unanimous outcomes)
    (change : Fin size → First → Second) :
    Unanimous fun rank => (outcomes rank).map (change rank) := by
  cases one with
  | answered answers => exact .answered fun rank => change rank (answers rank)
  | refused failures refusals => exact .refused failures refusals

namespace Collective

/-- All ranks take part in the same operations, and come to unanimous answers. -/
def Agreed (programs : Fin size → Collective Answer) : Prop :=
  ∃ outcomes, Unanimous outcomes ∧ Together programs outcomes

theorem agreed_answers {programs : Fin size → Collective Answer} {answers : Fin size → Answer}
    (together : Together programs fun rank => .ok (answers rank)) : Agreed programs :=
  ⟨_, .answered answers, together⟩

theorem agreed_pure (answers : Fin size → Answer) :
    Agreed fun rank => (pure (answers rank) : Collective Answer) :=
  agreed_answers (together_pure answers)

theorem agreed_after {programs : Fin size → Collective First} {found : Fin size → First}
    {next : Fin size → First → Collective Second}
    (first : Together programs fun rank => .ok (found rank))
    (second : Agreed fun rank => next rank (found rank)) :
    Agreed fun rank => programs rank >>= next rank := by
  rcases second with ⟨outcomes, one, goesOn⟩
  exact ⟨outcomes, one, together_bind first goesOn⟩

/-- When all ranks are refused, none of them goes on. -/
theorem agreed_bind {programs : Fin size → Collective First}
    {next : Fin size → First → Collective Second} (first : Agreed programs)
    (second : ∀ answers : Fin size → First, Agreed fun rank => next rank (answers rank)) :
    Agreed fun rank => programs rank >>= next rank := by
  rcases first with ⟨outcomes, one, together⟩
  cases one with
  | answered answers => exact agreed_after together (second answers)
  | refused failures refusals =>
      exact ⟨_, .refused failures refusals, together_bind_error next together⟩

/-- The ranks agree, and all of them have the same answer or the same failure. -/
def Alike (programs : Fin size → Collective Answer) : Prop :=
  ∃ outcome, Verdict outcome ∧ Together programs fun _ => outcome

theorem Alike.agreed {programs : Fin size → Collective Answer} (alike : Alike programs) :
    Agreed programs := by
  rcases alike with ⟨outcome, verdict, together⟩
  exact ⟨_, verdict.unanimous, together⟩

theorem alike_answer {programs : Fin size → Collective Answer} {answer : Answer}
    (together : Together programs fun _ => .ok answer) : Alike programs :=
  ⟨.ok answer, .answer answer, together⟩

end Collective

end StreamGraph
