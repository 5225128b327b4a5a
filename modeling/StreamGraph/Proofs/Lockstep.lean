import StreamGraph.Proofs.Message.Delivery

/-!
Ranks in step. A group is in step when all ranks issue the same collective operation, with the
same tag and the same root, as often as any of them issues one, and all come to their results
after the last. Being in step is a matter of the plans alone; a group that is in step settles
under every schedule of its messages (`lockstep_settles`).
-/

namespace StreamGraph

open Relation Function

/-- What can be seen of a collective operation before anyone has an answer. -/
inductive Operation where
  | broadcast (tag : Tag) (root : Nat)
  | scatter (tag : Tag) (root : Nat)
  | gather (tag : Tag) (root : Nat)
  | barrier
  deriving DecidableEq

namespace Plan

/-- All ranks issue these operations, one after the other, and then come to these results. The
answers are those of the operation: the root's list, each rank's piece of the root's pieces, or at
the root the lists of all ranks. -/
inductive Performs {size : Nat} {Result : Type} :
    (Fin size → Plan Result) → List Operation → (Fin size → Result) → Prop
  | done (results : Fin size → Result) : Performs (fun rank => .done (results rank)) [] results
  | broadcast {Value : Type} [record : Record Value] [SizedRecord Value] (tag : Tag)
      (root : Fin size) (values : Fin size → List Value) (fits : Fits (values root))
      (next : Fin size → Except Failure (List Value) → Plan Result) {later : List Operation}
      {results : Fin size → Result}
      (rest : Performs (fun rank => next rank (.ok (heard root rank (values root)))) later
        results) :
      Performs (fun rank => .broadcast record tag root (values rank) (next rank))
        (.broadcast tag root :: later) results
  | scatter {Value : Type} [record : Record Value] [SizedRecord Value] (tag : Tag)
      (root : Fin size) (pieces : Fin size → List (List Value))
      (enough : (pieces root).length = size) (fits : ∀ piece ∈ pieces root, Fits piece)
      (next : Fin size → Except Failure (List Value) → Plan Result) {later : List Operation}
      {results : Fin size → Result}
      (rest : Performs
        (fun rank => next rank (.ok (heard root rank ((pieces root).getD rank [])))) later
          results) :
      Performs (fun rank => .scatter record tag root (pieces rank) (next rank))
        (.scatter tag root :: later) results
  | gather {Value : Type} [record : Record Value] [SizedRecord Value] (tag : Tag)
      (root : Fin size) (values : Fin size → List Value) (fits : ∀ rank, Fits (values rank))
      (next : Fin size → Except Failure (Option (List (List Value))) → Plan Result)
      {later : List Operation} {results : Fin size → Result}
      (rest : Performs (fun rank => next rank (.ok
        (if rank = root then some (List.ofFn fun peer => heard root peer (values peer))
          else none))) later results) :
      Performs (fun rank => .gather record tag root (values rank) (next rank))
        (.gather tag root :: later) results
  | barrier (next : Fin size → Plan Result) {later : List Operation} {results : Fin size → Result}
      (rest : Performs next later results) :
      Performs (fun rank => .barrier (next rank)) (.barrier :: later) results

variable {size : Nat} {First Second Result : Type}

/-- Ranks that have their results already need no operation. -/
theorem performs_nothing {plans : Fin size → Plan Result} {results : Fin size → Result}
    (known : ∀ rank, plans rank = .done (results rank)) : Performs plans [] results := by
  rw [funext known]
  exact .done results

theorem bind_done (plan : Plan Result) : plan.bind .done = plan := by
  induction plan with
  | done => rfl
  | broken => rfl
  | broadcast record tag root values next ih => exact congrArg _ (funext ih)
  | scatter record tag root pieces next ih => exact congrArg _ (funext ih)
  | gather record tag root values next ih => exact congrArg _ (funext ih)
  | barrier next ih => exact congrArg _ ih

theorem bind_assoc (plan : Plan First) (after : First → Plan Second)
    (last : Second → Plan Result) :
    (plan.bind after).bind last = plan.bind fun found => (after found).bind last := by
  induction plan with
  | done => rfl
  | broken => rfl
  | broadcast record tag root values next ih => exact congrArg _ (funext ih)
  | scatter record tag root pieces next ih => exact congrArg _ (funext ih)
  | gather record tag root values next ih => exact congrArg _ (funext ih)
  | barrier next ih => exact congrArg _ ih

/-- Ranks that have performed some operations go on with what each of them has found. -/
theorem performs_bind {plans : Fin size → Plan First} {found : Fin size → First}
    {after : Fin size → First → Plan Second} {results : Fin size → Second}
    {before later : List Operation} (first : Performs plans before found)
    (second : Performs (fun rank => after rank (found rank)) later results) :
    Performs (fun rank => (plans rank).bind (after rank)) (before ++ later) results := by
  induction first with
  | done => exact second
  | broadcast tag root values fits next _ ih => exact .broadcast tag root values fits _ (ih second)
  | scatter tag root pieces enough fits next _ ih =>
      exact .scatter tag root pieces enough fits _ (ih second)
  | gather tag root values fits next _ ih => exact .gather tag root values fits _ (ih second)
  | barrier next _ ih => exact .barrier _ (ih second)

/-- In every operation that all ranks perform, each message can be handed over as it is posted; so
nothing of the operations is left for what the ranks do next. -/
theorem performs_goes_on (inhabited : 0 < size) {plans : Fin size → Plan First}
    {operations : List Operation} {found : Fin size → First}
    (performs : Performs plans operations found) (after : Fin size → First → Plan Second) :
    ReflTransGen Network.Handover (fun rank => ((plans rank).bind (after rank)).steps ⟨rank, size⟩)
      fun rank => (after rank (found rank)).steps ⟨rank, size⟩ := by
  induction performs with
  | done => exact ReflTransGen.refl
  | broadcast tag root values fits next _ ih =>
      exact (Network.broadcast_handed_over fits fun rank answer =>
        ((next rank answer).bind (after rank)).steps ⟨rank, size⟩).trans ih
  | scatter tag root pieces enough fits next _ ih =>
      exact (Network.scatter_handed_over enough fits fun rank answer =>
        ((next rank answer).bind (after rank)).steps ⟨rank, size⟩).trans ih
  | gather tag root values fits next _ ih =>
      exact (Network.gather_handed_over fits fun rank answer =>
        ((next rank answer).bind (after rank)).steps ⟨rank, size⟩).trans ih
  | barrier next _ ih => exact ReflTransGen.head (.release inhabited fun _ => rfl) ih

theorem performs_handed_over (inhabited : 0 < size) {plans : Fin size → Plan Result}
    {operations : List Operation} {results : Fin size → Result}
    (performs : Performs plans operations results) :
    ReflTransGen Network.Handover (fun rank => (plans rank).steps ⟨rank, size⟩)
      fun rank => .done (results rank) := by
  have run := performs_goes_on inhabited performs fun _ => Plan.done
  simp only [bind_done] at run
  exact run

/-- All ranks perform the same operations, and come to these results. -/
def Lockstep (plans : Fin size → Plan Result) (results : Fin size → Result) : Prop :=
  ∃ operations, Performs plans operations results

theorem Lockstep.done (results : Fin size → Result) :
    Lockstep (fun rank => .done (results rank)) results :=
  ⟨[], .done results⟩

theorem Lockstep.barrier {next : Fin size → Plan Result} {results : Fin size → Result}
    (rest : Lockstep next results) : Lockstep (fun rank => .barrier (next rank)) results := by
  rcases rest with ⟨later, performs⟩
  exact ⟨_, .barrier next performs⟩

/-- Ranks that are in step go on in step after what each of them has found. -/
theorem lockstep_bind {plans : Fin size → Plan First} {found : Fin size → First}
    {after : Fin size → First → Plan Second} {results : Fin size → Second}
    (first : Lockstep plans found)
    (second : Lockstep (fun rank => after rank (found rank)) results) :
    Lockstep (fun rank => (plans rank).bind (after rank)) results := by
  rcases first with ⟨before, performsFirst⟩
  rcases second with ⟨later, performsSecond⟩
  exact ⟨before ++ later, performs_bind performsFirst performsSecond⟩

theorem lockstep_handed_over (inhabited : 0 < size) {plans : Fin size → Plan Result}
    {results : Fin size → Result} (lockstep : Lockstep plans results) :
    ReflTransGen Network.Handover (fun rank => (plans rank).steps ⟨rank, size⟩)
      fun rank => .done (results rank) := by
  rcases lockstep with ⟨_, performs⟩
  exact performs_handed_over inhabited performs

/-- The group that runs one plan on each rank. -/
def group (plans : Fin size → Plan Result) : Group Result :=
  Group.start (List.ofFn fun rank => (plans rank).steps ⟨rank, size⟩)

theorem lockstep_settles (inhabited : 0 < size) {plans : Fin size → Plan Result}
    {results : Fin size → Result} (lockstep : Lockstep plans results) :
    (group plans).Settles (List.ofFn results) :=
  Group.settles_of_handovers (lockstep_handed_over inhabited lockstep)

end Plan

namespace Collective

variable {size : Nat} {First Second Answer : Type}

/-- All ranks take part in the same operations, and these are their answers. -/
def Together (programs : Fin size → Collective Answer)
    (answers : Fin size → Except Failure Answer) : Prop :=
  Plan.Lockstep (fun rank => (programs rank).run) answers

theorem together_congr {programs others : Fin size → Collective Answer}
    {answers : Fin size → Except Failure Answer} (same : ∀ rank, programs rank = others rank)
    (together : Together others answers) : Together programs answers := by
  rw [funext same]
  exact together

theorem together_answers {programs : Fin size → Collective Answer}
    {answers : Fin size → Except Failure Answer}
    (known : ∀ rank, (programs rank).run = .done (answers rank)) : Together programs answers :=
  ⟨[], Plan.performs_nothing known⟩

theorem together_pure (answers : Fin size → Answer) :
    Together (fun rank => pure (answers rank)) fun rank => .ok (answers rank) :=
  .done _

theorem together_bind {programs : Fin size → Collective First} {found : Fin size → First}
    {next : Fin size → First → Collective Second} {answers : Fin size → Except Failure Second}
    (first : Together programs fun rank => .ok (found rank))
    (second : Together (fun rank => next rank (found rank)) answers) :
    Together (fun rank => programs rank >>= next rank) answers :=
  Plan.lockstep_bind first second

/-- When all ranks fail, none of them goes on. -/
theorem together_bind_error {programs : Fin size → Collective First}
    {failures : Fin size → Failure} (next : Fin size → First → Collective Second)
    (first : Together programs fun rank => .error (failures rank)) :
    Together (fun rank => programs rank >>= next rank) fun rank => .error (failures rank) :=
  Plan.lockstep_bind first (.done _)

end Collective

end StreamGraph
