import StreamGraph.Proofs.Message.Traffic
import StreamGraph.Proofs.Routing

/-!
Refused batches. When some end is out of range, each rank that has one in its own part keeps the
first of them as its failure, and all others name the lowest such rank. Only verdicts travel: under
no schedule is a message as long as an edge ever on its way, and nothing of the call is left for
what the ranks do afterwards. Under a layout for another number of ranks nobody posts anything.

A group has fewer ranks than there are words, so that no rank's number is taken for acceptance.
-/

namespace StreamGraph

/-- The first end out of range, in list order, a source before its destination. -/
inductive Partition.FirstOutside (bound : UInt64) : List Update → VertexId → Prop
  | source {update : Update} {rest : List Update}
      (outside : update.edge.src.isEndpoint bound = false) :
      FirstOutside bound (update :: rest) update.edge.src
  | target {update : Update} {rest : List Update} (source : update.edge.src.isEndpoint bound = true)
      (outside : update.edge.dst.isEndpoint bound = false) :
      FirstOutside bound (update :: rest) update.edge.dst
  | later {update : Update} {rest : List Update} {vertex : VertexId}
      (within : update.edge.isWithin bound = true) (first : FirstOutside bound rest vertex) :
      FirstOutside bound (update :: rest) vertex

theorem Partition.firstOutside_of_first {bound : UInt64} {updates : List Update}
    {vertex : VertexId} (first : FirstOutside bound updates vertex) :
    firstOutside bound updates = some vertex := by
  induction first with
  | source outside => simp [firstOutside, outside]
  | target source outside => simp [firstOutside, source, outside]
  | later within _ ih =>
      rw [Edge.isWithin, Bool.and_eq_true] at within
      rw [firstOutside, List.flatMap_cons, List.find?_append, ← firstOutside, ih]
      simp [within]

theorem Partition.exists_firstOutside {bound : UInt64} {updates : List Update}
    (outsider : ∃ update ∈ updates, update.edge.isWithin bound = false) :
    ∃ vertex, FirstOutside bound updates vertex := by
  induction updates with
  | nil => simp at outsider
  | cons update rest ih =>
      cases source : update.edge.src.isEndpoint bound with
      | false => exact ⟨_, .source source⟩
      | true =>
          cases target : update.edge.dst.isEndpoint bound with
          | false => exact ⟨_, .target source target⟩
          | true =>
              have within : update.edge.isWithin bound = true := by
                rw [Edge.isWithin, source, target]
                rfl
              obtain ⟨other, member, outside⟩ := outsider
              rcases List.mem_cons.1 member with rfl | inRest
              · rw [within] at outside
                cases outside
              · obtain ⟨vertex, first⟩ := ih ⟨other, inRest, outside⟩
                exact ⟨vertex, .later within first⟩

namespace Routing

open Relation Collective Plan

variable {size : Nat} {Value Answer : Type}

/-- A call that fails on all ranks, carries no edge, and leaves nothing behind. -/
structure Refused (programs : Fin size → Collective Answer) (failures : Fin size → Failure) :
    Prop where
  settles : (Plan.group fun rank => (programs rank).run).Settles
    (List.ofFn fun rank => .error (failures rank))
  edgeless (reached : Group (Except Failure Answer))
    (run : ReflTransGen Group.Step (Plan.group fun rank => (programs rank).run) reached)
    (letter : Channel × Bytes) (member : letter ∈ reached.mail.letters) :
    letter.2.length < Record.size Edge
  resumes {Later : Type} (later : Fin size → Plan Later) (results : List (Option Later)) :
    (Plan.group fun rank => (programs rank).run.bind fun _ => later rank).Ends results ↔
      (Plan.group later).Ends results

theorem postsBelow_agree (member : Member) (tag : Tag) (mine : Except Failure Value) :
    (agree member tag mine).PostsBelow (Record.size Edge) member := by
  apply PostsBelow.bind
  · exact postsBelow_reduceFrom _ _ _ _ (by decide) (by decide)
  · intro lowest
    cases mine with
    | error failure => trivial
    | ok value =>
        dsimp only
        split <;> trivial

/-- Ranks that go on only after an agreement do not go on when one of them is not ready. -/
theorem refused_of_agree (few : size + 1 < UInt64.size) (tag : Tag)
    {mine : Fin size → Except Failure Value} (next : Fin size → Value → Collective Answer)
    {culprit : Fin size} {failure : Failure} (refused : mine culprit = .error failure)
    (least : ∀ rank < culprit, ∃ value, mine rank = .ok value) :
    Refused (fun rank => agree ⟨rank, size⟩ tag (mine rank) >>= next rank)
      fun rank => report culprit (mine rank) := by
  have agreed := together_agree_culprit few tag refused least
  have fails := together_bind_error next agreed
  refine ⟨lockstep_settles culprit.pos fails, ?_, ?_⟩
  · intro reached run letter member
    -- what the ranks would do after a favourable verdict is cut off, as none of them gets one
    have cut := together_bind_error
      (fun _ _ => (Collective.broken : Collective Answer)) agreed
    refine Group.length_of_mem_letters (fun rank => ?_) (fun rank => ?_)
      (lockstep_handed_over culprit.pos cut) run member
    · exact (postsBelow_agree ⟨rank, size⟩ tag (mine rank)).bind fun _ => trivial
    · change Steps.Shortens (Plan.steps _ (Plan.bind _ _)) (Plan.steps _ (Plan.bind _ _))
      rw [steps_bind, steps_bind]
      apply Steps.shortens_bind
      intro answer
      cases answer with
      | error failure => exact .refl _
      | ok value => exact .broken _
  · intro Later later results
    exact ends_iff_of_lockstep culprit.pos fails (fun rank _ => later rank) results

/-- A call that brings updates to their owners: those that all ranks have, or those of a root. -/
inductive Request (size : Nat) where
  | exchange (slices : Fin size → List Update)
  | distribute (root : Fin size) (passed : Fin size → List Update)

namespace Request

variable {partition : Partition} {bound : UInt64}

def program (partition : Partition) (bound : UInt64) (rank : Fin size) :
    Request size → Collective (List Update)
  | exchange slices => Routing.exchange ⟨rank, size⟩ partition bound (slices rank)
  | distribute root passed => Routing.distribute ⟨rank, size⟩ partition bound root (passed rank)

/-- The updates that a rank has to answer for. -/
def contribution (rank : Fin size) : Request size → List Update
  | exchange slices => slices rank
  | distribute root passed => if rank = root then passed rank else []

/-- The lowest rank with an end out of range. -/
structure Culprit (bound : UInt64) (request : Request size) (culprit : Fin size) : Prop where
  outside : ∃ update ∈ request.contribution culprit, update.edge.isWithin bound = false
  least (rank : Fin size) (lower : rank < culprit) :
    ∀ update ∈ request.contribution rank, update.edge.isWithin bound = true

/-- A rank with an end out of range reports the first one, any other rank the culprit. -/
structure Reports (bound : UInt64) (request : Request size) (culprit : Fin size)
    (failures : Fin size → Failure) : Prop where
  own (rank : Fin size) (vertex : VertexId)
    (first : Partition.FirstOutside bound (request.contribution rank) vertex) :
    failures rank = .vertexOutOfRange vertex bound
  peer (rank : Fin size)
    (within : ∀ update ∈ request.contribution rank, update.edge.isWithin bound = true) :
    failures rank = .peerRejected culprit

theorem exists_culprit {request : Request size}
    (outsider : ∃ rank, ∃ update ∈ request.contribution rank, update.edge.isWithin bound = false) :
    ∃ culprit, request.Culprit bound culprit := by
  obtain ⟨culprit, outside, least⟩ := WellFounded.has_min wellFounded_lt
    {rank : Fin size | ∃ update ∈ request.contribution rank, update.edge.isWithin bound = false}
    outsider
  refine ⟨culprit, outside, fun rank lower update member => ?_⟩
  by_contra fails
  exact least rank ⟨update, member, Bool.eq_false_iff.2 fails⟩ lower

/-- A rank is ready if its updates are in range, and else names the first end that is not. -/
structure Examines (bound : UInt64) (updates : List Update) (mine : Except Failure Value) :
    Prop where
  outside (vertex : VertexId) (first : Partition.FirstOutside bound updates vertex) :
    mine = .error (.vertexOutOfRange vertex bound)
  within (all : ∀ update ∈ updates, update.edge.isWithin bound = true) : ∃ value, mine = .ok value

theorem examines_split (partition : Partition) (bound : UInt64) (updates : List Update) :
    Examines bound updates (partition.split bound updates) where
  outside vertex first := by
    unfold Partition.split
    rw [Partition.firstOutside_of_first first]
  within := Partition.split_of_within

theorem examines_root (partition : Partition) (bound : UInt64) (root rank : Fin size)
    (passed : List Update) : Examines bound (if rank = root then passed else [])
      (if rank.val = root.val then (partition.split bound passed).map some else .ok none) := by
  by_cases own : rank = root
  · rw [if_pos own, if_pos (congrArg Fin.val own)]
    have examines := examines_split partition bound passed
    constructor
    · intro vertex first
      rw [examines.outside vertex first]
      rfl
    · intro all
      obtain ⟨runs, split⟩ := examines.within all
      exact ⟨some runs, by rw [split]; rfl⟩
  · rw [if_neg own, if_neg fun same => own (Fin.ext same)]
    exact ⟨fun vertex first => (nomatch first), fun _ => ⟨none, rfl⟩⟩

theorem refused_of_examines (few : size + 1 < UInt64.size) {request : Request size}
    {culprit : Fin size} (isCulprit : request.Culprit bound culprit) (tag : Tag)
    {mine : Fin size → Except Failure Value} (next : Fin size → Value → Collective Answer)
    (examines : ∀ rank, Examines bound (request.contribution rank) (mine rank)) :
    ∃ failures, request.Reports bound culprit failures ∧
      Refused (fun rank => agree ⟨rank, size⟩ tag (mine rank) >>= next rank) failures := by
  obtain ⟨vertex, first⟩ := Partition.exists_firstOutside isCulprit.outside
  have refused := (examines culprit).outside vertex first
  have least : ∀ rank < culprit, ∃ value, mine rank = .ok value :=
    fun rank lower => (examines rank).within (isCulprit.least rank lower)
  refine ⟨_, ⟨fun rank vertex first => ?_, fun rank within => ?_⟩,
    refused_of_agree few tag next refused least⟩
  · rw [(examines rank).outside vertex first]
    rfl
  · obtain ⟨value, ready⟩ := (examines rank).within within
    rw [ready]
    rfl

theorem checkLayout_eq (parts : partition.parts = size) (rank : Fin size) :
    checkLayout ⟨rank, size⟩ partition = pure () := if_neg (not_not_intro parts)

theorem checkLayout_of_ne (parts : partition.parts ≠ size) (rank : Fin size) :
    checkLayout ⟨rank, size⟩ partition = throw (.layout (.ranks partition.parts size)) :=
  if_pos parts

/-- Every call with an end out of range is refused on all ranks and leaves no trace. Under a layout
for another number of ranks, all ranks have failed before any of them takes a step. -/
theorem refused_calls_leave_no_trace (few : size + 1 < UInt64.size) (partition : Partition)
    (bound : UInt64) (request : Request size) :
    (partition.parts = size →
      (∃ rank, ∃ update ∈ request.contribution rank, update.edge.isWithin bound = false) →
      ∃ culprit failures, request.Culprit bound culprit ∧
        request.Reports bound culprit failures ∧
        Refused (fun rank => request.program partition bound rank) failures) ∧
    (partition.parts ≠ size →
      Plan.group (fun rank => (request.program partition bound rank).run) =
        ⟨.empty, List.ofFn fun _ : Fin size =>
          .done (.error (.layout (.ranks partition.parts size)))⟩) := by
  constructor
  · intro parts outside
    obtain ⟨culprit, isCulprit⟩ := exists_culprit outside
    refine ⟨culprit, ?_⟩
    cases request with
    | exchange slices =>
        obtain ⟨failures, reports, refused⟩ := refused_of_examines few isCulprit (tag.offset 6)
          (fun rank runs => routeAll ⟨rank, size⟩ runs (tag.offset 4) (List.range size))
          fun rank => examines_split partition bound (slices rank)
        refine ⟨failures, isCulprit, reports, ?_⟩
        simp only [program, Routing.exchange, checkLayout_eq parts]
        exact refused
    | distribute root passed =>
        obtain ⟨failures, reports, refused⟩ := refused_of_examines few isCulprit (tag.offset 2)
          (fun rank runs => route ⟨rank, size⟩ root runs tag)
          fun rank => examines_root partition bound root rank (passed rank)
        refine ⟨failures, isCulprit, reports, ?_⟩
        simp only [program, Routing.distribute, checkLayout_eq parts]
        exact refused
  · intro parts
    cases request with
    | exchange slices =>
        simp only [program, Routing.exchange, checkLayout_of_ne parts]
        rfl
    | distribute root passed =>
        simp only [program, Routing.distribute, checkLayout_of_ne parts]
        rfl

/-- Three slices of a batch, of which the second and the third have ends out of range. -/
def twoBadSlices : Request 3 := .exchange fun rank =>
  match rank with
  | 0 => [{ edge := ⟨1, 2, 5, 0⟩ }]
  | 1 => [{ edge := ⟨3, 1, 1, 0⟩ }, { edge := ⟨3, 9, 1, 1⟩ }]
  | 2 => [{ edge := ⟨0, 7, 1, 0⟩ }]

theorem two_bad_slices_leave_no_trace :
    Refused (fun rank => twoBadSlices.program (.cyclic 3) 4 rank)
        (fun rank => match rank with
          | 0 => .peerRejected 1
          | 1 => .vertexOutOfRange 9 4
          | 2 => .vertexOutOfRange 0 4) ∧
      Plan.group (fun rank => (twoBadSlices.program (.cyclic 2) 4 rank).run) =
        ⟨.empty, List.ofFn fun _ : Fin 3 => .done (.error (.layout (.ranks 2 3)))⟩ := by
  have few : 3 + 1 < UInt64.size := by decide
  obtain ⟨culprit, failures, isCulprit, reports, refused⟩ :=
    (refused_calls_leave_no_trace few (.cyclic 3) 4 twoBadSlices).1 rfl ⟨1, by decide⟩
  have second : culprit = 1 := by
    match culprit, isCulprit with
    | 0, isCulprit => exact absurd isCulprit.outside (by decide)
    | 1, _ => rfl
    | 2, isCulprit => exact absurd (isCulprit.least 1 (by decide)) (by decide)
  have own : failures 1 = .vertexOutOfRange 9 4 :=
    reports.own 1 9 (.later (by decide) (.target (by decide) (by decide)))
  have other : failures 2 = .vertexOutOfRange 0 4 := reports.own 2 0 (.source (by decide))
  have peer : failures 0 = .peerRejected 1 := by
    rw [reports.peer 0 (by decide), second]
    rfl
  constructor
  · convert refused using 1
    funext rank
    match rank with
    | 0 => exact peer.symm
    | 1 => exact own.symm
    | 2 => exact other.symm
  · exact (refused_calls_leave_no_trace few (.cyclic 2) 4 twoBadSlices).2 (by decide)

end Request

end Routing

end StreamGraph
