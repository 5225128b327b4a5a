import Mathlib.Data.List.OfFn
import Mathlib.Logic.Function.Basic
import Mathlib.Logic.Relation
import StreamGraph.Message.Group

/-!
What a group finds does not depend on who goes first. Two ranks that can both go on do not
disturb each other, because a channel has one rank that posts to it and one that takes from it.
So if one schedule brings a group to its end, every schedule does, to the same end. The same
holds when nothing is stored on the way and a post waits for the rank that takes it.
-/

namespace StreamGraph

open Relation Function

/-- From here every way of going on leads to one end, and to no other. -/
theorem run_to_end_of_step {State : Type} {step : State → State → Prop} {final : State}
    (diamond : ∀ state left right, step state left → step state right →
      left = right ∨ ∃ last, step left last ∧ step right last)
    (ended : ∀ next, ¬ step final next) {state next : State}
    (run : ReflTransGen step state final) (forward : step state next) :
    ReflTransGen step next final := by
  induction run using ReflTransGen.head_induction_on generalizing next with
  | refl => exact absurd forward (ended next)
  | head first rest ih =>
      rcases diamond _ _ _ first forward with same | ⟨last, fromFirst, fromNext⟩
      · rw [← same]
        exact rest
      · exact ReflTransGen.head fromNext (ih fromFirst)

theorem run_to_end_of_run {State : Type} {step : State → State → Prop} {final : State}
    (diamond : ∀ state left right, step state left → step state right →
      left = right ∨ ∃ last, step left last ∧ step right last)
    (ended : ∀ next, ¬ step final next) {state reached : State}
    (run : ReflTransGen step state final) (reach : ReflTransGen step state reached) :
    ReflTransGen step reached final := by
  induction reach with
  | refl => exact run
  | tail _ forward ih => exact run_to_end_of_step diamond ended ih forward

/-- A group as its ranks see it: the messages of each channel, and what each rank still does. -/
structure Network (size : Nat) (Result : Type) where
  queues : Channel → List Bytes
  ranks : Fin size → Steps Result

namespace Network

variable {size : Nat} {Result : Type}

/-- What one rank can do by itself to the channels. -/
inductive Move (rank : Nat) :
    (Channel → List Bytes) → Steps Result → (Channel → List Bytes) → Steps Result → Prop
  | post {queues later : Channel → List Bytes} {peer : Nat} {tag : Tag} {body : Bytes}
      {next : Steps Result}
      (posted : later = update queues ⟨rank, peer, tag⟩ (queues ⟨rank, peer, tag⟩ ++ [body])) :
      Move rank queues (.post peer tag body next) later next
  | take {queues later : Channel → List Bytes} {peer : Nat} {tag : Tag} {limit : Nat}
      {next : Option Bytes → Steps Result} {body : Bytes} (rest : List Bytes)
      (arrived : queues ⟨peer, rank, tag⟩ = body :: rest)
      (taken : later = update queues ⟨peer, rank, tag⟩ rest) :
      Move rank queues (.await peer tag limit next) later (next (some (body.take limit)))

inductive Step (network : Network size Result) : Network size Result → Prop
  | move (rank : Fin size) {queues : Channel → List Bytes} {next : Steps Result}
      (moves : Move rank network.queues (network.ranks rank) queues next) :
      Step network ⟨queues, update network.ranks rank next⟩
  | release (inhabited : 0 < size) {next : Fin size → Steps Result}
      (waiting : ∀ rank, network.ranks rank = .barrier (next rank)) :
      Step network ⟨network.queues, next⟩

theorem move_determined {rank : Nat} {queues left right : Channel → List Bytes}
    {process next other : Steps Result} (toLeft : Move rank queues process left next)
    (toRight : Move rank queues process right other) : left = right ∧ next = other := by
  cases toLeft with
  | post posted =>
      cases toRight with
      | post otherPosted => exact ⟨posted.trans otherPosted.symm, rfl⟩
  | take _ arrived taken =>
      cases toRight with
      | take _ otherArrived otherTaken =>
          rw [arrived] at otherArrived
          cases otherArrived
          exact ⟨taken.trans otherTaken.symm, rfl⟩

/-- Posting to a channel that has a message does not change which message is taken next. -/
theorem post_commutes_with_take {rank other peer source : Nat} {tag stream : Tag} {limit : Nat}
    {body message : Bytes} {rest : List Bytes} {queues : Channel → List Bytes}
    {next : Steps Result} {answer : Option Bytes → Steps Result}
    (arrived : queues ⟨source, other, stream⟩ = message :: rest) :
    ∃ last,
      Move other (update queues ⟨rank, peer, tag⟩ (queues ⟨rank, peer, tag⟩ ++ [body]))
        (.await source stream limit answer) last (answer (some (message.take limit))) ∧
      Move rank (update queues ⟨source, other, stream⟩ rest) (.post peer tag body next)
        last next := by
  by_cases same : (⟨rank, peer, tag⟩ : Channel) = ⟨source, other, stream⟩
  · rw [same]
    exists update queues ⟨source, other, stream⟩ (rest ++ [body])
    constructor
    · apply Move.take (rest ++ [body])
      · rw [update_self, arrived, List.cons_append]
      · rw [update_idem]
    · apply Move.post
      rw [same, update_self, update_idem]
  · refine ⟨_, .take rest ?_ rfl, .post ?_⟩
    · rw [update_of_ne (Ne.symm same), arrived]
    · rw [update_of_ne same, update_comm same]

/-- Two ranks post to different channels and take from different channels, so each can go on as
it could before the other did. -/
theorem move_commutes {rank other : Nat} (different : rank ≠ other)
    {queues left right : Channel → List Bytes} {first second firstNext secondNext : Steps Result}
    (toLeft : Move rank queues first left firstNext)
    (toRight : Move other queues second right secondNext) :
    ∃ last, Move other left second last secondNext ∧ Move rank right first last firstNext := by
  cases toLeft with
  | @post _ peer tag body _ posted =>
      subst posted
      cases toRight with
      | @post _ otherPeer otherTag otherBody _ otherPosted =>
          subst otherPosted
          have apart : (⟨rank, peer, tag⟩ : Channel) ≠ ⟨other, otherPeer, otherTag⟩ := by
            simp [different]
          refine ⟨_, .post rfl, .post ?_⟩
          rw [update_of_ne apart.symm, update_of_ne apart, update_comm apart]
      | take _ arrived otherTaken =>
          subst otherTaken
          exact post_commutes_with_take arrived
  | @take _ peer tag limit next body rest arrived taken =>
      subst taken
      cases toRight with
      | post otherPosted =>
          subst otherPosted
          obtain ⟨last, takes, posts⟩ := post_commutes_with_take arrived
          exact ⟨last, posts, takes⟩
      | @take _ otherPeer otherTag otherLimit otherNext otherBody otherRest otherArrived
          otherTaken =>
          subst otherTaken
          have apart : (⟨peer, rank, tag⟩ : Channel) ≠ ⟨otherPeer, other, otherTag⟩ := by
            simp [different]
          refine ⟨_, .take otherRest ?_ rfl, .take rest ?_ ?_⟩
          · rw [update_of_ne apart.symm, otherArrived]
          · rw [update_of_ne apart, arrived]
          · rw [update_comm apart]

theorem not_move_of_barrier {rank : Nat} {queues later : Channel → List Bytes}
    {next other : Steps Result} (moves : Move rank queues (.barrier next) later other) : False := by
  cases moves

theorem step_diamond (network left right : Network size Result)
    (toLeft : Step network left) (toRight : Step network right) :
    left = right ∨ ∃ last, Step left last ∧ Step right last := by
  cases toLeft with
  | @move rank _ next moves =>
      cases toRight with
      | @move other _ otherNext otherMoves =>
          by_cases same : rank = other
          · subst same
            obtain ⟨rfl, rfl⟩ := move_determined moves otherMoves
            exact Or.inl rfl
          · obtain ⟨last, second, first⟩ :=
              move_commutes (Fin.val_ne_of_ne same) moves otherMoves
            refine Or.inr ⟨⟨last, update (update network.ranks rank next) other otherNext⟩,
              .move other ?_, ?_⟩
            · simpa only [update_of_ne (Ne.symm same)] using second
            · rw [update_comm same]
              exact .move rank (by simpa only [update_of_ne same] using first)
      | release _ waiting =>
          rw [waiting rank] at moves
          exact (not_move_of_barrier moves).elim
  | release inhabited waiting =>
      cases toRight with
      | move other otherMoves =>
          rw [waiting other] at otherMoves
          exact (not_move_of_barrier otherMoves).elim
      | release _ otherWaiting =>
          apply Or.inl
          congr 1
          funext rank
          have both := (waiting rank).symm.trans (otherWaiting rank)
          exact Steps.barrier.inj both

def idle : Channel → List Bytes := fun _ => []

/-- All ranks are finished, and no message is on its way. -/
def finished (results : Fin size → Result) : Network size Result :=
  ⟨idle, fun rank => .done (results rank)⟩

theorem finished_ended (results : Fin size → Result) (next : Network size Result) :
    ¬ Step (finished results) next := by
  intro step
  cases step with
  | move rank moves => cases moves
  | release inhabited waiting => cases waiting ⟨0, inhabited⟩

/-- A step without any store of messages: a rank hands a message to the rank that waits for it,
or all leave the barrier. -/
inductive Handover (ranks : Fin size → Steps Result) : (Fin size → Steps Result) → Prop
  | pass (src dst : Fin size) (tag : Tag) (body : Bytes) (next : Steps Result) (limit : Nat)
      (answer : Option Bytes → Steps Result) (different : src ≠ dst)
      (posts : ranks src = .post dst tag body next)
      (awaits : ranks dst = .await src tag limit answer) :
      Handover ranks (update (update ranks src next) dst (answer (some (body.take limit))))
  | release (inhabited : 0 < size) {next : Fin size → Steps Result}
      (waiting : ∀ rank, ranks rank = .barrier (next rank)) : Handover ranks next

theorem finished_not_handing_over (results : Fin size → Result)
    (next : Fin size → Steps Result) : ¬ Handover (fun rank => .done (results rank)) next := by
  intro step
  cases step with
  | pass _ _ _ _ _ _ _ _ posts => cases posts
  | release inhabited waiting => cases waiting ⟨0, inhabited⟩

theorem handover_diamond (ranks left right : Fin size → Steps Result)
    (toLeft : Handover ranks left) (toRight : Handover ranks right) :
    left = right ∨ ∃ last, Handover left last ∧ Handover right last := by
  cases toLeft with
  | pass src dst tag body next limit answer different posts awaits =>
      cases toRight with
      | pass otherSrc otherDst otherTag otherBody otherNext otherLimit otherAnswer
          otherDifferent otherPosts otherAwaits =>
          by_cases sameSrc : src = otherSrc
          · subst sameSrc
            have bothPost := Steps.post.inj (posts.symm.trans otherPosts)
            have sameDst : dst = otherDst := Fin.ext bothPost.1
            subst sameDst
            have bothAwait := Steps.await.inj (awaits.symm.trans otherAwaits)
            rw [bothPost.2.2.1, bothPost.2.2.2, bothAwait.2.2.1, bothAwait.2.2.2]
            exact Or.inl rfl
          · have otherWay : dst ≠ otherDst := by
              rintro rfl
              exact sameSrc (Fin.ext (Steps.await.inj (awaits.symm.trans otherAwaits)).1)
            have leftAwaits : src ≠ otherDst := by
              rintro rfl
              exact nomatch posts.symm.trans otherAwaits
            have rightAwaits : dst ≠ otherSrc := by
              rintro rfl
              exact nomatch awaits.symm.trans otherPosts
            refine Or.inr ⟨_, .pass otherSrc otherDst otherTag otherBody otherNext otherLimit
              otherAnswer otherDifferent ?_ ?_, ?_⟩
            · rw [update_of_ne rightAwaits.symm, update_of_ne (Ne.symm sameSrc), otherPosts]
            · rw [update_of_ne otherWay.symm, update_of_ne leftAwaits.symm, otherAwaits]
            · rw [update_comm rightAwaits, update_comm otherWay, update_comm sameSrc,
                update_comm leftAwaits]
              apply Handover.pass src dst tag body next limit answer different
              · rw [update_of_ne leftAwaits, update_of_ne sameSrc, posts]
              · rw [update_of_ne otherWay, update_of_ne rightAwaits, awaits]
      | release _ waiting =>
          rw [waiting src] at posts
          cases posts
  | release _ waiting =>
      cases toRight with
      | pass otherSrc _ _ _ _ _ _ _ otherPosts =>
          rw [waiting otherSrc] at otherPosts
          cases otherPosts
      | release _ otherWaiting =>
          apply Or.inl
          funext rank
          have both := (waiting rank).symm.trans (otherWaiting rank)
          exact Steps.barrier.inj both

/-- A handover is a post and the taking of the message, with nothing left on the way. -/
theorem run_of_handover {ranks later : Fin size → Steps Result} (step : Handover ranks later) :
    ReflTransGen Step (⟨idle, ranks⟩ : Network size Result) ⟨idle, later⟩ := by
  cases step with
  | pass src dst tag body next limit answer different posts awaits =>
      have posting : Step (⟨idle, ranks⟩ : Network size Result)
          ⟨update idle ⟨src, dst, tag⟩ [body], update ranks src next⟩ := by
        apply Step.move src
        simp only [posts]
        exact .post rfl
      have taking : Step
          (⟨update idle ⟨src, dst, tag⟩ [body], update ranks src next⟩ : Network size Result)
          ⟨idle, update (update ranks src next) dst (answer (some (body.take limit)))⟩ := by
        apply Step.move dst
        simp only [update_of_ne different.symm, awaits]
        apply Move.take [] (by rw [update_self])
        rw [update_idem]
        exact (update_eq_self (⟨src, dst, tag⟩ : Channel) idle).symm
      exact (ReflTransGen.single posting).tail taking
  | release inhabited waiting => exact ReflTransGen.single (.release inhabited waiting)

theorem run_of_handovers {ranks later : Fin size → Steps Result}
    (run : ReflTransGen Handover ranks later) :
    ReflTransGen Step (⟨idle, ranks⟩ : Network size Result) ⟨idle, later⟩ := by
  induction run with
  | refl => exact ReflTransGen.refl
  | tail _ step ih => exact ih.trans (run_of_handover step)

end Network

namespace Group

variable {size : Nat} {Result : Type}

/-- The group has these channels and these ranks. -/
structure Shows (group : Group Result) (network : Network size Result) : Prop where
  queues : group.mail.queue = network.queues
  ranks : group.ranks = List.ofFn network.ranks

theorem set_ofFn (ranks : Fin size → Steps Result) (rank : Fin size) (next : Steps Result) :
    (List.ofFn ranks).set rank next = List.ofFn (update ranks rank next) := by
  apply List.ext_getElem
  · simp
  · intro index inside _
    simp only [List.getElem_set, List.getElem_ofFn]
    by_cases same : rank.val = index
    · subst same
      simp
    · have apart : (⟨index, by simpa using inside⟩ : Fin size) ≠ rank := by
        intro equal
        exact same (congrArg Fin.val equal).symm
      rw [if_neg same, update_of_ne apart]

theorem queue_post_eq_update (mail : Mailbox) (channel : Channel) (body : Bytes) :
    (mail.post channel body).queue =
      update mail.queue channel (mail.queue channel ++ [body]) := by
  funext other
  rw [Mailbox.queue_post]
  by_cases same : channel = other
  · subst same
    simp
  · rw [if_neg same, List.append_nil, update_of_ne (Ne.symm same)]

theorem queue_take_eq_update {mail rest : Mailbox} {channel : Channel} {body : Bytes}
    (taken : mail.take? channel = some (body, rest)) :
    mail.queue channel = body :: rest.queue channel ∧
      rest.queue = update mail.queue channel (rest.queue channel) := by
  have law := fun other => Mailbox.queue_take mail rest channel other body taken
  constructor
  · simpa using law channel
  · funext other
    by_cases same : channel = other
    · subst same
      simp
    · rw [update_of_ne (Ne.symm same), law other, if_neg same, List.nil_append]

theorem advance_of_move {mail : Mailbox} {rank : Nat} {queues : Channel → List Bytes}
    {process next : Steps Result} (moves : Network.Move rank mail.queue process queues next) :
    ∃ rest, process.advance? mail rank = some (rest, next) ∧ rest.queue = queues := by
  cases moves with
  | @post _ peer tag body _ posted =>
      have same : (mail.post ⟨rank, peer, tag⟩ body).queue = queues := by
        rw [posted, queue_post_eq_update]
      exact ⟨_, rfl, same⟩
  | @take _ peer tag limit answer body rest arrived taken =>
      cases found : mail.take? ⟨peer, rank, tag⟩ with
      | none =>
          rw [(Mailbox.take_eq_none_iff _ _).1 found] at arrived
          cases arrived
      | some pair =>
          rcases pair with ⟨first, others⟩
          obtain ⟨front, back⟩ := queue_take_eq_update found
          rw [front] at arrived
          cases arrived
          have advances : (Steps.await peer tag limit answer).advance? mail rank =
              some (others, answer (some (body.take limit))) := by
            simp only [Steps.advance?, found, Option.map_some]
          exact ⟨others, advances, back.trans taken.symm⟩

theorem move_of_advance {mail rest : Mailbox} {rank : Nat} {process next : Steps Result}
    (step : process.advance? mail rank = some (rest, next)) :
    Network.Move rank mail.queue process rest.queue next := by
  cases process with
  | done => cases step
  | broken => cases step
  | barrier => cases step
  | post peer tag body after =>
      cases step
      exact .post (queue_post_eq_update _ _ _)
  | await peer tag limit answer =>
      simp only [Steps.advance?, Option.map_eq_some_iff] at step
      rcases step with ⟨⟨body, others⟩, found, same⟩
      cases same
      obtain ⟨front, back⟩ := queue_take_eq_update found
      exact .take _ front back

theorem network_step_of_step {group next : Group Result} {network : Network size Result}
    (shows : group.Shows network) (step : group.Step next) :
    ∃ later, network.Step later ∧ next.Shows later := by
  rcases shows with ⟨queues, ranks⟩
  cases step with
  | @advance mail rest processes process rank inside moves =>
      dsimp only at queues ranks
      subst ranks
      have inSize : rank < size := by simpa using inside
      rw [List.getElem_ofFn] at moves
      have own := move_of_advance moves
      rw [queues] at own
      exact ⟨_, .move ⟨rank, inSize⟩ own, rfl, set_ofFn network.ranks ⟨rank, inSize⟩ process⟩
  | @release mail processes inhabited waiting =>
      dsimp only at queues ranks
      subst ranks
      have positive : 0 < size := by
        by_contra noRank
        have zero : size = 0 := by omega
        subst zero
        exact inhabited List.ofFn_zero
      have each : ∀ rank, network.ranks rank = .barrier (network.ranks rank).release := by
        intro rank
        have atBarrier := waiting (network.ranks rank) (List.mem_ofFn.2 ⟨rank, rfl⟩)
        cases kind : network.ranks rank <;> rw [kind] at atBarrier <;>
          first
          | rfl
          | cases atBarrier
      refine ⟨_, .release positive each, queues, ?_⟩
      rw [List.map_ofFn]
      rfl

theorem step_of_network_step {group : Group Result} {network later : Network size Result}
    (shows : group.Shows network) (step : network.Step later) :
    ∃ next, group.Step next ∧ next.Shows later := by
  rcases group with ⟨mail, processes⟩
  rcases shows with ⟨queues, ranks⟩
  dsimp only at queues ranks
  subst ranks
  cases step with
  | @move rank _ process moves =>
      rw [← queues] at moves
      obtain ⟨rest, advances, same⟩ := advance_of_move moves
      have inside : rank.val < (List.ofFn network.ranks).length := by simp
      rw [← List.getElem_ofFn (f := network.ranks) inside] at advances
      exact ⟨_, .advance rank inside advances, same, set_ofFn network.ranks rank process⟩
  | @release nonempty next waiting =>
      refine ⟨_, .release ?_ ?_, queues, ?_⟩
      · intro nothing
        have zero := List.ofFn_eq_nil_iff.1 nothing
        omega
      · intro process member
        rcases List.mem_ofFn.1 member with ⟨rank, rfl⟩
        rw [waiting rank]
        rfl
      · have released : Steps.release ∘ network.ranks = next := by
          funext rank
          rw [comp_apply, waiting rank]
          rfl
        rw [List.map_ofFn, released]

theorem network_run_of_run {group reached : Group Result} {network : Network size Result}
    (shows : group.Shows network) (run : ReflTransGen Step group reached) :
    ∃ last, ReflTransGen Network.Step network last ∧ reached.Shows last := by
  induction run with
  | refl => exact ⟨network, ReflTransGen.refl, shows⟩
  | tail _ step ih =>
      rcases ih with ⟨middle, run, same⟩
      obtain ⟨later, forward, after⟩ := network_step_of_step same step
      exact ⟨later, run.tail forward, after⟩

theorem mail_eq_empty {mail : Mailbox} (nothing : mail.queue = Network.idle) :
    mail = .empty := by
  rcases mail with ⟨letters⟩
  cases letters with
  | nil => rfl
  | cons letter others =>
      have front := congrFun nothing letter.1
      simp [Mailbox.queue, Network.idle] at front

theorem later_of_set {ranks : List (Steps Result)} {next : Steps Result} (rank : Nat)
    (inside : rank < ranks.length) (step : Steps.After next ranks[rank]) :
    Later (ranks.set rank next) ranks := by
  induction ranks generalizing rank with
  | nil => exact absurd inside (Nat.not_lt_zero _)
  | cons process others ih =>
      cases rank with
      | zero => exact .first step
      | succ rank => exact .others (ih rank (Nat.lt_of_succ_lt_succ inside) step)

theorem later_of_any_step {group next : Group Result} (step : group.Step next) :
    Later next.ranks group.ranks := by
  cases step with
  | advance rank inside moves => exact later_of_set rank inside (Steps.after_of_advance moves)
  | release inhabited waiting => exact later_of_release inhabited (List.all_eq_true.2 waiting)

/-- No schedule goes on for ever. -/
theorem every_schedule_ends (group : Group Result) :
    Acc (fun next now => Step now next) group :=
  Subrelation.accessible later_of_any_step (InvImage.accessible Group.ranks (acc_later _))

/-- Whatever the schedule, the group comes to an end; on the way some step can always be taken,
and at the end all ranks have these results and every channel is empty. -/
structure Settles (group : Group Result) (results : List Result) : Prop where
  ends : Acc (fun next now => Step now next) group
  outcome (reached : Group Result) (run : ReflTransGen Step group reached) :
    (∃ next, Step reached next) ∨ reached = ⟨.empty, results.map .done⟩

/-- No rank has a result, and no rank can go on. -/
structure Stuck (group : Group Result) : Prop where
  still (next : Group Result) : ¬ Step group next
  unfinished (result : Result) : .done result ∉ group.ranks

/-- When one rank breaks off and the others wait for messages before anyone has sent one, they wait
for ever. -/
theorem stuck_of_waiting {ranks : List (Steps Result)} (gone : .broken ∈ ranks)
    (waiting : ∀ process ∈ ranks, process = .broken ∨
      ∃ peer tag limit next, process = .await peer tag limit next) : (start ranks).Stuck where
  still next step := by
    cases step with
    | advance rank inside moves =>
        rcases waiting _ (List.getElem_mem inside) with same | ⟨peer, tag, limit, after, same⟩
        · rw [same] at moves
          cases moves
        · rw [same] at moves
          cases moves
    | release _ atBarrier => cases atBarrier _ gone
  unfinished result finished := by
    rcases waiting _ finished with same | ⟨_, _, _, _, same⟩
    · cases same
    · cases same

/-- One run in which every message is handed over at once decides about all schedules. -/
theorem settles_of_handovers {ranks : Fin size → Steps Result} {results : Fin size → Result}
    (run : ReflTransGen Network.Handover ranks fun rank => .done (results rank)) :
    (start (List.ofFn ranks)).Settles (List.ofFn results) := by
  apply Settles.mk (every_schedule_ends _)
  intro reached reach
  have shows : (start (List.ofFn ranks)).Shows (⟨Network.idle, ranks⟩ : Network size Result) :=
    ⟨rfl, rfl⟩
  obtain ⟨last, path, same⟩ := network_run_of_run shows reach
  have toEnd := run_to_end_of_run Network.step_diamond (Network.finished_ended results)
    (Network.run_of_handovers run) path
  rcases toEnd.cases_head with ended | ⟨later, step, _⟩
  · apply Or.inr
    subst ended
    rcases reached with ⟨mail, processes⟩
    rcases same with ⟨queues, processesSame⟩
    dsimp only at queues processesSame
    rw [mail_eq_empty queues, processesSame, List.map_ofFn]
    rfl
  · obtain ⟨next, forward, _⟩ := step_of_network_step same step
    exact Or.inl ⟨next, forward⟩

/-- The same without any store of messages, where a post waits for the rank that takes it. -/
theorem handed_over_of_handovers {ranks reached : Fin size → Steps Result}
    {results : Fin size → Result}
    (run : ReflTransGen Network.Handover ranks fun rank => .done (results rank))
    (reach : ReflTransGen Network.Handover ranks reached) :
    (∃ next, Network.Handover reached next) ∨ reached = fun rank => .done (results rank) := by
  have toEnd := run_to_end_of_run Network.handover_diamond
    (Network.finished_not_handing_over results) run reach
  rcases toEnd.cases_head with ended | ⟨next, step, _⟩
  · exact Or.inr ended
  · exact Or.inl ⟨next, step⟩

end Group

end StreamGraph
