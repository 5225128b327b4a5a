import StreamGraph.Collective
import StreamGraph.Proofs.Lockstep

/-!
What is on the way in a group, and what is found at its end. What a rank posts and finds whatever it
hears, it posts and finds under every schedule. A rank that may break off where another goes on
stands for that other as long as no schedule lets it break off, so a group whose ranks end without
breaking off shows every message that the group of the others can ever have on its way. And once a
group has nothing on its way, it goes on as if it had begun there.
-/

namespace StreamGraph

open Relation Function

namespace Steps

variable {First Result : Type}

/-- Whatever the rank hears, each message that it posts and what it finds in the end pass these
tests. -/
def Passes (message : Bytes → Prop) (finding : Result → Prop) : Steps Result → Prop
  | done result => finding result
  | broken => True
  | post _ _ body next => message body ∧ next.Passes message finding
  | await _ _ _ next => ∀ body, (next body).Passes message finding
  | barrier next => next.Passes message finding

/-- Whatever the rank hears, the messages that it posts are below a length. -/
def PostsBelow (limit : Nat) (process : Steps Result) : Prop :=
  process.Passes (fun body => body.length < limit) fun _ => True

theorem passes_any (process : Steps Result) :
    process.Passes (fun _ => True) fun _ => True := by
  induction process with
  | done => trivial
  | broken => trivial
  | post _ _ _ _ ih => exact ⟨trivial, ih⟩
  | await _ _ _ _ ih => exact ih
  | barrier _ ih => exact ih

theorem passes_bind {message : Bytes → Prop} {before : First → Prop} {finding : Result → Prop}
    {process : Steps First} {after : First → Steps Result}
    (first : process.Passes message before)
    (later : ∀ found, before found → (after found).Passes message finding) :
    (process.bind after).Passes message finding := by
  induction process with
  | done found => exact later found first
  | broken => trivial
  | post _ _ _ _ ih => exact ⟨first.1, ih first.2⟩
  | await _ _ _ _ ih => exact fun body => ih body (first body)
  | barrier _ ih => exact ih first

theorem postsBelow_bind {limit : Nat} {process : Steps First} {after : First → Steps Result}
    (first : process.PostsBelow limit) (later : ∀ found, (after found).PostsBelow limit) :
    (process.bind after).PostsBelow limit := passes_bind first fun found _ => later found

/-- The first rank does what the second does, but may break off at any point. -/
inductive Shortens : Steps Result → Steps Result → Prop
  | broken (full : Steps Result) : Shortens .broken full
  | done (result : Result) : Shortens (.done result) (.done result)
  | post {peer : Nat} {tag : Tag} {body : Bytes} {short full : Steps Result}
      (next : Shortens short full) : Shortens (.post peer tag body short) (.post peer tag body full)
  | await {peer : Nat} {tag : Tag} {limit : Nat} {short full : Option Bytes → Steps Result}
      (next : ∀ body, Shortens (short body) (full body)) :
      Shortens (.await peer tag limit short) (.await peer tag limit full)
  | barrier {short full : Steps Result} (next : Shortens short full) :
      Shortens (.barrier short) (.barrier full)

theorem Shortens.refl (process : Steps Result) : Shortens process process := by
  induction process with
  | done result => exact .done result
  | broken => exact .broken _
  | post _ _ _ _ ih => exact .post ih
  | await _ _ _ _ ih => exact .await ih
  | barrier _ ih => exact .barrier ih

theorem shortens_bind (process : Steps First) {short full : First → Steps Result}
    (each : ∀ found, Shortens (short found) (full found)) :
    Shortens (process.bind short) (process.bind full) := by
  induction process with
  | done found => exact each found
  | broken => exact .broken _
  | post _ _ _ _ ih => exact .post ih
  | await _ _ _ _ ih => exact .await ih
  | barrier _ ih => exact .barrier ih

end Steps

namespace Network

variable {size : Nat} {Result : Type}

/-- Equal channels, and ranks that shorten those of the other group. -/
structure Shortens (short full : Network size Result) : Prop where
  queues : short.queues = full.queues
  ranks (rank : Fin size) : Steps.Shortens (short.ranks rank) (full.ranks rank)

theorem Shortens.move {rank : Nat} {queues later : Channel → List Bytes}
    {short full next : Steps Result} (shortens : Steps.Shortens short full)
    (unbroken : short ≠ .broken) (moves : Move rank queues full later next) :
    ∃ nextShort, Move rank queues short later nextShort ∧ Steps.Shortens nextShort next := by
  cases shortens with
  | broken => exact absurd rfl unbroken
  | done => cases moves
  | post rest =>
      cases moves with
      | post posted => exact ⟨_, .post posted, rest⟩
  | await rest =>
      cases moves with
      | take others arrived taken => exact ⟨_, .take others arrived taken, rest _⟩
  | barrier => cases moves

theorem Shortens.step {short full later : Network size Result} (shortens : short.Shortens full)
    (unbroken : ∀ rank, short.ranks rank ≠ .broken) (step : full.Step later) :
    ∃ next, short.Step next ∧ next.Shortens later := by
  cases step with
  | move rank moves =>
      rw [← shortens.queues] at moves
      obtain ⟨next, follows, stays⟩ := Shortens.move (shortens.ranks rank) (unbroken rank) moves
      refine ⟨_, .move rank follows, rfl, fun other => ?_⟩
      by_cases same : other = rank
      · subst same
        simpa only [update_self] using stays
      · simpa only [update_of_ne same] using shortens.ranks other
  | @release inhabited process waiting =>
      have each : ∀ rank, ∃ next, short.ranks rank = .barrier next ∧
          Steps.Shortens next (process rank) := by
        intro rank
        have stays := shortens.ranks rank
        have goesOn := unbroken rank
        rw [waiting rank] at stays
        generalize short.ranks rank = waits at stays goesOn ⊢
        cases stays with
        | broken => exact absurd rfl goesOn
        | barrier next => exact ⟨_, rfl, next⟩
      choose next waits stays using each
      exact ⟨_, .release inhabited waits, shortens.queues, stays⟩

theorem broken_of_step {network later : Network size Result} (step : network.Step later)
    {rank : Fin size} (broken : network.ranks rank = .broken) : later.ranks rank = .broken := by
  cases step with
  | move other moves =>
      by_cases same : rank = other
      · subst same
        rw [broken] at moves
        cases moves
      · simpa only [update_of_ne same] using broken
  | release _ waiting =>
      rw [waiting rank] at broken
      cases broken

/-- A rank that has broken off keeps its group from finishing. -/
theorem unbroken_of_run {network : Network size Result} {results : Fin size → Result}
    (run : ReflTransGen Step network (finished results)) (rank : Fin size) :
    network.ranks rank ≠ .broken := by
  induction run using ReflTransGen.head_induction_on with
  | refl => exact fun broken => nomatch broken
  | head step _ ih => exact fun broken => ih (broken_of_step step broken)

/-- Every run of a group is one of its shortened ranks, if these end without breaking off. -/
theorem Shortens.run {short full reached : Network size Result} {results : Fin size → Result}
    (shortens : short.Shortens full) (ends : ReflTransGen Step short (finished results))
    (run : ReflTransGen Step full reached) :
    ∃ last, ReflTransGen Step short last ∧ last.Shortens reached := by
  induction run with
  | refl => exact ⟨short, ReflTransGen.refl, shortens⟩
  | tail _ step ih =>
      obtain ⟨middle, path, stays⟩ := ih
      -- from here the shortened ranks still come to their end, so none of them has broken off
      have toEnd := run_to_end_of_run step_diamond (finished_ended results) ends path
      obtain ⟨next, forward, after⟩ := stays.step (unbroken_of_run toEnd) step
      exact ⟨next, path.tail forward, after⟩

/-- All messages on the way, and all that the ranks may still post and find, pass these tests. -/
structure Passes (message : Bytes → Prop) (finding : Fin size → Result → Prop)
    (network : Network size Result) : Prop where
  queues (channel : Channel) (body : Bytes) (member : body ∈ network.queues channel) :
    message body
  ranks (rank : Fin size) : (network.ranks rank).Passes message (finding rank)

variable {message : Bytes → Prop} {finding : Fin size → Result → Prop}

theorem Passes.move {rank : Nat} {queues later : Channel → List Bytes}
    {process next : Steps Result} {found : Result → Prop}
    (passing : ∀ channel, ∀ body ∈ queues channel, message body)
    (passes : process.Passes message found) (moves : Move rank queues process later next) :
    (∀ channel, ∀ body ∈ later channel, message body) ∧ next.Passes message found := by
  cases moves with
  | @post _ peer tag posting _ posted =>
      subst posted
      refine ⟨fun channel body member => ?_, passes.2⟩
      by_cases same : channel = ⟨rank, peer, tag⟩
      · subst same
        rw [update_self, List.mem_append, List.mem_singleton] at member
        rcases member with before | rfl
        · exact passing _ body before
        · exact passes.1
      · rw [update_of_ne same] at member
        exact passing channel body member
  | @take _ peer tag _ _ taking rest arrived taken =>
      subst taken
      refine ⟨fun channel body member => ?_, passes _⟩
      by_cases same : channel = ⟨peer, rank, tag⟩
      · subst same
        rw [update_self] at member
        apply passing ⟨peer, rank, tag⟩ body
        rw [arrived]
        exact List.mem_cons_of_mem _ member
      · rw [update_of_ne same] at member
        exact passing channel body member

theorem Passes.step {network later : Network size Result}
    (passes : network.Passes message finding) (step : network.Step later) :
    later.Passes message finding := by
  cases step with
  | move rank moves =>
      obtain ⟨queues, goesOn⟩ := Passes.move passes.queues (passes.ranks rank) moves
      refine ⟨queues, fun other => ?_⟩
      by_cases same : other = rank
      · subst same
        simpa only [update_self] using goesOn
      · simpa only [update_of_ne same] using passes.ranks other
  | release _ waiting =>
      refine ⟨passes.queues, fun rank => ?_⟩
      have waits := passes.ranks rank
      rw [waiting rank] at waits
      exact waits

theorem Passes.run {network reached : Network size Result}
    (passes : network.Passes message finding) (run : ReflTransGen Step network reached) :
    reached.Passes message finding := by
  induction run with
  | refl => exact passes
  | tail _ step ih => exact ih.step step

theorem passes_start {ranks : Fin size → Steps Result}
    (passes : ∀ rank, (ranks rank).Passes message (finding rank)) :
    (⟨idle, ranks⟩ : Network size Result).Passes message finding :=
  ⟨fun _ _ member => (nomatch member), passes⟩

end Network

namespace Group

variable {size : Nat} {First Result : Type}

theorem shows_start (ranks : Fin size → Steps Result) :
    (start (List.ofFn ranks)).Shows (⟨Network.idle, ranks⟩ : Network size Result) := ⟨rfl, rfl⟩

theorem mem_queue_of_mem_letters {mail : Mailbox} {letter : Channel × Bytes}
    (member : letter ∈ mail.letters) : letter.2 ∈ mail.queue letter.1 := by
  unfold Mailbox.queue
  exact List.mem_map_of_mem (List.mem_filter.2 ⟨member, decide_eq_true rfl⟩)

/-- If shortened ranks end without breaking off and post only messages below a length, then no
schedule of the full ranks ever has a longer message on its way. -/
theorem length_of_mem_letters {limit : Nat} {short full : Fin size → Steps Result}
    {results : Fin size → Result} (posts : ∀ rank, (short rank).PostsBelow limit)
    (shortens : ∀ rank, Steps.Shortens (short rank) (full rank))
    (ends : ReflTransGen Network.Handover short fun rank => .done (results rank))
    {reached : Group Result} (run : ReflTransGen Step (start (List.ofFn full)) reached)
    {letter : Channel × Bytes} (member : letter ∈ reached.mail.letters) :
    letter.2.length < limit := by
  obtain ⟨last, path, shows⟩ := network_run_of_run (shows_start full) run
  have begins : (⟨Network.idle, short⟩ : Network size Result).Shortens ⟨Network.idle, full⟩ :=
    ⟨rfl, shortens⟩
  obtain ⟨middle, follows, stays⟩ := begins.run (Network.run_of_handovers ends) path
  apply ((Network.passes_start posts).run follows).queues letter.1
  rw [stays.queues, ← shows.queues]
  exact mem_queue_of_mem_letters member

/-- What the ranks of a group find passes the tests that it passes whatever they hear. -/
theorem findings_pass {ranks : Fin size → Steps Result} {finding : Fin size → Result → Prop}
    (passes : ∀ rank, (ranks rank).Passes (fun _ => True) (finding rank)) {mail : Mailbox}
    {results : Fin size → Result}
    (run : ReflTransGen Step (start (List.ofFn ranks))
      ⟨mail, List.ofFn fun rank => .done (results rank)⟩) (rank : Fin size) :
    finding rank (results rank) := by
  obtain ⟨last, path, shows⟩ := network_run_of_run (shows_start ranks) run
  have atEnd := ((Network.passes_start passes).run path).ranks rank
  rw [← List.ofFn_injective shows.ranks] at atEnd
  exact atEnd

theorem run_of_network_run {group : Group Result} {network last : Network size Result}
    (shows : group.Shows network) (run : ReflTransGen Network.Step network last) :
    ∃ reached, ReflTransGen Step group reached ∧ reached.Shows last := by
  induction run with
  | refl => exact ⟨group, ReflTransGen.refl, shows⟩
  | tail _ step ih =>
      obtain ⟨middle, path, same⟩ := ih
      obtain ⟨next, forward, after⟩ := step_of_network_step same step
      exact ⟨next, path.tail forward, after⟩

theorem eq_start_of_shows {group : Group Result} {ranks : Fin size → Steps Result}
    (shows : group.Shows (⟨Network.idle, ranks⟩ : Network size Result)) :
    group = start (List.ofFn ranks) := by
  rcases group with ⟨mail, processes⟩
  rcases shows with ⟨queues, same⟩
  dsimp only at queues same
  rw [mail_eq_empty queues, same, start]

theorem exists_end (group : Group Result) :
    ∃ last, ReflTransGen Step group last ∧ ∀ next, ¬ Step last next := by
  induction every_schedule_ends group with
  | intro now _ ih =>
      by_cases goesOn : ∃ next, Step now next
      · obtain ⟨next, step⟩ := goesOn
        obtain ⟨last, run, ended⟩ := ih next step
        exact ⟨last, ReflTransGen.head step run, ended⟩
      · exact ⟨now, ReflTransGen.refl, fun next step => goesOn ⟨next, step⟩⟩

theorem Settles.run {group : Group Result} {results : List Result}
    (settles : group.Settles results) :
    ReflTransGen Step group ⟨.empty, results.map .done⟩ := by
  obtain ⟨last, run, ended⟩ := exists_end group
  rcases settles.outcome last run with ⟨next, step⟩ | same
  · exact absurd step (ended next)
  · rwa [same] at run

/-- Ranks that are done do nothing more. -/
theorem not_step_done (mail : Mailbox) (results : List Result) (next : Group Result) :
    ¬ Step ⟨mail, results.map .done⟩ next := by
  intro step
  cases step with
  | advance rank inside moves =>
      rw [List.getElem_map] at moves
      cases moves
  | release nonempty waiting =>
      cases results with
      | nil => exact nonempty rfl
      | cons result others => cases waiting (.done result) (List.mem_cons_self ..)

/-- A group settles on one list of results. -/
theorem Settles.unique {group : Group Result} {first second : List Result}
    (one : group.Settles first) (other : group.Settles second) : first = second := by
  rcases other.outcome _ one.run with ⟨next, step⟩ | same
  · exact absurd step (not_step_done .empty first next)
  · have lists := congrArg Group.ranks same
    exact List.map_injective_iff.2 (fun _ _ equal => Steps.done.inj equal) lists

/-- Some schedule brings the group to a point where no rank can go on, with these findings. -/
def Ends (group : Group Result) (found : List (Option Result)) : Prop :=
  ∃ last, ReflTransGen Step group last ∧ (∀ next, ¬ Step last next) ∧ last.results = found

theorem Settles.can_end {group : Group Result} {results : List Result}
    (settles : group.Settles results) : group.Ends (results.map some) := by
  refine ⟨_, settles.run, not_step_done .empty results, ?_⟩
  rw [Group.results, List.map_map]
  rfl

/-- A group on whose ranks everything is found has come to its end. -/
theorem ranks_of_results {group : Group Result} {results : Fin size → Result}
    (found : group.results = List.ofFn fun rank => some (results rank)) :
    group.ranks = List.ofFn fun rank => .done (results rank) := by
  have lengths := congrArg List.length found
  rw [Group.results, List.length_map, List.length_ofFn] at lengths
  apply List.ext_getElem (by rw [lengths, List.length_ofFn])
  intro rank inside _
  have result : group.ranks[rank].result? = some (results ⟨rank, lengths ▸ inside⟩) := by
    have same := List.getElem_of_eq found (by rw [Group.results, List.length_map]; exact inside)
    simpa only [Group.results, List.getElem_map, List.getElem_ofFn] using same
  rw [List.getElem_ofFn]
  cases kind : group.ranks[rank] with
  | done answer =>
      rw [kind] at result
      exact congrArg Steps.done (Option.some.inj result)
  | _ =>
      rw [kind] at result
      cases result

/-- A group can end as it could from any point on its way at which all its messages are taken. -/
theorem ends_iff_of_handovers {ranks later : Fin size → Steps Result}
    (run : ReflTransGen Network.Handover ranks later) (found : List (Option Result)) :
    (start (List.ofFn ranks)).Ends found ↔ (start (List.ofFn later)).Ends found := by
  have path := Network.run_of_handovers run
  constructor
  · rintro ⟨last, reach, ended, rfl⟩
    obtain ⟨final, toFinal, shows⟩ := network_run_of_run (shows_start ranks) reach
    have finalEnded : ∀ next, ¬ Network.Step final next := by
      intro next step
      obtain ⟨_, forward, _⟩ := step_of_network_step shows step
      exact ended _ forward
    have onward := run_to_end_of_run Network.step_diamond finalEnded toFinal path
    obtain ⟨reached, ways, same⟩ := run_of_network_run (shows_start later) onward
    refine ⟨reached, ways, ?_, ?_⟩
    · intro next step
      obtain ⟨_, forward, _⟩ := network_step_of_step same step
      exact finalEnded _ forward
    · rw [results, results, same.ranks, shows.ranks]
  · rintro ⟨last, reach, ended, rfl⟩
    obtain ⟨middle, ways, shows⟩ := run_of_network_run (shows_start ranks) path
    rw [eq_start_of_shows shows] at ways
    exact ⟨last, ways.trans reach, ended, rfl⟩

/-- The same group, with something made of what each rank finds. -/
def change (change : First → Result) (group : Group First) : Group Result :=
  ⟨group.mail, group.ranks.map fun process => process.bind fun found => .done (change found)⟩

theorem step_change (change : First → Result) {group next : Group First} (step : group.Step next) :
    (group.change change).Step (next.change change) := by
  cases step with
  | @advance mail rest ranks process rank inside moves =>
      unfold Group.change
      rw [List.map_set]
      apply Step.advance rank (by rw [List.length_map]; exact inside)
      rw [List.getElem_map]
      cases kind : ranks[rank] with
      | done result =>
          rw [kind] at moves
          cases moves
      | broken =>
          rw [kind] at moves
          cases moves
      | barrier after =>
          rw [kind] at moves
          cases moves
      | post peer tag body after =>
          rw [kind] at moves
          cases moves
          rfl
      | await peer tag limit after =>
          rw [kind] at moves
          simp only [Steps.advance?, Option.map_eq_some_iff, Prod.mk.injEq] at moves
          rcases moves with ⟨⟨body, others⟩, found, rfl, rfl⟩
          simp only [Steps.bind, Steps.advance?, found, Option.map_some]
  | @release mail ranks nonempty waiting =>
      have swapped : (ranks.map Steps.release).map
          (fun process => process.bind fun found => .done (change found)) =
          (ranks.map fun process => process.bind fun found => .done (change found)).map
            Steps.release := by
        rw [List.map_map, List.map_map]
        apply List.map_congr_left
        intro process member
        have atBarrier := waiting process member
        cases process with
        | barrier after => rfl
        | _ => cases atBarrier
      unfold Group.change
      dsimp only
      rw [swapped]
      apply Step.release (mt List.map_eq_nil_iff.1 nonempty)
      intro process member
      rcases List.mem_map.1 member with ⟨waits, inRanks, rfl⟩
      have atBarrier := waiting waits inRanks
      cases waits with
      | barrier after => rfl
      | _ => cases atBarrier

end Group

namespace Exchange

variable {First Second Value : Type} {limit : Nat}

/-- Whatever the program hears, the messages that it posts are below a length. -/
def PostsBelow (limit : Nat) (program : Exchange First) : Prop := program.run.PostsBelow limit

theorem PostsBelow.bind {program : Exchange First} {next : First → Exchange Second}
    (first : program.PostsBelow limit) (later : ∀ found, (next found).PostsBelow limit) :
    (program >>= next).PostsBelow limit := by
  apply Steps.postsBelow_bind first
  intro answer
  cases answer with
  | error failure => trivial
  | ok found => exact later found

theorem postsBelow_pure (value : First) : (pure value : Exchange First).PostsBelow limit := trivial

theorem postsBelow_forM (peers : List Nat) {program : Nat → Exchange Unit}
    (each : ∀ peer, (program peer).PostsBelow limit) : (peers.forM program).PostsBelow limit := by
  induction peers with
  | nil => trivial
  | cons peer peers ih => exact (each peer).bind fun _ => ih

variable [Record Value]

/-- A list is posted as its length, of eight bytes, and its records. -/
theorem postsBelow_sendRecords [SizedRecord Value] (peer : Nat) (tag : Tag) {values : List Value}
    (count : 8 < limit) (records : values.length * Record.size Value < limit) :
    (sendRecords peer tag values).PostsBelow limit := by
  have announced : ∀ number, (LittleEndian.encode number).length < limit := by
    intro number
    rw [LittleEndian.length_encode]
    exact count
  apply PostsBelow.bind
  · exact ⟨announced _, trivial⟩
  · intro _
    split
    · have whole : (Record.encodeMany values).length < limit := by
        rw [Record.length_encodeMany]
        exact records
      exact ⟨whole, trivial⟩
    · trivial

theorem postsBelow_receivePayload (peer : Nat) (tag : Tag) (count : Nat) :
    (receivePayload peer tag count : Exchange (List Value)).PostsBelow limit := by
  apply PostsBelow.bind
  · exact fun _ => trivial
  · intro answer
    cases answer with
    | none => trivial
    | some payload =>
        dsimp only
        split <;> trivial

theorem postsBelow_receiveRecords (peer : Nat) (tag : Tag) :
    (receiveRecords peer tag : Exchange (List Value)).PostsBelow limit := by
  apply PostsBelow.bind
  · exact fun _ => trivial
  · intro answer
    cases answer with
    | none => trivial
    | some announcement =>
        dsimp only
        split
        · trivial
        · split
          · trivial
          · split
            · trivial
            · exact postsBelow_receivePayload peer tag _

end Exchange

namespace Plan

open Exchange

variable {size : Nat} {First Second Result Value : Type} {limit : Nat}

theorem postsBelow_broadcastSteps [Record Value] [SizedRecord Value] (member : Member) (tag : Tag)
    (root : Nat) {values : List Value} (count : 8 < limit)
    (records : values.length * Record.size Value < limit) :
    (broadcastSteps member tag root values).PostsBelow limit := by
  unfold broadcastSteps
  split
  · exact (postsBelow_forM _ fun peer => postsBelow_sendRecords peer tag count records).bind
      fun _ => postsBelow_pure values
  · exact postsBelow_receiveRecords root tag

theorem postsBelow_collect [Record Value] (tag : Tag) (root : Nat) (values : List Value)
    (peers : List Nat) : (collect tag root values peers).PostsBelow limit := by
  induction peers with
  | nil => exact postsBelow_pure _
  | cons peer others ih =>
      have others : ∀ first, (do
          let later ← collect tag root values others
          return first :: later : Exchange (List (List Value))).PostsBelow limit :=
        fun _ => ih.bind fun _ => postsBelow_pure _
      unfold collect
      dsimp only
      split
      · exact (postsBelow_pure values).bind others
      · exact (postsBelow_receiveRecords peer tag).bind others

theorem postsBelow_gatherSteps [Record Value] [SizedRecord Value] (member : Member) (tag : Tag)
    (root : Nat) {values : List Value} (count : 8 < limit)
    (records : values.length * Record.size Value < limit) :
    (gatherSteps member tag root values).PostsBelow limit := by
  unfold gatherSteps
  split
  · exact (postsBelow_sendRecords root tag count records).bind fun _ => postsBelow_pure _
  · exact (postsBelow_collect tag root values _).bind fun _ => postsBelow_pure _

theorem steps_bind (member : Member) (plan : Plan First) (after : First → Plan Result) :
    (plan.bind after).steps member =
      (plan.steps member).bind fun found => (after found).steps member := by
  induction plan with
  | done => rfl
  | broken => rfl
  | broadcast record tag root values next ih =>
      simp only [Plan.bind, steps, ih, Steps.bind_assoc]
  | scatter record tag root pieces next ih =>
      simp only [Plan.bind, steps, ih, Steps.bind_assoc]
  | gather record tag root values next ih =>
      simp only [Plan.bind, steps, ih, Steps.bind_assoc]
  | barrier next ih => simp only [Plan.bind, steps, ih, Steps.bind]

/-- Whatever answers the operations give, what the plan finds passes a test. -/
def Finds (finding : Result → Prop) : Plan Result → Prop
  | done result => finding result
  | broken => True
  | broadcast _ _ _ _ next => ∀ answer, (next answer).Finds finding
  | scatter _ _ _ _ next => ∀ answer, (next answer).Finds finding
  | gather _ _ _ _ next => ∀ answer, (next answer).Finds finding
  | barrier next => next.Finds finding

theorem finds_any (plan : Plan Result) : plan.Finds fun _ => True := by
  induction plan with
  | done => trivial
  | broken => trivial
  | broadcast _ _ _ _ _ ih => exact ih
  | scatter _ _ _ _ _ ih => exact ih
  | gather _ _ _ _ _ ih => exact ih
  | barrier _ ih => exact ih

theorem Finds.bind {before : First → Prop} {finding : Result → Prop} {plan : Plan First}
    {after : First → Plan Result} (first : plan.Finds before)
    (later : ∀ found, before found → (after found).Finds finding) :
    (plan.bind after).Finds finding := by
  induction plan with
  | done found => exact later found first
  | broken => trivial
  | broadcast _ _ _ _ _ ih => exact fun answer => ih answer (first answer)
  | scatter _ _ _ _ _ ih => exact fun answer => ih answer (first answer)
  | gather _ _ _ _ _ ih => exact fun answer => ih answer (first answer)
  | barrier _ ih => exact ih first

theorem Finds.steps {finding : Result → Prop} {plan : Plan Result} (finds : plan.Finds finding)
    (member : Member) : (plan.steps member).Passes (fun _ => True) finding := by
  induction plan with
  | done => exact finds
  | broken => trivial
  | broadcast _ _ _ _ _ ih =>
      exact Steps.passes_bind (Steps.passes_any _) fun answer _ => ih answer (finds answer)
  | scatter _ _ _ _ _ ih =>
      exact Steps.passes_bind (Steps.passes_any _) fun answer _ => ih answer (finds answer)
  | gather _ _ _ _ _ ih =>
      exact Steps.passes_bind (Steps.passes_any _) fun answer _ => ih answer (finds answer)
  | barrier _ ih => exact ih finds

theorem Finds.imp {first second : Result → Prop} {plan : Plan Result} (finds : plan.Finds first)
    (implies : ∀ result, first result → second result) : plan.Finds second := by
  rw [← bind_done plan]
  exact finds.bind implies

/-- What a rank has found when all of them are done passes the tests that it passes whatever the
answers are. -/
theorem found_of_ends {plans : Fin size → Plan Result} {results : Fin size → Result}
    (finding : Result → Prop) (rank : Fin size) (finds : (plans rank).Finds finding)
    (ends : (group plans).Ends (List.ofFn fun rank => some (results rank))) :
    finding (results rank) := by
  obtain ⟨⟨mail, ranks⟩, run, _, found⟩ := ends
  have finished := Group.ranks_of_results found
  dsimp only at finished
  rw [finished] at run
  have passes : ∀ other : Fin size, ((plans other).steps ⟨other, size⟩).Passes (fun _ => True)
      fun result => other = rank → finding result := by
    intro other
    apply Finds.steps
    by_cases same : other = rank
    · subst same
      exact finds.imp fun _ passed _ => passed
    · exact (finds_any _).imp fun _ _ equal => absurd equal same
  exact Group.findings_pass passes run rank rfl

/-- A group whose ranks make something of what they find runs as it would without that. -/
theorem run_of_change {plans : Fin size → Plan First} {found : Fin size → First}
    (change : First → Second)
    (run : ReflTransGen Group.Step (group plans)
      ⟨.empty, List.ofFn fun rank => .done (found rank)⟩) :
    ReflTransGen Group.Step
      (group fun rank => (plans rank).bind fun result => .done (change result))
      ⟨.empty, List.ofFn fun rank => .done (change (found rank))⟩ := by
  have changed : ReflTransGen Group.Step (Group.change change (group plans))
      (Group.change change ⟨.empty, List.ofFn fun rank => .done (found rank)⟩) :=
    run.lift (Group.change change) fun _ _ step => Group.step_change change step
  simp only [Group.change, group, Group.start, List.map_ofFn] at changed
  simp only [group, Group.start, steps_bind]
  exact changed

/-- Ranks in step come to their end. -/
theorem run_of_lockstep (inhabited : 0 < size) {plans : Fin size → Plan Result}
    {results : Fin size → Result} (lockstep : Lockstep plans results) :
    ReflTransGen Group.Step (group plans)
      ⟨.empty, List.ofFn fun rank => .done (results rank)⟩ := by
  have run := (lockstep_settles inhabited lockstep).run
  rwa [List.map_ofFn] at run

/-- What ranks in step do first leaves no trace in how they end, but for what they make of it. -/
theorem ends_iff_of_lockstep (inhabited : 0 < size) {plans : Fin size → Plan First}
    {found : Fin size → First} (lockstep : Lockstep plans found)
    (after : Fin size → First → Plan Second) (results : List (Option Second)) :
    (group fun rank => (plans rank).bind (after rank)).Ends results ↔
      (group fun rank => after rank (found rank)).Ends results := by
  obtain ⟨_, performs⟩ := lockstep
  exact Group.ends_iff_of_handovers (performs_goes_on inhabited performs after) results

end Plan

namespace Collective

variable {First Second Value : Type} {limit : Nat} {member : Member}

/-- Whatever the rank hears, what it gets from the program passes a test, unless it fails. -/
def Gets (test : First → Prop) (program : Collective First) : Prop :=
  program.run.Finds fun found => ∀ answer, found = .ok answer → test answer

theorem gets_any (program : Collective First) : program.Gets fun _ => True :=
  program.run.finds_any.imp fun _ _ _ _ => trivial

theorem gets_pure {test : First → Prop} {answer : First} (passes : test answer) :
    (pure answer : Collective First).Gets test := by
  intro other same
  cases same
  exact passes

theorem gets_throw {test : First → Prop} (failure : Failure) :
    (throw failure : Collective First).Gets test := nofun

theorem Gets.bind {before : First → Prop} {test : Second → Prop} {program : Collective First}
    {next : First → Collective Second} (first : program.Gets before)
    (later : ∀ found, before found → (next found).Gets test) : (program >>= next).Gets test := by
  apply Plan.Finds.bind first
  intro found passes
  cases found with
  | error failure => exact nofun
  | ok answer => exact later answer (passes answer rfl)

/-- Whatever the rank hears, the messages that it posts are below a length. -/
def PostsBelow (limit : Nat) (member : Member) (program : Collective First) : Prop :=
  (program.run.steps member).PostsBelow limit

theorem PostsBelow.bind {program : Collective First} {next : First → Collective Second}
    (first : program.PostsBelow limit member)
    (later : ∀ found, (next found).PostsBelow limit member) :
    (program >>= next).PostsBelow limit member := by
  change ((program.run.bind _).steps member).PostsBelow limit
  rw [Plan.steps_bind]
  apply Steps.postsBelow_bind first
  intro answer
  cases answer with
  | error failure => trivial
  | ok found => exact later found

variable [Record Value] [SizedRecord Value]

theorem postsBelow_gather (tag : Tag) (root : Nat) {values : List Value} (count : 8 < limit)
    (records : values.length * Record.size Value < limit) :
    (gather tag root values).PostsBelow limit member :=
  Steps.postsBelow_bind (Plan.postsBelow_gatherSteps member tag root count records)
    fun _ => trivial

theorem postsBelow_broadcast (tag : Tag) (root : Nat) {values : List Value} (count : 8 < limit)
    (records : values.length * Record.size Value < limit) :
    (broadcast tag root values).PostsBelow limit member :=
  Steps.postsBelow_bind (Plan.postsBelow_broadcastSteps member tag root count records)
    fun _ => trivial

/-- A reduction posts single records and their number. -/
theorem postsBelow_reduceFrom (start : Option Value) (tag : Tag)
    (operation : Value → Value → Value) (value : Value) (count : 8 < limit)
    (record : Record.size Value < limit) :
    (reduceFrom start tag operation value : Collective Value).PostsBelow limit member := by
  have one : ∀ single : Value, [single].length * Record.size Value < limit := by
    intro single
    rw [List.length_singleton, Nat.one_mul]
    exact record
  apply PostsBelow.bind (postsBelow_gather tag 0 count (one value))
  intro pieces
  apply PostsBelow.bind (postsBelow_broadcast _ 0 count (one _))
  intro answer
  split <;> trivial

end Collective

end StreamGraph
