import StreamGraph.Proofs.Collective
import StreamGraph.Proofs.Message.Framing
import StreamGraph.Proofs.Message.Traffic

/-!
What a rank makes of the lengths and the records that rank zero lets it have. Cutting from the
back, it comes to the beginning of the records with the last cut if the lengths add up to their
number, and the rank compares the two before it cuts. But the sum of the lengths is a word, and
adding them up is not watched: beyond the greatest word there is no sum to compare, and the rank
breaks off.
-/

namespace StreamGraph

namespace Steps

variable {First Result : Type}

/-- What comes after a program starts from the mail that the program left. -/
theorem replay_bind {process : Steps First} {mail unread : List Letter} {found : First}
    {sent : List Parcel} {barriers : Nat}
    (replays : process.replay mail = ⟨some found, sent, barriers, unread⟩)
    (after : First → Steps Result) :
    (process.bind after).replay mail =
      let later := (after found).replay unread
      { later with sent := sent ++ later.sent, barriers := barriers + later.barriers } := by
  induction process generalizing mail sent barriers with
  | done result =>
      cases replays
      simp [bind]
  | broken => cases replays
  | post peer tag body next ih =>
      simp only [replay, Transcript.mk.injEq] at replays
      obtain ⟨result, rfl, waits, rest⟩ := replays
      have first : next.replay mail = ⟨some found, (next.replay mail).sent, barriers, unread⟩ := by
        rw [← result, ← waits, ← rest]
      have later := ih first
      simp only [bind, replay, later, List.cons_append]
  | await peer tag limit next ih => exact ih _ replays
  | barrier next ih =>
      simp only [replay, Transcript.mk.injEq] at replays
      obtain ⟨result, posted, rfl, rest⟩ := replays
      have first : next.replay mail = ⟨some found, sent, (next.replay mail).barriers, unread⟩ := by
        rw [← result, ← posted, ← rest]
      have later := ih first
      simp only [bind, replay, later]
      simp only [Transcript.mk.injEq, true_and, and_true]
      omega

/-- What a rank finds on prepared mail passes the test that it passes whatever the rank hears. -/
theorem Passes.replay {message : Bytes → Prop} {finding : Result → Prop} {process : Steps Result}
    (passes : process.Passes message finding) {mail : List Letter} {found : Result}
    (comes : (process.replay mail).result? = some found) : finding found := by
  induction process generalizing mail with
  | done result =>
      cases comes
      exact passes
  | broken => cases comes
  | post peer tag body next ih => exact ih passes.2 comes
  | await peer tag limit next ih => exact ih _ (passes _) comes
  | barrier next ih => exact ih passes comes

end Steps

namespace Exchange

variable {Value : Type} [Record Value]

/-- A list is received with its length as a word. -/
theorem receiveRecords_below (peer : Nat) (tag : Tag) :
    (receiveRecords peer tag : Exchange (List Value)).run.Passes (fun _ => True)
      fun answer => ∀ values, answer = .ok values → values.length < UInt64.size := by
  have refused : ∀ failure values,
      (.error failure : Except Failure (List Value)) = .ok values →
        values.length < UInt64.size := by
    intro failure values same
    cases same
  rw [receiveRecords_run]
  intro announcement
  cases announcement with
  | none => exact refused _
  | some announcement =>
      rw [judgeCount]
      split
      · exact refused _
      split
      · exact refused _
      split
      · intro values same
        cases same
        rw [List.length_nil]
        decide
      rw [receivePayload_run]
      intro payload
      cases payload with
      | none => exact refused _
      | some payload =>
          change ∀ values, judgePayload peer _ (some payload) = .ok values → _
          rw [judgePayload]
          split
          · exact refused _
          · intro values same
            cases same
            rw [Record.length_decodeMany]
            exact UInt64.toNat_lt_size _

end Exchange

namespace Collective

variable {Value : Type}

/-- With enough records for all the lengths, the cuts take these lengths off the back and leave
the front. -/
theorem cutBack_of_le {counts : List Nat} {flat : List Value}
    (enough : counts.sum ≤ flat.length) :
    ∃ pieces, cutBack counts flat = some pieces ∧ pieces.map List.length = counts ∧
      pieces.reverse.flatten = flat.drop (flat.length - counts.sum) := by
  induction counts generalizing flat with
  | nil => exact ⟨[], rfl, rfl, by simp⟩
  | cons count counts ih =>
      rw [List.sum_cons] at enough
      have remaining : (flat.take (flat.length - count)).length = flat.length - count := by
        rw [List.length_take]
        omega
      have enoughLeft : counts.sum ≤ (flat.take (flat.length - count)).length := by omega
      obtain ⟨pieces, cut, lengths, whole⟩ := ih enoughLeft
      have inside : ¬ flat.length < count := by omega
      refine ⟨flat.drop (flat.length - count) :: pieces, ?_, ?_, ?_⟩
      · rw [cutBack, if_neg inside, cut, Option.map_some]
      · rw [List.map_cons, lengths, List.length_drop, Nat.sub_sub_self (by omega)]
      · have left : flat.length - (count + counts.sum) ≤
            (flat.take (flat.length - count)).length := by omega
        rw [List.reverse_cons, List.flatten_append, List.flatten_singleton, whole, remaining,
          List.sum_cons, Nat.sub_sub, ← List.drop_append_of_le_length left,
          List.take_append_drop]

theorem wordSum_reverse (counts : List UInt64) :
    (counts.reverse.map UInt64.toNat).sum = wordSum counts := by
  rw [List.map_reverse, List.sum_reverse, wordSum]

/-- The pieces of a list are known by their lengths. -/
def Pieces (counts : List UInt64) (flat : List Value) (pieces : List (List Value)) : Prop :=
  pieces.map List.length = counts.map UInt64.toNat ∧ pieces.flatten = flat

theorem Pieces.wordSum {counts : List UInt64} {flat : List Value} {pieces : List (List Value)}
    (cut : Pieces counts flat pieces) : wordSum counts = flat.length := by
  rw [Collective.wordSum, ← cut.1, ← cut.2, List.length_flatten]

theorem Pieces.unique {counts : List UInt64} {flat : List Value} {first second : List (List Value)}
    (left : Pieces counts flat first) (right : Pieces counts flat second) : first = second := by
  have cut := cutBack_flatten first.reverse
  rw [List.map_reverse, List.reverse_reverse, left.1, left.2, ← right.1, ← right.2,
    ← List.map_reverse] at cut
  have other := cutBack_flatten second.reverse
  rw [List.reverse_reverse, cut] at other
  exact List.reverse_injective (Option.some.inj other)

/-- Lengths that add up to the number of records cut them into pieces; no cut begins before the
records. -/
theorem cutBack_of_wordSum {counts : List UInt64} {flat : List Value}
    (adds : wordSum counts = flat.length) :
    ∃ pieces, cutBack (counts.reverse.map UInt64.toNat) flat = some pieces ∧
      Pieces counts flat pieces.reverse := by
  have backwards := wordSum_reverse counts
  have enough : (counts.reverse.map UInt64.toNat).sum ≤ flat.length := by rw [backwards, adds]
  obtain ⟨pieces, cut, lengths, whole⟩ := cutBack_of_le enough
  refine ⟨pieces, cut, ?_, ?_⟩
  · rw [List.map_reverse, lengths, List.map_reverse, List.reverse_reverse]
  · rw [whole, backwards, adds, Nat.sub_self, List.drop_zero]

/-- What the announced lengths and the records come to: pieces, a refusal, or no answer at all. -/
theorem cutPieces_cases (counts : List UInt64) (flat : List Value) :
    (∃ pieces, Pieces counts flat pieces ∧ cutPieces counts flat = pure pieces) ∨
      (∃ total, total.toNat = wordSum counts ∧ wordSum counts ≠ flat.length ∧
        cutPieces counts flat = throw (.layout (.counts total flat.length))) ∨
      (UInt64.size ≤ wordSum counts ∧ cutPieces counts flat = broken) := by
  unfold cutPieces
  cases sum : checkedSum counts with
  | none => exact .inr (.inr ⟨checkedSum_eq_none_iff.1 sum, rfl⟩)
  | some total =>
      have added := checkedSum_eq_some_iff.1 sum
      by_cases adds : wordSum counts = flat.length
      · obtain ⟨pieces, cut, parts⟩ := cutBack_of_wordSum adds
        have right : ¬ total.toNat ≠ flat.length := by rw [added, not_not, adds]
        exact .inl ⟨pieces.reverse, parts, by rw [cut]; exact if_neg right⟩
      · have wrong : total.toNat ≠ flat.length := by rwa [added]
        exact .inr (.inl ⟨total, added, adds, if_pos wrong⟩)

section Received

variable {member : Member} {tag : Tag} {mail unread : List Letter} {counts : List UInt64}
  {flat : List Value}

theorem run_exchange_bind {First Second : Type} (program : Collective First)
    (next : First → Collective Second) (member : Member) :
    ((program >>= next).exchange member).run = (program.exchange member).run.bind fun
      | .ok found => ((next found).exchange member).run
      | .error failure => .done (.error failure) := by
  change (program.run.bind _).steps member = _
  rw [Plan.steps_bind]
  congr 1
  funext answer
  cases answer <;> rfl

variable [Record Value]

/-- On this mail a rank receives these lengths and then these records from rank zero. -/
def Receives (tag : Tag) (mail : List Letter) (counts : List UInt64) (flat : List Value)
    (unread : List Letter) : Prop :=
  ∃ between,
    (Exchange.receiveRecords 0 (tag.offset 1)).run.replay mail =
      ⟨some (.ok counts), [], 0, between⟩ ∧
    (Exchange.receiveRecords 0 (tag.offset 2)).run.replay between =
      ⟨some (.ok flat), [], 0, unread⟩

theorem Receives.length_lt (receives : Receives tag mail counts flat unread) :
    flat.length < UInt64.size := by
  obtain ⟨between, -, arrives⟩ := receives
  have comes := congrArg Transcript.result? arrives
  exact (Exchange.receiveRecords_below 0 (tag.offset 2)).replay comes flat rfl

theorem gather_replay (away : member.rank ≠ 0) (tag : Tag) (values : List Value)
    (mail : List Letter) :
    ((gather tag 0 values).exchange member).run.replay mail =
      ⟨some (.ok none), (frames values).map (Parcel.mk 0 tag), 0, mail⟩ := by
  change ((Plan.gatherSteps member tag 0 values).run.bind .done).replay mail = _
  rw [Plan.gatherSteps, if_pos away, Exchange.bind_run, Exchange.send_replay]
  change (⟨some (.ok none), (frames values).map (Parcel.mk 0 tag) ++ [], 0, mail⟩ :
    Transcript (Except Failure (Option (List (List Value))))) = _
  rw [List.append_nil]

theorem broadcast_replay (away : member.rank ≠ 0) (tag : Tag) (values : List Value)
    (mail : List Letter) :
    ((broadcast tag 0 values).exchange member).run.replay mail =
      (Exchange.receiveRecords 0 tag : Exchange (List Value)).run.replay mail := by
  change ((Plan.broadcastSteps member tag 0 values).run.bind .done).replay mail = _
  rw [Plan.broadcastSteps, if_neg away, Steps.bind_done]

/-- A rank other than zero sends its own list, receives the lengths and the records, and then
only cuts. -/
theorem allgather_replay (away : member.rank ≠ 0) (receives : Receives tag mail counts flat unread)
    (values : List Value) {outcome : Option (Except Failure (List (List Value)))}
    (cuts : ((cutPieces counts flat).exchange member).run.replay unread =
      ⟨outcome, [], 0, unread⟩) :
    ((allgather tag values).exchange member).run.replay mail =
      ⟨outcome, (frames values).map (Parcel.mk 0 tag), 0, unread⟩ := by
  obtain ⟨between, announces, arrives⟩ := receives
  rw [← broadcast_replay away (tag.offset 1) []] at announces
  rw [← broadcast_replay away (tag.offset 2) []] at arrives
  rw [allgather, run_exchange_bind, Steps.replay_bind (gather_replay away tag values mail)]
  simp only [Option.getD_none, List.map_nil, List.flatten_nil]
  rw [run_exchange_bind, Steps.replay_bind announces]
  dsimp only
  rw [run_exchange_bind, Steps.replay_bind arrives]
  simp [cuts]

/-- Lengths and records whose messages are at the front of their channels are received. -/
theorem receives_of_frames [LawfulRecord Value] (tag : Tag) (countsFit : Fits counts)
    (flatFit : Fits flat) {later last : List (Option Bytes)}
    (announced : Letter.channel 0 (tag.offset 1) mail = (frames counts).map some ++ later)
    (arrived : Letter.channel 0 (tag.offset 2) mail = (frames flat).map some ++ last) :
    ∃ unread, Receives tag mail counts flat unread := by
  obtain ⟨between, announces, taken⟩ := Exchange.receive_replay countsFit announced .done
  have apart : ¬ (0 = 0 ∧ tag.offset 1 = tag.offset 2) := by
    intro same
    exact absurd (UInt16.add_right_inj tag |>.1 same.2) (by decide)
  rw [← taken.others 0 (tag.offset 2) apart] at arrived
  obtain ⟨unread, arrives, -⟩ := Exchange.receive_replay flatFit arrived .done
  rw [Steps.bind_done, Record.carried_eq_id, List.map_id] at announces arrives
  exact ⟨unread, between, announces, arrives⟩

/-- A rank other than zero gets the pieces of the received records exactly when the lengths add up
to their number. It refuses them when the lengths come to another number, and gives no answer when
this number is beyond the greatest word. No cut ever begins before the records. -/
theorem received_records_are_cut_or_refused (away : member.rank ≠ 0)
    (receives : Receives tag mail counts flat unread) (values : List Value) :
    ∃ outcome, ((allgather tag values).exchange member).run.replay mail =
        ⟨outcome, (frames values).map (Parcel.mk 0 tag), 0, unread⟩ ∧
      (∀ pieces, outcome = some (.ok pieces) ↔ Pieces counts flat pieces) ∧
      ((∃ pieces, outcome = some (.ok pieces)) ↔ wordSum counts = flat.length) ∧
      (∀ failure, outcome = some (.error failure) ↔
        wordSum counts ≠ flat.length ∧ ∃ total, total.toNat = wordSum counts ∧
          failure = .layout (.counts total flat.length)) ∧
      (outcome = none ↔ UInt64.size ≤ wordSum counts) ∧
      (wordSum counts = flat.length →
        cutBack (counts.reverse.map UInt64.toNat) flat ≠ none) := by
  have few := receives.length_lt
  have inside : wordSum counts = flat.length →
      cutBack (counts.reverse.map UInt64.toNat) flat ≠ none := by
    intro adds cut
    obtain ⟨pieces, found, -⟩ := cutBack_of_wordSum adds
    rw [cut] at found
    cases found
  rcases cutPieces_cases counts flat with
    ⟨pieces, cut, same⟩ | ⟨total, added, wrong, same⟩ | ⟨beyond, same⟩
  · refine ⟨some (.ok pieces), allgather_replay away receives values (by rw [same]; rfl),
      ?_, ?_, ?_, ?_, inside⟩
    · intro other
      constructor
      · rintro ⟨⟩
        exact cut
      · intro right
        rw [cut.unique right]
    · exact ⟨fun _ => cut.wordSum, fun _ => ⟨pieces, rfl⟩⟩
    · exact fun failure => ⟨nofun, fun refused => absurd cut.wordSum refused.1⟩
    · have adds := cut.wordSum
      exact ⟨nofun, fun beyond => absurd beyond (by omega)⟩
  · refine ⟨some (.error (.layout (.counts total flat.length))),
      allgather_replay away receives values (by rw [same]; rfl), ?_, ?_, ?_, ?_, inside⟩
    · exact fun pieces => ⟨nofun, fun cut => absurd cut.wordSum wrong⟩
    · exact ⟨nofun, fun adds => absurd adds wrong⟩
    · intro failure
      constructor
      · rintro ⟨⟩
        exact ⟨wrong, total, added, rfl⟩
      · rintro ⟨-, other, sum, rfl⟩
        have equal : other = total := UInt64.toNat_inj.1 (sum.trans added.symm)
        rw [equal]
    · have below := total.toNat_lt_size
      exact ⟨nofun, fun beyond => absurd beyond (by omega)⟩
  · have inexact : wordSum counts ≠ flat.length := by omega
    refine ⟨none, allgather_replay away receives values (by rw [same]; rfl),
      ?_, ?_, ?_, ?_, inside⟩
    · exact fun pieces => ⟨nofun, fun cut => absurd cut.wordSum inexact⟩
    · exact ⟨nofun, fun adds => absurd adds inexact⟩
    · intro failure
      constructor
      · exact nofun
      · rintro ⟨-, total, added, -⟩
        exact absurd total.toNat_lt_size (by omega)
    · exact ⟨fun _ => beyond, fun _ => rfl⟩

end Received

/-- The messages in which rank zero announces these lengths and sends these records, on the two
streams beside stream 16. -/
def announced (counts flat : List UInt64) : List Letter :=
  (frames counts).map (fun body => ⟨0, 17, some body⟩) ++
    (frames flat).map fun body => ⟨0, 18, some body⟩

theorem three_records_make_two_pieces :
    (⟨1, 2⟩ : Member).rank ≠ 0 ∧ ∃ unread,
      Receives 16 (announced [2, 1] [7, 8, 9]) [2, 1] ([7, 8, 9] : List UInt64) unread ∧
      ((allgather 16 ([5] : List UInt64)).exchange ⟨1, 2⟩).run.replay
          (announced [2, 1] [7, 8, 9]) =
        ⟨some (.ok [[7, 8], [9]]), (frames ([5] : List UInt64)).map (Parcel.mk 0 16), 0,
          unread⟩ := by
  have away : (⟨1, 2⟩ : Member).rank ≠ 0 := by decide
  have lengths : Letter.channel 0 17 (announced [2, 1] [7, 8, 9]) =
      (frames ([2, 1] : List UInt64)).map some ++ [] := by rfl
  have records : Letter.channel 0 18 (announced [2, 1] [7, 8, 9]) =
      (frames ([7, 8, 9] : List UInt64)).map some ++ [] := by rfl
  obtain ⟨unread, receives⟩ := receives_of_frames 16 (by decide) (by decide) lengths records
  obtain ⟨outcome, replays, pieces, -⟩ :=
    received_records_are_cut_or_refused away receives ([5] : List UInt64)
  rw [(pieces [[7, 8], [9]]).2 ⟨by decide, by decide⟩] at replays
  exact ⟨away, unread, receives, replays⟩

/-- Two lengths that no word is the sum of are announced for no records at all. They are not
refused. -/
theorem lengths_beyond_a_word_are_not_refused :
    Receives 16 (announced [9223372036854775808, 9223372036854775808] [])
        [9223372036854775808, 9223372036854775808] ([] : List UInt64) [] ∧
      wordSum [9223372036854775808, 9223372036854775808] ≠ ([] : List UInt64).length ∧
      (((allgather 16 ([1] : List UInt64)).exchange ⟨1, 2⟩).run.replay
        (announced [9223372036854775808, 9223372036854775808] [])).result? = none := by
  refine ⟨⟨(frames ([] : List UInt64)).map fun body => ⟨0, 18, some body⟩, by rfl, by rfl⟩, ?_, ?_⟩
  · decide
  · rfl

end Collective

end StreamGraph
