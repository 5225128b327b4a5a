import Mathlib.Data.List.Forall2
import Mathlib.Data.List.ReduceOption
import StreamGraph.Dataset.Text
import StreamGraph.Proofs.Text.Decimal
import StreamGraph.Proofs.Text.Pieces

/-!
The grammar of a stream in text. Each line is a comment or one edge in four fields, and says which
by itself; the reader takes exactly the texts all of whose lines do so, and of any other it reports
the first line that does not, with the first thing that is wrong with it. What is printed by the
grammar is read back, however it is spaced and commented.
-/

namespace StreamGraph.Dataset

/-- An edge between vertices other than zero. -/
def Usable (edge : Edge) : Prop := edge.src ≠ 0 ∧ edge.dst ≠ 0

theorem not_usable_iff (edge : Edge) : ¬ Usable edge ↔ edge.src = 0 ∨ edge.dst = 0 := by
  rw [Usable, not_and_or, not_not, not_not]

namespace Text

open StreamGraph.Text

/-- A line without text, or with a mark in front that makes it a comment. -/
def IsSkipped (line : List Char) : Prop :=
  trim line = [] ∨ (trim line).head? = some '#' ∨ (trim line).head? = some '%'

/-- The written forms of the four fields of an edge. -/
inductive HasFields : List (List Char) → Edge → Prop
  | four {src dst weight timestamp : List Char} {edge : Edge}
      (srcField : Decimal.IsUnsigned src edge.src.toNat)
      (dstField : Decimal.IsUnsigned dst edge.dst.toNat)
      (weightField : Decimal.IsSigned weight edge.weight.toInt)
      (timestampField : Decimal.IsSigned timestamp edge.timestamp.toInt) :
      HasFields [src, dst, weight, timestamp] edge

/-- What a line stands for: nothing, or one edge. -/
inductive Means (line : List Char) : Option Edge → Prop
  | nothing (skipped : IsSkipped line) : Means line none
  | edge {fields : List (List Char)} {edge : Edge} (words : HasWords (trim line) fields)
      (written : HasFields fields edge) (usable : Usable edge) :
      Means line (some edge)

/-- The fields of a line by name, and what each of them may be. -/
def fieldRules : List (String × (List Char → Prop)) :=
  [("source", fun word => ∃ value : UInt64, Decimal.IsUnsigned word value.toNat),
    ("destination", fun word => ∃ value : UInt64, Decimal.IsUnsigned word value.toNat),
    ("weight", fun word => ∃ value : Int64, Decimal.IsSigned word value.toInt),
    ("timestamp", fun word => ∃ value : Int64, Decimal.IsSigned word value.toInt)]

/-- The first fields, as many as there are words, are all right. -/
def Passes (count : Nat) (words : List (List Char)) : Prop :=
  List.Forall₂ (fun rule word => rule.2 word) (fieldRules.take count) words

/-- The first thing that is wrong with a line: from left to right a field, then that there is more,
and last that an end is vertex zero. -/
inductive HasFault : List (List Char) → RecordFault → Prop
  | missing {count : Nat} {name : String} {rule : List Char → Prop} {words : List (List Char)}
      (next : fieldRules[count]? = some (name, rule)) (good : Passes count words) :
      HasFault words (.missing name)
  | invalid {count : Nat} {name : String} {rule : List Char → Prop} {words : List (List Char)}
      {word : List Char} (next : fieldRules[count]? = some (name, rule))
      (good : Passes count words) (bad : ¬ rule word) (others : List (List Char)) :
      HasFault (words ++ word :: others) (.invalid name (String.ofList word))
  | trailing {words : List (List Char)} (good : Passes 4 words) (word : List Char)
      (others : List (List Char)) : HasFault (words ++ word :: others) .trailing
  | reserved {words : List (List Char)} {edge : Edge} (written : HasFields words edge)
      (unusable : ¬ Usable edge) : HasFault words .reservedVertex

section Edges

theorem ok_bind {Fault First Second : Type} (found : First) (next : First → Except Fault Second) :
    (Except.ok found >>= next) = next found := rfl

theorem error_bind {Fault First Second : Type} (fault : Fault)
    (next : First → Except Fault Second) : (Except.error fault >>= next) = .error fault := rfl

theorem Passes.next {count : Nat} {name : String} {rule : List Char → Prop}
    (next : fieldRules[count]? = some (name, rule)) {passed : List (List Char)}
    (good : Passes count passed) {word : List Char} (right : rule word) :
    Passes (count + 1) (passed ++ [word]) := by
  rw [Passes, List.take_add_one, next]
  exact List.rel_append good (.cons right .nil)

/-- One field is read, or it is the first fault. -/
theorem field_cases {Value : Type} {count : Nat} {name : String} {read : List Char → Option Value}
    {form : List Char → Value → Prop}
    (reads : ∀ word value, read word = some value ↔ form word value)
    (next : fieldRules[count]? = some (name, fun word => ∃ value, form word value))
    {passed : List (List Char)} (good : Passes count passed) (words : List (List Char)) :
    (∃ fault, field name read words = .error fault ∧ HasFault (passed ++ words) fault) ∨
      ∃ word others value, words = word :: others ∧ form word value ∧
        field name read words = .ok (value, others) ∧ Passes (count + 1) (passed ++ [word]) := by
  cases words with
  | nil =>
      left
      rw [List.append_nil]
      exact ⟨_, rfl, .missing next good⟩
  | cons word others =>
      cases found : read word with
      | none =>
          have bad : ¬ ∃ value, form word value := by
            intro written
            rcases written with ⟨value, written⟩
            rw [← reads, found] at written
            cases written
          left
          refine ⟨_, ?_, .invalid next good bad others⟩
          rw [field, found]
      | some value =>
          have written := (reads word value).1 found
          right
          refine ⟨word, others, value, rfl, written, ?_, good.next next ⟨value, written⟩⟩
          rw [field, found]

/-- The words of a line are read as an edge, or their first fault is found. -/
theorem readEdge_cases (words : List (List Char)) :
    (∃ edge, readEdge words = .ok edge ∧ HasFields words edge ∧ Usable edge) ∨
      ∃ fault, readEdge words = .error fault ∧ HasFault words fault := by
  have good : Passes 0 [] := .nil
  unfold readEdge
  rcases field_cases Decimal.readWord_eq_some_iff rfl good words with
    ⟨fault, failed, has⟩ | ⟨src, words, srcValue, rfl, srcForm, srcField, good⟩
  · rw [failed, error_bind]
    exact Or.inr ⟨fault, rfl, has⟩
  rw [srcField, ok_bind]
  dsimp only
  rcases field_cases Decimal.readWord_eq_some_iff rfl good words with
    ⟨fault, failed, has⟩ | ⟨dst, words, dstValue, rfl, dstForm, dstField, good⟩
  · rw [failed, error_bind]
    exact Or.inr ⟨fault, rfl, has⟩
  rw [dstField, ok_bind]
  dsimp only
  rcases field_cases Decimal.readSignedWord_eq_some_iff rfl good words with
    ⟨fault, failed, has⟩ | ⟨weight, words, weightValue, rfl, weightForm, weightField, good⟩
  · rw [failed, error_bind]
    exact Or.inr ⟨fault, rfl, has⟩
  rw [weightField, ok_bind]
  dsimp only
  rcases field_cases Decimal.readSignedWord_eq_some_iff rfl good words with
    ⟨fault, failed, has⟩ | ⟨timestamp, words, stampValue, rfl, stampForm, stampField, good⟩
  · rw [failed, error_bind]
    exact Or.inr ⟨fault, rfl, has⟩
  rw [stampField, ok_bind]
  dsimp only
  cases words with
  | cons word others => exact Or.inr ⟨_, rfl, .trailing good word others⟩
  | nil =>
      have fields : HasFields [src, dst, weight, timestamp]
          ⟨srcValue, dstValue, weightValue, stampValue⟩ :=
        .four srcForm dstForm weightForm stampForm
      by_cases zero : srcValue = 0 ∨ dstValue = 0
      · right
        refine ⟨.reservedVertex, ?_, .reserved fields ((not_usable_iff _).2 zero)⟩
        change (if srcValue = 0 ∨ dstValue = 0 then _ else _) = _
        rw [if_pos zero]
        rfl
      · left
        refine ⟨_, ?_, fields, not_or.1 zero⟩
        change (if srcValue = 0 ∨ dstValue = 0 then _ else _) = _
        rw [if_neg zero]
        rfl

theorem field_of_some {Value : Type} {name : String} {read : List Char → Option Value}
    {word : List Char} {value : Value} (found : read word = some value)
    (words : List (List Char)) : field name read (word :: words) = .ok (value, words) := by
  rw [field, found]

theorem readEdge_eq_ok_iff (words : List (List Char)) (edge : Edge) :
    readEdge words = .ok edge ↔ HasFields words edge ∧ Usable edge := by
  constructor
  · intro read
    rcases readEdge_cases words with ⟨other, readOther, fields, usable⟩ | ⟨fault, failed, _⟩
    · rw [read] at readOther
      cases readOther
      exact ⟨fields, usable⟩
    · rw [read] at failed
      cases failed
  · intro written
    rcases written with ⟨⟨srcField, dstField, weightField, timestampField⟩, usable⟩
    rw [← Decimal.readWord_eq_some_iff] at srcField dstField
    rw [← Decimal.readSignedWord_eq_some_iff] at weightField timestampField
    simp only [readEdge, field_of_some srcField, field_of_some dstField,
      field_of_some weightField, field_of_some timestampField, ok_bind]
    change (if edge.src = 0 ∨ edge.dst = 0 then _ else _) = _
    rw [if_neg (not_or.2 usable)]
    rfl

end Edges

section Lines

theorem isComment_words_iff (line : List Char) :
    isComment (words line) = true ↔ IsSkipped line := by
  cases first : (trim line).head? with
  | none =>
      have nothing : trim line = [] := List.head?_eq_none_iff.1 first
      rw [words_of_trim_nil nothing]
      exact iff_of_true rfl (Or.inl nothing)
  | some char =>
      have nonempty : trim line ≠ [] := by
        intro nothing
        rw [nothing] at first
        cases first
      rcases words_of_head_trim first with ⟨word, others, found⟩
      rw [found, IsSkipped, first]
      simp [isComment, nonempty]

/-- No field of an edge begins as a comment does. -/
theorem HasFields.not_isComment {words : List (List Char)} {edge : Edge}
    (written : HasFields words edge) : isComment words = false := by
  cases written with
  | @four src dst weight timestamp _ srcField =>
      cases src with
      | nil =>
          rcases srcField with ⟨digits, rfl | same, numeral⟩
          · exact absurd rfl numeral.nonempty
          · cases same
      | cons first src =>
          have noMark : ∀ mark : Char, mark ≠ '+' → mark.isDigit = false → first ≠ mark := by
            intro mark noPlus noDigit same
            subst same
            have head : (first :: src).head? ≠ some '+' := fun plus => noPlus (Option.some.inj plus)
            rw [Decimal.isUnsigned_iff_of_ne_plus head] at srcField
            exact Decimal.not_isNumeral_of_sign noDigit src _ srcField
          have noHash := noMark '#' (by decide) (by decide)
          have noPercent := noMark '%' (by decide) (by decide)
          simp [isComment, noHash, noPercent]

theorem readLine_eq (line : List Char) :
    readLine line = if isComment (words line) then .ok none
      else (readEdge (words line)).map some := rfl

/-- A line stands for one thing at most, and reading finds it. -/
theorem readLine_eq_ok_iff (line : List Char) (meaning : Option Edge) :
    readLine line = .ok meaning ↔ Means line meaning := by
  have marked := isComment_words_iff line
  rw [readLine_eq]
  cases comment : isComment (words line) with
  | true =>
      rw [if_pos rfl]
      constructor
      · intro read
        cases read
        exact .nothing (marked.1 comment)
      · intro means
        cases means with
        | nothing => rfl
        | edge found written usable =>
            rw [hasWords_iff, words_trim] at found
            rw [found, written.not_isComment] at comment
            cases comment
  | false =>
      rw [if_neg Bool.false_ne_true]
      constructor
      · intro read
        cases found : readEdge (words line) with
        | error fault =>
            rw [found] at read
            cases read
        | ok edge =>
            rw [found] at read
            cases read
            rcases (readEdge_eq_ok_iff _ edge).1 found with ⟨written, usable⟩
            exact .edge ((hasWords_iff _ _).2 (words_trim line)) written usable
      · intro means
        cases means with
        | nothing skipped =>
            rw [marked.2 skipped] at comment
            cases comment
        | edge found written usable =>
            rw [hasWords_iff, words_trim] at found
            rw [found, (readEdge_eq_ok_iff _ _).2 ⟨written, usable⟩]
            rfl

theorem hasFault_of_readLine {line : List Char} {fault : RecordFault}
    (failed : readLine line = .error fault) :
    ∃ fields, HasWords (trim line) fields ∧ HasFault fields fault := by
  refine ⟨words line, (hasWords_iff _ _).2 (words_trim line), ?_⟩
  rw [readLine_eq] at failed
  cases comment : isComment (words line) with
  | true =>
      rw [comment] at failed
      cases failed
  | false =>
      rw [comment, if_neg Bool.false_ne_true] at failed
      rcases readEdge_cases (words line) with ⟨edge, read, _⟩ | ⟨other, failedOther, has⟩
      · rw [read] at failed
        cases failed
      · rw [failedOther] at failed
        cases failed
        exact has

/-- A carriage return at the end of a line is a blank like others. -/
theorem readLine_withoutReturn (line : List Char) :
    readLine (withoutReturn line) = readLine line := by
  have alike : words (withoutReturn line) = words line := by
    unfold withoutReturn
    split
    · next last =>
        have whole := List.dropLast_append_getLast? _ last
        have blank : ∀ char ∈ ['\r'], isBlank char = true := by
          intro char member
          rw [List.mem_singleton.1 member]
          rfl
        conv_rhs => rw [← whole, words_append_space blank]
    · rfl
  rw [readLine_eq, readLine_eq, alike]

theorem means_withoutReturn {line : List Char} {meaning : Option Edge}
    (means : Means line meaning) :
    Means (withoutReturn line) meaning := by
  rwa [← readLine_eq_ok_iff, readLine_withoutReturn, readLine_eq_ok_iff]

end Lines

section Whole

theorem mapM_some (line : List Char) : (line.map some).mapM id = some line := by
  induction line with
  | nil => rfl
  | cons char line ih =>
      rw [List.map_cons, List.mapM_cons, ih]
      rfl

theorem eq_map_some_of_mapM {line : List (Option Char)} {chars : List Char}
    (all : line.mapM id = some chars) : line = chars.map some := by
  induction line generalizing chars with
  | nil =>
      cases all
      rfl
  | cons char line ih =>
      rw [List.mapM_cons] at all
      cases char with
      | none => cases all
      | some char =>
          cases rest : line.mapM id with
          | none =>
              rw [rest] at all
              cases all
          | some others =>
              rw [rest] at all
              cases all
              rw [List.map_cons, ← ih rest]

theorem readLines_of_error {line : List Char} {fault : RecordFault}
    (failed : readLine line = .error fault) (number : Nat) (rest : List (List (Option Char))) :
    readLines number (line.map some :: rest) = .error (.malformed number fault) := by
  rw [readLines, mapM_some]
  simp only [failed]
  rfl

theorem readLines_of_ok {line : List Char} {meaning : Option Edge}
    (read : readLine line = .ok meaning) (number : Nat) (rest : List (List (Option Char))) :
    readLines number (line.map some :: rest) =
      (readLines (number + 1) rest).map (meaning.toList ++ ·) := by
  rw [readLines, mapM_some]
  simp only [read]
  rfl

theorem readLines_cons_eq_ok_iff (number : Nat) (line : List Char)
    (rest : List (List (Option Char))) (edges : List Edge) :
    readLines number (line.map some :: rest) = .ok edges ↔
      ∃ meaning others, Means line meaning ∧ readLines (number + 1) rest = .ok others ∧
        edges = meaning.toList ++ others := by
  constructor
  · intro found
    cases read : readLine line with
    | error fault =>
        rw [readLines_of_error read] at found
        cases found
    | ok meaning =>
        rw [readLines_of_ok read] at found
        cases behind : readLines (number + 1) rest with
        | error failure =>
            rw [behind] at found
            cases found
        | ok others =>
            rw [behind] at found
            cases found
            exact ⟨meaning, others, (readLine_eq_ok_iff _ _).1 read, rfl, rfl⟩
  · intro found
    rcases found with ⟨meaning, others, means, behind, rfl⟩
    rw [readLines_of_ok ((readLine_eq_ok_iff _ _).2 means), behind]
    rfl

theorem reduceOption_cons (meaning : Option Edge) (readings : List (Option Edge)) :
    (meaning :: readings).reduceOption = meaning.toList ++ readings.reduceOption := by
  cases meaning <;> rfl

/-- Lines are read as what they stand for, without the comments. -/
theorem readLines_eq_ok_iff (number : Nat) (lines : List (List Char)) (edges : List Edge) :
    readLines number (lines.map (List.map some)) = .ok edges ↔
      ∃ readings, List.Forall₂ Means lines readings ∧ edges = readings.reduceOption := by
  induction lines generalizing number edges with
  | nil =>
      constructor
      · intro read
        cases read
        exact ⟨[], .nil, rfl⟩
      · intro means
        rcases means with ⟨readings, means, rfl⟩
        cases means
        rfl
  | cons line lines ih =>
      rw [List.map_cons, readLines_cons_eq_ok_iff]
      constructor
      · intro found
        rcases found with ⟨meaning, others, first, behind, rfl⟩
        rcases (ih _ _).1 behind with ⟨readings, later, rfl⟩
        exact ⟨meaning :: readings, .cons first later, (reduceOption_cons _ _).symm⟩
      · intro means
        rcases means with ⟨readings, means, rfl⟩
        cases means with
        | @cons _ meaning _ readings first later =>
            have behind := (ih (number + 1) _).2 ⟨readings, later, rfl⟩
            exact ⟨meaning, _, first, behind, reduceOption_cons _ _⟩

example : readLines 1 ([['#', 'a'], ['7', '\t', ' ', '1', ' ', '-', '3', ' ', '+', '9']].map
    (List.map some)) = .ok [⟨7, 1, -3, 9⟩] := by rfl

/-- The first line that stands for nothing is the one that is reported. -/
theorem readLines_of_first_error {front : List (List Char)} {line : List Char}
    {fault : RecordFault} (before : ∀ earlier ∈ front, ∃ meaning, Means earlier meaning)
    (failed : readLine line = .error fault) (number : Nat) (rest : List (List Char)) :
    readLines number ((front ++ line :: rest).map (List.map some)) =
      .error (.malformed (number + front.length) fault) := by
  induction front generalizing number with
  | nil => exact readLines_of_error failed number _
  | cons earlier front ih =>
      rw [List.forall_mem_cons] at before
      rcases before.1 with ⟨meaning, means⟩
      rw [List.cons_append, List.map_cons,
        readLines_of_ok ((readLine_eq_ok_iff _ _).2 means), ih before.2, List.length_cons,
        Nat.add_right_comm, Nat.add_assoc]
      rfl

-- the fields are judged from left to right, and the ends only after all of them
example : readLines 1 ([[], ['0', ' ', '2', ' ', 'x', ' ', '4']].map (List.map some)) =
    .error (.malformed 2 (.invalid "weight" "x")) := by rfl

/-- Whatever bytes the lines come from, no edge with an end at vertex zero is read. -/
theorem usable_of_readLines {number : Nat} {lines : List (List (Option Char))} {edges : List Edge}
    (found : readLines number lines = .ok edges) : ∀ edge ∈ edges, Usable edge := by
  induction lines generalizing number edges with
  | nil =>
      cases found
      exact List.forall_mem_nil _
  | cons line lines ih =>
      cases all : line.mapM id with
      | none =>
          rw [readLines, all] at found
          cases found
      | some chars =>
          rw [eq_map_some_of_mapM all, readLines_cons_eq_ok_iff] at found
          rcases found with ⟨meaning, others, means, behind, rfl⟩
          intro edge member
          rcases List.mem_append.1 member with here | later
          · rw [Option.mem_toList] at here
            cases here
            cases means with
            | edge _ _ usable => exact usable
          · exact ih behind edge later

theorem readLines_lines {text : List Char} {lines : List (List Char)} (has : HasLines text lines)
    (number : Nat) :
    readLines number (StreamGraph.Text.lines (fun char => char == some '\n') (text.map some)) =
      readLines number (lines.map (List.map some)) := by
  have whole : ∀ {line : List Char}, '\n' ∉ line →
      ∀ char ∈ line.map some, (char == some '\n') = false := by
    intro line unbroken char member
    rcases List.mem_map.1 member with ⟨inside, within, rfl⟩
    exact beq_false_of_ne fun feed => unbroken (Option.some.inj feed ▸ within)
  induction has generalizing number with
  | nothing => rfl
  | unended nonempty unbroken =>
      rw [lines_unbroken (fun nothing => nonempty (List.map_eq_nil_iff.1 nothing)) (whole unbroken)]
      rfl
  | @ended line rest others unbroken _ ih =>
      rw [List.map_append, List.map_cons, List.map_cons,
        lines_append_break (whole unbroken) (beq_self_eq_true _)]
      cases read : readLine line with
      | error fault =>
          rw [readLines_of_error read,
            readLines_of_error ((readLine_withoutReturn line).trans read)]
      | ok meaning =>
          rw [readLines_of_ok read, readLines_of_ok ((readLine_withoutReturn line).trans read), ih]

theorem read_encode {text : List Char} {lines : List (List Char)} (has : HasLines text lines) :
    read (Utf8.encode text) = readLines 1 (lines.map (List.map some)) := by
  rw [read, Utf8.decode_encode, readLines_lines has]

theorem exists_readings_iff (lines : List (List Char)) :
    (∃ readings, List.Forall₂ Means lines readings) ↔
      ∀ line ∈ lines, ∃ meaning, Means line meaning := by
  induction lines with
  | nil => exact iff_of_true ⟨[], .nil⟩ (List.forall_mem_nil _)
  | cons line lines ih =>
      rw [List.forall_mem_cons, ← ih]
      constructor
      · intro means
        rcases means with ⟨_, _ | ⟨first, others⟩⟩
        exact ⟨⟨_, first⟩, _, others⟩
      · intro means
        rcases means with ⟨⟨meaning, first⟩, readings, others⟩
        exact ⟨meaning :: readings, .cons first others⟩

/-- Of lines that do not all stand for something, one is the first. -/
theorem exists_first_bad {lines : List (List Char)}
    (bad : ¬ ∀ line ∈ lines, ∃ meaning, Means line meaning) :
    ∃ front line rest, lines = front ++ line :: rest ∧
      (∀ earlier ∈ front, ∃ meaning, Means earlier meaning) ∧ ¬ ∃ meaning, Means line meaning := by
  induction lines with
  | nil => exact absurd (List.forall_mem_nil _) bad
  | cons line lines ih =>
      by_cases good : ∃ meaning, Means line meaning
      · have behind : ¬ ∀ line ∈ lines, ∃ meaning, Means line meaning := by
          intro all
          exact bad (List.forall_mem_cons.2 ⟨good, all⟩)
        rcases ih behind with ⟨front, other, rest, rfl, before, wrong⟩
        exact ⟨line :: front, other, rest, rfl, List.forall_mem_cons.2 ⟨good, before⟩, wrong⟩
      · exact ⟨[], line, lines, rfl, List.forall_mem_nil _, good⟩

end Whole

section Printing

/-- What may stand between two fields: spaces and tabs, at least one. -/
structure IsGap (gap : List Char) : Prop where
  nonempty : gap ≠ []
  only (char : Char) (member : char ∈ gap) : char = ' ' ∨ char = '\t'

/-- A printed line: a comment, or an edge with its numbers in decimal. -/
inductive PrintedLine : Option Edge → List Char → Prop
  | comment {line : List Char} (skipped : IsSkipped line) (unbroken : '\n' ∉ line) :
      PrintedLine none line
  | edge {edge : Edge} {first second third : List Char} (usable : Usable edge)
      (firstGap : IsGap first) (secondGap : IsGap second) (thirdGap : IsGap third) :
      PrintedLine (some edge)
        (Decimal.write edge.src.toNat ++ (first ++ (Decimal.write edge.dst.toNat ++ (second ++
          (Decimal.writeSigned edge.weight.toInt ++ (third ++
            Decimal.writeSigned edge.timestamp.toInt))))))

/-- Edges in text, each on a line of its own, with comments anywhere between them. The last line
need not be ended. -/
inductive Printed : List Edge → List Char → Prop
  | nothing : Printed [] []
  | unended {meaning : Option Edge} {line : List Char} (printed : PrintedLine meaning line) :
      Printed meaning.toList line
  | ended {meaning : Option Edge} {line : List Char} {edges : List Edge} {rest : List Char}
      (printed : PrintedLine meaning line) (later : Printed edges rest) :
      Printed (meaning.toList ++ edges) (line ++ '\n' :: rest)

theorem not_isBlank_of_isDigit {char : Char} (digit : char.isDigit = true) :
    isBlank char = false := by
  rw [Char.isDigit, Bool.and_eq_true, decide_eq_true_iff, decide_eq_true_iff] at digit
  have low : 48 ≤ char.toNat := UInt32.le_iff_toNat_le.1 digit.1
  have high : char.toNat ≤ 57 := UInt32.le_iff_toNat_le.1 digit.2
  simp [isBlank, blankRanges]
  omega

/-- Characters that make up one word. -/
structure IsWord (word : List Char) : Prop where
  nonempty : word ≠ []
  solid (char : Char) (member : char ∈ word) : isBlank char = false

theorem isWord_write (value : Nat) : IsWord (Decimal.write value) := by
  have numeral := Decimal.isNumeral_write value
  exact ⟨numeral.nonempty, fun char member => not_isBlank_of_isDigit (numeral.only char member)⟩

theorem isWord_writeSigned (value : Int) : IsWord (Decimal.writeSigned value) := by
  have digits := isWord_write value.natAbs
  unfold Decimal.writeSigned
  split
  · exact ⟨List.cons_ne_nil _ _, List.forall_mem_cons.2 ⟨by decide, digits.solid⟩⟩
  · exact digits

theorem IsGap.isBlank {gap : List Char} (isGap : IsGap gap) :
    ∀ char ∈ gap, isBlank char = true := by
  intro char member
  rcases isGap.only char member with rfl | rfl <;> decide

theorem IsWord.alone {word : List Char} (isWord : IsWord word) : HasWords word [word] := by
  rw [hasWords_iff]
  exact words_solid isWord.nonempty isWord.solid

theorem IsWord.hasWords {word gap rest : List Char} {others : List (List Char)}
    (isWord : IsWord word) (isGap : IsGap gap) (later : HasWords rest others) :
    HasWords (word ++ (gap ++ rest)) (word :: others) := by
  have ends : ∀ char ∈ (gap ++ rest).head?, Text.isBlank char = true := by
    cases gap with
    | nil => exact absurd rfl isGap.nonempty
    | cons first gap =>
        intro char same
        rw [← Option.some.inj same]
        exact isGap.isBlank first (List.mem_cons_self ..)
  have nothing : ∀ char ∈ ([] : List Char), Text.isBlank char = true := List.forall_mem_nil _
  exact .word nothing isWord.nonempty isWord.solid ends (later.after_space isGap.isBlank)

theorem IsWord.unbroken {word : List Char} (isWord : IsWord word) : '\n' ∉ word := by
  intro feed
  have solid := isWord.solid '\n' feed
  exact absurd solid (by decide)

theorem IsGap.unbroken {gap : List Char} (isGap : IsGap gap) : '\n' ∉ gap := by
  intro feed
  rcases isGap.only '\n' feed with space | tab
  · exact absurd space (by decide)
  · exact absurd tab (by decide)

theorem PrintedLine.unbroken {meaning : Option Edge} {line : List Char}
    (printed : PrintedLine meaning line) : '\n' ∉ line := by
  cases printed with
  | comment _ unbroken => exact unbroken
  | edge _ firstGap secondGap thirdGap =>
      simp [(isWord_write _).unbroken, (isWord_writeSigned _).unbroken, firstGap.unbroken,
        secondGap.unbroken, thirdGap.unbroken]

theorem PrintedLine.means {meaning : Option Edge} {line : List Char}
    (printed : PrintedLine meaning line) : Means line meaning := by
  cases printed with
  | comment skipped => exact .nothing skipped
  | @edge edge _ _ _ usable firstGap secondGap thirdGap =>
      have fields := (isWord_write edge.src.toNat).hasWords firstGap
        ((isWord_write edge.dst.toNat).hasWords secondGap
          ((isWord_writeSigned edge.weight.toInt).hasWords thirdGap
            (isWord_writeSigned edge.timestamp.toInt).alone))
      rw [hasWords_iff, ← words_trim, ← hasWords_iff] at fields
      exact .edge fields ⟨Decimal.isUnsigned_write _, Decimal.isUnsigned_write _,
        Decimal.isSigned_writeSigned _, Decimal.isSigned_writeSigned _⟩ usable

/-- The lines of a printed text stand for the edges that were printed. -/
theorem Printed.means {edges : List Edge} {text : List Char} (printed : Printed edges text) :
    ∃ lines readings, HasLines text lines ∧ List.Forall₂ Means lines readings ∧
      edges = readings.reduceOption := by
  induction printed with
  | nothing => exact ⟨[], [], .nothing, .nil, rfl⟩
  | @unended meaning line printed =>
      by_cases empty : line = []
      · subst empty
        have skipped : Means [] none := .nothing (Or.inl rfl)
        rw [← readLine_eq_ok_iff] at skipped
        have read := (readLine_eq_ok_iff _ _).2 printed.means
        rw [skipped] at read
        cases read
        exact ⟨[], [], .nothing, .nil, rfl⟩
      · refine ⟨[line], [meaning], .unended empty printed.unbroken, .cons printed.means .nil, ?_⟩
        cases meaning <;> rfl
  | @ended meaning line edges rest printed _ ih =>
      rcases ih with ⟨lines, readings, has, means, rfl⟩
      exact ⟨_, meaning :: readings, .ended printed.unbroken has,
        .cons (means_withoutReturn printed.means) means, (reduceOption_cons _ _).symm⟩

end Printing

/-- A text is read when each of its lines is a comment or an edge, as the edges in their order; of
any other text the first line that is neither is reported, with its first fault. Edges that are
printed, with comments between them and any gaps, are read back. -/
theorem exactly_the_grammar_is_read :
    (∀ text : List Char, ∃ lines, (∀ others, HasLines text others ↔ others = lines) ∧
      ((∃ edges, read (Utf8.encode text) = .ok edges) ↔
        ∀ line ∈ lines, ∃ meaning, Means line meaning) ∧
      (∀ edges, read (Utf8.encode text) = .ok edges ↔
        ∃ readings, List.Forall₂ Means lines readings ∧ edges = readings.reduceOption) ∧
      ((¬ ∀ line ∈ lines, ∃ meaning, Means line meaning) →
        ∃ front line rest fields fault, lines = front ++ line :: rest ∧
          (∀ earlier ∈ front, ∃ meaning, Means earlier meaning) ∧
          (¬ ∃ meaning, Means line meaning) ∧ HasWords (trim line) fields ∧
          HasFault fields fault ∧
          read (Utf8.encode text) = .error (.malformed (front.length + 1) fault))) ∧
    ∀ edges text, Printed edges text → read (Utf8.encode text) = .ok edges := by
  constructor
  · intro text
    rcases exists_lines text with ⟨lines, has⟩
    refine ⟨lines, ?_, ?_, ?_, ?_⟩
    · intro others
      constructor
      · intro also
        exact also.unique has
      · rintro rfl
        exact has
    · rw [read_encode has, ← exists_readings_iff]
      simp only [readLines_eq_ok_iff]
      constructor
      · rintro ⟨_, readings, means, _⟩
        exact ⟨readings, means⟩
      · rintro ⟨readings, means⟩
        exact ⟨_, readings, means, rfl⟩
    · intro edges
      rw [read_encode has, readLines_eq_ok_iff]
    · intro bad
      rcases exists_first_bad bad with ⟨front, line, rest, rfl, before, wrong⟩
      cases outcome : readLine line with
      | ok meaning => exact absurd ⟨meaning, (readLine_eq_ok_iff _ _).1 outcome⟩ wrong
      | error fault =>
          rcases hasFault_of_readLine outcome with ⟨fields, found, faulty⟩
          refine ⟨front, line, rest, fields, fault, rfl, before, wrong, found, faulty, ?_⟩
          rw [read_encode has, readLines_of_first_error before outcome, Nat.add_comm]
  · intro edges text printed
    rcases printed.means with ⟨lines, readings, has, means, rfl⟩
    rw [read_encode has, readLines_eq_ok_iff]
    exact ⟨readings, means, rfl⟩

/-- A comment, and an edge with a different gap behind each of its first three fields. -/
def twoLines : List Char :=
  ['#', 'a', '\n', '7', '\t', '1', ' ', '-', '3', ' ', '\t', '9', '\n']

theorem two_lines_are_read : Printed [⟨7, 1, -3, 9⟩] twoLines ∧
    read (Utf8.encode twoLines) = .ok [⟨7, 1, -3, 9⟩] := by
  have tab : IsGap ['\t'] := ⟨List.cons_ne_nil _ _, by simp⟩
  have space : IsGap [' '] := ⟨List.cons_ne_nil _ _, by simp⟩
  have both : IsGap [' ', '\t'] := ⟨List.cons_ne_nil _ _, by simp⟩
  have comment : PrintedLine none ['#', 'a'] := .comment (Or.inr (Or.inl rfl)) (by decide)
  have usable : Usable ⟨7, 1, -3, 9⟩ := ⟨by decide, by decide⟩
  have printed : Printed [⟨7, 1, -3, 9⟩] twoLines :=
    .ended comment (.ended (.edge usable tab space both) .nothing)
  exact ⟨printed, exactly_the_grammar_is_read.2 _ _ printed⟩

end Text

end StreamGraph.Dataset
