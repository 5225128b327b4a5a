import Mathlib.Data.List.DropRight
import StreamGraph.Text.Blank

/-!
The words and the lines of a text, described by how they lie in it. Words are separated by blanks
and hold none; a line ends with a line feed, which a carriage return may precede and which the last
line may lack. Each text has its words and its lines in one way only, and cutting finds them.
-/

namespace StreamGraph.Text

theorem cut_eq_splitOnP {Entry : Type} (isCut : Entry → Bool) (text : List Entry) :
    cut isCut text = text.splitOnP isCut := by
  induction text with
  | nil => rfl
  | cons entry rest ih =>
      rw [cut, List.splitOnP_cons_eq_if_modifyHead, ih]
      cases pieces : rest.splitOnP isCut with
      | nil => exact absurd pieces (List.splitOnP_ne_nil _ _)
      | cons piece others => rfl

/-- Nothing but the first cut decides the first piece. -/
theorem cut_append_cons {Entry : Type} {isCut : Entry → Bool} {piece : List Entry} {ends : Entry}
    (whole : ∀ entry ∈ piece, isCut entry = false) (cuts : isCut ends = true)
    (rest : List Entry) : cut isCut (piece ++ ends :: rest) = piece :: cut isCut rest := by
  rw [cut_eq_splitOnP, List.splitOnP_append_cons _ _ cuts, List.splitOnP_eq_singleton whole,
    ← cut_eq_splitOnP]
  rfl

section Words

/-- The words of a text, each with what comes before it. -/
inductive HasWords : List Char → List (List Char) → Prop
  | blank {text : List Char} (gap : ∀ char ∈ text, isBlank char = true) : HasWords text []
  | word {space word rest : List Char} {others : List (List Char)}
      (gap : ∀ char ∈ space, isBlank char = true) (nonempty : word ≠ [])
      (solid : ∀ char ∈ word, isBlank char = false)
      (ends : ∀ char ∈ rest.head?, isBlank char = true) (later : HasWords rest others) :
      HasWords (space ++ (word ++ rest)) (word :: others)

theorem words_append_blank {char : Char} (blank : isBlank char = true) (front rest : List Char) :
    words (front ++ char :: rest) = words front ++ words rest := by
  unfold words
  rw [cut_eq_splitOnP, List.splitOnP_append_cons _ _ blank, List.filter_append, ← cut_eq_splitOnP,
    ← cut_eq_splitOnP]

theorem words_cons_blank {char : Char} (blank : isBlank char = true) (rest : List Char) :
    words (char :: rest) = words rest := words_append_blank blank [] rest

theorem words_blank_append {space : List Char} (gap : ∀ char ∈ space, isBlank char = true)
    (rest : List Char) : words (space ++ rest) = words rest := by
  induction space with
  | nil => rfl
  | cons char space ih =>
      rw [List.forall_mem_cons] at gap
      rw [List.cons_append, words_cons_blank gap.1, ih gap.2]

theorem words_append_space {space : List Char} (gap : ∀ char ∈ space, isBlank char = true)
    (front : List Char) : words (front ++ space) = words front := by
  cases space with
  | nil => rw [List.append_nil]
  | cons char space =>
      rw [List.forall_mem_cons] at gap
      have nothing : words space = [] := by
        have after := words_blank_append gap.2 []
        rwa [List.append_nil] at after
      rw [words_append_blank gap.1, nothing, List.append_nil]

theorem words_solid {word : List Char} (nonempty : word ≠ [])
    (solid : ∀ char ∈ word, isBlank char = false) : words word = [word] := by
  have whole : word.splitOnP isBlank = [word] := List.splitOnP_eq_singleton solid
  rw [words, cut_eq_splitOnP, whole]
  simp [nonempty]

/-- Cutting at blanks finds the words of a text. -/
theorem HasWords.words_eq {text : List Char} {found : List (List Char)}
    (has : HasWords text found) : words text = found := by
  induction has with
  | blank gap =>
      have nothing := words_append_space gap []
      exact nothing
  | @word space word rest others gap nonempty solid ends _ ih =>
      rw [words_blank_append gap, ← ih]
      cases rest with
      | nil =>
          rw [List.append_nil, words_solid nonempty solid]
          rfl
      | cons char rest =>
          have blank : isBlank char = true := ends char rfl
          rw [words_append_blank blank, words_solid nonempty solid, words_cons_blank blank]
          rfl

theorem HasWords.after_space {space rest : List Char} {found : List (List Char)}
    (gap : ∀ char ∈ space, isBlank char = true) (has : HasWords rest found) :
    HasWords (space ++ rest) found := by
  cases has with
  | blank allBlank =>
      apply HasWords.blank
      intro char member
      rcases List.mem_append.1 member with before | after
      · exact gap char before
      · exact allBlank char after
  | word inner nonempty solid ends later =>
      rw [← List.append_assoc]
      refine .word ?_ nonempty solid ends later
      intro char member
      rcases List.mem_append.1 member with before | after
      · exact gap char before
      · exact inner char after

theorem exists_words (text : List Char) : ∃ found, HasWords text found := by
  induction text with
  | nil => exact ⟨[], .blank (List.forall_mem_nil _)⟩
  | cons char rest ih =>
      rcases ih with ⟨found, has⟩
      cases blank : isBlank char with
      | true =>
          have gap : ∀ other ∈ [char], isBlank other = true := by
            intro other member
            rw [List.mem_singleton.1 member, blank]
          exact ⟨found, has.after_space gap⟩
      | false =>
          have nothing : ∀ other ∈ ([] : List Char), isBlank other = true := List.forall_mem_nil _
          -- a solid character is a word by itself, or it lengthens the word that follows at once
          by_cases ends : ∀ next ∈ rest.head?, isBlank next = true
          · have solid : ∀ other ∈ [char], isBlank other = false := by
              intro other member
              rw [List.mem_singleton.1 member, blank]
            exact ⟨[char] :: found, .word nothing (List.cons_ne_nil _ _) solid ends has⟩
          · cases has with
            | blank gap =>
                apply absurd _ ends
                intro next first
                exact gap next (List.mem_of_mem_head? first)
            | @word space word rest others gap nonempty solid ends' later =>
                cases space with
                | nil =>
                    have longer : ∀ other ∈ char :: word, isBlank other = false :=
                      List.forall_mem_cons.2 ⟨blank, solid⟩
                    exact ⟨(char :: word) :: others,
                      .word nothing (List.cons_ne_nil _ _) longer ends' later⟩
                | cons first space =>
                    apply absurd _ ends
                    intro next same
                    rw [← Option.some.inj same]
                    exact gap first (List.mem_cons_self ..)

/-- A text has the words that cutting at blanks finds, and no others. -/
theorem hasWords_iff (text : List Char) (found : List (List Char)) :
    HasWords text found ↔ words text = found := by
  constructor
  · exact HasWords.words_eq
  · intro same
    rcases exists_words text with ⟨others, has⟩
    rwa [← same, has.words_eq]

end Words

section Trimming

/-- A text without the blanks at its ends. -/
def trim (text : List Char) : List Char := (text.dropWhile isBlank).rdropWhile isBlank

theorem words_trim (text : List Char) : words (trim text) = words text := by
  have front : words (text.dropWhile isBlank) = words text := by
    have before := words_blank_append
      (fun char member => List.mem_takeWhile_imp member : ∀ char ∈ text.takeWhile isBlank, _)
      (text.dropWhile isBlank)
    rwa [List.takeWhile_append_dropWhile, eq_comm] at before
  have behind := words_append_space
    (fun char member => List.mem_rtakeWhile_imp member :
      ∀ char ∈ (text.dropWhile isBlank).rtakeWhile isBlank, _) (trim text)
  rw [trim, List.rdropWhile_append_rtakeWhile, ← trim, front] at behind
  exact behind.symm

theorem words_cons_solid {char : Char} (solid : isBlank char = false) (rest : List Char) :
    ∃ word others, words (char :: rest) = (char :: word) :: others := by
  rw [words, cut, if_neg (by rw [solid]; exact Bool.false_ne_true)]
  cases cut isBlank rest with
  | nil => exact ⟨[], [], rfl⟩
  | cons piece pieces => exact ⟨piece, pieces.filter fun word => !word.isEmpty, rfl⟩

theorem solid_of_head_trim {text : List Char} {char : Char}
    (first : (trim text).head? = some char) : isBlank char = false := by
  have kept : (trim text) <+: text.dropWhile isBlank := List.rdropWhile_prefix _ _
  have begins : (text.dropWhile isBlank).head? = some char := by
    rcases kept with ⟨rest, whole⟩
    rw [← whole, List.head?_append, first]
    rfl
  have stopped := List.head?_dropWhile_not isBlank text
  rw [begins] at stopped
  exact stopped

/-- A trimmed text begins as its first word does. -/
theorem words_of_head_trim {text : List Char} {char : Char}
    (first : (trim text).head? = some char) :
    ∃ word others, words text = (char :: word) :: others := by
  have solid := solid_of_head_trim first
  rw [← words_trim]
  cases trimmed : trim text with
  | nil =>
      rw [trimmed] at first
      cases first
  | cons other rest =>
      rw [trimmed] at first
      cases first
      exact words_cons_solid solid rest

theorem words_of_trim_nil {text : List Char} (nothing : trim text = []) : words text = [] := by
  rw [← words_trim, nothing]
  rfl

end Trimming

section Lines

/-- A line without the carriage return before its end. -/
def withoutReturn (line : List Char) : List Char :=
  if line.getLast? = some '\r' then line.dropLast else line

/-- The lines of a text. Only the last one may lack the line feed, and then it is not empty. -/
inductive HasLines : List Char → List (List Char) → Prop
  | nothing : HasLines [] []
  | unended {line : List Char} (nonempty : line ≠ []) (unbroken : '\n' ∉ line) :
      HasLines line [line]
  | ended {line rest : List Char} {others : List (List Char)} (unbroken : '\n' ∉ line)
      (later : HasLines rest others) :
      HasLines (line ++ '\n' :: rest) (withoutReturn line :: others)

/-- The first line feed of a text divides it in one way. -/
theorem eq_of_first_feed {line other rest later : List Char} (unbroken : '\n' ∉ line)
    (alike : '\n' ∉ other) (same : line ++ '\n' :: rest = other ++ '\n' :: later) :
    line = other ∧ rest = later := by
  have whole : ∀ {piece : List Char}, '\n' ∉ piece → ∀ char ∈ piece, (char == '\n') = false := by
    intro piece unbroken char member
    exact beq_false_of_ne fun feed => unbroken (feed ▸ member)
  have pieces := congrArg (cut (· == '\n')) same
  rw [cut_append_cons (whole unbroken) (beq_self_eq_true _),
    cut_append_cons (whole alike) (beq_self_eq_true _)] at pieces
  have first := (List.cons.inj pieces).1
  subst first
  exact ⟨rfl, (List.cons.inj (List.append_cancel_left same)).2⟩

theorem HasLines.unique {text : List Char} {found others : List (List Char)}
    (has : HasLines text found) (alike : HasLines text others) : found = others := by
  induction has generalizing others with
  | nothing =>
      generalize isText : ([] : List Char) = text at alike
      cases alike with
      | nothing => rfl
      | unended nonempty => exact absurd isText.symm nonempty
      | ended =>
          exact absurd isText (List.append_ne_nil_of_right_ne_nil _ (List.cons_ne_nil _ _)).symm
  | unended nonempty unbroken =>
      cases alike with
      | nothing => exact absurd rfl nonempty
      | unended => rfl
      | ended => exact absurd (List.mem_append_right _ (List.mem_cons_self ..)) unbroken
  | @ended line rest _ unbroken _ ih =>
      generalize isText : line ++ '\n' :: rest = text at alike
      cases alike with
      | nothing => exact absurd isText (List.append_ne_nil_of_right_ne_nil _ (List.cons_ne_nil _ _))
      | unended _ whole =>
          rw [← isText] at whole
          exact absurd (List.mem_append_right _ (List.mem_cons_self ..)) whole
      | ended unbroken' later =>
          rcases eq_of_first_feed unbroken unbroken' isText with ⟨rfl, rfl⟩
          rw [ih later]

theorem exists_lines (text : List Char) : ∃ found, HasLines text found := by
  induction length : text.length using Nat.strong_induction_on generalizing text with
  | h _ ih =>
      subst length
      by_cases broken : '\n' ∈ text
      · rcases List.eq_append_cons_of_mem broken with ⟨line, rest, rfl, unbroken⟩
        have shorter : rest.length < (line ++ '\n' :: rest).length := by
          rw [List.length_append, List.length_cons]
          omega
        rcases ih _ shorter rest rfl with ⟨others, later⟩
        exact ⟨_, .ended unbroken later⟩
      · cases text with
        | nil => exact ⟨[], .nothing⟩
        | cons char rest => exact ⟨_, .unended (List.cons_ne_nil _ _) broken⟩

variable {Entry : Type} {isBreak : Entry → Bool}

theorem lines_unbroken {line : List Entry} (nonempty : line ≠ [])
    (unbroken : ∀ entry ∈ line, isBreak entry = false) : lines isBreak line = [line] := by
  have whole : cut isBreak line = [line] := by
    rw [cut_eq_splitOnP]
    exact List.splitOnP_eq_singleton unbroken
  rw [lines, whole]
  simp [nonempty]

/-- A line break ends the first line, and the others follow. -/
theorem lines_append_break {line : List Entry} {ends : Entry}
    (unbroken : ∀ entry ∈ line, isBreak entry = false) (breaks : isBreak ends = true)
    (rest : List Entry) : lines isBreak (line ++ ends :: rest) = line :: lines isBreak rest := by
  have nonempty : cut isBreak rest ≠ [] := by
    rw [cut_eq_splitOnP]
    exact List.splitOnP_ne_nil _ _
  rw [lines, lines, cut_append_cons unbroken breaks, List.getLast?_cons_of_ne_nil nonempty,
    List.dropLast_cons_of_ne_nil nonempty]
  split <;> rfl

end Lines

end StreamGraph.Text
