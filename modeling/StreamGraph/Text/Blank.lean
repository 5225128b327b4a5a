/-!
Blank characters and the words between them. A blank is a character with the Unicode property
White_Space.
-/

namespace StreamGraph.Text

/-- The ranges of the characters with the property White_Space, by number. -/
def blankRanges : List (Nat × Nat) :=
  [(0x9, 0xD), (0x20, 0x20), (0x85, 0x85), (0xA0, 0xA0), (0x1680, 0x1680), (0x2000, 0x200A),
    (0x2028, 0x2029), (0x202F, 0x202F), (0x205F, 0x205F), (0x3000, 0x3000)]

def isBlank (char : Char) : Bool :=
  blankRanges.any fun (low, high) => decide (low ≤ char.toNat) && decide (char.toNat ≤ high)

/-- Cuts a list wherever an entry passes a test, leaving these entries out. -/
def cut {Entry : Type} (isCut : Entry → Bool) : List Entry → List (List Entry)
  | [] => [[]]
  | entry :: rest =>
      if isCut entry then [] :: cut isCut rest
      else match cut isCut rest with
        | [] => [[entry]]
        | piece :: pieces => (entry :: piece) :: pieces

/-- The words of a text: its longest stretches without a blank. -/
def words (text : List Char) : List (List Char) :=
  (cut isBlank text).filter fun word => !word.isEmpty

/-- The lines of a text. A line break ends a line, so none follows the last break. -/
def lines {Entry : Type} (isBreak : Entry → Bool) (text : List Entry) : List (List Entry) :=
  let pieces := cut isBreak text
  if pieces.getLast?.any List.isEmpty then pieces.dropLast else pieces

end StreamGraph.Text
