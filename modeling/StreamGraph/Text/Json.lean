import StreamGraph.Text.Decimal

/-!
Values in JSON notation. Reading follows the grammar to the letter: no comma before a closing
bracket, no zero before another digit, nothing but blanks after the value. A whole number is kept
apart from a number with a fraction, an exponent or a lost sign, as only the first is exact.
-/

namespace StreamGraph

inductive Json where
  | null
  | bool (value : Bool)
  /-- A number without fraction and exponent; minus zero is not one of them. -/
  | whole (value : Int)
  | fraction
  /-- A string; `none` for one with half of a surrogate pair, which is no text. -/
  | string (value : Option String)
  | list (items : List Json)
  /-- Members in braces, in their order and with repetitions. -/
  | members (entries : List (Option String × Json))
  deriving Inhabited

namespace Json

def skipBlanks (text : List Char) : List Char :=
  text.dropWhile fun char => char == ' ' || char == '\n' || char == '\t' || char == '\r'

def takeWord : List Char → List Char → Option (List Char)
  | [], text => some text
  | _ :: _, [] => none
  | expected :: word, char :: text => if expected = char then takeWord word text else none

def takeDigits (text : List Char) : List Char × List Char :=
  (text.takeWhile Char.isDigit, text.dropWhile Char.isDigit)

/-- Takes a fraction off the front of a text, if there is one; answers whether there is. -/
def takeFraction : List Char → Option (Bool × List Char)
  | '.' :: text =>
      let (digits, rest) := takeDigits text
      if digits.isEmpty then none else some (true, rest)
  | text => some (false, text)

def takeExponentDigits (text : List Char) : Option (Bool × List Char) :=
  let (digits, rest) := takeDigits text
  if digits.isEmpty then none else some (true, rest)

/-- Takes an exponent off the front of a text, if there is one; answers whether there is. -/
def takeExponent : List Char → Option (Bool × List Char)
  | mark :: sign :: text =>
      if mark = 'e' ∨ mark = 'E' then
        if sign = '+' ∨ sign = '-' then takeExponentDigits text
        else takeExponentDigits (sign :: text)
      else some (false, mark :: sign :: text)
  | [mark] => if mark = 'e' ∨ mark = 'E' then none else some (false, [mark])
  | [] => some (false, [])

def takeNumber (negative : Bool) (text : List Char) : Option (Json × List Char) := do
  let (digits, rest) := takeDigits text
  if digits.isEmpty ∨ (digits.head? = some '0' ∧ 1 < digits.length) then none
  let magnitude ← Decimal.readDigits digits
  let (hasFraction, rest) ← takeFraction rest
  let (hasExponent, rest) ← takeExponent rest
  if hasFraction ∨ hasExponent ∨ (negative ∧ magnitude = 0) then return (fraction, rest)
  return (whole (if negative then -(magnitude : Int) else magnitude), rest)

def hexDigit? (char : Char) : Option Nat :=
  if '0' ≤ char ∧ char ≤ '9' then some (char.toNat - '0'.toNat)
  else if 'a' ≤ char ∧ char ≤ 'f' then some (char.toNat - 'a'.toNat + 10)
  else if 'A' ≤ char ∧ char ≤ 'F' then some (char.toNat - 'A'.toNat + 10)
  else none

def takeHex : List Char → Option (Nat × List Char)
  | a :: b :: c :: d :: rest => do
      let a ← hexDigit? a
      let b ← hexDigit? b
      let c ← hexDigit? c
      let d ← hexDigit? d
      return (((a * 16 + b) * 16 + c) * 16 + d, rest)
  | _ => none

/-- Whether a unit opens a surrogate pair. -/
def opensPair (unit : Nat) : Bool := decide (0xD800 ≤ unit) && decide (unit < 0xDC00)

def closesPair (unit : Nat) : Bool := decide (0xDC00 ≤ unit) && decide (unit < 0xE000)

/-- Takes the rest of a numbered character off the front of a text, after its `u`; a half of a
pair by itself is no character. -/
def takeUnit (text : List Char) : Option (Option Char × List Char) := do
  let (unit, rest) ← takeHex text
  if opensPair unit then
    match rest with
    | '\\' :: 'u' :: later =>
        let (second, after) ← takeHex later
        if closesPair second then
          return (some (Char.ofNat (0x10000 + (unit - 0xD800) * 0x400 + (second - 0xDC00))),
            after)
        -- the second unit is read again by itself
        return (none, rest)
    | _ => return (none, rest)
  if closesPair unit then return (none, rest)
  return (some (Char.ofNat unit), rest)

def escaped? (letter : Char) : Option Char :=
  if letter = '"' ∨ letter = '\\' ∨ letter = '/' then some letter
  else if letter = 'b' then some '\x08'
  else if letter = 'f' then some '\x0c'
  else if letter = 'n' then some '\n'
  else if letter = 'r' then some '\r'
  else if letter = 't' then some '\t'
  else none

def takeString : Nat → List Char → Option (List (Option Char) × List Char)
  | 0, _ => none
  | _ + 1, [] => none
  | fuel + 1, char :: text =>
      if char = '"' then some ([], text)
      else if char.toNat < 0x20 then none
      else do
        let (first, rest) ←
          if char ≠ '\\' then some (some char, text)
          else match text with
            | 'u' :: text => takeUnit text
            | letter :: text => (escaped? letter).map fun plain => (some plain, text)
            | [] => none
        let (others, after) ← takeString fuel rest
        return (first :: others, after)

/-- Takes a string off the front of a text, after its opening quote, as text if it is one. -/
def takeText (text : List Char) : Option (Option String × List Char) :=
  (takeString (text.length + 1) text).map fun (chars, rest) =>
    ((chars.mapM id).map String.ofList, rest)

mutual

def takeValue : Nat → List Char → Option (Json × List Char)
  | 0, _ => none
  | fuel + 1, text =>
      match skipBlanks text with
      | [] => none
      | '"' :: rest => (takeText rest).map fun (value, after) => (.string value, after)
      | '[' :: rest =>
          match skipBlanks rest with
          | ']' :: after => some (.list [], after)
          | other => (takeItems fuel other).map fun (items, after) => (.list items, after)
      | '\x7b' :: rest =>
          match skipBlanks rest with
          | '\x7d' :: after => some (.members [], after)
          | other => (takeMembers fuel other).map fun (entries, after) =>
              (.members entries, after)
      | 'n' :: rest => (takeWord ['u', 'l', 'l'] rest).map fun after => (.null, after)
      | 't' :: rest => (takeWord ['r', 'u', 'e'] rest).map fun after => (.bool true, after)
      | 'f' :: rest => (takeWord ['a', 'l', 's', 'e'] rest).map fun after => (.bool false, after)
      | '-' :: rest => takeNumber true rest
      | other => takeNumber false other

def takeItems : Nat → List Char → Option (List Json × List Char)
  | 0, _ => none
  | fuel + 1, text => do
      let (first, rest) ← takeValue fuel text
      match skipBlanks rest with
      | ']' :: after => return ([first], after)
      | ',' :: later =>
          let (others, after) ← takeItems fuel later
          return (first :: others, after)
      | _ => none

def takeMembers : Nat → List Char → Option (List (Option String × Json) × List Char)
  | 0, _ => none
  | fuel + 1, text =>
      match skipBlanks text with
      | '"' :: quoted => do
          let (key, rest) ← takeText quoted
          match skipBlanks rest with
          | ':' :: rest =>
              let (value, rest) ← takeValue fuel rest
              match skipBlanks rest with
              | '\x7d' :: after => return ([(key, value)], after)
              | ',' :: later =>
                  let (others, after) ← takeMembers fuel later
                  return ((key, value) :: others, after)
              | _ => none
          | _ => none
      | _ => none

end

def read (text : String) : Option Json :=
  let chars := text.toList
  match takeValue (chars.length + 1) chars with
  | some (value, rest) => if (skipBlanks rest).isEmpty then some value else none
  | none => none

end Json

end StreamGraph
