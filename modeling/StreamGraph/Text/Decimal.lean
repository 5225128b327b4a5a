import StreamGraph.Saturation

/-!
Whole numbers in decimal digits. A number is written with at least one digit and may have a sign
in front; without a minus sign it may have a plus sign.
-/

namespace StreamGraph.Decimal

def digit? (char : Char) : Option Nat :=
  if '0' ≤ char ∧ char ≤ '9' then some (char.toNat - '0'.toNat) else none

def readFrom (sofar : Nat) : List Char → Option Nat
  | [] => some sofar
  | char :: rest => (digit? char).bind fun digit => readFrom (10 * sofar + digit) rest

def readDigits (text : List Char) : Option Nat :=
  if text.isEmpty then none else readFrom 0 text

def readSigned : List Char → Option Int
  | '-' :: digits => (readDigits digits).map fun value => -(value : Int)
  | '+' :: digits => (readDigits digits).map fun value => (value : Int)
  | digits => (readDigits digits).map fun value => (value : Int)

/-- Reads a number without a sign, or with a plus sign. -/
def readUnsigned : List Char → Option Nat
  | '+' :: digits => readDigits digits
  | digits => readDigits digits

/-- Reads a word; a number beyond its range is refused. -/
def readWord (text : List Char) : Option UInt64 :=
  (readUnsigned text).bind fun value =>
    if value < UInt64.size then some (UInt64.ofNat value) else none

def readSignedWord (text : List Char) : Option Int64 :=
  (readSigned text).bind fun value =>
    if Saturation.least ≤ value ∧ value ≤ Saturation.greatest then some (Int64.ofInt value)
    else none

end StreamGraph.Decimal
