import Mathlib.Data.List.Basic
import StreamGraph.Text.Decimal

/-!
What decimal writing means. A numeral is a list of digits, at least one, and denotes what they add
up to; a sign may stand in front of it. Reading a word succeeds exactly on the writings of that
word, so a number out of its range has none, and the writing with the fewest digits is among them.
-/

namespace StreamGraph.Decimal

/-- Digits, and the number that they denote. -/
structure IsNumeral (digits : List Char) (value : Nat) : Prop where
  nonempty : digits ≠ []
  only (char : Char) (member : char ∈ digits) : char.isDigit = true
  denotes : Nat.ofDigitChars 10 digits 0 = value

/-- A number without a minus sign. -/
def IsUnsigned (text : List Char) (value : Nat) : Prop :=
  ∃ digits, (text = digits ∨ text = '+' :: digits) ∧ IsNumeral digits value

def IsSigned (text : List Char) (value : Int) : Prop :=
  ∃ number : Nat, IsUnsigned text number ∧ value = number ∨
    (∃ digits, text = '-' :: digits ∧ IsNumeral digits number) ∧ value = -number

theorem digit?_eq (char : Char) :
    digit? char = if char.isDigit then some (char.toNat - '0'.toNat) else none := by
  have same : ('0' ≤ char ∧ char ≤ '9') ↔ char.isDigit = true := by
    rw [Char.isDigit, Bool.and_eq_true, decide_eq_true_iff, decide_eq_true_iff]
    rfl
  simp only [digit?, same]

theorem readFrom_eq_some_iff (sofar : Nat) (text : List Char) (value : Nat) :
    readFrom sofar text = some value ↔
      (∀ char ∈ text, char.isDigit = true) ∧ Nat.ofDigitChars 10 text sofar = value := by
  induction text generalizing sofar with
  | nil => simp [readFrom]
  | cons char rest ih =>
      rw [readFrom, digit?_eq, List.forall_mem_cons, Nat.ofDigitChars_cons]
      cases digit : char.isDigit with
      | true => simp only [if_true, Option.bind_some, ih, true_and]
      | false => simp

theorem readDigits_eq_some_iff (text : List Char) (value : Nat) :
    readDigits text = some value ↔ IsNumeral text value := by
  unfold readDigits
  cases text with
  | nil =>
      constructor
      · intro read
        cases read
      · intro numeral
        exact absurd rfl numeral.nonempty
  | cons char rest =>
      change readFrom 0 (char :: rest) = some value ↔ _
      rw [readFrom_eq_some_iff]
      constructor
      · intro read
        exact ⟨List.cons_ne_nil _ _, read.1, read.2⟩
      · intro numeral
        exact ⟨numeral.only, numeral.denotes⟩

/-- A sign is no digit. -/
theorem not_isNumeral_of_sign {sign : Char} (noDigit : sign.isDigit = false) (rest : List Char)
    (value : Nat) : ¬ IsNumeral (sign :: rest) value := by
  intro numeral
  have digit := numeral.only sign (List.mem_cons_self ..)
  rw [noDigit] at digit
  cases digit

theorem isUnsigned_plus_iff (digits : List Char) (value : Nat) :
    IsUnsigned ('+' :: digits) value ↔ IsNumeral digits value := by
  constructor
  · intro written
    rcases written with ⟨others, same | same, numeral⟩
    · rw [← same] at numeral
      exact absurd numeral (not_isNumeral_of_sign (by decide) digits value)
    · rwa [(List.cons.inj same).2]
  · intro numeral
    exact ⟨digits, Or.inr rfl, numeral⟩

theorem isUnsigned_iff_of_ne_plus {text : List Char} (noPlus : text.head? ≠ some '+')
    (value : Nat) : IsUnsigned text value ↔ IsNumeral text value := by
  constructor
  · intro written
    rcases written with ⟨others, rfl | rfl, numeral⟩
    · exact numeral
    · exact absurd rfl noPlus
  · intro numeral
    exact ⟨text, Or.inl rfl, numeral⟩

theorem readUnsigned_eq_some_iff (text : List Char) (value : Nat) :
    readUnsigned text = some value ↔ IsUnsigned text value := by
  unfold readUnsigned
  split
  · rw [readDigits_eq_some_iff, isUnsigned_plus_iff]
  · next noPlus =>
      have head : text.head? ≠ some '+' := by
        intro plus
        rcases List.head?_eq_some_iff.1 plus with ⟨digits, same⟩
        exact noPlus digits same
      rw [readDigits_eq_some_iff, isUnsigned_iff_of_ne_plus head]

theorem isSigned_minus_iff (digits : List Char) (value : Int) :
    IsSigned ('-' :: digits) value ↔ ∃ number : Nat, IsNumeral digits number ∧ value = -number := by
  have noUnsigned : ∀ number, ¬ IsUnsigned ('-' :: digits) number := by
    intro number
    have noPlus : ('-' :: digits).head? ≠ some '+' := by
      rw [List.head?_cons]
      decide
    rw [isUnsigned_iff_of_ne_plus noPlus]
    exact not_isNumeral_of_sign (by decide) digits number
  simp [IsSigned, noUnsigned]

theorem isSigned_iff_of_ne_minus {text : List Char} (noMinus : text.head? ≠ some '-')
    (value : Int) :
    IsSigned text value ↔ ∃ number : Nat, IsUnsigned text number ∧ value = number := by
  have noDigits : ∀ digits, text ≠ '-' :: digits := by
    rintro digits rfl
    exact noMinus rfl
  simp [IsSigned, noDigits]

theorem map_readDigits_eq_some_iff (change : Int → Int) (digits : List Char) (value : Int) :
    Option.map change (do let number ← readDigits digits; pure (number : Int)) = some value ↔
      ∃ number : Nat, IsNumeral digits number ∧ value = change number := by
  have read : (do let number ← readDigits digits; pure (number : Int)) =
      (readDigits digits).map Int.ofNat := Option.map_eq_bind.symm
  rw [read, Option.map_map, Option.map_eq_some_iff]
  simp only [readDigits_eq_some_iff]
  constructor
  · intro found
    rcases found with ⟨number, numeral, same⟩
    exact ⟨number, numeral, same.symm⟩
  · intro found
    rcases found with ⟨number, numeral, same⟩
    exact ⟨number, numeral, same.symm⟩

theorem readSigned_eq_some_iff (text : List Char) (value : Int) :
    readSigned text = some value ↔ IsSigned text value := by
  unfold readSigned
  split
  · rw [map_readDigits_eq_some_iff, isSigned_minus_iff]
  · next digits =>
      have minus : ('+' :: digits).head? ≠ some '-' := by
        rw [List.head?_cons]
        decide
      rw [map_readDigits_eq_some_iff, isSigned_iff_of_ne_minus minus]
      simp only [isUnsigned_plus_iff]
  · next noMinus noPlus =>
      have minus : text.head? ≠ some '-' := by
        intro sign
        rcases List.head?_eq_some_iff.1 sign with ⟨digits, same⟩
        exact noMinus digits same
      have plus : text.head? ≠ some '+' := by
        intro sign
        rcases List.head?_eq_some_iff.1 sign with ⟨digits, same⟩
        exact noPlus digits same
      rw [map_readDigits_eq_some_iff, isSigned_iff_of_ne_minus minus]
      simp only [isUnsigned_iff_of_ne_plus plus]

/-- Exactly the writings of a word are read as that word. -/
theorem readWord_eq_some_iff (text : List Char) (word : UInt64) :
    readWord text = some word ↔ IsUnsigned text word.toNat := by
  rw [readWord, Option.bind_eq_some_iff]
  constructor
  · intro read
    rcases read with ⟨value, written, ranged⟩
    split at ranged
    · next fits =>
        rw [← Option.some.inj ranged, UInt64.toNat_ofNat_of_lt' fits]
        exact (readUnsigned_eq_some_iff text value).1 written
    · cases ranged
  · intro written
    refine ⟨word.toNat, (readUnsigned_eq_some_iff text word.toNat).2 written, ?_⟩
    rw [if_pos word.toNat_lt_size, UInt64.ofNat_toNat]

theorem readSignedWord_eq_some_iff (text : List Char) (word : Int64) :
    readSignedWord text = some word ↔ IsSigned text word.toInt := by
  rw [readSignedWord, Option.bind_eq_some_iff]
  constructor
  · intro read
    rcases read with ⟨value, written, ranged⟩
    split at ranged
    · next fits =>
        rw [← Option.some.inj ranged, Int64.toInt_ofInt_of_le fits.1 (Int.lt_add_one_of_le fits.2)]
        exact (readSigned_eq_some_iff text value).1 written
    · cases ranged
  · intro written
    refine ⟨word.toInt, (readSigned_eq_some_iff text word.toInt).2 written, ?_⟩
    rw [if_pos ⟨Saturation.least_le_toInt word, Saturation.toInt_le_greatest word⟩,
      Int64.ofInt_toInt]

/-- The shortest writing of a number. -/
def write (value : Nat) : List Char := Nat.toDigits 10 value

def writeSigned (value : Int) : List Char :=
  if value < 0 then '-' :: write value.natAbs else write value.natAbs

theorem isNumeral_write (value : Nat) : IsNumeral (write value) value where
  nonempty := Nat.toDigits_ne_nil
  only _ member := Nat.isDigit_of_mem_toDigits (Nat.succ_pos 9) (Nat.le_refl 10) member
  denotes := Nat.ofDigitChars_ten_toDigits

theorem isUnsigned_write (value : Nat) : IsUnsigned (write value) value :=
  ⟨_, Or.inl rfl, isNumeral_write value⟩

theorem isSigned_writeSigned (value : Int) : IsSigned (writeSigned value) value := by
  use value.natAbs
  unfold writeSigned
  split
  · right
    exact ⟨⟨_, rfl, isNumeral_write _⟩, by omega⟩
  · left
    exact ⟨isUnsigned_write _, by omega⟩

end StreamGraph.Decimal
