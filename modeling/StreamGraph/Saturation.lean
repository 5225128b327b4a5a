/-!
64-bit arithmetic that stops at the ends of its range. Weights and timestamps are added and
compared in the signed one, so no sum ever changes its sign by wrapping; products and sums of
vertex numbers stop at the greatest unsigned word. Where words are added without such care, there
is no sum beyond the greatest word.
-/

namespace StreamGraph.Saturation

def least : Int := -9223372036854775808

def greatest : Int := 9223372036854775807

/-- The word nearest to an integer. -/
def clamp (value : Int) : Int64 := Int64.ofInt (max least (min greatest value))

/-- The sum of two words, stopped at the ends of the range. -/
def add (left right : Int64) : Int64 := clamp (left.toInt + right.toInt)

def sub (left right : Int64) : Int64 := clamp (left.toInt - right.toInt)

/-- The distance of a word from zero; the least word has the greatest word as its distance. -/
def abs (value : Int64) : Int64 := clamp value.toInt.natAbs

/-- The unsigned word nearest to a number. -/
def clampUnsigned (value : Nat) : UInt64 := UInt64.ofNat (min value (UInt64.size - 1))

/-- The sum of two unsigned words, unless it is beyond the greatest. -/
def addChecked (left right : UInt64) : Option UInt64 :=
  if left.toNat + right.toNat < UInt64.size then some (left + right) else none

theorem addChecked_eq_some_iff {left right total : UInt64} :
    addChecked left right = some total ↔ total.toNat = left.toNat + right.toNat := by
  have below := total.toNat_lt_size
  unfold addChecked
  split
  · next fits =>
      rw [Option.some.injEq, ← UInt64.toNat_inj, UInt64.toNat_add, Nat.mod_eq_of_lt fits, eq_comm]
  · next beyond =>
      constructor
      · intro same
        cases same
      · omega

theorem toNat_clampUnsigned (value : Nat) :
    (clampUnsigned value).toNat = min value (UInt64.size - 1) := by
  apply UInt64.toNat_ofNat_of_lt'
  simp only [UInt64.size]
  omega

theorem least_le_toInt (word : Int64) : least ≤ word.toInt := Int64.le_toInt word

theorem toInt_le_greatest (word : Int64) : word.toInt ≤ greatest := by
  have bound := Int64.toInt_lt word
  simp only [greatest]
  omega

/-- Clamping keeps an integer that is a word already and moves any other to the nearer end. -/
theorem toInt_clamp (value : Int) :
    (clamp value).toInt = max least (min greatest value) := by
  apply Int64.toInt_ofInt_of_le <;> simp only [least, greatest] <;> omega

theorem toInt_add (left right : Int64) :
    (add left right).toInt = max least (min greatest (left.toInt + right.toInt)) :=
  toInt_clamp _

theorem toInt_sub (left right : Int64) :
    (sub left right).toInt = max least (min greatest (left.toInt - right.toInt)) :=
  toInt_clamp _

theorem toInt_max (left right : Int64) : (max left right).toInt = max left.toInt right.toInt := by
  change (if left ≤ right then right else left).toInt = _
  rw [apply_ite Int64.toInt, Int.max_def]
  simp only [Int64.le_iff_toInt_le]

/-- The greater of two words is one of them, and above both. -/
instance lawfulOrderMax_int64 : Std.LawfulOrderMax Int64 where
  max_eq_or left right := by
    by_cases before : left ≤ right
    · exact Or.inr (if_pos before)
    · exact Or.inl (if_neg before)
  max_le_iff left right word := by
    change (if left ≤ right then right else left) ≤ word ↔ _
    simp only [Int64.le_iff_toInt_le]
    split <;> omega

/-- The newest of some words is one of them, and none is newer. -/
theorem foldl_max_spec (start : Int64) (words : List Int64) :
    words.foldl max start ∈ start :: words ∧
      ∀ word ∈ start :: words, word ≤ words.foldl max start :=
  List.max?_eq_some_iff.1 List.max?_cons'

/-- Below the least word to begin with, the newest of some words is one of them. -/
theorem foldl_max_minValue_spec {words : List Int64} (nonempty : words ≠ []) :
    words.foldl max Int64.minValue ∈ words ∧
      ∀ word ∈ words, word ≤ words.foldl max Int64.minValue := by
  cases words with
  | nil => exact absurd rfl nonempty
  | cons first others =>
      have isFirst : max Int64.minValue first = first := if_pos (Int64.minValue_le first)
      rw [List.foldl_cons, isFirst]
      exact foldl_max_spec first others

end StreamGraph.Saturation
