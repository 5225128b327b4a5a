import StreamGraph.Record

/-!
Bytes as characters. Every well-formed sequence is one character, and a byte that begins none is
marked by `none`, after which reading goes on with the next byte. So a line break is always seen,
and a stretch of bytes is text exactly when no mark stands in it.
-/

namespace StreamGraph.Utf8

def first? (bytes : Bytes) : Option Char :=
  (bytes.take 4).toByteArray.utf8DecodeChar? 0

/-- The characters of a string of bytes, with a mark for each byte that belongs to none. -/
def decode : Bytes → List (Option Char)
  | [] => []
  | byte :: rest =>
      match first? (byte :: rest) with
      | none => none :: decode rest
      | some char => some char :: decode (rest.drop (char.utf8Size - 1))
termination_by bytes => bytes.length
decreasing_by all_goals simp only [List.length_cons, List.length_drop]; omega

def text? (bytes : Bytes) : Option (List Char) := (decode bytes).mapM id

def encode (text : List Char) : Bytes := text.flatMap String.utf8EncodeChar

theorem first_encode (char : Char) (rest : Bytes) :
    first? (String.utf8EncodeChar char ++ rest) = some char := by
  have short : (String.utf8EncodeChar char).length ≤ 4 := by
    rw [String.length_utf8EncodeChar]
    exact char.utf8Size_le_four
  rw [first?, List.take_append, List.take_of_length_le short, List.toByteArray_append]
  exact ByteArray.utf8DecodeChar?_utf8EncodeChar_append

/-- Written text is read back. -/
theorem decode_encode (text : List Char) : decode (encode text) = text.map some := by
  induction text with
  | nil => simp [encode, decode]
  | cons char text ih =>
      have found := first_encode char (encode text)
      have size : (String.utf8EncodeChar char).length = char.utf8Size :=
        String.length_utf8EncodeChar char
      have positive := char.utf8Size_pos
      rw [encode, List.flatMap_cons, ← encode]
      cases bytes : String.utf8EncodeChar char with
      | nil => simp [bytes] at size; omega
      | cons byte others =>
          rw [bytes, List.length_cons] at size
          rw [bytes, List.cons_append] at found
          have tail : (others ++ encode text).drop (char.utf8Size - 1) = encode text := by
            rw [← size, Nat.add_sub_cancel, List.drop_left]
          rw [List.cons_append, decode, found]
          simp only [tail, ih, List.map_cons]

end StreamGraph.Utf8
