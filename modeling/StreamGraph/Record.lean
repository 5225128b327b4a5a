import StreamGraph.Edge

/-!
Records as bytes. Every record that travels between ranks or stands in a packed file is a fixed
number of 64-bit words, each written with its low byte first. A lawful record and its bytes
determine each other (`decodeMany_encodeMany`, `encodeMany_decodeMany`).
-/

namespace StreamGraph

abbrev Bytes := List UInt8

namespace LittleEndian

/-- The low bytes of a number, the lowest first. -/
def digits : Nat → Nat → Bytes
  | 0, _ => []
  | width + 1, number => UInt8.ofNat (number % 256) :: digits width (number / 256)

/-- The number whose bytes these are, the lowest first. -/
def number : Bytes → Nat
  | [] => 0
  | byte :: rest => byte.toNat + 256 * number rest

def encode (word : UInt64) : Bytes := digits 8 word.toNat

def decode (bytes : Bytes) : UInt64 := UInt64.ofNat (number bytes)

@[simp] theorem length_digits (width value : Nat) : (digits width value).length = width := by
  induction width generalizing value with
  | zero => rfl
  | succ width ih => simp [digits, ih]

/-- How many numbers fit into some bytes. -/
def capacity : Nat → Nat
  | 0 => 1
  | width + 1 => 256 * capacity width

theorem number_digits (width value : Nat) :
    number (digits width value) = value % capacity width := by
  induction width generalizing value with
  | zero => simp [digits, number, capacity, Nat.mod_one]
  | succ width ih =>
      have split : value % capacity (width + 1) =
          value % 256 + 256 * (value / 256 % capacity width) := by
        rw [capacity, Nat.mod_mul]
      have low : value % 256 % 256 = value % 256 := Nat.mod_mod _ _
      simp only [digits, number, ih, UInt8.toNat_ofNat', split]
      omega

theorem number_lt (bytes : Bytes) : number bytes < capacity bytes.length := by
  induction bytes with
  | nil => simp [number, capacity]
  | cons byte rest ih =>
      have low := byte.toNat_lt
      simp only [number, List.length_cons, capacity]
      omega

theorem digits_number (bytes : Bytes) : digits bytes.length (number bytes) = bytes := by
  induction bytes with
  | nil => rfl
  | cons byte rest ih =>
      have low := byte.toNat_lt
      have residue : (byte.toNat + 256 * number rest) % 256 = byte.toNat := by omega
      have quotient : (byte.toNat + 256 * number rest) / 256 = number rest := by omega
      simp only [List.length_cons, digits, number, residue, quotient, ih, UInt8.ofNat_toNat]

@[simp] theorem length_encode (word : UInt64) : (encode word).length = 8 := length_digits _ _

@[simp] theorem decode_encode (word : UInt64) : decode (encode word) = word := by
  have small : word.toNat < capacity 8 := word.toNat_lt_size
  rw [decode, encode, number_digits, Nat.mod_eq_of_lt small, UInt64.ofNat_toNat]

theorem encode_decode {bytes : Bytes} (full : bytes.length = 8) :
    encode (decode bytes) = bytes := by
  have small : number bytes < UInt64.size := by
    have fits := number_lt bytes
    rw [full] at fits
    exact fits
  rw [encode, decode, UInt64.toNat_ofNat_of_lt' small, ← full, digits_number]

theorem number_eq_zero_iff (bytes : Bytes) : number bytes = 0 ↔ ∀ byte ∈ bytes, byte = 0 := by
  induction bytes with
  | nil => simp [number]
  | cons byte rest ih =>
      have low : byte.toNat = 0 ↔ byte = 0 := by rw [← UInt8.toNat_inj, UInt8.toNat_zero]
      rw [number, List.forall_mem_cons, ← ih, ← low]
      omega

/-- A word is zero when all its bytes are. -/
theorem decode_eq_zero_iff {bytes : Bytes} (full : bytes.length = 8) :
    decode bytes = 0 ↔ ∀ byte ∈ bytes, byte = 0 := by
  have small : number bytes < UInt64.size := by
    have fits := number_lt bytes
    rw [full] at fits
    exact fits
  rw [← number_eq_zero_iff, decode, ← UInt64.toNat_inj, UInt64.toNat_ofNat_of_lt' small]
  rfl

end LittleEndian

/-- A kind of record: a fixed number of 64-bit words. -/
class Record (Value : Type) where
  width : Nat
  toWords : Value → List UInt64
  ofWords : List UInt64 → Value

/-- A kind of record in which every value takes the announced number of words. -/
class SizedRecord (Value : Type) [Record Value] : Prop where
  length_toWords (value : Value) : (Record.toWords value).length = Record.width Value
  width_pos : 0 < Record.width Value
  /-- The bytes of a value can be counted by a word. -/
  width_lt : 8 * Record.width Value < UInt64.size

/-- A kind of record in which values and words determine each other. -/
class LawfulRecord (Value : Type) [Record Value] : Prop extends SizedRecord Value where
  ofWords_toWords (value : Value) : Record.ofWords (Record.toWords value) = value
  toWords_ofWords (words : List UInt64) (full : words.length = Record.width Value) :
    Record.toWords (Record.ofWords words : Value) = words

namespace Record

def size (Value : Type) [Record Value] : Nat := 8 * width Value

def readWords : Nat → Bytes → List UInt64
  | 0, _ => []
  | count + 1, bytes => LittleEndian.decode (bytes.take 8) :: readWords count (bytes.drop 8)

variable {Value : Type} [Record Value]

def encode (value : Value) : Bytes := (toWords value).flatMap LittleEndian.encode

def decode (bytes : Bytes) : Value := ofWords (readWords (width Value) bytes)

def encodeMany (values : List Value) : Bytes := values.flatMap encode

def decodeMany : Nat → Bytes → List Value
  | 0, _ => []
  | count + 1, bytes => decode (bytes.take (size Value)) ::
      decodeMany count (bytes.drop (size Value))

@[simp] theorem length_decodeMany (count : Nat) (bytes : Bytes) :
    (decodeMany count bytes : List Value).length = count := by
  induction count generalizing bytes with
  | zero => rfl
  | succ count ih => rw [decodeMany, List.length_cons, ih]

/-- Each record is read from its own bytes. -/
theorem getElem?_decodeMany {count index : Nat} (inside : index < count) (bytes : Bytes) :
    (decodeMany count bytes : List Value)[index]? =
      some (decode ((bytes.drop (size Value * index)).take (size Value))) := by
  induction count generalizing index bytes with
  | zero => exact absurd inside (Nat.not_lt_zero _)
  | succ count ih =>
      cases index with
      | zero => rfl
      | succ index =>
          rw [decodeMany, List.getElem?_cons_succ, ih (Nat.lt_of_succ_lt_succ inside),
            List.drop_drop, Nat.mul_succ, Nat.add_comm]

/-- In pieces of one width, each byte is found by its piece and its place in it. -/
theorem getElem?_flatMap {Entry : Type} {bytesOf : Entry → Bytes} {width : Nat}
    (even : ∀ entry, (bytesOf entry).length = width) {entries : List Entry} {entry : Entry}
    {index place : Nat} (found : entries[index]? = some entry) (inside : place < width) :
    (entries.flatMap bytesOf)[width * index + place]? = (bytesOf entry)[place]? := by
  induction entries generalizing index with
  | nil => cases found
  | cons first others ih =>
      have length := even first
      rw [List.flatMap_cons]
      cases index with
      | zero =>
          cases found
          rw [Nat.mul_zero, Nat.zero_add, List.getElem?_append_left (by omega)]
      | succ index =>
          have shift : width * (index + 1) + place - width = width * index + place := by
            rw [Nat.mul_succ]
            omega
          rw [List.getElem?_append_right (by rw [Nat.mul_succ]; omega), length, shift, ih found]

theorem length_flatMap_encode (words : List UInt64) :
    (words.flatMap LittleEndian.encode).length = 8 * words.length := by
  induction words with
  | nil => rfl
  | cons word words ih => simp [ih, Nat.mul_add, Nat.add_comm]

theorem readWords_flatMap (words : List UInt64) (rest : Bytes) :
    readWords words.length (words.flatMap LittleEndian.encode ++ rest) = words := by
  induction words with
  | nil => rfl
  | cons word words ih =>
      have front : (LittleEndian.encode word).length = 8 := LittleEndian.length_encode word
      simp [readWords, List.append_assoc, front, ih]

theorem flatMap_readWords (count : Nat) (bytes : Bytes) (full : bytes.length = 8 * count) :
    (readWords count bytes).flatMap LittleEndian.encode = bytes := by
  induction count generalizing bytes with
  | zero => simp_all [readWords]
  | succ count ih =>
      have front : (bytes.take 8).length = 8 := by simp; omega
      rw [readWords, List.flatMap_cons, LittleEndian.encode_decode front,
        ih _ (by simp; omega), List.take_append_drop]

@[simp] theorem length_readWords (count : Nat) (bytes : Bytes) :
    (readWords count bytes).length = count := by
  induction count generalizing bytes with
  | zero => rfl
  | succ count ih => simp [readWords, ih]

/-- What arrives when a value travels. -/
def carried (value : Value) : Value := ofWords (toWords value)

section Sized

variable [SizedRecord Value]

theorem length_encode (value : Value) : (encode value).length = size Value := by
  rw [encode, length_flatMap_encode, SizedRecord.length_toWords, size]

theorem length_encodeMany (values : List Value) :
    (encodeMany values).length = values.length * size Value := by
  induction values with
  | nil => simp [encodeMany]
  | cons value values ih =>
      rw [encodeMany, List.flatMap_cons, List.length_append, ← encodeMany, ih, length_encode,
        List.length_cons, Nat.succ_mul, Nat.add_comm]

theorem decode_encode_append_carried (value : Value) (rest : Bytes) :
    decode (encode value ++ rest) = carried value := by
  rw [decode, encode, ← SizedRecord.length_toWords value, readWords_flatMap, carried]

/-- The bytes of a list of records give back what arrives of each of them. -/
theorem decodeMany_encodeMany_carried (values : List Value) :
    decodeMany values.length (encodeMany values) = values.map carried := by
  induction values with
  | nil => rfl
  | cons value values ih =>
      have front := length_encode value
      rw [encodeMany, List.flatMap_cons, ← encodeMany, List.length_cons, decodeMany,
        List.take_append_of_le_length (by omega), List.take_of_length_le (by omega),
        ← List.append_nil (encode value), decode_encode_append_carried, List.append_nil,
        ← front, List.drop_left, ih, List.map_cons]

end Sized

variable [LawfulRecord Value]

/-- A lawful record arrives as it was sent. -/
@[simp] theorem carried_eq_id : (carried : Value → Value) = id :=
  funext LawfulRecord.ofWords_toWords

/-- The bytes of a record give it back, whatever comes after them. -/
theorem decode_encode_append (value : Value) (rest : Bytes) :
    decode (encode value ++ rest) = value := by
  rw [decode_encode_append_carried, carried_eq_id, id]

theorem encode_decode {bytes : Bytes} (full : bytes.length = size Value) :
    encode (decode bytes : Value) = bytes := by
  rw [encode, decode, LawfulRecord.toWords_ofWords _ (length_readWords _ _)]
  exact flatMap_readWords _ _ full

/-- The bytes of a list of records give it back. -/
theorem decodeMany_encodeMany (values : List Value) :
    decodeMany values.length (encodeMany values) = values := by
  rw [decodeMany_encodeMany_carried, carried_eq_id, List.map_id]

/-- Bytes that fill whole records are the bytes of these records. -/
theorem encodeMany_decodeMany (count : Nat) {bytes : Bytes}
    (full : bytes.length = count * size Value) :
    encodeMany (decodeMany count bytes : List Value) = bytes := by
  induction count generalizing bytes with
  | zero => simp_all [decodeMany, encodeMany]
  | succ count ih =>
      rw [Nat.succ_mul] at full
      rw [decodeMany, encodeMany, List.flatMap_cons, ← encodeMany,
        encode_decode (by rw [List.length_take]; omega),
        ih (by rw [List.length_drop]; omega), List.take_append_drop]

end Record

instance : Record UInt64 where
  width := 1
  toWords word := [word]
  ofWords words := words.headD 0

instance : Record Int64 where
  width := 1
  toWords word := [word.toUInt64]
  ofWords words := (words.headD 0).toInt64

instance : Record Float where
  width := 1
  toWords value := [value.toBits]
  ofWords words := Float.ofBits (words.headD 0)

instance : SizedRecord Float where
  length_toWords _ := rfl
  width_pos := by decide
  width_lt := by decide

instance : Record Edge where
  width := 4
  toWords edge := [edge.src, edge.dst, edge.weight.toUInt64, edge.timestamp.toUInt64]
  ofWords words := match words with
    | [src, dst, weight, timestamp] => ⟨src, dst, weight.toInt64, timestamp.toInt64⟩
    | _ => default

/-- A vertex and its number of outgoing edges, as it travels. -/
structure VertexDegree where
  vertex : VertexId
  degree : UInt64
  deriving DecidableEq, Inhabited

instance : Record VertexDegree where
  width := 2
  toWords entry := [entry.vertex, entry.degree]
  ofWords words := match words with
    | [vertex, degree] => ⟨vertex, degree⟩
    | _ => default

/-- A value proposed for a vertex, as it travels. -/
structure Proposal where
  vertex : VertexId
  value : Int64
  deriving DecidableEq, Inhabited

instance : Record Proposal where
  width := 2
  toWords entry := [entry.vertex, entry.value.toUInt64]
  ofWords words := match words with
    | [vertex, value] => ⟨vertex, value.toInt64⟩
    | _ => default

instance : LawfulRecord UInt64 where
  length_toWords _ := rfl
  width_pos := by decide
  width_lt := by decide
  ofWords_toWords _ := rfl
  toWords_ofWords words full := by
    match words, full with
    | [word], _ => rfl

instance : LawfulRecord Int64 where
  length_toWords _ := rfl
  width_pos := by decide
  width_lt := by decide
  ofWords_toWords _ := rfl
  toWords_ofWords words full := by
    match words, full with
    | [word], _ => rfl

instance : LawfulRecord Edge where
  length_toWords _ := rfl
  width_pos := by decide
  width_lt := by decide
  ofWords_toWords _ := rfl
  toWords_ofWords words full := by
    match words, full with
    | [_, _, _, _], _ => rfl

instance : LawfulRecord VertexDegree where
  length_toWords _ := rfl
  width_pos := by decide
  width_lt := by decide
  ofWords_toWords _ := rfl
  toWords_ofWords words full := by
    match words, full with
    | [_, _], _ => rfl

instance : LawfulRecord Proposal where
  length_toWords _ := rfl
  width_pos := by decide
  width_lt := by decide
  ofWords_toWords _ := rfl
  toWords_ofWords words full := by
    match words, full with
    | [_, _], _ => rfl

end StreamGraph
