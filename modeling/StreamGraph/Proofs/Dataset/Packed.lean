import StreamGraph.Dataset.File
import StreamGraph.Proofs.Dataset.Distribution
import StreamGraph.Proofs.Dataset.Grammar

/-!
Packed streams and their bytes. Reading takes exactly what writing gives for edges between vertices
other than zero, so such streams and the byte strings that can be read determine each other. Of any
other bytes the length is judged first, and then the first record with an end of eight zero bytes.
A stream that was loaded from any file can therefore be packed and loaded again without loss.
-/

namespace StreamGraph.Dataset

namespace Packed

theorem checkFrom_eq_ok_iff (number : Nat) (edges : List Edge) :
    checkFrom number edges = .ok () ↔ ∀ edge ∈ edges, Usable edge := by
  induction edges generalizing number with
  | nil => exact iff_of_true rfl (List.forall_mem_nil _)
  | cons edge edges ih =>
      rw [checkFrom, List.forall_mem_cons]
      by_cases usable : Usable edge
      · rw [if_neg fun zero => (not_usable_iff edge).2 zero usable, ih]
        exact (and_iff_right usable).symm
      · rw [if_pos ((not_usable_iff edge).1 usable)]
        constructor
        · intro passed
          cases passed
        · intro all
          exact absurd all.1 usable

/-- The first record with an end at vertex zero is the one that is reported. -/
theorem checkFrom_of_first {front : List Edge} {edge : Edge}
    (before : ∀ earlier ∈ front, Usable earlier) (bad : ¬ Usable edge) (number : Nat)
    (rest : List Edge) :
    checkFrom number (front ++ edge :: rest) =
      .error (.malformed (number + front.length) .reservedVertex) := by
  induction front generalizing number with
  | nil =>
      rw [List.nil_append, checkFrom, if_pos ((not_usable_iff edge).1 bad)]
      rfl
  | cons earlier front ih =>
      rw [List.forall_mem_cons] at before
      rw [List.cons_append, checkFrom,
        if_neg fun zero => (not_usable_iff earlier).2 zero before.1, ih before.2,
        List.length_cons, Nat.add_right_comm, Nat.add_assoc]

theorem read_of_partial {bytes : Bytes} (ragged : bytes.length % 32 ≠ 0) :
    read bytes = .error (.malformed (bytes.length / 32 + 1) (.partialRecord bytes.length 32)) := by
  change (if bytes.length % 32 ≠ 0 then _ else _) = _
  rw [if_pos ragged]
  rfl

theorem read_of_whole {bytes : Bytes} (whole : bytes.length % 32 = 0) :
    read bytes = (checkFrom 1 (Record.decodeMany (bytes.length / 32) bytes)).map
      fun _ => Record.decodeMany (bytes.length / 32) bytes := by
  change (if bytes.length % 32 ≠ 0 then _ else _) = _
  rw [if_neg (not_not.2 whole)]
  change (checkFrom 1 (Record.decodeMany (bytes.length / 32) bytes) >>= _) = _
  cases checkFrom 1 (Record.decodeMany (bytes.length / 32) bytes) <;> rfl

theorem length_write (edges : List Edge) : (write edges).length = edges.length * 32 :=
  Record.length_encodeMany edges

section Layout

/-- The fields of an edge as numbers of eight bytes; a negative one is taken modulo 2 ^ 64. -/
def numbers (edge : Edge) : List Nat :=
  [edge.src.toNat, edge.dst.toNat, (edge.weight.toInt % 2 ^ 64).toNat,
    (edge.timestamp.toInt % 2 ^ 64).toNat]

theorem toNat_toUInt64 (word : Int64) : word.toUInt64.toNat = (word.toInt % 2 ^ 64).toNat := by
  change word.toBitVec.toNat = (word.toBitVec.toInt % 2 ^ 64).toNat
  have small := word.toBitVec.isLt
  rw [BitVec.toInt_eq_toNat_bmod]
  have residue := Int.bmod_emod (x := word.toBitVec.toNat) (m := 2 ^ 64)
  omega

theorem numbers_eq (edge : Edge) : numbers edge = (Record.toWords edge).map UInt64.toNat := by
  change _ = [edge.src.toNat, edge.dst.toNat, edge.weight.toUInt64.toNat,
    edge.timestamp.toUInt64.toNat]
  rw [toNat_toUInt64, toNat_toUInt64, numbers]

/-- Each byte of a number by its place, the lowest first. -/
theorem getElem?_digits {width place : Nat} (inside : place < width) (value : Nat) :
    (LittleEndian.digits width value)[place]? = some (UInt8.ofNat (value / 256 ^ place)) := by
  induction width generalizing value place with
  | zero => exact absurd inside (Nat.not_lt_zero _)
  | succ width ih =>
      cases place with
      | zero =>
          have low : UInt8.ofNat (value % 256) = UInt8.ofNat value := UInt8.ofNat_mod_size
          rw [LittleEndian.digits, List.getElem?_cons_zero, low, Nat.pow_zero, Nat.div_one]
      | succ place =>
          rw [LittleEndian.digits, List.getElem?_cons_succ, ih (Nat.lt_of_succ_lt_succ inside),
            Nat.div_div_eq_div_mul, Nat.pow_succ']

/-- A file is a row of records of 32 bytes, and a record is four numbers, the low bytes first. -/
theorem getElem?_write {edges : List Edge} {edge : Edge} {index field number place : Nat}
    (record : edges[index]? = some edge) (word : (numbers edge)[field]? = some number)
    (inside : place < 8) :
    (write edges)[32 * index + (8 * field + place)]? =
      some (UInt8.ofNat (number / 256 ^ place)) := by
  rw [numbers_eq, List.getElem?_map, Option.map_eq_some_iff] at word
  rcases word with ⟨word, found, rfl⟩
  have fields : field < 4 := (List.getElem?_eq_some_iff.1 found).1
  have inRecord : 8 * field + place < Record.size Edge := by
    change 8 * field + place < 32
    omega
  have ofRecord := Record.getElem?_flatMap Record.length_encode record inRecord
  have ofWord := Record.getElem?_flatMap LittleEndian.length_encode found inside
  exact (ofRecord.trans ofWord).trans (getElem?_digits inside _)

end Layout

/-- Exactly the written bytes of usable edges are read as these edges. -/
theorem read_eq_ok_iff (bytes : Bytes) (edges : List Edge) :
    read bytes = .ok edges ↔ (∀ edge ∈ edges, Usable edge) ∧ write edges = bytes := by
  constructor
  · intro found
    by_cases whole : bytes.length % 32 = 0
    · rw [read_of_whole whole] at found
      cases checked : checkFrom 1 (Record.decodeMany (bytes.length / 32) bytes) with
      | error failure =>
          rw [checked] at found
          cases found
      | ok passed =>
          rw [checked] at found
          cases found
          have full : bytes.length = bytes.length / 32 * Record.size Edge :=
            (Nat.div_mul_cancel (Nat.dvd_of_mod_eq_zero whole)).symm
          exact ⟨(checkFrom_eq_ok_iff 1 _).1 checked, Record.encodeMany_decodeMany _ full⟩
    · rw [read_of_partial whole] at found
      cases found
  · intro written
    rcases written with ⟨usable, rfl⟩
    have length := length_write edges
    have whole : (write edges).length % 32 = 0 := by omega
    have count : (write edges).length / 32 = edges.length := by omega
    have decoded : Record.decodeMany edges.length (write edges) = edges :=
      Record.decodeMany_encodeMany edges
    rw [read_of_whole whole, count, decoded, (checkFrom_eq_ok_iff 1 edges).2 usable]
    rfl

/-- An end of the record at a position is written with zero bytes only. -/
def HasReservedEnd (bytes : Bytes) (index : Nat) : Prop :=
  (∀ byte ∈ (bytes.drop (32 * index)).take 8, byte = 0) ∨
    ∀ byte ∈ (bytes.drop (32 * index + 8)).take 8, byte = 0

section Records

variable {bytes : Bytes} {index : Nat}

theorem hasReservedEnd_iff (inside : index < bytes.length / 32) :
    ∃ edge, (Record.decodeMany (bytes.length / 32) bytes)[index]? = some edge ∧
      (HasReservedEnd bytes index ↔ ¬ Usable edge) := by
  refine ⟨_, Record.getElem?_decodeMany inside bytes, ?_⟩
  have src : (Record.decode ((bytes.drop (32 * index)).take 32) : Edge).src =
      LittleEndian.decode ((bytes.drop (32 * index)).take 8) := by
    change LittleEndian.decode (((bytes.drop (32 * index)).take 32).take 8) = _
    rw [List.take_take]
    rfl
  have dst : (Record.decode ((bytes.drop (32 * index)).take 32) : Edge).dst =
      LittleEndian.decode ((bytes.drop (32 * index + 8)).take 8) := by
    change LittleEndian.decode ((((bytes.drop (32 * index)).take 32).drop 8).take 8) = _
    rw [List.drop_take, List.take_take, List.drop_drop]
    rfl
  have srcFull : ((bytes.drop (32 * index)).take 8).length = 8 := by
    rw [List.length_take, List.length_drop]
    omega
  have dstFull : ((bytes.drop (32 * index + 8)).take 8).length = 8 := by
    rw [List.length_take, List.length_drop]
    omega
  rw [not_usable_iff]
  change _ ↔ (Record.decode ((bytes.drop (32 * index)).take 32) : Edge).src = 0 ∨
    (Record.decode ((bytes.drop (32 * index)).take 32) : Edge).dst = 0
  rw [src, dst, LittleEndian.decode_eq_zero_iff srcFull, LittleEndian.decode_eq_zero_iff dstFull]
  rfl

theorem forall_usable_iff (bytes : Bytes) :
    (∀ edge ∈ (Record.decodeMany (bytes.length / 32) bytes : List Edge), Usable edge) ↔
      ∀ index < bytes.length / 32, ¬ HasReservedEnd bytes index := by
  constructor
  · intro usable index inside reserved
    rcases hasReservedEnd_iff inside with ⟨edge, found, same⟩
    exact same.1 reserved (usable edge (List.mem_of_getElem? found))
  · intro free edge member
    rcases List.getElem?_of_mem member with ⟨index, found⟩
    have inside : index < bytes.length / 32 := by
      rcases List.getElem?_eq_some_iff.1 found with ⟨inside, _⟩
      rwa [Record.length_decodeMany] at inside
    rcases hasReservedEnd_iff inside with ⟨other, also, same⟩
    rw [found] at also
    cases also
    by_contra bad
    exact free index inside (same.2 bad)

/-- Bytes that cannot be read are ragged, or an end in them is reserved. -/
theorem not_read_iff (bytes : Bytes) :
    (¬ ∃ edges, read bytes = .ok edges) ↔
      bytes.length % 32 ≠ 0 ∨ ∃ index < bytes.length / 32, HasReservedEnd bytes index := by
  by_cases whole : bytes.length % 32 = 0
  · have free := forall_usable_iff bytes
    rw [← checkFrom_eq_ok_iff 1] at free
    rw [read_of_whole whole]
    cases checked : checkFrom 1 (Record.decodeMany (bytes.length / 32) bytes) with
    | error failure =>
        rw [checked] at free
        have reserved := mt free.2 nofun
        simp only [not_forall, not_not, exists_prop] at reserved
        refine iff_of_true ?_ (Or.inr reserved)
        intro read
        rcases read with ⟨edges, same⟩
        cases same
    | ok passed =>
        have unreserved := free.1 checked
        refine iff_of_false (not_not.2 ⟨_, rfl⟩) ?_
        intro bad
        rcases bad with ragged | ⟨index, inside, reserved⟩
        · exact ragged whole
        · exact unreserved index inside reserved
  · refine iff_of_true ?_ (Or.inl whole)
    intro found
    rcases found with ⟨edges, found⟩
    rw [read_of_partial whole] at found
    cases found

theorem read_of_first_reserved (whole : bytes.length % 32 = 0)
    (inside : index < bytes.length / 32) (reserved : HasReservedEnd bytes index)
    (before : ∀ earlier < index, ¬ HasReservedEnd bytes earlier) :
    read bytes = .error (.malformed (index + 1) .reservedVertex) := by
  rcases hasReservedEnd_iff inside with ⟨edge, found, same⟩
  rcases List.getElem?_eq_some_iff.1 found with ⟨within, edgeThere⟩
  have split := List.take_append_drop index
    (Record.decodeMany (bytes.length / 32) bytes : List Edge)
  rw [List.drop_eq_getElem_cons within, edgeThere] at split
  have usable : ∀ earlier ∈ (Record.decodeMany (bytes.length / 32) bytes : List Edge).take index,
      Usable earlier := by
    intro earlier member
    rcases List.getElem?_of_mem member with ⟨place, also⟩
    have early : place < index := by
      rcases List.getElem?_eq_some_iff.1 also with ⟨short, _⟩
      rw [List.length_take] at short
      omega
    rw [List.getElem?_take_of_lt early] at also
    rcases hasReservedEnd_iff (early.trans inside) with ⟨other, there, alike⟩
    rw [also] at there
    cases there
    by_contra bad
    exact before place early (alike.2 bad)
  rw [read_of_whole whole, ← split, checkFrom_of_first usable (same.1 reserved), List.length_take,
    Record.length_decodeMany, Nat.min_eq_left inside.le, Nat.add_comm]
  rfl

end Records

end Packed

section Loading

theorem usable_of_readFile {path : String} {contents : Except IoFault Bytes} {edges : List Edge}
    (found : readFile path contents = .ok edges) : ∀ edge ∈ edges, Usable edge := by
  cases contents with
  | error fault => cases found
  | ok bytes =>
      change (if isPacked path then Packed.read bytes else Text.read bytes) = .ok edges at found
      split at found
      · exact ((Packed.read_eq_ok_iff bytes edges).1 found).1
      · exact Text.usable_of_readLines found

/-- A stream that was read from any file is read from its packed form. -/
theorem load_packed {path packed : String} {contents : Except IoFault Bytes} {count : Nat}
    {bound : Option UInt64} {dataset : Dataset} (isPacked : isPacked packed = true)
    (loaded : load path contents count bound = some (.ok dataset)) :
    load packed (.ok (Packed.write dataset.edges)) count bound = some (.ok dataset) := by
  unfold load at loaded
  cases found : readFile path contents with
  | error failure =>
      rw [found] at loaded
      cases loaded
  | ok edges =>
      rw [found] at loaded
      have same : dataset.edges = edges := (ofEdges_eq_ok loaded).2
      have again := (Packed.read_eq_ok_iff _ edges).2 ⟨usable_of_readFile found, rfl⟩
      have reread : readFile packed (.ok (Packed.write edges)) = .ok edges := by
        change (if Dataset.isPacked packed then _ else _) = _
        rw [if_pos isPacked, again]
      rw [same, load, reread]
      exact loaded

end Loading

/-- Packing loses nothing and adds nothing. What is written of usable edges is read back, and what
can be read is what would be written; the other byte strings are ragged or reserve an end, and the
first such record is named. Each byte of a file belongs to one field of one edge. -/
theorem packed_bytes_are_the_usable_streams :
    (∀ edges : List Edge, (∀ edge ∈ edges, Usable edge) →
      Packed.read (Packed.write edges) = .ok edges) ∧
    (∀ bytes edges, Packed.read bytes = .ok edges → (∀ edge ∈ edges, Usable edge) ∧
      ∀ dataset : Dataset, dataset.edges = edges → Packed.write dataset.edges = bytes) ∧
    (∀ bytes : Bytes, (¬ ∃ edges, Packed.read bytes = .ok edges) ↔
      bytes.length % 32 ≠ 0 ∨ ∃ index < bytes.length / 32, Packed.HasReservedEnd bytes index) ∧
    (∀ bytes : Bytes, bytes.length % 32 ≠ 0 → Packed.read bytes =
      .error (.malformed (bytes.length / 32 + 1) (.partialRecord bytes.length 32))) ∧
    (∀ (bytes : Bytes) (index : Nat), bytes.length % 32 = 0 → index < bytes.length / 32 →
      Packed.HasReservedEnd bytes index →
      (∀ earlier < index, ¬ Packed.HasReservedEnd bytes earlier) →
      Packed.read bytes = .error (.malformed (index + 1) .reservedVertex)) ∧
    (∀ edges : List Edge, (Packed.write edges).length = edges.length * 32) ∧
    (∀ (edges : List Edge) (edge : Edge) (index field number place : Nat),
      edges[index]? = some edge → (Packed.numbers edge)[field]? = some number → place < 8 →
      (Packed.write edges)[32 * index + (8 * field + place)]? =
        some (UInt8.ofNat (number / 256 ^ place))) ∧
    ∀ path packed contents count bound dataset, isPacked packed = true →
      load path contents count bound = some (.ok dataset) →
      load packed (.ok (Packed.write dataset.edges)) count bound = some (.ok dataset) := by
  refine ⟨?_, ?_, Packed.not_read_iff, ?_, ?_, Packed.length_write, ?_, ?_⟩
  · intro edges usable
    exact (Packed.read_eq_ok_iff _ _).2 ⟨usable, rfl⟩
  · intro bytes edges found
    rcases (Packed.read_eq_ok_iff _ _).1 found with ⟨usable, written⟩
    refine ⟨usable, ?_⟩
    intro dataset same
    rw [same, written]
  · intro bytes ragged
    exact Packed.read_of_partial ragged
  · intro bytes index whole inside reserved before
    exact Packed.read_of_first_reserved whole inside reserved before
  · intro edges edge index field number place record word inside
    exact Packed.getElem?_write record word inside
  · intro path packed contents count bound dataset isPacked loaded
    exact load_packed isPacked loaded

theorem one_edge_is_packed :
    Packed.read (Packed.write [⟨7, 1, -3, 9⟩]) = .ok [⟨7, 1, -3, 9⟩] ∧
    Packed.read (List.replicate 32 0) = .error (.malformed 1 .reservedVertex) := by
  have usable : ∀ edge ∈ [(⟨7, 1, -3, 9⟩ : Edge)], Usable edge := by
    intro edge member
    rw [List.mem_singleton.1 member]
    exact ⟨by decide, by decide⟩
  have reserved : Packed.HasReservedEnd (List.replicate 32 0) 0 := by
    left
    intro byte member
    exact List.eq_of_mem_replicate (List.mem_of_mem_drop (List.mem_of_mem_take member))
  have before : ∀ earlier < 0, ¬ Packed.HasReservedEnd (List.replicate 32 0) earlier :=
    fun earlier below => absurd below (Nat.not_lt_zero earlier)
  rcases packed_bytes_are_the_usable_streams with ⟨back, _, _, _, first, _⟩
  exact ⟨back _ usable, first _ 0 (by decide) (by decide) reserved before⟩

example : isPacked "streams/edges.bin" = true ∧ isPacked "streams/edges.txt" = false := by decide

end StreamGraph.Dataset
