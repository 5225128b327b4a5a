import StreamGraph.Vertex

/-!
Finite maps from vertices, kept as lists of entries with ascending keys. Two maps with the same
answers are the same map (`VertexMap.ext_get?`), so a law about look-ups is a law about maps.
-/

namespace StreamGraph

/-- A finite map from vertices; the entries stand in ascending order of their keys. -/
structure VertexMap (Value : Type) where
  toList : List (VertexId × Value)
  sorted : toList.Pairwise fun left right => left.1 < right.1

namespace VertexMap

variable {Value : Type}

def lookup (key : VertexId) : List (VertexId × Value) → Option Value
  | [] => none
  | (other, value) :: rest => if key = other then some value else lookup key rest

/-- Puts an entry at its place in a list of entries, over an entry of the same key. -/
def place (key : VertexId) (value : Value) :
    List (VertexId × Value) → List (VertexId × Value)
  | [] => [(key, value)]
  | (other, previous) :: rest =>
      if key < other then (key, value) :: (other, previous) :: rest
      else if key = other then (key, value) :: rest
      else (other, previous) :: place key value rest

def drop (key : VertexId) (entries : List (VertexId × Value)) : List (VertexId × Value) :=
  entries.filter fun entry => entry.1 ≠ key

theorem mem_place {key : VertexId} {value : Value} {entry : VertexId × Value}
    {entries : List (VertexId × Value)} (member : entry ∈ place key value entries) :
    entry = (key, value) ∨ entry ∈ entries := by
  induction entries with
  | nil => simpa [place] using member
  | cons head rest ih =>
      obtain ⟨other, previous⟩ := head
      simp only [place] at member
      split at member
      · simpa using member
      · split at member
        · simp only [List.mem_cons] at member ⊢
          exact member.elim Or.inl fun inRest => Or.inr (Or.inr inRest)
        · simp only [List.mem_cons] at member ⊢
          rcases member with same | inRest
          · exact Or.inr (Or.inl same)
          · exact (ih inRest).elim Or.inl fun old => Or.inr (Or.inr old)

theorem sorted_place (key : VertexId) (value : Value) {entries : List (VertexId × Value)}
    (sorted : entries.Pairwise fun left right => left.1 < right.1) :
    (place key value entries).Pairwise fun left right => left.1 < right.1 := by
  induction entries with
  | nil => simp [place]
  | cons head rest ih =>
      obtain ⟨other, previous⟩ := head
      rw [List.pairwise_cons] at sorted
      simp only [place]
      split
      · next before =>
          refine List.pairwise_cons.2 ⟨fun entry member => ?_, List.pairwise_cons.2 sorted⟩
          rcases List.mem_cons.1 member with same | inRest
          · simpa [same] using before
          · have after := sorted.1 entry inRest
            grind
      · split
        · next same => exact List.pairwise_cons.2 ⟨by simpa [same] using sorted.1, sorted.2⟩
        · next notBefore different =>
            refine List.pairwise_cons.2 ⟨fun entry member => ?_, ih sorted.2⟩
            rcases mem_place member with same | inRest
            · subst same
              grind
            · exact sorted.1 entry inRest

def empty : VertexMap Value := ⟨[], List.Pairwise.nil⟩

instance : Inhabited (VertexMap Value) := ⟨empty⟩

def get? (map : VertexMap Value) (key : VertexId) : Option Value := lookup key map.toList

def insert (map : VertexMap Value) (key : VertexId) (value : Value) : VertexMap Value :=
  ⟨place key value map.toList, sorted_place key value map.sorted⟩

def erase (map : VertexMap Value) (key : VertexId) : VertexMap Value :=
  ⟨drop key map.toList, map.sorted.sublist (List.filter_sublist)⟩

def filter (map : VertexMap Value) (keep : VertexId → Value → Bool) : VertexMap Value :=
  ⟨map.toList.filter fun entry => keep entry.1 entry.2,
    map.sorted.sublist (List.filter_sublist)⟩

/-- Changes every value and drops the entries whose value vanishes. -/
def filterMap {Result : Type} (map : VertexMap Value)
    (change : VertexId → Value → Option Result) : VertexMap Result where
  toList := map.toList.filterMap fun entry =>
    (change entry.1 entry.2).map fun result => (entry.1, result)
  sorted := by
    refine List.Pairwise.filterMap _ (fun left right before left' hl right' hr => ?_) map.sorted
    simp only [Option.map_eq_some_iff] at hl hr
    obtain ⟨_, _, rfl⟩ := hl
    obtain ⟨_, _, rfl⟩ := hr
    exact before

def size (map : VertexMap Value) : Nat := map.toList.length

def isEmpty (map : VertexMap Value) : Bool := map.toList.isEmpty

@[simp] theorem get?_empty (key : VertexId) : (empty : VertexMap Value).get? key = none := rfl

theorem lookup_place (key other : VertexId) (value : Value)
    (entries : List (VertexId × Value)) :
    lookup other (place key value entries) =
      if other = key then some value else lookup other entries := by
  induction entries with
  | nil => simp [place, lookup]
  | cons head rest ih =>
      obtain ⟨first, previous⟩ := head
      simp only [place]
      split
      · simp only [lookup]
      · split <;> simp only [lookup] <;> grind

theorem lookup_drop (key other : VertexId) (entries : List (VertexId × Value)) :
    lookup other (drop key entries) =
      if other = key then none else lookup other entries := by
  induction entries with
  | nil => simp [drop, lookup]
  | cons head rest ih =>
      obtain ⟨first, value⟩ := head
      simp only [drop, List.filter_cons] at ih ⊢
      split <;> simp only [lookup] <;> grind

theorem get?_insert (map : VertexMap Value) (key other : VertexId) (value : Value) :
    (map.insert key value).get? other = if other = key then some value else map.get? other :=
  lookup_place key other value map.toList

theorem get?_erase (map : VertexMap Value) (key other : VertexId) :
    (map.erase key).get? other = if other = key then none else map.get? other :=
  lookup_drop key other map.toList

theorem lookup_eq_some_iff {key : VertexId} {value : Value}
    {entries : List (VertexId × Value)}
    (sorted : entries.Pairwise fun left right => left.1 < right.1) :
    lookup key entries = some value ↔ (key, value) ∈ entries := by
  induction entries with
  | nil => simp [lookup]
  | cons head rest ih =>
      obtain ⟨other, first⟩ := head
      rw [List.pairwise_cons] at sorted
      have later := ih sorted.2
      simp only [lookup, List.mem_cons, Prod.mk.injEq]
      split
      · next same =>
          subst same
          constructor
          · intro found
            exact Or.inl ⟨rfl, (Option.some.inj found).symm⟩
          · rintro (⟨_, rfl⟩ | inRest)
            · rfl
            · exact absurd (sorted.1 _ inRest) (by simp)
      · next different => simp [later, different]

theorem get?_eq_some_iff (map : VertexMap Value) (key : VertexId) (value : Value) :
    map.get? key = some value ↔ (key, value) ∈ map.toList :=
  lookup_eq_some_iff map.sorted

/-- Maps with the same answers are equal. -/
theorem ext_get? {left right : VertexMap Value}
    (same : ∀ key, left.get? key = right.get? key) : left = right := by
  obtain ⟨entries, sorted⟩ := left
  obtain ⟨others, sorted'⟩ := right
  suffices entries = others by subst this; rfl
  have members : ∀ entry, entry ∈ entries ↔ entry ∈ others := fun ⟨key, value⟩ => by
    have answer := same key
    simp only [get?] at answer
    rw [← lookup_eq_some_iff sorted, ← lookup_eq_some_iff sorted', answer]
  have same : entries.Perm others := by
    refine (List.perm_ext_iff_of_nodup ?_ ?_).2 members
    · exact sorted.imp fun before => by grind
    · exact sorted'.imp fun before => by grind
  exact List.Perm.eq_of_pairwise (fun _ _ _ _ before after => by grind) sorted sorted' same

end VertexMap

end StreamGraph
