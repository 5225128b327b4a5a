import StreamGraph.Saturation
import StreamGraph.Vertex

/-!
Edges as they are read, stored and changed. An edge of a data set carries a weight and a
timestamp; the stored edge accumulates the weights and keeps the newest timestamp of all
updates to its pair of endpoints.
-/

namespace StreamGraph

/-- The directed pair of endpoints that identifies a stored edge. -/
abbrev EdgeKey := VertexId × VertexId

structure Attrs where
  weight : Int64
  timestamp : Int64
  deriving DecidableEq, Inhabited

/-- Folds one update in: weights add up within the range of a word, the newer timestamp stays. -/
def Attrs.absorb (attrs : Attrs) (weight timestamp : Int64) : Attrs where
  weight := Saturation.add attrs.weight weight
  timestamp := max attrs.timestamp timestamp

/-- What an edge carries before its first update: no weight, and older than any timestamp. -/
def Attrs.fresh : Attrs := ⟨0, Int64.minValue⟩

structure Edge where
  src : VertexId
  dst : VertexId
  weight : Int64
  timestamp : Int64
  deriving DecidableEq, Inhabited

namespace Edge

def key (edge : Edge) : EdgeKey := (edge.src, edge.dst)

def attrs (edge : Edge) : Attrs := ⟨edge.weight, edge.timestamp⟩

def isWithin (edge : Edge) (bound : UInt64) : Bool :=
  edge.src.isEndpoint bound && edge.dst.isEndpoint bound

end Edge

namespace EdgeKey

def le (left right : EdgeKey) : Bool :=
  decide (left.1 < right.1) || (left.1 == right.1 && decide (left.2 ≤ right.2))

theorem le_iff (left right : EdgeKey) :
    EdgeKey.le left right = true ↔ left.1.toNat < right.1.toNat ∨
      left.1.toNat = right.1.toNat ∧ left.2.toNat ≤ right.2.toNat := by
  simp [EdgeKey.le, UInt64.lt_iff_toNat_lt, UInt64.le_iff_toNat_le, UInt64.toNat_inj]

theorem le_trans (first second third : EdgeKey) (left : EdgeKey.le first second = true)
    (right : EdgeKey.le second third = true) : EdgeKey.le first third = true := by
  rw [le_iff] at *
  omega

theorem le_total (first second : EdgeKey) :
    (EdgeKey.le first second || EdgeKey.le second first) = true := by
  rw [Bool.or_eq_true, le_iff, le_iff]
  omega

theorem le_refl (key : EdgeKey) : EdgeKey.le key key = true :=
  (le_iff key key).2 (Or.inr ⟨rfl, Nat.le_refl _⟩)

theorem le_antisymm (first second : EdgeKey) (left : EdgeKey.le first second = true)
    (right : EdgeKey.le second first = true) : first = second := by
  rw [le_iff] at *
  have sources : first.1 = second.1 := UInt64.toNat_inj.1 (by omega)
  have targets : first.2 = second.2 := UInt64.toNat_inj.1 (by omega)
  exact Prod.ext sources targets

end EdgeKey

/-- An edge on its way into the store. The mark is bookkeeping of one merge; it is never
stored and never travels. -/
structure Update where
  edge : Edge
  done : Bool := false
  deriving DecidableEq, Inhabited

namespace Update

def key (update : Update) : EdgeKey := update.edge.key

def markDone (update : Update) : Update := { update with done := true }

def applyTo (update : Update) (attrs : Attrs) : Attrs :=
  attrs.absorb update.edge.weight update.edge.timestamp

def applyAll (updates : List Update) (attrs : Attrs) : Attrs :=
  updates.foldl (fun current update => update.applyTo current) attrs

/-- Updates in the order of their endpoints. -/
def Sorted (updates : List Update) : Prop :=
  updates.Pairwise fun left right => EdgeKey.le left.key right.key = true

end Update

end StreamGraph
