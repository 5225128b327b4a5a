/-!
The numbers that centralities are computed in. The definitions are generic, so the same
computation runs on machine numbers and can be read as exact arithmetic on fractions.
-/

namespace StreamGraph

instance natCastFloat : NatCast Float := ⟨Float.ofNat⟩

def addAt {Scalar : Type} [Add Scalar] (vector : Array Scalar) (slot : Nat) (amount : Scalar) :
    Array Scalar :=
  vector.modify slot (· + amount)

end StreamGraph
