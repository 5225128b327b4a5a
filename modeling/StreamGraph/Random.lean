/-!
Random vertices. Ranks that start from the same seed draw the same vertices, with any generator;
the standard one has four words of state, stepped by shifts, rotations and exclusive or, and draws
a number below a bound without bias.
-/

namespace StreamGraph

/-- How a seed becomes a state, and how a state gives a vertex that may end an edge in a graph over
a bound, and goes on. -/
structure Generator where
  State : Type
  ofSeed (seed : UInt64) : State
  endpoint (bound : UInt64) (state : State) : UInt64 × State

structure FourWords where
  first : UInt64
  second : UInt64
  third : UInt64
  fourth : UInt64
  deriving DecidableEq, Inhabited

namespace FourWords

/-- Moves the bits of a word up, the highest coming back at the low end. -/
def rotate (word : UInt64) (distance : UInt64) : UInt64 :=
  (word <<< distance) ||| (word >>> (64 - distance))

/-- Moves the bits of a short word down, the lowest coming back at the high end. -/
def rotateDown (word : UInt32) (distance : UInt32) : UInt32 :=
  (word >>> distance) ||| (word <<< ((32 - distance) % 32))

def spread (seed : UInt64) : UInt64 := seed * 6364136223846793005 + 11634580027462260723

def seedWord (seed : UInt64) : UInt32 :=
  rotateDown (((seed >>> 18) ^^^ seed) >>> 27).toUInt32 (seed >>> 59).toUInt32

def seedWords : Nat → UInt64 → List UInt32
  | 0, _ => []
  | count + 1, seed => seedWord (spread seed) :: seedWords count (spread seed)

/-- Two short words as one, the first in the low half. -/
def join (low high : UInt32) : UInt64 := low.toUInt64 ||| (high.toUInt64 <<< 32)

def ofSeed (seed : UInt64) : FourWords :=
  match seedWords 8 seed with
  | [a, b, c, d, e, f, g, h] => ⟨join a b, join c d, join e f, join g h⟩
  | _ => default

def next (state : FourWords) : UInt64 × FourWords :=
  let drawn := rotate (state.first + state.fourth) 23 + state.first
  let shifted := state.second <<< 17
  let third := state.third ^^^ state.first
  let fourth := state.fourth ^^^ state.second
  (drawn, {
    first := state.first ^^^ fourth
    second := state.second ^^^ third
    third := third ^^^ shifted
    fourth := rotate fourth 45 })

/-- The greatest low half of a product that still belongs to a whole turn of `range`; higher ones
are drawn again, so that every number is equally likely. -/
def zone (range : UInt64) : UInt64 :=
  (range <<< UInt64.ofNat (63 - Nat.log2 range.toNat)) - 1

/-- Draws words until one falls into the zone, at most `tries` times, and answers the high half
of its product with `range`. -/
def belowWithin (range : UInt64) : Nat → FourWords → UInt64 × FourWords
  | 0, state => (0, state)
  | tries + 1, state =>
      let (drawn, after) := state.next
      let product := drawn.toNat * range.toNat
      if product % UInt64.size ≤ (zone range).toNat then
        (UInt64.ofNat (product / UInt64.size), after)
      else belowWithin range tries after

def below (range : UInt64) (state : FourWords) : UInt64 × FourWords :=
  belowWithin range UInt64.size state

def endpoint (bound : UInt64) (state : FourWords) : UInt64 × FourWords :=
  let (drawn, after) := state.below (bound - 1)
  (1 + drawn, after)

end FourWords

def Generator.standard : Generator where
  State := FourWords
  ofSeed := FourWords.ofSeed
  endpoint := FourWords.endpoint

end StreamGraph
