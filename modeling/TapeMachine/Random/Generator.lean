/-!
# Seeded random words

The generator is xoshiro256++: four 64-bit words of state. A seed is expanded to
a state by eight outputs of a 64-bit linear congruential sequence, each permuted
to 32 bits by an xorshift and a rotation.
-/
namespace TapeMachine.Random

/-- The state of a xoshiro256++ generator. -/
structure Generator where
  s0 : UInt64
  s1 : UInt64
  s2 : UInt64
  s3 : UInt64
  deriving DecidableEq

def rotateLeft (x : UInt64) (k : UInt64) : UInt64 :=
  (x <<< k) ||| (x >>> (64 - k))

def rotateRight (x : UInt32) (k : UInt32) : UInt32 :=
  (x >>> k) ||| (x <<< (32 - k))

def seedNext (s : UInt64) : UInt64 :=
  s * 6364136223846793005 + 11634580027462260723

/-- The 32 bits that a state of the seeding sequence gives out. -/
def seedWord (s : UInt64) : UInt32 :=
  rotateRight (((s >>> 18) ^^^ s) >>> 27).toUInt32 (s >>> 59).toUInt32

/-- Two seeding words as one, the first in the low half, after the state `s`. -/
def seedPair (s : UInt64) : UInt64 × UInt64 :=
  let low := seedNext s
  let high := seedNext low
  ((seedWord low).toUInt64 ||| ((seedWord high).toUInt64 <<< 32), high)

namespace Generator

def ofSeed (seed : UInt64) : Generator :=
  let (s0, s) := seedPair seed
  let (s1, s) := seedPair s
  let (s2, s) := seedPair s
  let (s3, _) := seedPair s
  ⟨s0, s1, s2, s3⟩

def next (g : Generator) : UInt64 × Generator :=
  let t := g.s1 <<< 17
  let s2 := g.s2 ^^^ g.s0
  let s3 := g.s3 ^^^ g.s1
  (rotateLeft (g.s0 + g.s3) 23 + g.s0,
    { s0 := g.s0 ^^^ s3, s1 := g.s1 ^^^ s2, s2 := s2 ^^^ t, s3 := rotateLeft s3 45 })

/-- The number of states, and so the longest a draw can go without a word that it
has refused before. -/
def stateCount : Nat :=
  UInt64.size * UInt64.size * UInt64.size * UInt64.size

/-- The top `k` bits of the first word whose next bit is clear. Words whose next
bit is set are refused, at most `fuel` of them. -/
def drawTop (k : UInt64) : (fuel : Nat) → Generator → UInt64 × Generator
  | 0, g => (0, g)
  | fuel + 1, g =>
    let (word, g) := g.next
    if word <<< k < 0x8000000000000000 then (word >>> (64 - k), g) else drawTop k fuel g

/-- A uniform draw below eight: three bits. -/
def below8 (g : Generator) : Fin 8 × Generator :=
  let (top, g) := drawTop 3 stateCount g
  (⟨top.toNat % 8, Nat.mod_lt _ (by decide)⟩, g)

def below16 (g : Generator) : Fin 16 × Generator :=
  let (top, g) := drawTop 4 stateCount g
  (⟨top.toNat % 16, Nat.mod_lt _ (by decide)⟩, g)

/-- The lowest `count` bytes of a word, the lowest first. -/
def lowBytes (count : Nat) (word : UInt64) : List UInt8 :=
  (List.range count).map fun i => (word >>> (8 * i).toUInt64).toUInt8

/-- Groups of eight random bytes, one word each. -/
def fillGroups : (groups : Nat) → Generator → List UInt8 × Generator
  | 0, g => ([], g)
  | groups + 1, g =>
    let (word, g) := g.next
    let (rest, g) := fillGroups groups g
    (lowBytes 8 word ++ rest, g)

/-- Fewer than eight random bytes: up to four from the high half of a word, more
from its low end. -/
def fillRest (count : Nat) (g : Generator) : List UInt8 × Generator :=
  let (word, g') := g.next
  if count = 0 then ([], g)
  else if count ≤ 4 then (lowBytes count (word >>> 32), g')
  else (lowBytes count word, g')

/-- Random bytes: whole groups of eight, then the rest. -/
def fill (count : Nat) (g : Generator) : List UInt8 × Generator :=
  let (whole, g) := fillGroups (count / 8) g
  let (rest, g) := fillRest (count % 8) g
  (whole ++ rest, g)

end Generator

/-- Where random draws come from. A state, begun with a seed, goes from one to the next. -/
structure Source (σ : Type) where
  ofSeed : UInt64 → σ
  below8 : σ → Fin 8 × σ
  below16 : σ → Fin 16 × σ
  fill : Nat → σ → List UInt8 × σ

def Source.seeded : Source Generator where
  ofSeed := .ofSeed
  below8 := Generator.below8
  below16 := Generator.below16
  fill := fun count g => g.fill count

end TapeMachine.Random
