/-!
# A stream of words from a key

ChaCha with eight rounds turns a key of eight words and a block number into a
block of sixteen words.  The stream of a key is block 0, block 1 and so on.  A
key is spread from a seed by a linear congruential generator whose states are
shuffled into words.
-/

namespace ConstraintNet.Random

/-- Rotates a word to the left. -/
def rotateLeft (x : UInt32) (k : UInt32) : UInt32 :=
  (x <<< k) ||| (x >>> (32 - k))

/-- Rotates a word to the right. -/
def rotateRight (x : UInt32) (k : UInt32) : UInt32 :=
  (x >>> k) ||| (x <<< (32 - k))

/-- Sixteen words. -/
abbrev Block := Vector UInt32 16

/-- Eight words. -/
abbrev Key := Vector UInt32 8

/-- Mixes four words of a block. -/
def quarterRound (s : Block) (i j k l : Fin 16) : Block :=
  let a := s[i] + s[j]
  let d := rotateLeft (s[l] ^^^ a) 16
  let c := s[k] + d
  let b := rotateLeft (s[j] ^^^ c) 12
  let a := a + b
  let d := rotateLeft (d ^^^ a) 8
  let c := c + d
  let b := rotateLeft (b ^^^ c) 7
  (((s.set i a).set j b).set k c).set l d

/-- A round on the columns and a round on the diagonals. -/
def doubleRound (s : Block) : Block :=
  let s := quarterRound s 0 4 8 12
  let s := quarterRound s 1 5 9 13
  let s := quarterRound s 2 6 10 14
  let s := quarterRound s 3 7 11 15
  let s := quarterRound s 0 5 10 15
  let s := quarterRound s 1 6 11 12
  let s := quarterRound s 2 7 8 13
  quarterRound s 3 4 9 14

/-- The block of a key with a number. -/
def block (key : Key) (n : UInt64) : Block :=
  let input : Block := #v[0x61707865, 0x3320646e, 0x79622d32, 0x6b206574,
    key[0], key[1], key[2], key[3], key[4], key[5], key[6], key[7],
    n.toUInt32, (n >>> 32).toUInt32, 0, 0]
  let output := doubleRound (doubleRound (doubleRound (doubleRound input)))
  output.zipWith (· + ·) input

/-- The next state of the generator that spreads a seed. -/
def spreadStep (state : UInt64) : UInt64 :=
  state * 6364136223846793005 + 11634580027462260723

/-- The word shuffled from a state. -/
def spreadWord (state : UInt64) : UInt32 :=
  rotateRight (((state >>> 18) ^^^ state) >>> 27).toUInt32
    (state >>> 59).toUInt32

/-- The key spread from a seed. -/
def keyOfSeed (seed : UInt64) : Key :=
  let s0 := spreadStep seed
  let s1 := spreadStep s0
  let s2 := spreadStep s1
  let s3 := spreadStep s2
  let s4 := spreadStep s3
  let s5 := spreadStep s4
  let s6 := spreadStep s5
  let s7 := spreadStep s6
  #v[spreadWord s0, spreadWord s1, spreadWord s2, spreadWord s3,
    spreadWord s4, spreadWord s5, spreadWord s6, spreadWord s7]

/-- A place in the stream of a key. -/
structure Generator where
  key : Key
  /-- The number of words drawn. -/
  position : Nat
  /-- The block that holds the next word. -/
  current : Block
deriving DecidableEq

namespace Generator

/-- The stream of a seed, from its start. -/
def ofSeed (seed : UInt64) : Generator :=
  let key := keyOfSeed seed
  ⟨key, 0, block key 0⟩

/-- Draws a word. -/
def next (g : Generator) : UInt32 × Generator :=
  let word := g.current[g.position % 16]
  let position := g.position + 1
  if position % 16 = 0 then
    (word, { g with position, current := block g.key (position / 16).toUInt64 })
  else (word, { g with position })

end Generator

end ConstraintNet.Random
