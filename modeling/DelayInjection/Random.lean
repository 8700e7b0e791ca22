-- Random draws. A source is a stream of 64-bit words with a position; the stream of a seed is
-- the ChaCha keystream with twelve rounds, keyed from the seed by a congruential generator.

namespace DelayInjection

namespace ChaCha

def rotate (x : UInt32) (amount : UInt32) : UInt32 := (x <<< amount) ||| (x >>> (32 - amount))

-- The state of sixteen words as four rows of four.
structure Row where
  x0 : UInt32
  x1 : UInt32
  x2 : UInt32
  x3 : UInt32

namespace Row

def map2 (f : UInt32 → UInt32 → UInt32) (a b : Row) : Row :=
  ⟨f a.x0 b.x0, f a.x1 b.x1, f a.x2 b.x2, f a.x3 b.x3⟩

def add (a b : Row) : Row := map2 (· + ·) a b

def mix (amount : UInt32) (a b : Row) : Row := map2 (fun x y => rotate (x ^^^ y) amount) a b

def turn1 (a : Row) : Row := ⟨a.x1, a.x2, a.x3, a.x0⟩
def turn2 (a : Row) : Row := ⟨a.x2, a.x3, a.x0, a.x1⟩
def turn3 (a : Row) : Row := ⟨a.x3, a.x0, a.x1, a.x2⟩

def toList (a : Row) : List UInt32 := [a.x0, a.x1, a.x2, a.x3]

end Row

structure Block where
  a : Row
  b : Row
  c : Row
  d : Row

namespace Block

def columnRound (s : Block) : Block :=
  let a := s.a.add s.b
  let d := s.d.mix 16 a
  let c := s.c.add d
  let b := s.b.mix 12 c
  let a := a.add b
  let d := d.mix 8 a
  let c := c.add d
  let b := b.mix 7 c
  ⟨a, b, c, d⟩

def doubleRound (s : Block) : Block :=
  let s := s.columnRound
  let s := columnRound ⟨s.a, s.b.turn1, s.c.turn2, s.d.turn3⟩
  ⟨s.a, s.b.turn3, s.c.turn2, s.d.turn1⟩

def rounds : Nat → Block → Block
  | 0, s => s
  | n + 1, s => rounds n s.doubleRound

def add (s t : Block) : Block := ⟨s.a.add t.a, s.b.add t.b, s.c.add t.c, s.d.add t.d⟩

def words (s : Block) : List UInt32 := s.a.toList ++ s.b.toList ++ s.c.toList ++ s.d.toList

end Block

structure Key where
  low : Row
  high : Row

-- One step of the congruential generator, and the word its state gives.
def stretch (state : UInt64) : UInt64 :=
  state * 6364136223846793005 + 11634580027462260723

def stretched (state : UInt64) : UInt32 :=
  let x := (((state >>> 18) ^^^ state) >>> 27).toUInt32
  let turn := (state >>> 59).toUInt32
  (x >>> turn) ||| (x <<< ((32 - turn) % 32))

def Key.ofSeed (seed : UInt64) : Key :=
  let s1 := stretch seed
  let s2 := stretch s1
  let s3 := stretch s2
  let s4 := stretch s3
  let s5 := stretch s4
  let s6 := stretch s5
  let s7 := stretch s6
  let s8 := stretch s7
  { low := ⟨stretched s1, stretched s2, stretched s3, stretched s4⟩
    high := ⟨stretched s5, stretched s6, stretched s7, stretched s8⟩ }

def block (key : Key) (counter : Nat) : List UInt32 :=
  let start : Block :=
    { a := ⟨0x61707865, 0x3320646e, 0x79622d32, 0x6b206574⟩
      b := key.low
      c := key.high
      d := ⟨UInt32.ofNat counter, UInt32.ofNat (counter / Nat.pow 2 32), 0, 0⟩ }
  (start.rounds 6 |>.add start).words

-- The word at a position of the stream: eight to a block, its lower half first.
def word (key : Key) (position : Nat) : UInt64 :=
  let words := block key (position / 8)
  let low := words.getD (2 * (position % 8)) 0
  let high := words.getD (2 * (position % 8) + 1) 0
  low.toUInt64 ||| (high.toUInt64 <<< 32)

end ChaCha

-- A stream of words and how many of them have been drawn.
structure RandomSource where
  stream : Nat → UInt64
  drawn : Nat := 0

namespace RandomSource

def ofSeed (seed : UInt64) : RandomSource := { stream := ChaCha.word (ChaCha.Key.ofSeed seed) }

def next (source : RandomSource) : UInt64 × RandomSource :=
  (source.stream source.drawn, { source with drawn := source.drawn + 1 })

-- The upper 53 bits of a word as a fraction of one; the factor is 2^-53.
def fraction (word : UInt64) : Float := (word >>> 11).toFloat * Float.ofBits 0x3CA0000000000000

def unit (source : RandomSource) : Float × RandomSource :=
  let (word, source) := source.next
  (fraction word, source)

-- How far a bound has to be shifted until its top bit is set.
def leadingZeros (bound : Nat) : Nat := 63 - bound.log2

-- A word is accepted for a bound when the low half of its product lies within the largest
-- multiple of the bound by a power of two; the high half is then the drawn number.
def zone (bound : Nat) : Nat := (bound <<< leadingZeros bound) - 1

def accepts (bound word : Nat) : Bool := word * bound % Nat.pow 2 64 ≤ zone bound

def scaled (bound word : Nat) : Nat := word * bound / Nat.pow 2 64

-- Draws until a word is accepted, at most as often as the first argument says.
def below? : Nat → Nat → RandomSource → Option (Nat × RandomSource)
  | 0, _, _ => none
  | fuel + 1, bound, source =>
      let (word, source) := source.next
      if accepts bound word.toNat then some (scaled bound word.toNat, source)
      else below? fuel bound source

-- More rejections in a row than this are not waited for.
def patience : Nat := Nat.pow 2 64

-- A number below the bound; a bound of zero gives zero without a draw.
def below (bound : Nat) (source : RandomSource) : Nat × RandomSource :=
  if bound = 0 then (0, source) else (below? patience bound source).getD (0, source)

end RandomSource

end DelayInjection
