/-! Words that a seed stands for: the keystream of the ChaCha cipher with twelve rounds, under a key
to which the seed is stretched. Each block of sixteen words depends on the key and on its own
number alone, so every word has a place of its own in the sequence. -/

namespace QuadIndex.Keystream

/-- Turns a word to the left, around its end. -/
@[inline] def turn (n v : UInt32) : UInt32 := v <<< n ||| v >>> (32 - n)

/-- Four words, one for each column of a block. -/
structure Row where
  first : UInt32
  second : UInt32
  third : UInt32
  fourth : UInt32
  deriving DecidableEq

namespace Row

@[inline] def zip (f : UInt32 → UInt32 → UInt32) (r s : Row) : Row :=
  ⟨f r.first s.first, f r.second s.second, f r.third s.third, f r.fourth s.fourth⟩

def add (r s : Row) : Row := r.zip (· + ·) s

/-- The differing bits of two rows, each word turned. -/
@[inline] def mix (n : UInt32) (r s : Row) : Row := r.zip (fun v w => turn n (v ^^^ w)) s

def left (r : Row) : Row := ⟨r.second, r.third, r.fourth, r.first⟩

def get (r : Row) : Nat → UInt32
  | 0 => r.first
  | 1 => r.second
  | 2 => r.third
  | _ => r.fourth

end Row

/-- Sixteen words in four rows. -/
structure Block where
  top : Row
  upper : Row
  lower : Row
  bottom : Row
  deriving DecidableEq

namespace Block

def columns (b : Block) : Block :=
  let top := b.top.add b.upper
  let bottom := b.bottom.mix 16 top
  let lower := b.lower.add bottom
  let upper := b.upper.mix 12 lower
  let top := top.add upper
  let bottom := bottom.mix 8 top
  let lower := lower.add bottom
  ⟨top, upper.mix 7 lower, lower, bottom⟩

/-- Moves the rows to the left so that the diagonals become columns. -/
def slant (b : Block) : Block :=
  ⟨b.top, b.upper.left, b.lower.left.left, b.bottom.left.left.left⟩

def straighten (b : Block) : Block :=
  ⟨b.top, b.upper.left.left.left, b.lower.left.left, b.bottom.left⟩

def twoRounds (b : Block) : Block := b.columns.slant.columns.straighten

def add (b c : Block) : Block :=
  ⟨b.top.add c.top, b.upper.add c.upper, b.lower.add c.lower, b.bottom.add c.bottom⟩

def get (b : Block) (n : Nat) : UInt32 :=
  match n / 4 with
  | 0 => b.top.get (n % 4)
  | 1 => b.upper.get (n % 4)
  | 2 => b.lower.get (n % 4)
  | _ => b.bottom.get (n % 4)

end Block

structure Key where
  upper : Row
  lower : Row
  deriving DecidableEq

namespace Key

/-- One step of a linear congruence. -/
def step (s : UInt64) : UInt64 := s * 6364136223846793005 + 11634580027462260723

/-- Folds a state to half of its width, and turns the result to the right by the uppermost bits. -/
def fold (s : UInt64) : UInt32 :=
  let uppermost : UInt64 := s >>> 59
  let folded : UInt64 := (s >>> 18 ^^^ s) >>> 27
  turn (32 - uppermost.toUInt32) folded.toUInt32

/-- Stretches a seed to eight words. -/
def ofSeed (seed : UInt64) : Key :=
  let word (n : Nat) := fold (Nat.repeat step n seed)
  ⟨⟨word 1, word 2, word 3, word 4⟩, ⟨word 5, word 6, word 7, word 8⟩⟩

/-- The block of a number before its rounds: four fixed words, the key and the number. -/
def start (k : Key) (n : Nat) : Block :=
  ⟨⟨0x61707865, 0x3320646E, 0x79622D32, 0x6B206574⟩, k.upper, k.lower,
    ⟨.ofNat n, .ofNat (n / 0x100000000), 0, 0⟩⟩

def block (k : Key) (n : Nat) : Block :=
  let start := k.start n
  (Nat.repeat Block.twoRounds 6 start).add start

def word (k : Key) (n : Nat) : UInt32 := (k.block (n / 16)).get (n % 16)

end Key

end QuadIndex.Keystream
