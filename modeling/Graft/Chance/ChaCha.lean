/-!
# The ChaCha12 block function

The state is a matrix of four by four words. A double round works on the four columns at once,
turns the rows so that the diagonals stand in columns, works on these and turns the rows back. A
block is the state after six double rounds added to the state before.
-/

namespace Graft.Chance

/-- Four words. -/
structure Row where
  w0 : UInt32
  w1 : UInt32
  w2 : UInt32
  w3 : UInt32
deriving Repr, DecidableEq

namespace Row

def map (f : UInt32 → UInt32) (a : Row) : Row :=
  ⟨f a.w0, f a.w1, f a.w2, f a.w3⟩

def zipWith (f : UInt32 → UInt32 → UInt32) (a b : Row) : Row :=
  ⟨f a.w0 b.w0, f a.w1 b.w1, f a.w2 b.w2, f a.w3 b.w3⟩

def toList (a : Row) : List UInt32 :=
  [a.w0, a.w1, a.w2, a.w3]

/-- Turn a row one place to the left. -/
def turn (a : Row) : Row :=
  ⟨a.w1, a.w2, a.w3, a.w0⟩

end Row

/-- Four rows. -/
structure Matrix where
  a : Row
  b : Row
  c : Row
  d : Row
deriving Repr, DecidableEq

/-- A key is the two middle rows. -/
structure Key where
  upper : Row
  lower : Row
deriving Repr, DecidableEq

/-- Rotate a word to the left. -/
def rotate (n : UInt32) (w : UInt32) : UInt32 :=
  (w <<< n) ||| (w >>> (32 - n))

namespace Matrix

def add (m n : Matrix) : Matrix :=
  ⟨m.a.zipWith (· + ·) n.a, m.b.zipWith (· + ·) n.b,
   m.c.zipWith (· + ·) n.c, m.d.zipWith (· + ·) n.d⟩

/-- Add the second row to the first and mix the sum into the last. -/
def mixLast (n : UInt32) (m : Matrix) : Matrix :=
  let a := m.a.zipWith (· + ·) m.b
  { m with a, d := (m.d.zipWith (· ^^^ ·) a).map (rotate n) }

/-- Add the last row to the third and mix the sum into the second. -/
def mixSecond (n : UInt32) (m : Matrix) : Matrix :=
  let c := m.c.zipWith (· + ·) m.d
  { m with c, b := (m.b.zipWith (· ^^^ ·) c).map (rotate n) }

/-- A round on all columns. -/
def columns (m : Matrix) : Matrix :=
  mixSecond 7 (mixLast 8 (mixSecond 12 (mixLast 16 m)))

/-- Put the diagonals into columns. -/
def slant (m : Matrix) : Matrix :=
  { m with b := m.b.turn, c := m.c.turn.turn, d := m.d.turn.turn.turn }

/-- Put the columns back into diagonals. -/
def unslant (m : Matrix) : Matrix :=
  { m with b := m.b.turn.turn.turn, c := m.c.turn.turn, d := m.d.turn }

def doubleRound (m : Matrix) : Matrix :=
  unslant (columns (slant (columns m)))

/-- The first words of every state, the characters of "expand 32-byte k". -/
def constants : Row :=
  ⟨0x61707865, 0x3320646e, 0x79622d32, 0x6b206574⟩

/-- The state in front of the block of a number. -/
def initial (key : Key) (block : Nat) : Matrix :=
  ⟨constants, key.upper, key.lower,
   ⟨UInt32.ofNat block, UInt32.ofNat (block / (1 <<< 32)), 0, 0⟩⟩

/-- The block of a number. -/
def block (key : Key) (number : Nat) : Matrix :=
  let start := initial key number
  add (Nat.repeat doubleRound 6 start) start

def toList (m : Matrix) : List UInt32 :=
  m.a.toList ++ m.b.toList ++ m.c.toList ++ m.d.toList

/-- The turned rows come back. -/
theorem unslant_slant (m : Matrix) : unslant (slant m) = m := rfl

end Matrix

end Graft.Chance
