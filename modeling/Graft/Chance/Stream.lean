import Graft.Chance.ChaCha

/-!
# Random streams

A stream is a key and the number of words that have been drawn: the word of a rank is a function
of the key alone. Nothing is drawn that is not used, and no word is ever skipped.

* `Stream.seeded` - the stream of a seed
* `Draw.bool`, `Draw.below`, `Draw.choose` - the draws that passes make
-/

namespace Graft.Chance

/-- An endless sequence of words and how many of them have been drawn. -/
structure Stream where
  key : Key
  drawn : Nat
deriving Repr, DecidableEq

namespace Stream

/-- The word of a rank. -/
def word (key : Key) (rank : Nat) : UInt32 :=
  (Matrix.block key (rank / 16)).toList.getD (rank % 16) 0

/-- The states of the generator that turns a seed into a key. -/
def seedStep (state : UInt64) : UInt64 :=
  state * 6364136223846793005 + 11634580027462260723

/-- The word that a state of that generator stands for. -/
def seedWord (state : UInt64) : UInt32 :=
  let mixed := (((state >>> 18) ^^^ state) >>> 27).toUInt32
  let turn := (state >>> 59).toUInt32
  (mixed >>> turn) ||| (mixed <<< ((32 - turn) % 32))

/-- The key of eight words that are given by rank. -/
def keyOf (word : Nat → UInt32) : Key :=
  ⟨⟨word 0, word 1, word 2, word 3⟩, ⟨word 4, word 5, word 6, word 7⟩⟩

/-- The stream of a seed. -/
def seeded (seed : UInt64) : Stream :=
  ⟨keyOf fun rank => seedWord (Nat.repeat seedStep (rank + 1) seed), 0⟩

end Stream

/-- An action that draws from a stream. -/
abbrev Draw := StateM Stream

/-- How often a draw comes out true, in parts of `2 ^ 64`. -/
structure Probability where
  parts : Nat
deriving Repr, DecidableEq

namespace Probability

def always : Probability := ⟨1 <<< 64⟩

def never : Probability := ⟨0⟩

/-- The probability nearest below a number, which is first put between zero and one.

What is not a number has no place between them, and no draw can be made with it: a generator that is
asked for one stops. Here it is taken for `never`, so that what is shown of a pass or a corpus with
such a chance says nothing about what a generator does with it. -/
def ofFloat (p : Float) : Probability :=
  if 1.0 ≤ p then always
  else if 0.0 ≤ p then ⟨(p * 18446744073709551616.0).toUInt64.toNat⟩
  else never

end Probability

namespace Draw

/-- The next word. -/
def word : Draw UInt32 :=
  fun s => (Stream.word s.key s.drawn, { s with drawn := s.drawn + 1 })

/-- Two words as one number, the low one first. -/
def long : Draw Nat := do
  let low ← word
  let high ← word
  return low.toNat + (1 <<< 32) * high.toNat

/-- True with a probability. What always happens needs no draw. -/
def bool (p : Probability) : Draw Bool := do
  if p = .always then return true
  return (← long) < p.parts

/-- A number below a bound of at most `2 ^ 32 - 1`. A second word is drawn only where the first
leaves it open whether it would carry. -/
def below (bound : Nat) : Draw Nat := do
  let product := (← word).toNat * bound
  let whole := product / (1 <<< 32)
  let rest := product % (1 <<< 32)
  if rest + bound ≤ 1 <<< 32 then return whole
  let more := (← word).toNat * bound / (1 <<< 32)
  return if rest + more < 1 <<< 32 then whole else whole + 1

/-- A member of a list. An empty list has none, and nothing is drawn for it. -/
def choose {α : Type} (items : List α) : Draw (Option α) := do
  match items with
  | [] => return none
  | _ => return items[← below items.length]?

/-- A new stream whose key is drawn from this one. -/
def fork : Draw Stream :=
  fun s => (⟨Stream.keyOf fun rank => Stream.word s.key (s.drawn + rank), 0⟩,
    { s with drawn := s.drawn + 8 })

end Draw

end Graft.Chance
