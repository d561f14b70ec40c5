import Graft.SourceError
import Graft.Syntax.Script

/-!
# The state of a reader

A reader goes through a sequence of tokens from the front, never back. It also owns the script
that it builds: names enter it as soon as they are read, statements once they are complete. An
error leaves the state as it stood then, so that a reader may be used again behind one.

Repetitions are given their number of rounds, which is one more than the number of tokens ahead:
a round that takes no token is the last.
-/

namespace Graft

open Text (Place)

/-- The tokens that a reader has before it and the script that it has built. -/
structure Cursor where
  ahead : List Token
  finish : Place
  script : Script
deriving Repr, DecidableEq

/-- What stands at a place: a lexeme, or nothing behind the last. -/
structure Spot where
  found : Option Lexeme
  place : Place
deriving Repr, DecidableEq

/-- An action of a reader. -/
abbrev Read := EStateM SourceError Cursor

namespace Cursor

/-- A reader before the first token, with an empty script. -/
def ofTokens (tokens : Tokens) : Cursor :=
  ⟨tokens.list, tokens.finish, .empty⟩

/-- The lexeme in front. -/
def lexeme? (c : Cursor) : Option Lexeme :=
  c.ahead.head?.map (·.lexeme)

/-- What stands in front. -/
def spot (c : Cursor) : Spot :=
  match c.ahead with
  | token :: _ => ⟨some token.lexeme, token.place⟩
  | [] => ⟨none, c.finish⟩

/-- Whether a line ended before what stands in front; the end of the input ends the last line. -/
def newlineAhead (c : Cursor) : Bool :=
  match c.ahead with
  | token :: _ => token.newlineBefore
  | [] => true

end Cursor

namespace Read

variable {α : Type}

/-! ## Looking -/

def lexeme? : Read (Option Lexeme) := do
  return (← get).lexeme?

/-- The lexeme behind the one in front. -/
def second? : Read (Option Lexeme) := do
  return (← get).ahead[1]?.map (·.lexeme)

def atEnd : Read Bool := do
  return (← get).ahead.isEmpty

def isPunct (p : String) : Read Bool := do
  return (← lexeme?) == some (.punct p)

def isWord (w : String) : Read Bool := do
  return (← lexeme?) == some (.word w)

def newlineAhead : Read Bool := do
  return (← get).newlineAhead

/-! ## Taking -/

/-- Take what stands in front; at the end nothing changes. -/
def next : Read Spot :=
  modifyGet fun c => (c.spot, { c with ahead := c.ahead.tail })

/-- Take an operator or a bracket if it is the given one. -/
def eatPunct (p : String) : Read Bool := do
  let found ← isPunct p
  if found then discard next
  return found

/-- Take a word if it is the given one. -/
def eatWord (w : String) : Read Bool := do
  let found ← isWord w
  if found then discard next
  return found

/-! ## Refusing -/

/-- Refuse what stood at a spot. -/
def refuseAt (spot : Spot) (expected : Expectation) : Read α :=
  throw (.unexpected expected spot.found spot.place)

/-- Refuse what stands in front. -/
def refuse (expected : Expectation) : Read α := do
  refuseAt (← get).spot expected

/-- Refuse a construct that shows at the token in front. -/
def unsupported (what : Feature) : Read α := do
  throw (.unsupported what (← get).spot.place)

/-- Refuse to go deeper. -/
def tooDeep : Read α := do
  throw (.tooDeep (← get).spot.place)

/-! ## Expecting -/

def expectPunct (p : String) : Read Unit := do
  unless ← eatPunct p do refuse (.spelled p)

def expectWord (w : String) : Read Unit := do
  unless ← eatWord w do refuse (.spelled w)

/-- Note that the script mentions a name. -/
def mention (name : String) : Read Unit :=
  modify fun c => { c with script := (Script.intern name c.script).2 }

/-! ## Repeating -/

/-- Take results until a round has none. -/
def manyWithin (round : Read (Option α)) : Nat → Read (List α)
  | 0 => tooDeep
  | rounds + 1 => do
    match ← round with
    | some a => return a :: (← manyWithin round rounds)
    | none => return []

/-- Take results until a round has none. -/
def many (round : Read (Option α)) : Read (List α) := do
  manyWithin round ((← get).ahead.length + 1)

/-- Take items up to a closing bracket, separated by commas; a last comma may stand before it. The
bracket itself is left. -/
def commaListWithin (close : String) (item : Read α) : Nat → Read (List α)
  | 0 => tooDeep
  | rounds + 1 => do
    if ← isPunct close then return []
    let a ← item
    if ← eatPunct "," then return a :: (← commaListWithin close item rounds)
    return [a]

/-- Take items up to a closing bracket, separated by commas. -/
def commaList (close : String) (item : Read α) : Read (List α) := do
  commaListWithin close item ((← get).ahead.length + 1)

/-- Let a result grow until a round has nothing to add. -/
def growWithin (round : α → Read (Option α)) : Nat → α → Read α
  | 0, _ => tooDeep
  | rounds + 1, a => do
    match ← round a with
    | some b => growWithin round rounds b
    | none => return a

/-- Let a result grow until a round has nothing to add. -/
def grow (round : α → Read (Option α)) (a : α) : Read α := do
  growWithin round ((← get).ahead.length + 1) a

end Read

end Graft
