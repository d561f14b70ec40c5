import Graft.Reading.Cursor

/-!
# The state of a builder

A builder reads like a reader, but it counts where it is, and it stores every node as soon as its
last token is taken, children first. So there is nothing to put into the script behind a statement
but its place, and what an error leaves unfinished stays in the table, out of the script.

Whether `in` ends an expression is part of the state: it is switched for a while, and what it was
before is put back whether or not what is read meanwhile succeeds.
-/

namespace Graft

/-- All tokens with a position among them, the switch for `in`, and the script that is built. -/
structure Builder where
  tokens : Tokens
  position : Nat
  noIn : Bool
  script : Script
deriving Repr, DecidableEq

/-- An action of a builder. -/
abbrev Build := EStateM SourceError Builder

namespace Builder

/-- A builder before the first token, with an empty script. -/
def ofTokens (tokens : Tokens) : Builder :=
  ⟨tokens, 0, false, .empty⟩

/-- The token some places behind the one in front; none at the end of the input and behind it. -/
def peek? (b : Builder) (offset : Nat) : Option Token :=
  b.tokens.list[b.position + offset]?

/-- The tokens that have not been taken. -/
def ahead (b : Builder) : List Token :=
  b.tokens.list.drop b.position

/-- The lexeme in front. -/
def lexeme? (b : Builder) : Option Lexeme :=
  (b.peek? 0).map (·.lexeme)

/-- What stands in front. -/
def spot (b : Builder) : Spot :=
  match b.peek? 0 with
  | some token => ⟨some token.lexeme, token.place⟩
  | none => ⟨none, b.tokens.finish⟩

/-- Whether a line ended before what stands in front; the end of the input ends the last line. -/
def newlineAhead (b : Builder) : Bool :=
  match b.peek? 0 with
  | some token => token.newlineBefore
  | none => true

/-- Move behind what stands in front, unless the input ends there. -/
def advance (b : Builder) : Builder :=
  if b.position < b.tokens.list.length then { b with position := b.position + 1 } else b

end Builder

namespace Build

variable {α : Type}

/-! ## Looking -/

def lexeme? : Build (Option Lexeme) := do
  return (← get).lexeme?

/-- The lexeme behind the one in front. -/
def second? : Build (Option Lexeme) := do
  return ((← get).peek? 1).map (·.lexeme)

def atEnd : Build Bool := do
  return ((← get).peek? 0).isNone

def isPunct (p : String) : Build Bool := do
  return (← lexeme?) == some (.punct p)

def isWord (w : String) : Build Bool := do
  return (← lexeme?) == some (.word w)

def newlineAhead : Build Bool := do
  return (← get).newlineAhead

/-! ## Taking -/

/-- Take what stands in front; at the end nothing changes. -/
def next : Build Spot :=
  modifyGet fun b => (b.spot, b.advance)

/-- Take an operator or a bracket if it is the given one. -/
def eatPunct (p : String) : Build Bool := do
  let found ← isPunct p
  if found then discard next
  return found

/-- Take a word if it is the given one. -/
def eatWord (w : String) : Build Bool := do
  let found ← isWord w
  if found then discard next
  return found

/-! ## Refusing -/

/-- Refuse what stood at a spot. -/
def refuseAt (spot : Spot) (expected : Expectation) : Build α :=
  throw (.unexpected expected spot.found spot.place)

/-- Refuse what stands in front. -/
def refuse (expected : Expectation) : Build α := do
  refuseAt (← get).spot expected

/-- Refuse a construct that shows at the token in front. -/
def unsupported (what : Feature) : Build α := do
  throw (.unsupported what (← get).spot.place)

/-- Refuse to go deeper. -/
def tooDeep : Build α := do
  throw (.tooDeep (← get).spot.place)

/-! ## Expecting -/

def expectPunct (p : String) : Build Unit := do
  unless ← eatPunct p do refuse (.spelled p)

def expectWord (w : String) : Build Unit := do
  unless ← eatWord w do refuse (.spelled w)

/-! ## Writing -/

/-- The symbol of a name. -/
def intern (name : String) : Build Sym :=
  modifyGet fun b =>
    let (sym, script) := Script.intern name b.script
    (sym, { b with script })

/-- Store a node at a new place. -/
def store (node : Node NodeId Sym) : Build NodeId :=
  modifyGet fun b =>
    let (id, script) := Script.alloc node b.script
    (id, { b with script })

/-! ## Switching -/

/-- Run an action with the switch for `in` as given, and put back what it was before. -/
def withNoIn (noIn : Bool) (p : Build α) : Build α := fun b =>
  match p { b with noIn } with
  | .ok a b' => .ok a { b' with noIn := b.noIn }
  | .error e b' => .error e { b' with noIn := b.noIn }

/-- Run an action with `in` as an operator, as inside brackets. -/
def allowIn (p : Build α) : Build α :=
  withNoIn false p

/-! ## Repeating -/

/-- Take results until a round has none. -/
def manyWithin (round : Build (Option α)) : Nat → Build (List α)
  | 0 => tooDeep
  | rounds + 1 => do
    match ← round with
    | some a => return a :: (← manyWithin round rounds)
    | none => return []

/-- Take results until a round has none. -/
def many (round : Build (Option α)) : Build (List α) := do
  manyWithin round ((← get).ahead.length + 1)

/-- Take items up to a closing bracket, separated by commas; a last comma may stand before it. The
bracket itself is left. -/
def commaListWithin (close : String) (item : Build α) : Nat → Build (List α)
  | 0 => tooDeep
  | rounds + 1 => do
    if ← isPunct close then return []
    let a ← item
    if ← eatPunct "," then return a :: (← commaListWithin close item rounds)
    return [a]

/-- Take items up to a closing bracket, separated by commas. -/
def commaList (close : String) (item : Build α) : Build (List α) := do
  commaListWithin close item ((← get).ahead.length + 1)

/-- Let a result grow until a round has nothing to add. -/
def growWithin (round : α → Build (Option α)) : Nat → α → Build α
  | 0, _ => tooDeep
  | rounds + 1, a => do
    match ← round a with
    | some b => growWithin round rounds b
    | none => return a

/-- Let a result grow until a round has nothing to add. -/
def grow (round : α → Build (Option α)) (a : α) : Build α := do
  growWithin round ((← get).ahead.length + 1) a

end Build

end Graft
