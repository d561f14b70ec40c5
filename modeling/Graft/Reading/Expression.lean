import Graft.Reading.Cursor

/-!
# Reading expressions

Each rule reads one level of the grammar. Where something is nested, behind a token that has been
taken, a rule uses the rules of the next depth, which it is given as `inner`; everything else it
reads by itself. So no rule is recursive, and the depth that a text needs is bounded by the number
of its tokens.

In the head of a `for` the word `in` ends the first expression. The rules that are concerned take
this as an argument, `noIn`; inside brackets and function bodies `in` is an operator again.
-/

namespace Graft

/-- A tree as it is read, without tags. -/
abbrev Reading := Tree Unit

/-- A tree of a node. -/
def Reading.of (node : Node Reading String) : Reading := .mk () node

/-- The rules for what may be nested. -/
structure Rules where
  statement : Read Reading
  block : Read Reading
  expression : (noIn : Bool) → Read Reading
  assignment : (noIn : Bool) → Read Reading
  binary : (noIn : Bool) → Precedence → Read Reading
  unary : Read Reading
  construction : Read Reading

namespace Grammar

open Read
open Reading (of)

/-! ## Names -/

/-- The words that are no identifiers. -/
def reserved : List String :=
  ["break", "case", "catch", "class", "const", "continue", "debugger", "default", "delete", "do",
   "else", "export", "extends", "false", "finally", "for", "function", "if", "import", "in",
   "instanceof", "let", "new", "null", "return", "super", "switch", "this", "throw", "true", "try",
   "typeof", "var", "void", "while", "with", "yield"]

def isReserved (word : String) : Bool :=
  reserved.contains word

/-- A name that is no reserved word. -/
def identifier : Read String := do
  match ← lexeme? with
  | some (.word w) =>
    if isReserved w then refuse .identifier
    discard next
    mention w
    return w
  | _ => refuse .identifier

/-- The name of a property or a method, which may be a reserved word. -/
def propertyName : Read String := do
  match ← lexeme? with
  | some (.word w) =>
    discard next
    mention w
    return w
  | _ => refuse .propertyName

/-! ## Functions -/

/-- A parameter of a function: a plain name. -/
def parameter : Read String := do
  if ← isPunct "..." then unsupported .restParameter
  let name ← identifier
  if ← isPunct "=" then unsupported .defaultParameter
  return name

/-- Parameters and body of a function. -/
def functionParts (inner : Rules) : Read (List String × Reading) := do
  expectPunct "("
  let params ← commaList ")" parameter
  expectPunct ")"
  return (params, ← inner.block)

/-- A function without a name, from its parameters on. -/
def bareFunction (inner : Rules) : Read Reading := do
  let (params, body) ← functionParts inner
  return of (.functionExpr none params body)

/-! ## Arrow functions -/

/-- What follows the bracket that closes the outermost of the open ones; `depth` counts them. -/
def afterGroup : Nat → List Token → Option (List Token)
  | _, [] => none
  | depth, token :: tokens =>
    match token.lexeme with
    | .punct p =>
      if ["(", "[", "\x7b"].contains p then afterGroup (depth + 1) tokens
      else if [")", "]", "\x7d"].contains p then
        match depth with
        | 0 => none
        | 1 => some tokens
        | depth + 1 => afterGroup depth tokens
      else afterGroup depth tokens
    | _ => afterGroup depth tokens

/-- Whether the group of brackets in front is followed by an arrow. -/
def arrowBehindGroup (tokens : List Token) : Bool :=
  match afterGroup 0 tokens with
  | some (token :: _) => token.lexeme == .punct "=>"
  | _ => false

/-- A parameter of an arrow function: a plain name. -/
def arrowParameter : Read String := do
  let name ← identifier
  if (← isPunct "=") || (← isPunct "...") then unsupported .arrowPattern
  return name

/-- The parameters of an arrow function, if one begins here; otherwise nothing is taken. -/
def arrowParameters : Read (Option (List String)) := do
  match ← lexeme? with
  | some (.word w) =>
    if !isReserved w && (← second?) == some (.punct "=>") then return some [← identifier]
    return none
  | some (.punct "(") =>
    if arrowBehindGroup (← get).ahead then
      discard next
      let params ← commaList ")" arrowParameter
      expectPunct ")"
      return some params
    return none
  | _ => return none

/-- An arrow function behind its parameters. -/
def arrowBody (inner : Rules) (noIn : Bool) (params : List String) : Read Reading := do
  expectPunct "=>"
  if ← isPunct "\x7b" then return of (.arrow params (← inner.block) false)
  return of (.arrow params (← inner.assignment noIn) true)

/-! ## Operands -/

/-- The item of an array literal. -/
def arrayItem (inner : Rules) : Read Reading := do
  if ← isPunct "," then unsupported .arrayHole
  if ← isPunct "..." then unsupported .spreadElement
  inner.assignment false

/-- An array literal behind its opening bracket. -/
def array (inner : Rules) : Read Reading := do
  let items ← commaList "]" (arrayItem inner)
  expectPunct "]"
  return of (.array items)

/-- Whether an accessor begins here: `get` or `set` in front of another word. -/
def atAccessor : Read Bool := do
  let isAccessorWord := (← isWord "get") || (← isWord "set")
  match ← second? with
  | some (.word _) => return isAccessorWord
  | _ => return false

/-- The value of a property behind its key; a key that is an identifier may stand alone. -/
def propertyValue (inner : Rules) (shorthand : Option String) : Read Reading := do
  if ← eatPunct ":" then inner.assignment false
  else if ← isPunct "(" then bareFunction inner
  else
    match shorthand with
    | some name => return of (.ident name)
    | none => refuse (.spelled ":")

/-- A property of an object literal. -/
def property (inner : Rules) : Read (Property Reading String) := do
  if ← atAccessor then unsupported .accessor
  let spot ← next
  match spot.found with
  | some (.word w) =>
    mention w
    return ⟨.word w, ← propertyValue inner (if isReserved w then none else some w)⟩
  | some (.quoted raw) => return ⟨.quoted raw, ← propertyValue inner none⟩
  | some (.number raw) => return ⟨.number raw, ← propertyValue inner none⟩
  | some (.punct "[") => throw (.unsupported .computedKey spot.place)
  | some (.punct "...") => throw (.unsupported .objectSpread spot.place)
  | _ => refuseAt spot .property

/-- An object literal behind its opening brace. -/
def object (inner : Rules) : Read Reading := do
  let properties ← commaList "\x7d" (property inner)
  expectPunct "\x7d"
  return of (.object properties)

/-- A function expression behind its keyword. -/
def functionExpr (inner : Rules) : Read Reading := do
  if ← isPunct "*" then unsupported .generator
  let name ← if ← isPunct "(" then pure none else some <$> identifier
  let (params, body) ← functionParts inner
  return of (.functionExpr name params body)

/-- An operand that begins with a word. -/
def wordOperand (inner : Rules) (spot : Spot) (word : String) : Read Reading :=
  match word with
  | "this" => return of .thisExpr
  | "null" => return of (.literal .null)
  | "true" => return of (.literal (.bool true))
  | "false" => return of (.literal (.bool false))
  | "function" => functionExpr inner
  | "class" => throw (.unsupported .classExpression spot.place)
  | "super" => throw (.unsupported .super spot.place)
  | _ => do
    if isReserved word then refuseAt spot .expression
    mention word
    return of (.ident word)

/-- An operand by itself. Its first token is taken whatever it is. -/
def primary (inner : Rules) : Read Reading := do
  let spot ← next
  match spot.found with
  | some (.word w) => wordOperand inner spot w
  | some (.number raw) => return of (.literal (.number raw))
  | some (.quoted raw) => return of (.literal (.quoted raw))
  | some (.punct "(") =>
    let e ← inner.expression false
    expectPunct ")"
    return e
  | some (.punct "[") => array inner
  | some (.punct "\x7b") => object inner
  | some (.punct "/") | some (.punct "/=") => throw (.unsupported .regularExpression spot.place)
  | _ => refuseAt spot .expression

/-! ## Members, calls and constructions -/

/-- The argument of a call. -/
def argument (inner : Rules) : Read Reading := do
  if ← isPunct "..." then unsupported .spreadArgument
  inner.assignment false

/-- The arguments of a call with their brackets. -/
def arguments (inner : Rules) : Read (List Reading) := do
  expectPunct "("
  let args ← commaList ")" (argument inner)
  expectPunct ")"
  return args

/-- A member of what was read last, if a point or a bracket follows. -/
def memberSuffix (inner : Rules) (base : Reading) : Read (Option Reading) := do
  if ← eatPunct "." then return some (of (.member base (← propertyName)))
  if ← eatPunct "[" then
    let key ← inner.expression false
    expectPunct "]"
    return some (of (.index base key))
  return none

/-- A member or a call of what was read last. -/
def accessSuffix (inner : Rules) (base : Reading) : Read (Option Reading) := do
  match ← memberSuffix inner base with
  | some e => return some e
  | none =>
    if ← isPunct "(" then return some (of (.call base (← arguments inner)))
    return none

/-- A construction with its keyword; the callee takes members but no calls. -/
def construction (inner : Rules) : Read Reading := do
  expectWord "new"
  if ← isPunct "." then unsupported .newTarget
  let base ← if ← isWord "new" then inner.construction else primary inner
  let callee ← grow (memberSuffix inner) base
  let args ← if ← isPunct "(" then arguments inner else pure []
  return of (.newExpr callee args)

/-- An operand with its members and calls. -/
def access (inner : Rules) : Read Reading := do
  let base ← if ← isWord "new" then construction inner else primary inner
  grow (accessSuffix inner) base

/-! ## Operators -/

/-- A unary operator, by sign or by word. -/
def unaryOp? : Lexeme → Option UnaryOp
  | .punct p => UnaryOp.symbolic.find? (·.text == p)
  | .word w => (UnaryOp.all.filter (·.isKeyword)).find? (·.text == w)
  | _ => none

def updateOp? : Lexeme → Option UpdateOp
  | .punct p => UpdateOp.ofText? p
  | _ => none

/-- An operand with the unary and update operators around it. An update operator belongs to the
operand in front of it only if both stand on one line. -/
def unary (inner : Rules) : Read Reading := do
  let front ← lexeme?
  if let some op := front.bind unaryOp? then
    discard next
    return of (.unary op (← inner.unary))
  if let some op := front.bind updateOp? then
    discard next
    return of (.update op true (← inner.unary))
  let e ← access inner
  if let some op := (← lexeme?).bind updateOp? then
    if !(← newlineAhead) then
      discard next
      return of (.update op false e)
  return e

/-- An operator between two operands. -/
inductive Infix where
  | binary (op : BinaryOp)
  | logical (op : LogicalOp)
deriving Repr, DecidableEq

namespace Infix

def precedence : Infix → Precedence
  | binary op => op.precedence
  | logical op => op.precedence

/-- How tightly the operators of the right operand have to bind. Exponentiation alone groups to
the right. -/
def rightLevel : Infix → Precedence
  | binary .exp => BinaryOp.exp.precedence
  | op => op.precedence + 1

def apply (lhs rhs : Reading) : Infix → Reading
  | binary op => of (.binary op lhs rhs)
  | logical op => of (.logical op lhs rhs)

/-- The operator that a lexeme spells. -/
def ofLexeme? (noIn : Bool) : Lexeme → Option Infix
  | .punct p => ((LogicalOp.ofText? p).map logical).or ((BinaryOp.ofText? p).map binary)
  | .word "instanceof" => some (binary .instanceOf)
  | .word "in" => if noIn then none else some (binary .isIn)
  | _ => none

end Infix

/-- One more operator of at least the given level, with its right operand. -/
def infixSuffix (inner : Rules) (noIn : Bool) (level : Precedence) (lhs : Reading) :
    Read (Option Reading) := do
  match (← lexeme?).bind (Infix.ofLexeme? noIn) with
  | some op =>
    if op.precedence < level then return none
    discard next
    return some (op.apply lhs (← inner.binary noIn op.rightLevel))
  | none => return none

/-- Operands joined by operators of at least the given level. -/
def binary (inner : Rules) (noIn : Bool) (level : Precedence) : Read Reading := do
  grow (infixSuffix inner noIn level) (← unary inner)

/-- A choice between two expressions, or just what could have been its condition. -/
def conditional (inner : Rules) (noIn : Bool) : Read Reading := do
  let test ← binary inner noIn LogicalOp.or.precedence
  if ← eatPunct "?" then
    let consequent ← inner.assignment false
    expectPunct ":"
    return of (.conditional test consequent (← inner.assignment noIn))
  return test

/-- The assignment operator that a lexeme spells. -/
def assignOp? : Lexeme → Option AssignOp
  | .punct p => AssignOp.ofText? p
  | _ => none

/-- Whether a value can be assigned to: a name or a member. -/
def isReference (e : Reading) : Bool :=
  e.kind == .ident || e.kind == .member

/-- An expression without a comma of its own. -/
def assignment (inner : Rules) (noIn : Bool) : Read Reading := do
  match ← arrowParameters with
  | some params => arrowBody inner noIn params
  | none =>
    let target ← conditional inner noIn
    match (← lexeme?).bind assignOp? with
    | some op =>
      unless isReference target do unsupported .assignmentToValue
      discard next
      return of (.assign op target (← inner.assignment noIn))
    | none => return target

/-- A further item of a sequence. -/
def sequenceItem (inner : Rules) (noIn : Bool) : Read (Option Reading) := do
  if ← eatPunct "," then return some (← inner.assignment noIn)
  return none

/-- Expressions separated by commas; a single one stands for itself. -/
def expression (inner : Rules) (noIn : Bool) : Read Reading := do
  let first ← assignment inner noIn
  match ← many (sequenceItem inner noIn) with
  | [] => return first
  | rest => return of (.sequence (first :: rest))

end Grammar

end Graft
