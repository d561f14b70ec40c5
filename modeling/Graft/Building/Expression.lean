import Graft.Building.Builder
import Graft.Reading.Expression

/-!
# Building expressions

The rules for expressions once more, as a builder follows them: where a rule of a reader gives a
tree, the rule here stores its nodes and gives the place of the last, and where a rule of a reader
is told whether `in` is an operator, the rule here looks at the switch.
-/

namespace Graft

/-- The rules for what may be nested. -/
structure BuildRules where
  statement : Build NodeId
  block : Build NodeId
  expression : Build NodeId
  assignment : Build NodeId
  binary : Precedence → Build NodeId
  unary : Build NodeId
  construction : Build NodeId

namespace Building

open Build
open Grammar (isReserved arrowBehindGroup unaryOp? updateOp? assignOp? Infix)

/-! ## Names -/

/-- A name that is no reserved word. -/
def identifier : Build Sym := do
  match ← lexeme? with
  | some (.word w) =>
    if isReserved w then refuse .identifier
    discard next
    intern w
  | _ => refuse .identifier

/-- The name of a property or a method, which may be a reserved word. -/
def propertyName : Build Sym := do
  match ← lexeme? with
  | some (.word w) =>
    discard next
    intern w
  | _ => refuse .propertyName

/-! ## Functions -/

/-- A parameter of a function: a plain name. -/
def parameter : Build Sym := do
  if ← isPunct "..." then unsupported .restParameter
  let name ← identifier
  if ← isPunct "=" then unsupported .defaultParameter
  return name

/-- Parameters and body of a function; `in` is an operator in the body. -/
def functionParts (inner : BuildRules) : Build (List Sym × NodeId) := do
  expectPunct "("
  let params ← commaList ")" parameter
  expectPunct ")"
  return (params, ← allowIn inner.block)

/-- A function without a name, from its parameters on. -/
def bareFunction (inner : BuildRules) : Build NodeId := do
  let (params, body) ← functionParts inner
  store (.functionExpr none params body)

/-! ## Arrow functions -/

/-- A parameter of an arrow function: a plain name. -/
def arrowParameter : Build Sym := do
  let name ← identifier
  if (← isPunct "=") || (← isPunct "...") then unsupported .arrowPattern
  return name

/-- The parameters of an arrow function, if one begins here; otherwise nothing is taken. -/
def arrowParameters : Build (Option (List Sym)) := do
  match ← lexeme? with
  | some (.word w) =>
    if !isReserved w && (← second?) == some (.punct "=>") then return some [← identifier]
    return none
  | some (.punct "(") =>
    if arrowBehindGroup (← get).ahead then
      discard next
      let params ← commaList ")" arrowParameter
      expectPunct ")"
      return some params
    return none
  | _ => return none

/-- An arrow function behind its parameters; `in` is an operator in a body with braces. -/
def arrowBody (inner : BuildRules) (params : List Sym) : Build NodeId := do
  expectPunct "=>"
  if ← isPunct "\x7b" then store (.arrow params (← allowIn inner.block) false)
  else store (.arrow params (← inner.assignment) true)

/-! ## Operands -/

/-- The item of an array literal. -/
def arrayItem (inner : BuildRules) : Build NodeId := do
  if ← isPunct "," then unsupported .arrayHole
  if ← isPunct "..." then unsupported .spreadElement
  inner.assignment

/-- An array literal behind its opening bracket. -/
def array (inner : BuildRules) : Build NodeId := do
  let items ← allowIn (commaList "]" (arrayItem inner))
  expectPunct "]"
  store (.array items)

/-- Whether an accessor begins here: `get` or `set` in front of another word. -/
def atAccessor : Build Bool := do
  let isAccessorWord := (← isWord "get") || (← isWord "set")
  match ← second? with
  | some (.word _) => return isAccessorWord
  | _ => return false

/-- The value of a property behind its key; a key that is an identifier may stand alone. -/
def propertyValue (inner : BuildRules) (shorthand : Option Sym) : Build NodeId := do
  if ← eatPunct ":" then inner.assignment
  else if ← isPunct "(" then bareFunction inner
  else
    match shorthand with
    | some name => store (.ident name)
    | none => refuse (.spelled ":")

/-- A property of an object literal. -/
def property (inner : BuildRules) : Build (Property NodeId Sym) := do
  if ← atAccessor then unsupported .accessor
  let spot ← next
  match spot.found with
  | some (.word w) =>
    let name ← intern w
    return ⟨.word name, ← propertyValue inner (if isReserved w then none else some name)⟩
  | some (.quoted raw) => return ⟨.quoted raw, ← propertyValue inner none⟩
  | some (.number raw) => return ⟨.number raw, ← propertyValue inner none⟩
  | some (.punct "[") => throw (.unsupported .computedKey spot.place)
  | some (.punct "...") => throw (.unsupported .objectSpread spot.place)
  | _ => refuseAt spot .property

/-- An object literal behind its opening brace. -/
def object (inner : BuildRules) : Build NodeId := do
  let properties ← allowIn (commaList "\x7d" (property inner))
  expectPunct "\x7d"
  store (.object properties)

/-- A function expression behind its keyword. -/
def functionExpr (inner : BuildRules) : Build NodeId := do
  if ← isPunct "*" then unsupported .generator
  let name ← if ← isPunct "(" then pure none else some <$> identifier
  let (params, body) ← functionParts inner
  store (.functionExpr name params body)

/-- An operand that begins with a word. -/
def wordOperand (inner : BuildRules) (spot : Spot) (word : String) : Build NodeId :=
  match word with
  | "this" => store .thisExpr
  | "null" => store (.literal .null)
  | "true" => store (.literal (.bool true))
  | "false" => store (.literal (.bool false))
  | "function" => functionExpr inner
  | "class" => throw (.unsupported .classExpression spot.place)
  | "super" => throw (.unsupported .super spot.place)
  | _ => do
    if isReserved word then refuseAt spot .expression
    store (.ident (← intern word))

/-- An operand by itself. Its first token is taken whatever it is. -/
def primary (inner : BuildRules) : Build NodeId := do
  let spot ← next
  match spot.found with
  | some (.word w) => wordOperand inner spot w
  | some (.number raw) => store (.literal (.number raw))
  | some (.quoted raw) => store (.literal (.quoted raw))
  | some (.punct "(") =>
    let e ← allowIn inner.expression
    expectPunct ")"
    return e
  | some (.punct "[") => array inner
  | some (.punct "\x7b") => object inner
  | some (.punct "/") | some (.punct "/=") => throw (.unsupported .regularExpression spot.place)
  | _ => refuseAt spot .expression

/-! ## Members, calls and constructions -/

/-- The argument of a call. -/
def argument (inner : BuildRules) : Build NodeId := do
  if ← isPunct "..." then unsupported .spreadArgument
  inner.assignment

/-- The arguments of a call with their brackets. -/
def arguments (inner : BuildRules) : Build (List NodeId) := do
  expectPunct "("
  let args ← allowIn (commaList ")" (argument inner))
  expectPunct ")"
  return args

/-- A member of what was read last, if a point or a bracket follows. -/
def memberSuffix (inner : BuildRules) (base : NodeId) : Build (Option NodeId) := do
  if ← eatPunct "." then return some (← store (.member base (← propertyName)))
  if ← eatPunct "[" then
    let key ← allowIn inner.expression
    expectPunct "]"
    return some (← store (.index base key))
  return none

/-- A member or a call of what was read last. -/
def accessSuffix (inner : BuildRules) (base : NodeId) : Build (Option NodeId) := do
  match ← memberSuffix inner base with
  | some e => return some e
  | none =>
    if ← isPunct "(" then return some (← store (.call base (← arguments inner)))
    return none

/-- A construction with its keyword; the callee takes members but no calls. -/
def construction (inner : BuildRules) : Build NodeId := do
  expectWord "new"
  if ← isPunct "." then unsupported .newTarget
  let base ← if ← isWord "new" then inner.construction else primary inner
  let callee ← grow (memberSuffix inner) base
  let args ← if ← isPunct "(" then arguments inner else pure []
  store (.newExpr callee args)

/-- An operand with its members and calls. -/
def access (inner : BuildRules) : Build NodeId := do
  let base ← if ← isWord "new" then construction inner else primary inner
  grow (accessSuffix inner) base

/-! ## Operators -/

/-- An operand with the unary and update operators around it. An update operator belongs to the
operand in front of it only if both stand on one line. -/
def unary (inner : BuildRules) : Build NodeId := do
  let front ← lexeme?
  if let some op := front.bind unaryOp? then
    discard next
    return ← store (.unary op (← inner.unary))
  if let some op := front.bind updateOp? then
    discard next
    return ← store (.update op true (← inner.unary))
  let e ← access inner
  if let some op := (← lexeme?).bind updateOp? then
    if !(← newlineAhead) then
      discard next
      return ← store (.update op false e)
  return e

/-- An operator with its operands. -/
def infixNode (lhs rhs : NodeId) : Infix → Node NodeId Sym
  | .binary op => .binary op lhs rhs
  | .logical op => .logical op lhs rhs

/-- One more operator of at least the given level, with its right operand. -/
def infixSuffixFor (inner : BuildRules) (level : Precedence) (lhs : NodeId) (noIn : Bool) :
    Build (Option NodeId) := do
  match (← lexeme?).bind (Infix.ofLexeme? noIn) with
  | some op =>
    if op.precedence < level then return none
    discard next
    return some (← store (infixNode lhs (← inner.binary op.rightLevel) op))
  | none => return none

/-- One more operator, where the switch for `in` stands as it does. -/
def infixSuffix (inner : BuildRules) (level : Precedence) (lhs : NodeId) :
    Build (Option NodeId) := do
  infixSuffixFor inner level lhs (← get).noIn

/-- Operands joined by operators of at least the given level. -/
def binary (inner : BuildRules) (level : Precedence) : Build NodeId := do
  grow (infixSuffix inner level) (← unary inner)

/-- A choice between two expressions, or just what could have been its condition. -/
def conditional (inner : BuildRules) : Build NodeId := do
  let test ← binary inner LogicalOp.or.precedence
  if ← eatPunct "?" then
    let consequent ← allowIn inner.assignment
    expectPunct ":"
    store (.conditional test consequent (← inner.assignment))
  else return test

/-- Whether the node at a place can be assigned to: a name or a member. -/
def isReference (s : Script) (id : NodeId) : Bool :=
  s.kind id == .ident || s.kind id == .member

/-- An expression without a comma of its own. -/
def assignment (inner : BuildRules) : Build NodeId := do
  match ← arrowParameters with
  | some params => arrowBody inner params
  | none =>
    let target ← conditional inner
    let isTarget := isReference (← get).script target
    match (← lexeme?).bind assignOp? with
    | some op =>
      unless isTarget do unsupported .assignmentToValue
      discard next
      store (.assign op target (← inner.assignment))
    | none => return target

/-- A further item of a sequence. -/
def sequenceItem (inner : BuildRules) : Build (Option NodeId) := do
  if ← eatPunct "," then return some (← inner.assignment)
  return none

/-- Expressions separated by commas; a single one stands for itself. -/
def expression (inner : BuildRules) : Build NodeId := do
  let first ← assignment inner
  match ← many (sequenceItem inner) with
  | [] => return first
  | rest => store (.sequence (first :: rest))

end Building

end Graft
