import Graft.Printing.Layout

/-!
# The emitter

Printing step by step. One text grows at its end; beside it stand the indentation of the next line
and two flags. A statement begins a new line unless it was told to go on the one that is there, as
an `if` is behind `else`. In the head of a `for` every `in` is put in parentheses; the flag is set
when the head begins, taken back inside of parentheses, and is then what it was.

Nothing is taken back from the text but in one place: an operand in front of which its operator
stands is put out first, and only then a space in front of it, if the two would become one sign.

A `Printer` is what a parent needs of a child: the steps that print it in each of its uses, and
what the steps of the parent depend on.

* `Printer.expr` - an expression that has to bind at least as tightly as a level
* `Node.emitStatement` - a node as a statement
* `Tree.printer_mk` - the printer of a tree from the printers of its parts
-/

namespace Graft

/-- The text that was put out, and how it goes on. -/
structure Emitter where
  indent : Nat
  output : String
  /-- The next statement goes on the line that is there. -/
  inlineNext : Bool
  /-- In the head of a `for`, where a bare `in` would end the first expression. -/
  noIn : Bool
deriving Repr, DecidableEq

namespace Emitter

/-- Nothing is put out yet. -/
def new : Emitter := ⟨0, "", false, false⟩

/-- What was put out, without the line breaks in front. -/
def text (e : Emitter) : String :=
  String.ofList (e.output.toList.dropWhile (· == '\n'))

end Emitter

/-- Steps of an emitter. -/
abbrev Emit := StateM Emitter Unit

/-! ## Steps -/

namespace Emit

/-- The emitter behind the steps. -/
def after (p : Emit) (e : Emitter) : Emitter :=
  (p e).2

/-- Text on the line that is there. -/
def put (text : String) : Emit :=
  modify fun e => { e with output := e.output ++ text }

/-- Text on a new line. -/
def putLine (text : String) : Emit :=
  modify fun e =>
    { e with output := e.output ++ String.ofList ('\n' :: Piece.indentation e.indent) ++ text }

/-- The start of a statement: on a new line unless it goes on the one that is there. -/
def start (text : String) : Emit := do
  let goesOn := (← get).inlineNext
  modify fun e => { e with inlineNext := false }
  if goesOn then put text else putLine text

/-- The next statement goes on the line that is there. -/
def goOn : Emit :=
  modify fun e => { e with inlineNext := true }

/-- One step further in. -/
def deeper (p : Emit) : Emit := do
  modify fun e => { e with indent := e.indent + 1 }
  p
  modify fun e => { e with indent := e.indent - 1 }

/-- With a flag for the head of a `for` that is afterwards what it was. -/
def withNoIn (noIn : Bool) (p : Emit) : Emit := do
  let saved := (← get).noIn
  modify fun e => { e with noIn := noIn }
  p
  modify fun e => { e with noIn := saved }

/-- An operand, with a space in front of it if it begins with the sign that stands there. -/
def apart (sign : String) (p : Emit) : Emit := do
  let front := (← get).output.length
  p
  modify fun e =>
    let chars := e.output.toList
    if sign.toList.isPrefixOf (chars.drop front) then
      { e with output := String.ofList (chars.take front ++ ' ' :: chars.drop front) }
    else e

/-! ## Several steps -/

/-- Nothing, where a part is left out. -/
def optional : Option Emit → Emit
  | none => pure ()
  | some p => p

/-- One behind the other. -/
def inTurn : List Emit → Emit
  | [] => pure ()
  | p :: ps => do
    p
    inTurn ps

/-- One behind the other, with commas between them. -/
def separated : List Emit → Emit
  | [] => pure ()
  | [p] => p
  | p :: ps => do
    p
    put ", "
    separated ps

def enclosed (opening : String) (inside : Emit) (closing : String) : Emit := do
  put opening
  inside
  put closing

def parens (inside : Emit) : Emit :=
  enclosed "(" inside ")"

def parensIf (c : Prop) [Decidable c] (inside : Emit) : Emit :=
  if c then parens inside else inside

/-- Operands with a space on either side of what stands between them. -/
def infixed (lhs : Emit) (op : String) (rhs : Emit) : Emit := do
  lhs
  put " "
  put op
  put " "
  rhs

/-- Statements in braces, one step further in. -/
def braces (statements : Emit) : Emit := do
  put "\x7b"
  deeper statements
  putLine "\x7d"

/-- A space and a part, unless it is left out. -/
def spaced : Option Emit → Emit
  | none => pure ()
  | some part => do
    put " "
    part

/-- The start of a statement that has something in parentheses behind its keyword. -/
def headed (keyword : String) (head : Emit) : Emit := do
  start (keyword ++ " (")
  head
  put ")"

/-! ## Parts of nodes -/

def params (names : List String) : Emit :=
  parens (separated (names.map put))

/-- A function from its keyword on. -/
def function (name : Option String) (parameters : List String) (body : Emit) : Emit := do
  put "function"
  spaced (name.map put)
  params parameters
  put " "
  body

def declarator (name : String) (init : Option Emit) : Emit :=
  match init with
  | some init => infixed (put name) "=" init
  | none => put name

/-- A declaration of variables without its semicolon. -/
def varDecl (kind : VarKind) (declarators : List Emit) : Emit := do
  put kind.text
  match declarators with
  | [] => pure ()
  | _ => do
    put " "
    separated declarators

/-- A class behind its keyword; every method begins a line of its own. -/
def classTail (name : String) (superclass : Option Emit) (methods : List Emit) : Emit := do
  put name
  optional (superclass.map fun superclass => do
    put " extends "
    superclass)
  put " "
  match methods with
  | [] => put "\x7b\x7d"
  | _ => braces (inTurn methods)

def method (name : String) (isStatic : Bool) (function : Emit) : Emit := do
  putLine (if isStatic then "static " else "")
  put name
  function

def key : Key String → Emit
  | .word name => put name
  | .quoted raw | .number raw => put raw

def object (properties : List Emit) : Emit :=
  match properties with
  | [] => put "\x7b\x7d"
  | _ => enclosed "\x7b " (separated properties) " \x7d"

def literal : Literal → Emit
  | .number raw | .quoted raw => put raw
  | .bool true => put "true"
  | .bool false => put "false"
  | .null => put "null"

/-- A unary operator in front of its operand. -/
def unary (op : UnaryOp) (arg : Emit) : Emit :=
  if op.isKeyword then do
    put op.text
    put " "
    arg
  else do
    put op.text
    apart op.text arg

/-- What catches, in front of its block. -/
def catchHead (param : Option String) : Emit :=
  match param with
  | some param => do
    put " catch ("
    put param
    put ") "
  | none => put " catch "

end Emit

/-! ## Printers -/

/-- What a parent needs of a child to print it. -/
structure Printer where
  kind : Kind
  /-- How tightly it binds as an expression. -/
  level : Precedence
  /-- Whether it is an application of `in`. -/
  isIn : Bool
  isNumber : Bool
  /-- The kind of the node with whose text its text begins. -/
  opening : Kind
  /-- Whether a chain of members goes back to a call. -/
  hasCall : Bool
  /-- An expression without parentheses around it; nothing for a statement. -/
  bare : Emit
  /-- A declaration of variables without its semicolon; nothing for any other node. -/
  declaration : Emit
  /-- A method's function behind its name; nothing for what is no function expression. -/
  methodTail : Emit
  /-- The statements of a block in braces; nothing for any other node. -/
  block : Emit
  statement : Emit

namespace Printer

open Emit

/-- An expression that has to bind at least as tightly as `level`. -/
def expr (p : Printer) (level : Precedence) : Emit := do
  let noIn := (← get).noIn
  if p.level < level || (noIn && p.isIn) then parens (withNoIn false p.bare) else p.bare

def items (ps : List Printer) : Emit :=
  separated (ps.map fun p => p.expr .assignment)

/-- An expression as a statement. One that would begin like a block or a function declaration is
put in parentheses. -/
def exprStatement (p : Printer) : Emit := do
  parensIf (p.opening = .object ∨ p.opening = .functionExpr) (p.expr .sequence)
  put ";"

def statements (ps : List Printer) : Emit :=
  inTurn (ps.map fun p => p.statement)

/-- A statement as a block. -/
def braced (p : Printer) : Emit :=
  if p.kind = .block then p.block else braces p.statement

/-- A statement as the body of another: a block on the same line, anything else on the next. -/
def controlled (p : Printer) : Emit :=
  if p.kind = .block then do
    put " "
    p.block
  else deeper p.statement

/-- A statement behind `else`; an `if` stays on the line. -/
def alternative (p : Printer) : Emit :=
  if p.kind = .ifStmt then do
    put " "
    goOn
    p.statement
  else p.controlled

/-- The left side of the head of a `for`: a declaration without semicolon, or an expression. -/
def forLeft (p : Printer) (level : Precedence) : Emit :=
  if p.kind = .varDecl then p.declaration else p.expr level

/-- What a member is taken of. A number is put in parentheses, which keeps its point apart. -/
def base (p : Printer) : Emit :=
  if p.isNumber then parens (p.expr .sequence) else p.expr .access

/-- What is constructed. The parentheses behind a call would be taken for those of the
construction. -/
def constructed (p : Printer) : Emit :=
  if p.level < Precedence.access ∨ p.hasCall then parens (p.expr .sequence) else p.expr .access

end Printer

/-! ## Printers of nodes -/

namespace Node

open Emit

/-- The variables of a declaration, from its keyword on. -/
def emitDeclaration : Node Printer String → Emit
  | varDecl kind declarators =>
    Emit.varDecl kind (declarators.map fun d =>
      declarator d.name (d.init.map fun e => e.expr .assignment))
  | _ => pure ()

/-- The parameters and the body of a function expression. -/
def emitMethodTail : Node Printer String → Emit
  | functionExpr _ parameters body => do
    params parameters
    put " "
    body.braced
  | _ => pure ()

/-- The statements of a block in braces. -/
def emitBlock : Node Printer String → Emit
  | block [] => put "\x7b\x7d"
  | block body => braces (Printer.statements body)
  | _ => pure ()

/-- An expression without parentheses around it. -/
def emitBare : Node Printer String → Emit
  | ident name => put name
  | literal value => Emit.literal value
  | thisExpr => put "this"
  | array items => enclosed "[" (Printer.items items) "]"
  | object properties =>
    Emit.object (properties.map fun p => do
      key p.key
      put ": "
      p.value.expr .assignment)
  | functionExpr name parameters body => function name parameters body.braced
  | arrow parameters body false => infixed (params parameters) "=>" body.braced
  | arrow parameters body true =>
    infixed (params parameters) "=>"
      (if body.opening = .object then parens (body.expr .sequence) else body.expr .assignment)
  | sequence items => Printer.items items
  | unary op arg => Emit.unary op (arg.expr .unary)
  | update op true arg => do
    put op.text
    arg.expr .access
  | update op false arg => do
    arg.expr .access
    put op.text
  | binary op lhs rhs =>
    infixed (lhs.expr (Layout.operandLevels op).1) op.text (rhs.expr (Layout.operandLevels op).2)
  | logical op lhs rhs =>
    infixed (lhs.expr op.precedence) op.text (rhs.expr (op.precedence + 1))
  | assign op target value => infixed (target.expr .access) op.text (value.expr .assignment)
  | conditional test consequent alternate =>
    infixed (test.expr (Precedence.conditional + 1)) "?"
      (infixed (consequent.expr .assignment) ":" (alternate.expr .assignment))
  | call callee args => do
    callee.expr .access
    parens (Printer.items args)
  | newExpr callee args => do
    put "new "
    callee.constructed
    parens (Printer.items args)
  | member base name => do
    base.base
    put "."
    put name
  | index base key => do
    base.base
    enclosed "[" (key.expr .sequence) "]"
  | _ => pure ()

/-- What stands between the parentheses of a `for` with semicolons. -/
def emitForHead (init test step : Option Printer) : Emit := do
  optional (init.map fun p => withNoIn true (p.forLeft .sequence))
  put ";"
  spaced (test.map fun p => p.expr .sequence)
  put ";"
  spaced (step.map fun p => p.expr .sequence)

/-- A statement. What is no statement is printed as `other`, which is given. -/
def emitStatement (other : Emit) : Node Printer String → Emit
  | program body => Printer.statements body
  | varDecl kind declarators => do
    start ""
    (varDecl kind declarators).emitDeclaration
    put ";"
  | functionDecl name parameters body => do
    start ""
    function (some name) parameters body.braced
  | classDecl name superclass methods => do
    start "class "
    classTail name (superclass.map fun p => p.expr .access)
      (methods.map fun m => Emit.method m.name m.isStatic m.function.methodTail)
  | returnStmt arg => do
    start "return"
    spaced (arg.map fun p => p.expr .sequence)
    put ";"
  | ifStmt test consequent none => do
    headed "if" (test.expr .sequence)
    consequent.controlled
  | ifStmt test consequent (some alternate) => do
    headed "if" (test.expr .sequence)
    put " "
    consequent.braced
    put " else"
    alternate.alternative
  | forStmt init test step body => do
    headed "for" (emitForHead init test step)
    body.controlled
  | forIn left right body => do
    headed "for" (infixed (left.forLeft .access) "in" (right.expr .sequence))
    body.controlled
  | forOf left right body => do
    headed "for" (infixed (left.forLeft .access) "of" (right.expr .assignment))
    body.controlled
  | whileStmt test body => do
    headed "while" (test.expr .sequence)
    body.controlled
  | doWhile body test => do
    start "do"
    body.controlled
    (if body.kind = .block then put " while (" else putLine "while (")
    test.expr .sequence
    put ");"
  | switchStmt discriminant cases => do
    headed "switch" (discriminant.expr .sequence)
    put " "
    braces (Printer.statements cases)
  | switchCase none consequent => do
    start "default:"
    deeper (Printer.statements consequent)
  | switchCase (some test) consequent => do
    start "case "
    test.expr .sequence
    put ":"
    deeper (Printer.statements consequent)
  | block body => do
    start ""
    (block body).emitBlock
  | withStmt scope body => do
    headed "with" (scope.expr .sequence)
    body.controlled
  | breakStmt => start "break;"
  | continueStmt => start "continue;"
  | throwStmt arg => do
    start "throw "
    arg.expr .sequence
    put ";"
  | tryStmt body handler finalizer => do
    start "try "
    body.braced
    optional (handler.map fun h => do
      catchHead h.param
      h.body.braced)
    optional (finalizer.map fun p => do
      put " finally "
      p.braced)
  | exprStmt arg => do
    start ""
    arg.exprStatement
  | empty => start ";"
  | _ => do
    start ""
    other

/-- The printer of a node from the printers of its children. -/
def printer (n : Node Printer String) : Printer :=
  let asExpr : Printer :=
    { kind := n.kind
      level := n.precedence
      isIn := n.isInOperation
      isNumber := n.isNumber
      opening := (n.leftChild?.map (·.opening)).getD n.kind
      hasCall := match n with
        | call .. => true
        | member base _ | index base _ => base.hasCall
        | _ => false
      bare := n.emitBare
      declaration := n.emitDeclaration
      methodTail := n.emitMethodTail
      block := n.emitBlock
      statement := pure () }
  { asExpr with statement := emitStatement asExpr.exprStatement n }

end Node

/-! ## Printing trees and scripts -/

variable {τ : Type}

namespace Tree

/-- The steps that print a tree. -/
def printer (t : Tree τ) : Printer :=
  t.fold fun _ n => n.printer

theorem printer_mk (tag : τ) (n : Node (Tree τ) String) :
    (mk tag n).printer = (n.map printer id).printer :=
  fold_mk _ tag n

end Tree

namespace Script

/-- The steps that print what hangs under a node. -/
def printer (s : Script) (id : NodeId) : Printer :=
  (s.tree id).printer

/-- What is put out for what hangs under a node, without the line breaks in front. -/
def emittedAt (s : Script) (id : NodeId) : String :=
  ((s.printer id).statement.after .new).text

/-- What is put out for the whole program. A last line ends like all others. -/
def emitted (s : Script) : String :=
  match s.emittedAt root with
  | "" => ""
  | lines => lines ++ "\n"

end Script

end Graft
