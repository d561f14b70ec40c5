import Graft.Printing.Piece
import Graft.Syntax.Script

/-!
# Layout of trees

How each node is written. Parentheses follow from precedence and are not remembered from a source;
a semicolon stands behind every statement that takes one; each statement begins on a line of its
own, indented by the blocks around it.

In the head of a `for` a bare `in` would end the first expression, so that there every `in` is put
in parentheses. That holds of everything printed within the head, bodies of functions included,
until a parenthesis is open.

What a parent needs to know of a child's written form is its `Form`. The form of a node follows
from the forms of its children, so printing is compositional by construction.

* `Form.expr` - an expression that has to bind at least as tightly as a level
* `Form.statement` - a node as a statement; an expression becomes a statement of its own
* `Form.braced` - a statement as a block, with braces of its own unless it is one
* `Form.controlled` - a statement as the body of another one
* `Tree.form_mk` - the form of a tree from the forms of its parts
-/

namespace Graft

open Piece

variable {τ : Type}

/-! ## What a layout depends on -/

namespace Node

variable {α ν : Type}

/-- How tightly the written form of an expression binds. A number with a sign binds like the
operator that its sign would be. -/
def precedence : Node α ν → Precedence
  | sequence _ => .sequence
  | assign .. | arrow .. => .assignment
  | conditional .. => .conditional
  | logical op _ _ => op.precedence
  | binary op _ _ => op.precedence
  | unary .. | update _ true _ => .unary
  | update _ false _ => .postfixed
  | call .. | newExpr .. | member .. | index .. => .access
  | literal (.number raw) =>
    if raw.toList.head? = some '+' ∨ raw.toList.head? = some '-' then .unary else .primary
  | _ => .primary

/-- Whether a node is an application of the operator `in`. -/
def isInOperation : Node α ν → Bool
  | binary .isIn _ _ => true
  | _ => false

def isNumber : Node α ν → Bool
  | literal (.number _) => true
  | _ => false

/-- The child with whose text the text of an expression begins. -/
def leftChild? : Node α ν → Option α
  | binary _ lhs _ | logical _ lhs _ => some lhs
  | assign _ target _ => some target
  | conditional test _ _ => some test
  | sequence items => items.head?
  | call callee _ => some callee
  | member base _ | index base _ => some base
  | update _ false arg => some arg
  | _ => none

end Node

/-! ## Parts that hold no nodes -/

/-- How deeply a statement is indented and whether it stands in the head of a `for`. -/
structure Setting where
  indent : Nat
  noIn : Bool
deriving Repr, DecidableEq

namespace Setting

/-- The left margin, outside every head. -/
def outer : Setting := ⟨0, false⟩

/-- One step further in. -/
def deeper (s : Setting) : Setting := { s with indent := s.indent + 1 }

/-- In the head of a `for`. -/
def inHead (s : Setting) : Setting := { s with noIn := true }

/-- Behind an open parenthesis. -/
def inParens (s : Setting) : Setting := { s with noIn := false }

/-- The start of a statement's line. -/
def line (s : Setting) : Piece := .line s.indent

end Setting

namespace Layout

/-- Operators between their operands, with a space on either side. -/
def infixed (lhs : List Piece) (op : Piece) (rhs : List Piece) : List Piece :=
  lhs ++ space :: op :: space :: rhs

/-- Statements in braces, each with its own line in front. -/
def braces (s : Setting) (statements : List Piece) : List Piece :=
  punct "\x7b" :: statements ++ [s.line, punct "\x7d"]

/-- Braces without contents. -/
def noBraces : List Piece := [punct "\x7b", punct "\x7d"]

/-- A declared name with its value. -/
def declarator (name : String) (init : Option (List Piece)) : List Piece :=
  match init with
  | some init => infixed [word name] (punct "=") init
  | none => [word name]

/-- A declaration of variables without its semicolon. -/
def varDecl (kind : VarKind) (declarators : List (List Piece)) : List Piece :=
  match declarators with
  | [] => [word kind.text]
  | _ => word kind.text :: space :: commas declarators

/-- A function from its keyword on. -/
def function (name : Option String) (parameters : List String) (body : List Piece) : List Piece :=
  word "function" :: (match name with
    | some name => [space, word name]
    | none => []) ++ params parameters ++ space :: body

/-- A class; every method has its own line in front. -/
def classDecl (s : Setting) (name : String) (superclass : Option (List Piece))
    (methods : List (List Piece)) : List Piece :=
  word "class" :: space :: word name :: (match superclass with
    | some superclass => space :: word "extends" :: space :: superclass
    | none => []) ++ space :: (match methods with
    | [] => noBraces
    | _ => braces s methods.flatten)

/-- A method behind the start of its line. -/
def method (name : String) (isStatic : Bool) (function : List Piece) : List Piece :=
  (if isStatic then [word "static", space] else []) ++ word name :: function

/-- A keyword and a condition or the like in parentheses. -/
def headed (keyword : String) (head : List Piece) : List Piece :=
  word keyword :: space :: parens head

/-- Something left out, or a space and the thing itself. -/
def spaced (part : Option (List Piece)) : List Piece :=
  match part with
  | some part => space :: part
  | none => []

/-- The key of a property. -/
def key : Key String → Piece
  | .word name => word name
  | .quoted raw => quoted raw
  | .number raw => number raw

/-- An object literal. -/
def object (properties : List (List Piece)) : List Piece :=
  match properties with
  | [] => noBraces
  | _ => enclosed "\x7b" (space :: commas properties ++ [space]) "\x7d"

/-- The spelling of a literal. -/
def literal : Literal → Piece
  | .number raw => number raw
  | .quoted raw => quoted raw
  | .bool true => word "true"
  | .bool false => word "false"
  | .null => word "null"

/-- A unary operator in front of its operand. Two signs that would become one are kept apart. -/
def unary (op : UnaryOp) (arg : List Piece) : List Piece :=
  if op.isKeyword then word op.text :: space :: arg
  else if op.text.toList.isPrefixOf (charsOf arg) then punct op.text :: space :: arg
  else punct op.text :: arg

/-- How tightly the operands of a binary operator have to bind. -/
def operandLevels (op : BinaryOp) : Precedence × Precedence :=
  match op with
  | .exp => (.postfixed, op.precedence)
  | _ => (op.precedence, op.precedence + 1)

/-- The sign or the word of a binary operator. -/
def binaryOp (op : BinaryOp) : Piece :=
  match op with
  | .isIn | .instanceOf => word op.text
  | _ => punct op.text

/-- What catches, in front of its block. -/
def catchHead (param : Option String) : List Piece :=
  match param with
  | some param => [word "catch", space] ++ parens [word param] ++ [space]
  | none => [word "catch", space]

end Layout

/-! ## Forms -/

/-- What a parent needs to know of a child's written form. -/
structure Form where
  kind : Kind
  /-- How tightly it binds as an expression. -/
  level : Precedence
  /-- Whether it is an application of `in`. -/
  isIn : Bool
  isNumber : Bool
  /-- The kind of the node with whose text its text begins. -/
  opening : Kind
  /-- Whether a chain of members goes back to a call. -/
  hasCall : Bool
  /-- An expression without parentheses around it; nothing for a statement. -/
  bare : Setting → List Piece
  /-- A declaration of variables without its semicolon; nothing for any other node. -/
  declaration : Setting → List Piece
  /-- A method's function behind its name; nothing for what is no function expression. -/
  methodTail : Setting → List Piece
  /-- The statements of a block in braces; nothing for any other node. -/
  block : Setting → List Piece
  /-- A statement. One that goes on a line (`inline`) does not begin a new one. -/
  statement : Setting → (inline : Bool) → List Piece

namespace Form

open Layout

/-- An expression that has to bind at least as tightly as `level`. -/
def expr (f : Form) (level : Precedence) (s : Setting) : List Piece :=
  if f.level < level || (s.noIn && f.isIn) then parens (f.bare s.inParens) else f.bare s

/-- An item of a list of expressions. -/
def items (fs : List Form) (s : Setting) : List Piece :=
  commas (fs.map fun f => f.expr .assignment s)

/-- An expression as a statement. One that would begin like a block or a function declaration is
put in parentheses. -/
def exprStatement (f : Form) (s : Setting) : List Piece :=
  (if f.opening = .object ∨ f.opening = .functionExpr then parens (f.expr .sequence s)
   else f.expr .sequence s) ++ [punct ";"]

/-- Statements in a row, each on lines of its own. -/
def statements (fs : List Form) (s : Setting) : List Piece :=
  fs.flatMap fun f => f.statement s false

/-- A statement as a block. -/
def braced (f : Form) (s : Setting) : List Piece :=
  if f.kind = .block then f.block s else braces s (f.statement s.deeper false)

/-- A statement as the body of another: a block on the same line, anything else on the next. -/
def controlled (f : Form) (s : Setting) : List Piece :=
  if f.kind = .block then space :: f.block s else f.statement s.deeper false

/-- A statement behind `else`. -/
def alternative (f : Form) (s : Setting) : List Piece :=
  if f.kind = .ifStmt then space :: f.statement s true else f.controlled s

/-- The left side of the head of a `for`: a declaration without semicolon, or an expression. -/
def forLeft (f : Form) (level : Precedence) (s : Setting) : List Piece :=
  if f.kind = .varDecl then f.declaration s else f.expr level s

/-- What a member is taken of. A number is put in parentheses, which keeps its point apart. -/
def base (f : Form) (s : Setting) : List Piece :=
  if f.isNumber then parens (f.expr .sequence s) else f.expr .access s

/-- What is constructed. The parentheses behind a call would be taken for those of the
construction. -/
def constructed (f : Form) (s : Setting) : List Piece :=
  if f.level < Precedence.access ∨ f.hasCall then parens (f.expr .sequence s)
  else f.expr .access s

end Form

/-! ## Forms of nodes -/

namespace Node

open Layout

/-- The variables of a declaration, from its keyword on. -/
def declaration (n : Node Form String) (s : Setting) : List Piece :=
  match n with
  | varDecl kind declarators =>
    Layout.varDecl kind (declarators.map fun d =>
      declarator d.name (d.init.map fun e => e.expr .assignment s))
  | _ => []

/-- The parameters and the body of a function expression. -/
def methodTail (n : Node Form String) (s : Setting) : List Piece :=
  match n with
  | functionExpr _ parameters body => params parameters ++ space :: body.braced s
  | _ => []

/-- The statements of a block in braces. -/
def blockBody (n : Node Form String) (s : Setting) : List Piece :=
  match n with
  | block [] => noBraces
  | block body => braces s (Form.statements body s.deeper)
  | _ => []

/-- An expression without parentheses around it. -/
def bare (n : Node Form String) (s : Setting) : List Piece :=
  match n with
  | ident name => [word name]
  | literal value => [Layout.literal value]
  | thisExpr => [word "this"]
  | array items => enclosed "[" (Form.items items s) "]"
  | object properties =>
    Layout.object (properties.map fun p =>
      key p.key :: punct ":" :: space :: p.value.expr .assignment s)
  | functionExpr name parameters body => function name parameters (body.braced s)
  | arrow parameters body false =>
    infixed (params parameters) (punct "=>") (body.braced s)
  | arrow parameters body true =>
    infixed (params parameters) (punct "=>")
      (if body.opening = .object then parens (body.expr .sequence s)
       else body.expr .assignment s)
  | sequence items => Form.items items s
  | unary op arg => Layout.unary op (arg.expr .unary s)
  | update op true arg => punct op.text :: arg.expr .access s
  | update op false arg => arg.expr .access s ++ [punct op.text]
  | binary op lhs rhs =>
    infixed (lhs.expr (operandLevels op).1 s) (binaryOp op) (rhs.expr (operandLevels op).2 s)
  | logical op lhs rhs =>
    infixed (lhs.expr op.precedence s) (punct op.text) (rhs.expr (op.precedence + 1) s)
  | assign op target value =>
    infixed (target.expr .access s) (punct op.text) (value.expr .assignment s)
  | conditional test consequent alternate =>
    infixed (test.expr (Precedence.conditional + 1) s) (punct "?")
      (infixed (consequent.expr .assignment s) (punct ":") (alternate.expr .assignment s))
  | call callee args => callee.expr .access s ++ parens (Form.items args s)
  | newExpr callee args =>
    word "new" :: space :: callee.constructed s ++ parens (Form.items args s)
  | member base name => base.base s ++ [punct ".", word name]
  | index base key => base.base s ++ enclosed "[" (key.expr .sequence s) "]"
  | _ => []

/-- The start of an `if`, which may stand on the line of an `else`. -/
def ifHead (test : Form) (s : Setting) (inline : Bool) : List Piece :=
  (if inline then [] else [s.line]) ++ headed "if" (test.expr .sequence s)

/-- A statement. What is no statement is printed as `other`, which is given. -/
def statement (other : Setting → List Piece) (n : Node Form String) (s : Setting)
    (inline : Bool) : List Piece :=
  match n with
  | program body => Form.statements body s
  | varDecl .. => s.line :: n.declaration s ++ [punct ";"]
  | functionDecl name parameters body =>
    s.line :: function (some name) parameters (body.braced s)
  | classDecl name superclass methods =>
    s.line :: Layout.classDecl s name (superclass.map fun e => e.expr .access s)
      (methods.map fun m =>
        s.deeper.line :: method m.name m.isStatic (m.function.methodTail s.deeper))
  | returnStmt arg =>
    s.line :: word "return" :: spaced (arg.map fun e => e.expr .sequence s) ++ [punct ";"]
  | ifStmt test consequent none => ifHead test s inline ++ consequent.controlled s
  | ifStmt test consequent (some alternate) =>
    ifHead test s inline ++ space :: consequent.braced s ++
      space :: word "else" :: alternate.alternative s
  | forStmt init test step body =>
    s.line :: headed "for"
      (((init.map fun e => e.forLeft .sequence s.inHead).getD []) ++
        punct ";" :: spaced (test.map fun e => e.expr .sequence s) ++
        punct ";" :: spaced (step.map fun e => e.expr .sequence s)) ++ body.controlled s
  | forIn left right body =>
    s.line :: headed "for"
      (infixed (left.forLeft .access s) (word "in") (right.expr .sequence s)) ++
      body.controlled s
  | forOf left right body =>
    s.line :: headed "for"
      (infixed (left.forLeft .access s) (word "of") (right.expr .assignment s)) ++
      body.controlled s
  | whileStmt test body =>
    s.line :: headed "while" (test.expr .sequence s) ++ body.controlled s
  | doWhile body test =>
    s.line :: word "do" :: body.controlled s ++ (if body.kind = .block then space else s.line) ::
      headed "while" (test.expr .sequence s) ++ [punct ";"]
  | switchStmt discriminant cases =>
    s.line :: headed "switch" (discriminant.expr .sequence s) ++
      space :: braces s (Form.statements cases s.deeper)
  | switchCase none consequent =>
    s.line :: word "default" :: punct ":" :: Form.statements consequent s.deeper
  | switchCase (some test) consequent =>
    s.line :: word "case" :: space :: test.expr .sequence s ++
      punct ":" :: Form.statements consequent s.deeper
  | block .. => s.line :: n.blockBody s
  | withStmt scope body =>
    s.line :: headed "with" (scope.expr .sequence s) ++ body.controlled s
  | breakStmt => [s.line, word "break", punct ";"]
  | continueStmt => [s.line, word "continue", punct ";"]
  | throwStmt arg => s.line :: word "throw" :: space :: arg.expr .sequence s ++ [punct ";"]
  | tryStmt body handler finalizer =>
    s.line :: word "try" :: space :: body.braced s ++
      ((handler.map fun h => space :: catchHead h.param ++ h.body.braced s).getD []) ++
      ((finalizer.map fun f => space :: word "finally" :: space :: f.braced s).getD [])
  | exprStmt arg => s.line :: arg.exprStatement s
  | empty => [s.line, punct ";"]
  | _ => s.line :: other s

/-- The form of a node from the forms of its children. -/
def form (n : Node Form String) : Form :=
  let asExpr : Form :=
    { kind := n.kind
      level := n.precedence
      isIn := n.isInOperation
      isNumber := n.isNumber
      opening := (n.leftChild?.map (·.opening)).getD n.kind
      hasCall := match n with
        | call .. => true
        | member base _ | index base _ => base.hasCall
        | _ => false
      bare := n.bare
      declaration := n.declaration
      methodTail := n.methodTail
      block := n.blockBody
      statement := fun _ _ => [] }
  { asExpr with statement := statement asExpr.exprStatement n }

end Node

/-! ## Printing trees and scripts -/

namespace Tree

/-- The written form of a tree. -/
def form (t : Tree τ) : Form :=
  t.fold fun _ n => n.form

theorem form_mk (tag : τ) (n : Node (Tree τ) String) :
    (mk tag n).form = (n.map form id).form :=
  fold_mk _ tag n

/-- The pieces of a tree as a statement at the left margin. -/
def pieces (t : Tree τ) : List Piece :=
  t.form.statement .outer false

/-- The text of one statement, or of an expression as a statement, without the line breaks in
front. -/
def text (t : Tree τ) : String :=
  String.ofList ((charsOf t.pieces).dropWhile (· == '\n'))

end Tree

namespace Script

/-- The text of what hangs under a node. -/
def textAt (s : Script) (id : NodeId) : String :=
  (s.tree id).text

/-- The text of the whole program. A last line ends like all others. -/
def text (s : Script) : String :=
  match s.textAt root with
  | "" => ""
  | lines => lines ++ "\n"

end Script

end Graft
