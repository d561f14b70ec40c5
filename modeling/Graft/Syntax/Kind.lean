/-!
# Kinds of nodes

The kind of a node is its constructor without the contents. A node may only be replaced by one of
its own kind, and kinds alone decide what a node means for loops, switches and functions.
-/

namespace Graft

/-- What a node of a syntax tree is. -/
inductive Kind where
  | program
  | varDecl
  | functionDecl
  | classDecl
  | returnStmt
  | ifStmt
  | forStmt
  | forIn
  | forOf
  | whileStmt
  | doWhile
  | switchStmt
  | switchCase
  | block
  | withStmt
  | breakStmt
  | continueStmt
  | throwStmt
  | tryStmt
  | exprStmt
  | empty
  | ident
  | literal
  | thisExpr
  | array
  | object
  | functionExpr
  | arrow
  | sequence
  | unary
  | update
  | binary
  | logical
  | assign
  | conditional
  | call
  | newExpr
  | member
deriving Repr, DecidableEq

namespace Kind

/-- Every kind, once. -/
def all : List Kind :=
  [program, varDecl, functionDecl, classDecl, returnStmt, ifStmt, forStmt, forIn, forOf, whileStmt,
   doWhile, switchStmt, switchCase, block, withStmt, breakStmt, continueStmt, throwStmt, tryStmt,
   exprStmt, empty, ident, literal, thisExpr, array, object, functionExpr, arrow, sequence, unary,
   update, binary, logical, assign, conditional, call, newExpr, member]

/-- The name under which a kind is asked for. -/
def name : Kind → String
  | program => "Program"
  | varDecl => "VarDecl"
  | functionDecl => "FunctionDecl"
  | classDecl => "ClassDecl"
  | returnStmt => "Return"
  | ifStmt => "If"
  | forStmt => "For"
  | forIn => "ForIn"
  | forOf => "ForOf"
  | whileStmt => "While"
  | doWhile => "DoWhile"
  | switchStmt => "Switch"
  | switchCase => "SwitchCase"
  | block => "Block"
  | withStmt => "With"
  | breakStmt => "Break"
  | continueStmt => "Continue"
  | throwStmt => "Throw"
  | tryStmt => "Try"
  | exprStmt => "Expr"
  | empty => "Empty"
  | ident => "Ident"
  | literal => "Literal"
  | thisExpr => "This"
  | array => "Array"
  | object => "Object"
  | functionExpr => "FunctionExpr"
  | arrow => "Arrow"
  | sequence => "Sequence"
  | unary => "Unary"
  | update => "Update"
  | binary => "Binary"
  | logical => "Logical"
  | assign => "Assign"
  | conditional => "Conditional"
  | call => "Call"
  | newExpr => "New"
  | member => "Member"

/-- The kind of a name. -/
def ofName? (s : String) : Option Kind :=
  all.find? (·.name == s)

def isFunction : Kind → Bool
  | functionDecl | functionExpr | arrow => true
  | _ => false

def isLoop : Kind → Bool
  | forStmt | forIn | forOf | whileStmt | doWhile => true
  | _ => false

def isSwitch (k : Kind) : Bool :=
  k == switchStmt

/-- Whether a whole node of this kind may be replaced. Leaves, the root, transfers of control and
plain operator expressions are not. -/
def isSite : Kind → Bool
  | program | ident | literal | breakStmt | continueStmt | returnStmt
  | binary | logical | assign | unary | update => false
  | _ => true

theorem mem_all (k : Kind) : k ∈ all := by
  cases k <;> decide

theorem ofName?_name (k : Kind) : ofName? k.name = some k := by
  cases k <;> decide

end Kind

end Graft
