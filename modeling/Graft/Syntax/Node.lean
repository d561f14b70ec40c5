import Graft.Syntax.Kind
import Graft.Syntax.Operator

/-!
# Nodes

One layer of a syntax tree. A node is generic in what stands for its children (`α`) and for its
names (`ν`): the children are trees in a tree and references in a script, the names are texts or
symbols. Every operation that goes through the parts of a node takes them in source order.

* `children_map`, `kind_map` - what `map` does to the children and the kind
-/

namespace Graft

/-! ## Parts of nodes -/

/-- The three keywords that declare variables. -/
inductive VarKind where
  | var | let | const
deriving Repr, DecidableEq

/-- The keyword itself. -/
def VarKind.text : VarKind → String
  | .var => "var"
  | .let => "let"
  | .const => "const"

/-- The declaration that a word begins. -/
def VarKind.ofText? (s : String) : Option VarKind :=
  [VarKind.var, .let, .const].find? (·.text == s)

/-- A literal. Numbers and strings keep the spelling of the source. -/
inductive Literal where
  | number (raw : String)
  /-- With its quotes. -/
  | quoted (raw : String)
  | bool (value : Bool)
  | null
deriving Repr, DecidableEq

/-- One variable of a declaration. -/
structure Declarator (α ν : Type) where
  name : ν
  init : Option α
deriving Repr, DecidableEq

/-- A method of a class; the function is a function expression without a name. -/
structure Method (α ν : Type) where
  name : ν
  isStatic : Bool
  function : α
deriving Repr, DecidableEq

/-- The clause of a `try` that catches. -/
structure Catch (α ν : Type) where
  param : Option ν
  body : α
deriving Repr, DecidableEq

/-- The key of a property. -/
inductive Key (ν : Type) where
  | word (name : ν)
  | quoted (raw : String)
  | number (raw : String)
deriving Repr, DecidableEq

/-- One property of an object literal. -/
structure Property (α ν : Type) where
  key : Key ν
  value : α
deriving Repr, DecidableEq

/-! ## Nodes -/

/-- A statement, an expression, a case of a switch or a whole program. -/
inductive Node (α ν : Type) where
  | program (body : List α)
  | varDecl (kind : VarKind) (declarators : List (Declarator α ν))
  | functionDecl (name : ν) (params : List ν) (body : α)
  | classDecl (name : ν) (superclass : Option α) (methods : List (Method α ν))
  | returnStmt (arg : Option α)
  | ifStmt (test consequent : α) (alternate : Option α)
  | forStmt (init test step : Option α) (body : α)
  | forIn (left right body : α)
  | forOf (left right body : α)
  | whileStmt (test body : α)
  | doWhile (body test : α)
  | switchStmt (discriminant : α) (cases : List α)
  | switchCase (test : Option α) (consequent : List α)
  | block (body : List α)
  | withStmt (scope body : α)
  | breakStmt
  | continueStmt
  | throwStmt (arg : α)
  | tryStmt (body : α) (handler : Option (Catch α ν)) (finalizer : Option α)
  | exprStmt (arg : α)
  | empty
  | ident (name : ν)
  | literal (value : Literal)
  | thisExpr
  | array (items : List α)
  | object (properties : List (Property α ν))
  | functionExpr (name : Option ν) (params : List ν) (body : α)
  /-- The body is a block unless `isExpression` is set. -/
  | arrow (params : List ν) (body : α) (isExpression : Bool)
  | sequence (items : List α)
  | unary (op : UnaryOp) (arg : α)
  /-- The operator stands in front of its operand if `leading` is set. -/
  | update (op : UpdateOp) (leading : Bool) (arg : α)
  | binary (op : BinaryOp) (lhs rhs : α)
  | logical (op : LogicalOp) (lhs rhs : α)
  | assign (op : AssignOp) (target value : α)
  | conditional (test consequent alternate : α)
  | call (callee : α) (args : List α)
  | newExpr (callee : α) (args : List α)
  /-- A member by name, `base.name`; the name is no reference. -/
  | member (base : α) (name : ν)
  /-- A member by value, `base[key]`. -/
  | index (base key : α)
deriving Repr, DecidableEq

variable {α β ν μ : Type}

/-! ## Going through one part -/

def Declarator.map (f : α → β) (g : ν → μ) (d : Declarator α ν) : Declarator β μ :=
  ⟨g d.name, d.init.map f⟩

def Method.map (f : α → β) (g : ν → μ) (m : Method α ν) : Method β μ :=
  ⟨g m.name, m.isStatic, f m.function⟩

def Catch.map (f : α → β) (g : ν → μ) (h : Catch α ν) : Catch β μ :=
  ⟨h.param.map g, f h.body⟩

def Key.map (g : ν → μ) : Key ν → Key μ
  | word name => word (g name)
  | quoted raw => quoted raw
  | number raw => number raw

def Property.map (f : α → β) (g : ν → μ) (p : Property α ν) : Property β μ :=
  ⟨p.key.map g, f p.value⟩

section Traverse

variable {M : Type → Type} [Monad M]

def Declarator.traverse (f : α → M β) (g : ν → M μ) (d : Declarator α ν) :
    M (Declarator β μ) := do
  return ⟨← g d.name, ← d.init.mapM f⟩

def Method.traverse (f : α → M β) (g : ν → M μ) (m : Method α ν) : M (Method β μ) := do
  return ⟨← g m.name, m.isStatic, ← f m.function⟩

def Catch.traverse (f : α → M β) (g : ν → M μ) (h : Catch α ν) : M (Catch β μ) := do
  return ⟨← h.param.mapM g, ← f h.body⟩

def Key.traverse (g : ν → M μ) : Key ν → M (Key μ)
  | word name => do return word (← g name)
  | quoted raw => return quoted raw
  | number raw => return number raw

def Property.traverse (f : α → M β) (g : ν → M μ) (p : Property α ν) : M (Property β μ) := do
  return ⟨← p.key.traverse g, ← f p.value⟩

end Traverse

/-! ## Nodes as a whole -/

namespace Node

/-- The constructor without the contents; both forms of member access are one kind. -/
def kind : Node α ν → Kind
  | program .. => .program
  | varDecl .. => .varDecl
  | functionDecl .. => .functionDecl
  | classDecl .. => .classDecl
  | returnStmt .. => .returnStmt
  | ifStmt .. => .ifStmt
  | forStmt .. => .forStmt
  | forIn .. => .forIn
  | forOf .. => .forOf
  | whileStmt .. => .whileStmt
  | doWhile .. => .doWhile
  | switchStmt .. => .switchStmt
  | switchCase .. => .switchCase
  | block .. => .block
  | withStmt .. => .withStmt
  | breakStmt => .breakStmt
  | continueStmt => .continueStmt
  | throwStmt .. => .throwStmt
  | tryStmt .. => .tryStmt
  | exprStmt .. => .exprStmt
  | empty => .empty
  | ident .. => .ident
  | literal .. => .literal
  | thisExpr => .thisExpr
  | array .. => .array
  | object .. => .object
  | functionExpr .. => .functionExpr
  | arrow .. => .arrow
  | sequence .. => .sequence
  | unary .. => .unary
  | update .. => .update
  | binary .. => .binary
  | logical .. => .logical
  | assign .. => .assign
  | conditional .. => .conditional
  | call .. => .call
  | newExpr .. => .newExpr
  | member .. | index .. => .member

/-- The direct children in source order. -/
def children : Node α ν → List α
  | program body | block body => body
  | varDecl _ declarators => declarators.filterMap (·.init)
  | functionDecl _ _ body | functionExpr _ _ body | arrow _ body _ => [body]
  | classDecl _ superclass methods => superclass.toList ++ methods.map (·.function)
  | returnStmt arg => arg.toList
  | ifStmt test consequent alternate => test :: consequent :: alternate.toList
  | forStmt init test step body =>
    init.toList ++ (test.toList ++ (step.toList ++ [body]))
  | forIn left right body | forOf left right body => [left, right, body]
  | whileStmt test body => [test, body]
  | doWhile body test => [body, test]
  | switchStmt discriminant cases => discriminant :: cases
  | switchCase test consequent => test.toList ++ consequent
  | withStmt scope body => [scope, body]
  | throwStmt arg | exprStmt arg => [arg]
  | tryStmt body handler finalizer =>
    body :: ((handler.map (·.body)).toList ++ finalizer.toList)
  | breakStmt | continueStmt | empty | ident _ | literal _ | thisExpr => []
  | array items | sequence items => items
  | object properties => properties.map (·.value)
  | unary _ arg | update _ _ arg => [arg]
  | binary _ lhs rhs | logical _ lhs rhs => [lhs, rhs]
  | assign _ target value => [target, value]
  | conditional test consequent alternate => [test, consequent, alternate]
  | call callee args | newExpr callee args => callee :: args
  | member base _ => [base]
  | index base key => [base, key]

/-! ## Going through all parts -/

/-- Replace every child by its image under `f` and every name by its image under `g`. -/
def map (f : α → β) (g : ν → μ) : Node α ν → Node β μ
  | program body => .program (body.map f)
  | varDecl kind declarators =>
    .varDecl kind (declarators.map (·.map f g))
  | functionDecl name params body => .functionDecl (g name) (params.map g) (f body)
  | classDecl name superclass methods =>
    .classDecl (g name) (superclass.map f) (methods.map (·.map f g))
  | returnStmt arg => .returnStmt (arg.map f)
  | ifStmt test consequent alternate => .ifStmt (f test) (f consequent) (alternate.map f)
  | forStmt init test step body =>
    .forStmt (init.map f) (test.map f) (step.map f) (f body)
  | forIn left right body => .forIn (f left) (f right) (f body)
  | forOf left right body => .forOf (f left) (f right) (f body)
  | whileStmt test body => .whileStmt (f test) (f body)
  | doWhile body test => .doWhile (f body) (f test)
  | switchStmt discriminant cases => .switchStmt (f discriminant) (cases.map f)
  | switchCase test consequent => .switchCase (test.map f) (consequent.map f)
  | block body => .block (body.map f)
  | withStmt scope body => .withStmt (f scope) (f body)
  | breakStmt => .breakStmt
  | continueStmt => .continueStmt
  | throwStmt arg => .throwStmt (f arg)
  | tryStmt body handler finalizer =>
    .tryStmt (f body) (handler.map (·.map f g)) (finalizer.map f)
  | exprStmt arg => .exprStmt (f arg)
  | empty => .empty
  | ident name => .ident (g name)
  | literal value => .literal value
  | thisExpr => .thisExpr
  | array items => .array (items.map f)
  | object properties => .object (properties.map (·.map f g))
  | functionExpr name params body => .functionExpr (name.map g) (params.map g) (f body)
  | arrow params body isExpression => .arrow (params.map g) (f body) isExpression
  | sequence items => .sequence (items.map f)
  | unary op arg => .unary op (f arg)
  | update op leading arg => .update op leading (f arg)
  | binary op lhs rhs => .binary op (f lhs) (f rhs)
  | logical op lhs rhs => .logical op (f lhs) (f rhs)
  | assign op target value => .assign op (f target) (f value)
  | conditional test consequent alternate => .conditional (f test) (f consequent) (f alternate)
  | call callee args => .call (f callee) (args.map f)
  | newExpr callee args => .newExpr (f callee) (args.map f)
  | member base name => .member (f base) (g name)
  | index base key => .index (f base) (f key)

/-- Run `f` on every child and `g` on every name, in source order, and put the results back. -/
def traverse {M : Type → Type} [Monad M] (f : α → M β) (g : ν → M μ) :
    Node α ν → M (Node β μ)
  | program body => return .program (← body.mapM f)
  | varDecl kind declarators => return .varDecl kind (← declarators.mapM (·.traverse f g))
  | functionDecl name params body =>
    return .functionDecl (← g name) (← params.mapM g) (← f body)
  | classDecl name superclass methods =>
    return .classDecl (← g name) (← superclass.mapM f) (← methods.mapM (·.traverse f g))
  | returnStmt arg => return .returnStmt (← arg.mapM f)
  | ifStmt test consequent alternate =>
    return .ifStmt (← f test) (← f consequent) (← alternate.mapM f)
  | forStmt init test step body =>
    return .forStmt (← init.mapM f) (← test.mapM f) (← step.mapM f) (← f body)
  | forIn left right body => return .forIn (← f left) (← f right) (← f body)
  | forOf left right body => return .forOf (← f left) (← f right) (← f body)
  | whileStmt test body => return .whileStmt (← f test) (← f body)
  | doWhile body test => return .doWhile (← f body) (← f test)
  | switchStmt discriminant cases => return .switchStmt (← f discriminant) (← cases.mapM f)
  | switchCase test consequent => return .switchCase (← test.mapM f) (← consequent.mapM f)
  | block body => return .block (← body.mapM f)
  | withStmt scope body => return .withStmt (← f scope) (← f body)
  | breakStmt => return .breakStmt
  | continueStmt => return .continueStmt
  | throwStmt arg => return .throwStmt (← f arg)
  | tryStmt body handler finalizer =>
    return .tryStmt (← f body) (← handler.mapM (·.traverse f g)) (← finalizer.mapM f)
  | exprStmt arg => return .exprStmt (← f arg)
  | empty => return .empty
  | ident name => return .ident (← g name)
  | literal value => return .literal value
  | thisExpr => return .thisExpr
  | array items => return .array (← items.mapM f)
  | object properties => return .object (← properties.mapM (·.traverse f g))
  | functionExpr name params body =>
    return .functionExpr (← name.mapM g) (← params.mapM g) (← f body)
  | arrow params body isExpression =>
    return .arrow (← params.mapM g) (← f body) isExpression
  | sequence items => return .sequence (← items.mapM f)
  | unary op arg => return .unary op (← f arg)
  | update op leading arg => return .update op leading (← f arg)
  | binary op lhs rhs => return .binary op (← f lhs) (← f rhs)
  | logical op lhs rhs => return .logical op (← f lhs) (← f rhs)
  | assign op target value => return .assign op (← f target) (← f value)
  | conditional test consequent alternate =>
    return .conditional (← f test) (← f consequent) (← f alternate)
  | call callee args => return .call (← f callee) (← args.mapM f)
  | newExpr callee args => return .newExpr (← f callee) (← args.mapM f)
  | member base name => return .member (← f base) (← g name)
  | index base key => return .index (← f base) (← f key)

@[simp] theorem kind_map (f : α → β) (g : ν → μ) (n : Node α ν) : (n.map f g).kind = n.kind := by
  cases n <;> rfl

theorem children_map (f : α → β) (g : ν → μ) (n : Node α ν) :
    (n.map f g).children = n.children.map f := by
  cases n <;>
    simp [map, children, Declarator.map, Method.map, Catch.map, Property.map, Function.comp_def,
      List.filterMap_map, List.map_filterMap, Option.toList_map]

end Node

end Graft
