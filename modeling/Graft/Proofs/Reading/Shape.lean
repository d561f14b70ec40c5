import Graft.Proofs.Syntax.Mentions
import Graft.Proofs.Token.Spelling
import Graft.Reading.Statement

/-!
# The shape of what is read

The grammar puts statements and expressions in the slots that are made for them, and names and
literals are spelled as the scanner spells them. The kinds of the children are nearly all that this
asks of a node, so that it is stated node by node.

* `Node.Shaped` - what the grammar asks of one node
* `Tree.shaped_mk` - a tree is shaped if its root is and its children are
-/

namespace Graft

variable {τ σ : Type}

namespace Kind

/-- The kinds of expressions. -/
def isExpression : Kind → Bool
  | ident | literal | thisExpr | array | object | functionExpr | arrow | sequence | unary | update
  | binary | logical | assign | conditional | call | newExpr | member => true
  | _ => false

/-- The kinds of statements. -/
def isStatement : Kind → Bool
  | varDecl | functionDecl | classDecl | returnStmt | ifStmt | forStmt | forIn | forOf | whileStmt
  | doWhile | switchStmt | block | withStmt | breakStmt | continueStmt | throwStmt | tryStmt
  | exprStmt | empty => true
  | _ => false

end Kind

/-- A spelling of a word, reserved or not. -/
def IsWord (text : String) : Prop :=
  (Lexeme.word text).Spelled

/-- A spelling of an identifier. -/
structure IsName (text : String) : Prop where
  word : IsWord text
  free : Grammar.isReserved text = false

/-- A literal that is spelled as a scanner spells it. -/
def Literal.Spelled : Literal → Prop
  | number raw => (Lexeme.number raw).Spelled
  | quoted raw => (Lexeme.quoted raw).Spelled
  | bool _ | null => True

/-- A key that is spelled as a scanner spells it. -/
def Key.Spelled : Key String → Prop
  | word name => IsWord name
  | quoted raw => (Lexeme.quoted raw).Spelled
  | number raw => (Lexeme.number raw).Spelled

namespace Tree

def IsExpr (t : Tree τ) : Prop := t.kind.isExpression

def IsStmt (t : Tree τ) : Prop := t.kind.isStatement

def IsBlock (t : Tree τ) : Prop := t.kind = .block

/-- The left side of a loop through a collection: an expression, or a declaration of one variable
without a value. -/
def IsForLeft (t : Tree τ) : Prop :=
  t.IsExpr ∨ ∃ kind name, t.node = .varDecl kind [⟨name, none⟩]

/-- What a loop may start with. -/
def IsForStart (t : Tree τ) : Prop :=
  t.IsExpr ∨ t.kind = .varDecl

/-- A name or a member. -/
def IsReference (t : Tree τ) : Prop :=
  t.kind = .ident ∨ t.kind = .member

/-- The function of a method: it has no name of its own. -/
def IsMethod (t : Tree τ) : Prop :=
  ∃ params body, t.node = .functionExpr none params body

end Tree

open Graft.Tree

/-- What the grammar asks of a node. -/
def Node.Shaped : Node (Tree τ) String → Prop
  | program body => ∀ c ∈ body, c.IsStmt
  | varDecl _ declarators =>
    declarators ≠ [] ∧ ∀ d ∈ declarators, IsName d.name ∧ ∀ e ∈ d.init, e.IsExpr
  | functionDecl name params body => IsName name ∧ (∀ p ∈ params, IsName p) ∧ body.IsBlock
  | classDecl name superclass methods =>
    IsName name ∧ (∀ e ∈ superclass, e.IsExpr) ∧ ∀ m ∈ methods, IsWord m.name ∧ m.function.IsMethod
  | returnStmt arg => ∀ e ∈ arg, e.IsExpr
  | ifStmt test consequent alternate =>
    test.IsExpr ∧ consequent.IsStmt ∧ ∀ c ∈ alternate, c.IsStmt
  | forStmt init test step body =>
    (∀ e ∈ init, e.IsForStart) ∧ (∀ e ∈ test, e.IsExpr) ∧ (∀ e ∈ step, e.IsExpr) ∧ body.IsStmt
  | forIn left right body | forOf left right body =>
    left.IsForLeft ∧ right.IsExpr ∧ body.IsStmt
  | whileStmt test body | doWhile body test | withStmt test body => test.IsExpr ∧ body.IsStmt
  | switchStmt discriminant cases => discriminant.IsExpr ∧ ∀ c ∈ cases, c.kind = .switchCase
  | switchCase test consequent => (∀ e ∈ test, e.IsExpr) ∧ ∀ c ∈ consequent, c.IsStmt
  | block body => ∀ c ∈ body, c.IsStmt
  | breakStmt | continueStmt | empty | thisExpr => True
  | throwStmt arg | exprStmt arg => arg.IsExpr
  | tryStmt body handler finalizer =>
    body.IsBlock ∧ (∀ h ∈ handler, (∀ p ∈ h.param, IsName p) ∧ h.body.IsBlock) ∧
      (∀ f ∈ finalizer, f.IsBlock) ∧ (handler.isSome ∨ finalizer.isSome)
  | ident name => IsName name
  | literal value => value.Spelled
  | array items => ∀ e ∈ items, e.IsExpr
  | object properties => ∀ p ∈ properties, p.key.Spelled ∧ p.value.IsExpr
  | functionExpr name params body =>
    (∀ x ∈ name, IsName x) ∧ (∀ p ∈ params, IsName p) ∧ body.IsBlock
  | arrow params body isExpression =>
    (∀ p ∈ params, IsName p) ∧ if isExpression then body.IsExpr else body.IsBlock
  | sequence items => 2 ≤ items.length ∧ ∀ e ∈ items, e.IsExpr
  | unary _ arg | update _ _ arg => arg.IsExpr
  | binary _ lhs rhs | logical _ lhs rhs | index lhs rhs => lhs.IsExpr ∧ rhs.IsExpr
  | assign _ target value => target.IsExpr ∧ target.IsReference ∧ value.IsExpr
  | conditional test consequent alternate => test.IsExpr ∧ consequent.IsExpr ∧ alternate.IsExpr
  | call callee args | newExpr callee args => callee.IsExpr ∧ ∀ e ∈ args, e.IsExpr
  | member base name => base.IsExpr ∧ IsWord name

namespace Tree

/-- Whether the grammar allows every node of a tree. -/
def Shaped (t : Tree τ) : Prop :=
  ∀ u ∈ t.preorder, u.node.Shaped

/-- What holds of all nodes of a tree holds of its root and of all nodes below. -/
theorem forall_preorder_iff {p : Tree τ → Prop} (t : Tree τ) :
    (∀ u ∈ t.preorder, p u) ↔ p t ∧ ∀ c ∈ t.children, ∀ u ∈ c.preorder, p u := by
  rw [preorder_eq, List.forall_mem_cons]
  simp only [List.mem_flatMap]
  exact and_congr_right fun _ =>
    ⟨fun h c hc u hu => h u ⟨c, hc, hu⟩, fun h u ⟨c, hc, hu⟩ => h c hc u hu⟩

theorem shaped_iff (t : Tree τ) : t.Shaped ↔ t.node.Shaped ∧ ∀ c ∈ t.children, c.Shaped :=
  forall_preorder_iff t

theorem shaped_mk {tag : τ} {node : Node (Tree τ) String} :
    (mk tag node).Shaped ↔ node.Shaped ∧ ∀ c ∈ node.children, c.Shaped :=
  shaped_iff _

end Tree

end Graft
