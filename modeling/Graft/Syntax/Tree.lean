import Graft.Syntax.Node

/-!
# Trees

A tree is a node whose children are trees and whose names are texts. Every node carries a tag:
nothing in a tree that was just read, the identity of the node in a tree that shows part of a
script.

`Tree.fold` hands to every node the results of its children in their places. Recursions and
inductions that need no more than the list of children go by `Tree.size`, so that they do not meet
the lists and options inside a node.

* `fold_mk` - the equation of `Tree.fold`
* `size_lt_of_mem_children` - a child is smaller than its parent
* `induct` - induction over children
-/

namespace Graft

/-- A syntax tree with a tag at every node. -/
inductive Tree (τ : Type) where
  | mk (tag : τ) (node : Node (Tree τ) String)

variable {τ σ β : Type}

namespace Tree

def tag : Tree τ → τ
  | mk tag _ => tag

def node : Tree τ → Node (Tree τ) String
  | mk _ node => node

def kind (t : Tree τ) : Kind :=
  t.node.kind

def children (t : Tree τ) : List (Tree τ) :=
  t.node.children

/-! ## Folding -/

section Fold

variable (f : τ → Node β String → β)

mutual

/-- Fold a tree: `f` sees each node with the results of the children in place of the children. -/
def fold : Tree τ → β
  | mk tag node => f tag (foldNode node)

/-- The children of one node, folded. -/
def foldNode : Node (Tree τ) String → Node β String
  | .program body => .program (foldList body)
  | .varDecl kind declarators => .varDecl kind (foldDeclarators declarators)
  | .functionDecl name params body => .functionDecl name params (fold body)
  | .classDecl name superclass methods =>
    .classDecl name (foldOption superclass) (foldMethods methods)
  | .returnStmt arg => .returnStmt (foldOption arg)
  | .ifStmt test consequent alternate =>
    .ifStmt (fold test) (fold consequent) (foldOption alternate)
  | .forStmt init test step body =>
    .forStmt (foldOption init) (foldOption test) (foldOption step) (fold body)
  | .forIn left right body => .forIn (fold left) (fold right) (fold body)
  | .forOf left right body => .forOf (fold left) (fold right) (fold body)
  | .whileStmt test body => .whileStmt (fold test) (fold body)
  | .doWhile body test => .doWhile (fold body) (fold test)
  | .switchStmt discriminant cases => .switchStmt (fold discriminant) (foldList cases)
  | .switchCase test consequent => .switchCase (foldOption test) (foldList consequent)
  | .block body => .block (foldList body)
  | .withStmt scope body => .withStmt (fold scope) (fold body)
  | .breakStmt => .breakStmt
  | .continueStmt => .continueStmt
  | .throwStmt arg => .throwStmt (fold arg)
  | .tryStmt body handler finalizer =>
    .tryStmt (fold body) (foldCatch handler) (foldOption finalizer)
  | .exprStmt arg => .exprStmt (fold arg)
  | .empty => .empty
  | .ident name => .ident name
  | .literal value => .literal value
  | .thisExpr => .thisExpr
  | .array items => .array (foldList items)
  | .object properties => .object (foldProperties properties)
  | .functionExpr name params body => .functionExpr name params (fold body)
  | .arrow params body isExpression => .arrow params (fold body) isExpression
  | .sequence items => .sequence (foldList items)
  | .unary op arg => .unary op (fold arg)
  | .update op leading arg => .update op leading (fold arg)
  | .binary op lhs rhs => .binary op (fold lhs) (fold rhs)
  | .logical op lhs rhs => .logical op (fold lhs) (fold rhs)
  | .assign op target value => .assign op (fold target) (fold value)
  | .conditional test consequent alternate =>
    .conditional (fold test) (fold consequent) (fold alternate)
  | .call callee args => .call (fold callee) (foldList args)
  | .newExpr callee args => .newExpr (fold callee) (foldList args)
  | .member base name => .member (fold base) name
  | .index base key => .index (fold base) (fold key)

def foldList : List (Tree τ) → List β
  | [] => []
  | t :: ts => fold t :: foldList ts

def foldOption : Option (Tree τ) → Option β
  | none => none
  | some t => some (fold t)

def foldDeclarators : List (Declarator (Tree τ) String) → List (Declarator β String)
  | [] => []
  | ⟨name, init⟩ :: ds => ⟨name, foldOption init⟩ :: foldDeclarators ds

def foldMethods : List (Method (Tree τ) String) → List (Method β String)
  | [] => []
  | ⟨name, isStatic, function⟩ :: ms => ⟨name, isStatic, fold function⟩ :: foldMethods ms

def foldCatch : Option (Catch (Tree τ) String) → Option (Catch β String)
  | none => none
  | some ⟨param, body⟩ => some ⟨param, fold body⟩

def foldProperties : List (Property (Tree τ) String) → List (Property β String)
  | [] => []
  | ⟨key, value⟩ :: ps => ⟨key, fold value⟩ :: foldProperties ps

end

theorem foldList_eq_map (ts : List (Tree τ)) : foldList f ts = ts.map (fold f) := by
  induction ts with
  | nil => rfl
  | cons t ts ih => simp [foldList, ih]

theorem foldOption_eq_map (t : Option (Tree τ)) : foldOption f t = t.map (fold f) := by
  cases t <;> rfl

theorem foldDeclarators_eq_map (ds : List (Declarator (Tree τ) String)) :
    foldDeclarators f ds = ds.map (·.map (fold f) id) := by
  induction ds with
  | nil => rfl
  | cons d ds ih => simp [foldDeclarators, ih, Declarator.map, foldOption_eq_map]

theorem foldMethods_eq_map (ms : List (Method (Tree τ) String)) :
    foldMethods f ms = ms.map (·.map (fold f) id) := by
  induction ms with
  | nil => rfl
  | cons m ms ih => simp [foldMethods, ih, Method.map]

theorem foldCatch_eq_map (h : Option (Catch (Tree τ) String)) :
    foldCatch f h = h.map (·.map (fold f) id) := by
  cases h <;> simp [foldCatch, Catch.map]

theorem foldProperties_eq_map (ps : List (Property (Tree τ) String)) :
    foldProperties f ps = ps.map (·.map (fold f) id) := by
  induction ps with
  | nil => rfl
  | cons p ps ih =>
    obtain ⟨key, value⟩ := p
    cases key <;> simp [foldProperties, ih, Property.map, Key.map]

theorem foldNode_eq_map (n : Node (Tree τ) String) : foldNode f n = n.map (fold f) id := by
  cases n <;>
    simp [foldNode, Node.map, foldList_eq_map, foldOption_eq_map, foldDeclarators_eq_map,
      foldMethods_eq_map, foldCatch_eq_map, foldProperties_eq_map]

/-- A fold meets each node with its children folded. -/
theorem fold_mk (tag : τ) (node : Node (Tree τ) String) :
    fold f (mk tag node) = f tag (node.map (fold f) id) := by
  rw [fold, foldNode_eq_map]

end Fold

/-! ## Size and induction -/

/-- The number of nodes. -/
def size (t : Tree τ) : Nat :=
  t.fold fun _ node => 1 + node.children.foldr (· + ·) 0

theorem size_mk (tag : τ) (node : Node (Tree τ) String) :
    (mk tag node).size = 1 + (node.children.map size).foldr (· + ·) 0 := by
  simp only [size, fold_mk, Node.children_map]
  rfl

/-- A child is smaller than its parent. -/
theorem size_lt_of_mem_children {t c : Tree τ} (h : c ∈ t.children) : c.size < t.size := by
  obtain ⟨tag, node⟩ := t
  obtain ⟨front, back, hc⟩ := List.append_of_mem h
  have hn : node.children = front ++ c :: back := hc
  rw [size_mk, hn, ← List.sum_eq_foldr]
  simp
  omega

/-- What holds of a node whenever it holds of the node's children holds of every tree. -/
theorem induct {motive : Tree τ → Prop}
    (step : ∀ t, (∀ c ∈ t.children, motive c) → motive t) (t : Tree τ) : motive t :=
  step t fun c _ => induct step c
termination_by t.size
decreasing_by exact size_lt_of_mem_children ‹_›

/-! ## The nodes of a tree -/

/-- All subtrees, each in front of its own parts and the parts in source order. -/
def preorder (t : Tree τ) : List (Tree τ) :=
  t :: t.children.attach.flatMap fun ⟨c, _⟩ => preorder c
termination_by t.size
decreasing_by exact size_lt_of_mem_children ‹_›

/-- The subtrees in the same order, each with its parent; `parent` is that of the root. -/
def preorderUnder (parent : Option (Tree τ)) (t : Tree τ) : List (Tree τ × Option (Tree τ)) :=
  (t, parent) :: t.children.attach.flatMap fun ⟨c, _⟩ => preorderUnder (some t) c
termination_by t.size
decreasing_by exact size_lt_of_mem_children ‹_›

theorem preorder_eq (t : Tree τ) : t.preorder = t :: t.children.flatMap preorder := by
  rw [preorder]
  simp

theorem preorderUnder_eq (parent : Option (Tree τ)) (t : Tree τ) :
    preorderUnder parent t = (t, parent) :: t.children.flatMap (preorderUnder (some t)) := by
  rw [preorderUnder]
  simp

/-- The listing with parents holds the same nodes. -/
theorem map_fst_preorderUnder (parent : Option (Tree τ)) (t : Tree τ) :
    (preorderUnder parent t).map Prod.fst = t.preorder := by
  induction t using induct generalizing parent with
  | step t ih =>
    rw [preorder_eq, preorderUnder_eq, List.map_cons, List.map_flatMap]
    simp only [List.flatMap]
    rw [List.map_congr_left fun c hc => ih c hc (some t)]

end Tree

end Graft
