import Graft.Proofs.Reading.Shape
import Graft.Proofs.Scope.Declarations

/-!
# The slots of the grammar

Every slot of a node is made for statements, for expressions or for one kind of node. So what may
stand in a slot is told by its kind, and only the left side of a loop through a collection has to
be looked into. What a node asks of its children is thus asked of their heads, and it stays true
when a child gives way to another one of its kind.

* `Node.Fits` - what the slots of a node ask of the heads in them
* `Node.Spelled` - what is asked of the contents of a node by themselves
* `Tree.Grammatical` - a tree whose nodes all obey the grammar
* `Node.Stable` - what stays true when children give way to others of their kinds
-/

namespace Graft

open Graft.Tree

variable {α β τ : Type}

/-! ## Heads -/

/-- A node without what hangs under it. -/
abbrev Head := Node Unit String

namespace Node

/-- A node without its children. -/
def head (n : Node α String) : Head :=
  n.map (fun _ => ()) id

/-- The left side of a loop through a collection. -/
def each? {ν : Type} : Node α ν → Option α
  | forIn left _ _ | forOf left _ _ => some left
  | _ => none

/-- What the slots of a node ask of the kinds of what stands in them. -/
def Slots : Node Kind String → Prop
  | program body | block body => ∀ k ∈ body, k.isStatement
  | varDecl _ declarators => ∀ d ∈ declarators, ∀ k ∈ d.init, k.isExpression
  | functionDecl _ _ body | functionExpr _ _ body => body = .block
  | classDecl _ superclass methods =>
    (∀ k ∈ superclass, k.isExpression) ∧ ∀ m ∈ methods, m.function = .functionExpr
  | returnStmt arg => ∀ k ∈ arg, k.isExpression
  | ifStmt test consequent alternate =>
    test.isExpression ∧ consequent.isStatement ∧ ∀ k ∈ alternate, k.isStatement
  | forStmt init test step body =>
    (∀ k ∈ init, k.isExpression ∨ k = .varDecl) ∧ (∀ k ∈ test, k.isExpression) ∧
      (∀ k ∈ step, k.isExpression) ∧ body.isStatement
  | forIn left right body | forOf left right body =>
    (left.isExpression ∨ left = .varDecl) ∧ right.isExpression ∧ body.isStatement
  | whileStmt test body | doWhile body test | withStmt test body =>
    test.isExpression ∧ body.isStatement
  | switchStmt discriminant cases => discriminant.isExpression ∧ ∀ k ∈ cases, k = .switchCase
  | switchCase test consequent =>
    (∀ k ∈ test, k.isExpression) ∧ ∀ k ∈ consequent, k.isStatement
  | breakStmt | continueStmt | empty | ident _ | literal _ | thisExpr => True
  | throwStmt arg | exprStmt arg => arg.isExpression
  | tryStmt body handler finalizer =>
    body = .block ∧ (∀ h ∈ handler, h.body = .block) ∧ ∀ k ∈ finalizer, k = .block
  | array items | sequence items => ∀ k ∈ items, k.isExpression
  | object properties => ∀ p ∈ properties, p.value.isExpression
  | arrow _ body isExpression => if isExpression then body.isExpression else body = .block
  | unary _ arg | update _ _ arg => arg.isExpression
  | binary _ lhs rhs | logical _ lhs rhs | index lhs rhs => lhs.isExpression ∧ rhs.isExpression
  | assign _ target value => (target = .ident ∨ target = .member) ∧ value.isExpression
  | conditional test consequent alternate =>
    test.isExpression ∧ consequent.isExpression ∧ alternate.isExpression
  | call callee args | newExpr callee args => callee.isExpression ∧ ∀ k ∈ args, k.isExpression
  | member base _ => base.isExpression

/-- The head of a left side of a loop through a collection: an expression, or a declaration of one
variable without a value. -/
def IsLeft (h : Head) : Prop :=
  h.kind.isExpression ∨ ∃ kind name, h = .varDecl kind [⟨name, none⟩]

/-- What the slots of a node ask of the heads in them. -/
structure Fits (n : Node Head String) : Prop where
  slots : (n.map kind id).Slots
  left : ∀ h ∈ n.each?, h.IsLeft

/-- A node that is no loop through a collection asks no more of its left side. -/
theorem Fits.of_slots {n : Node Head String} (h : (n.map kind id).Slots) (he : n.each? = none) :
    n.Fits :=
  ⟨h, fun l hl => by cases he.symm.trans hl⟩

/-- The name that a node refers to. -/
def referred {ν : Type} : Node α ν → List ν
  | ident name => [name]
  | _ => []

/-- The names that a node binds or refers to; the names of members and methods are neither. -/
def identifiers {ν : Type} (n : Node α ν) : List ν :=
  n.declaredNames ++ n.referred

/-- What is asked of the contents of a node apart from its children and its identifiers: literals,
keys and members are spelled as a scanner spells them, and nothing is left out that has to be
there. -/
def Spelled : Node α String → Prop
  | varDecl _ declarators => declarators ≠ []
  | classDecl _ _ methods => ∀ m ∈ methods, IsWord m.name
  | tryStmt _ handler finalizer => handler.isSome ∨ finalizer.isSome
  | literal value => value.Spelled
  | object properties => ∀ p ∈ properties, p.key.Spelled
  | sequence items => 2 ≤ items.length
  | member _ name => IsWord name
  | _ => True

end Node

/-- The root of a tree without what hangs under it. -/
def Tree.head (t : Tree τ) : Head :=
  t.node.head

/-- A node that obeys the grammar: its slots hold what they are made for, and its identifiers are
names. -/
structure Node.Grammatical (n : Node (Tree τ) String) : Prop where
  fits : (n.map Tree.head id).Fits
  names : ∀ x ∈ n.identifiers, IsName x

/-- Every node of a tree obeys the grammar. -/
def Tree.Grammatical (t : Tree τ) : Prop :=
  ∀ u ∈ t.preorder, u.node.Grammatical

/-- Every node of a tree, seen with the heads of its children, has a property. -/
def Tree.Each (P : Node Head String → Prop) (t : Tree τ) : Prop :=
  ∀ u ∈ t.preorder, P (u.node.map head id)

namespace Node

section Maps

variable (f : α → β) {ν μ : Type} (g : ν → μ)

theorem each?_map (n : Node α ν) : (n.map f g).each? = n.each?.map f := by
  cases n <;> rfl

theorem mem_children_of_each? {n : Node α ν} {c : α} (h : c ∈ n.each?) : c ∈ n.children := by
  cases n with
  | forIn left right body | forOf left right body =>
    obtain rfl : left = c := Option.some.inj h
    exact List.mem_cons_self ..
  | _ => cases h

theorem identifiers_map (n : Node α ν) : (n.map f g).identifiers = n.identifiers.map g := by
  have referred_map : (n.map f g).referred = n.referred.map g := by
    cases n <;> rfl
  rw [identifiers, identifiers, declaredNames_map, referred_map, List.map_append]

theorem spelled_map (n : Node α String) : (n.map f id).Spelled ↔ n.Spelled := by
  have key : ∀ k : Key String, (k.map id).Spelled ↔ k.Spelled := fun k => by cases k <;> rfl
  cases n <;> simp [map, Spelled, Method.map, Property.map, key]

end Maps

/-! ## Children that give way to others -/

/-- A property of nodes that stays true when children give way to others of their kinds; the left
side of a loop through a collection stays, or is an expression. -/
def Stable (P : Node Head String → Prop) : Prop :=
  ∀ {ι : Type} (n : Node ι String) (f g : ι → Head),
    (∀ c ∈ n.children, (f c).kind = (g c).kind ∧
      (c ∈ n.each? → (f c).kind.isExpression ∨ f c = g c)) →
    P (n.map f id) → P (n.map g id)

theorem stable_fits : Stable Fits := by
  intro ι n f g h fits
  have kinds : (n.map f id).map kind id = (n.map g id).map kind id := by
    rw [map_map, map_map]
    exact map_congr_parts (fun c hc => (h c hc).1) fun _ _ => rfl
  refine ⟨kinds ▸ fits.slots, fun l hl => ?_⟩
  rw [each?_map, Option.mem_def, Option.map_eq_some_iff] at hl
  obtain ⟨c, hc, rfl⟩ := hl
  have left : (f c).IsLeft := fits.left (f c) (by rw [each?_map, Option.mem_def, hc]; rfl)
  obtain ⟨hkind, halike⟩ := h c (mem_children_of_each? hc)
  rcases halike hc with he | he
  · exact .inl (hkind ▸ he)
  · exact he ▸ left

theorem stable_spelled : Stable Spelled :=
  fun n f g _ h => (spelled_map g n).2 ((spelled_map f n).1 h)

theorem Stable.and {P Q : Node Head String → Prop} (h : Stable P) (h' : Stable Q) :
    Stable fun n => P n ∧ Q n :=
  fun n f g hc hpq => ⟨h n f g hc hpq.1, h' n f g hc hpq.2⟩

end Node

namespace Tree

variable {P : Node Head String → Prop}

theorem kind_head (t : Tree τ) : t.head.kind = t.kind :=
  Node.kind_map ..

theorem each_iff (t : Tree τ) : t.Each P ↔ P (t.node.map head id) ∧ ∀ c ∈ t.children, c.Each P :=
  forall_preorder_iff t

theorem each_mk {tag : τ} {node : Node (Tree τ) String} :
    (mk tag node).Each P ↔ P (node.map head id) ∧ ∀ c ∈ node.children, c.Each P :=
  each_iff _

end Tree

/-! ## The shape of what is read -/

/-- The methods of a class. -/
def Node.methods {ν : Type} : Node α ν → List (Method α ν)
  | classDecl _ _ methods => methods
  | _ => []

theorem isLeft_head (t : Tree τ) : t.head.IsLeft ↔ t.IsForLeft := by
  obtain ⟨tag, n⟩ := t
  rw [Node.IsLeft, kind_head, IsForLeft, IsExpr]
  refine or_congr_right ⟨?_, ?_⟩
  · rintro ⟨kind, name, h⟩
    cases n with
    | varDecl k declarators =>
      obtain ⟨rfl, hd⟩ := Node.varDecl.inj h
      obtain ⟨d, rfl, hd⟩ := List.map_eq_singleton_iff.1 hd
      rcases d with ⟨name', _ | init⟩
      · exact ⟨k, name', rfl⟩
      · cases hd
    | _ => cases h
  · rintro ⟨kind, name, h⟩
    refine ⟨kind, name, ?_⟩
    rw [Tree.head, h]
    rfl

theorem fits_head_iff (n : Node (Tree τ) String) :
    (n.map Tree.head id).Fits ↔ (n.map Tree.kind id).Slots ∧ ∀ l ∈ n.each?, l.IsForLeft := by
  have kinds : (n.map Tree.head id).map Node.kind id = n.map Tree.kind id := by
    rw [Node.map_map]
    exact Node.map_congr_parts (fun c _ => kind_head c) fun _ _ => rfl
  have left : (∀ h ∈ (n.map Tree.head id).each?, h.IsLeft) ↔ ∀ l ∈ n.each?, l.IsForLeft := by
    rw [Node.each?_map]
    cases n.each? <;> simp [isLeft_head]
  rw [← kinds, ← left]
  exact ⟨fun h => ⟨h.slots, h.left⟩, fun h => ⟨h.1, h.2⟩⟩

theorem Tree.IsForLeft.kind_eq {t : Tree τ} (h : t.IsForLeft) :
    t.kind.isExpression = true ∨ t.kind = .varDecl := by
  rcases h with h | ⟨kind, name, h⟩
  · exact .inl h
  · exact .inr (congrArg Node.kind h)

theorem Tree.IsMethod.kind_eq {t : Tree τ} (h : t.IsMethod) : t.kind = .functionExpr := by
  obtain ⟨params, body, h⟩ := h
  exact congrArg Node.kind h

/-- A node is as the reader makes it if it obeys the grammar, is spelled well, and its methods have
functions without names. -/
theorem shaped_iff_grammatical (n : Node (Tree τ) String) :
    n.Shaped ↔ n.Grammatical ∧ n.Spelled ∧ ∀ m ∈ n.methods, m.function.IsMethod := by
  have obeys : n.Grammatical ↔ ((n.map Tree.kind id).Slots ∧ ∀ l ∈ n.each?, l.IsForLeft) ∧
      ∀ x ∈ n.identifiers, IsName x := by
    rw [← fits_head_iff]
    exact ⟨fun h => ⟨h.fits, h.names⟩, fun h => ⟨h.1, h.2⟩⟩
  have left : ∀ t : Tree τ, t.IsForLeft → t.kind.isExpression = true ∨ t.kind = .varDecl :=
    fun _ => IsForLeft.kind_eq
  have method : ∀ t : Tree τ, t.IsMethod → t.kind = .functionExpr := fun _ => IsMethod.kind_eq
  have reference : ∀ k : Kind, k = .ident ∨ k = .member → k.isExpression = true := by
    rintro k (rfl | rfl) <;> rfl
  rw [obeys]
  cases n with
  | tryStmt body handler finalizer =>
    rcases handler with _ | ⟨param, caught⟩ <;>
      simp [Node.Shaped, Node.map, Node.Slots, Node.each?, Node.identifiers, Node.declaredNames,
        Node.referred, Node.Spelled, Node.methods, IsBlock, Catch.map] <;> grind
  | _ =>
    simp [Node.Shaped, Node.map, Node.Slots, Node.each?, Node.identifiers, Node.declaredNames,
      Node.referred, Node.Spelled, Node.methods, IsExpr, IsStmt, IsBlock, IsForStart, IsReference,
      Declarator.map, Method.map, Property.map] <;> grind

end Graft
