import Graft.Proofs.Printing.Phrase

/-!
# What divisions stand behind

A slash is put behind the left operand of a division or behind the target of an assignment. The
scanner takes it for the start of a regular expression if the operand ends in a word behind which it
expects another operand; some of these words are names all the same, and any of them may be the name
of a property.

* `Tree.edge` - the name in which the written form of an operand ends
* `Tree.Divisible` - the condition that all slashes of a tree divide
* `endsAs_expr` - what the last lexeme of an operand tells the scanner
-/

namespace Graft

open Piece Layout

variable {τ : Type}

/-! ## The condition on trees -/

/-- The name in which an operand that needs no parentheses ends, if it ends in one. -/
def Node.edge (n : Node (Precedence → Option String) String) : Option String :=
  match n with
  | ident name | member _ name => some name
  | unary _ arg => arg .unary
  | update _ true arg => arg .access
  | binary op _ rhs => rhs (operandLevels op).2
  | _ => none

namespace Tree

/-- The name in which the written form of an operand ends, if it ends in one. The operand has to
bind at least as tightly as a factor; what binds less tightly ends in a parenthesis. -/
def edge (t : Tree τ) : Precedence → Option String :=
  t.fold fun _ n level => if n.precedence < level then none else n.edge

theorem edge_mk (tag : τ) (n : Node (Tree τ) String) (level : Precedence) :
    (mk tag n).edge level =
      if (n.map edge id).precedence < level then none else (n.map edge id).edge :=
  congrFun (fold_mk _ tag n) level

/-- A tree ends as before when its parts give way to others that end alike. -/
theorem edge_mk_map {σ : Type} {tag : τ} {tag' : σ} {n : Node (Tree τ) String}
    {f : Tree τ → Tree σ} (h : ∀ c ∈ n.children, (f c).edge = c.edge) :
    (mk tag' (n.map f id)).edge = (mk tag n).edge := by
  have below : (n.map f id).map edge id = n.map edge id := by
    rw [Node.map_map]
    exact Node.map_congr_parts h fun _ _ => rfl
  funext level
  rw [edge_mk, edge_mk, below]

/-- Whether a scanner expects an operand behind the written form of a tree. -/
def Expects (t : Tree τ) (level : Precedence) : Prop :=
  ∃ name ∈ t.edge level, operandWords.contains name = true

instance (t : Tree τ) (level : Precedence) : Decidable (t.Expects level) :=
  inferInstanceAs (Decidable (∃ name ∈ t.edge level, operandWords.contains name = true))

end Tree

/-- The operand behind which a node puts a slash, and how tightly it has to bind. -/
def Node.divided? (n : Node (Tree τ) String) : Option (Tree τ × Precedence) :=
  match n with
  | binary .div lhs _ => some (lhs, (operandLevels .div).1)
  | assign .div target _ => some (target, .access)
  | _ => none

/-- Whether the slash that a node puts behind an operand, if it puts one there, divides. -/
def Node.Divisible (n : Node (Tree τ) String) : Prop :=
  ∀ operand ∈ n.divided?, ¬ operand.1.Expects operand.2

instance (n : Node (Tree τ) String) : Decidable n.Divisible :=
  inferInstanceAs (Decidable (∀ operand ∈ n.divided?, ¬ operand.1.Expects operand.2))

theorem Node.divisible_of_none {n : Node (Tree τ) String} (h : n.divided? = none) :
    n.Divisible := by
  rw [Node.Divisible, h]
  exact nofun

namespace Tree

/-- Whether all slashes of a tree divide. -/
def Divisible (t : Tree τ) : Prop :=
  ∀ u ∈ t.preorder, u.node.Divisible

instance (t : Tree τ) : Decidable t.Divisible :=
  inferInstanceAs (Decidable (∀ u ∈ t.preorder, u.node.Divisible))

theorem divisible_mk {tag : τ} {node : Node (Tree τ) String} :
    (mk tag node).Divisible ↔ node.Divisible ∧ ∀ c ∈ node.children, c.Divisible := by
  unfold Divisible
  rw [preorder_eq, List.forall_mem_cons]
  simp only [List.mem_flatMap]
  exact and_congr_right fun _ =>
    ⟨fun h c hc u hu => h u ⟨c, hc, hu⟩, fun h u ⟨c, hc, hu⟩ => h c hc u hu⟩

end Tree

/-- Whether the slash of a node divides is told by how its children end. -/
theorem Node.divisible_map {σ : Type} {n : Node (Tree τ) String} {f : Tree τ → Tree σ}
    (h : ∀ c ∈ n.children, (f c).edge = c.edge) : (n.map f id).Divisible ↔ n.Divisible := by
  have expects : ∀ c ∈ n.children, ∀ level, (f c).Expects level ↔ c.Expects level := by
    intro c hc level
    rw [Tree.Expects, Tree.Expects, h c hc]
  cases n with
  | binary op lhs rhs =>
    cases op with
    | div => simp [Node.Divisible, Node.divided?, Node.map, expects lhs (List.mem_cons_self ..)]
    | _ => exact iff_of_true (divisible_of_none rfl) (divisible_of_none rfl)
  | assign op target value =>
    cases op with
    | div => simp [Node.Divisible, Node.divided?, Node.map, expects target (List.mem_cons_self ..)]
    | _ => exact iff_of_true (divisible_of_none rfl) (divisible_of_none rfl)
  | _ => exact iff_of_true (divisible_of_none rfl) (divisible_of_none rfl)

/-- The slashes of a tree whose parts give way to others that end alike. -/
theorem Tree.divisible_mk_map {σ : Type} {tag : τ} {tag' : σ} {n : Node (Tree τ) String}
    {f : Tree τ → Tree σ} (ends : ∀ c ∈ n.children, (f c).edge = c.edge)
    (below : ∀ c ∈ n.children, (f c).Divisible ↔ c.Divisible) :
    (mk tag' (n.map f id)).Divisible ↔ (mk tag n).Divisible := by
  rw [divisible_mk, divisible_mk, Node.divisible_map ends, Node.children_map, List.forall_mem_map]
  exact and_congr_right fun _ => forall₂_congr below

/-! ## Ends of operands -/

open Graft.Tree

theorem Node.precedence_map {α β ν μ : Type} (f : α → β) (g : ν → μ) (n : Node α ν) :
    (n.map f g).precedence = n.precedence := by
  cases n with
  | update op leading arg => cases leading <;> rfl
  | literal value => cases value <;> rfl
  | _ => rfl

theorem Tree.level_form (tag : τ) (n : Node (Tree τ) String) :
    (mk tag n).form.level = n.precedence := by
  rw [form_mk]
  exact Node.precedence_map form id n

theorem Node.isNumber_map {α β ν μ : Type} (f : α → β) (g : ν → μ) (n : Node α ν) :
    (n.map f g).isNumber = n.isNumber := by
  cases n with
  | literal value => cases value <;> rfl
  | _ => rfl

theorem Tree.isNumber_form (tag : τ) (n : Node (Tree τ) String) :
    (mk tag n).form.isNumber = n.isNumber := by
  rw [form_mk]
  exact Node.isNumber_map form id n

/-- A literal that was scanned has no sign. -/
theorem Literal.Spelled.precedence {value : Literal} (h : value.Spelled) :
    (Node.literal value : Node (Tree τ) String).precedence = .primary := by
  cases value with
  | number raw =>
    have hstart := h.1
    refine if_neg fun hsign => ?_
    rcases hcs : raw.toList with _ | ⟨c, cs⟩
    · rw [hcs] at hstart
      cases hstart
    · rw [hcs, startsNumber_cons] at hstart
      rw [hcs, List.head?_cons] at hsign
      rcases hsign with hc | hc <;> cases hc <;> cases hstart
  | _ => rfl

theorem last_parens (ps : List Piece) : (Piece.parens ps).getLast? = some (punct ")") := by
  rw [Piece.parens, enclosed, List.getLast?_concat]

theorem last_braces (s : Setting) (ps : List Piece) :
    (braces s ps).getLast? = some (punct "\x7d") := by
  rw [braces, List.getLast?_append_of_ne_nil _ (by simp)]
  rfl

/-- A block ends with its brace. -/
theorem Tree.last_block {t : Tree τ} (h : t.IsBlock) (s : Setting) :
    (t.form.block s).getLast? = some (punct "\x7d") := by
  obtain ⟨tag, n⟩ := t
  rw [form_mk]
  cases n with
  | block body =>
    cases body with
    | nil => rfl
    | cons c cs => exact last_braces ..
  | _ => exact absurd h (by simp [IsBlock, kind, node, Node.kind])

theorem Tree.kind_form (tag : τ) (n : Node (Tree τ) String) : (mk tag n).form.kind = n.kind := by
  rw [form_mk]
  exact Node.kind_map form id n

theorem Tree.braced_of_block {t : Tree τ} (h : t.IsBlock) (s : Setting) :
    t.form.braced s = t.form.block s := by
  obtain ⟨tag, n⟩ := t
  rw [Form.braced, if_pos ((kind_form tag n).trans h)]

/-! ## The last lexeme -/

/-- What the last lexeme of pieces tells the scanner, and whether it may be a number. -/
def EndsAs (ps : List Piece) (edge : Option String) (isNumber : Bool) : Prop :=
  ∃ last, ps.getLast? = some (lexeme last) ∧
    (expectsOperand (some last) = true ↔ ∃ name ∈ edge, operandWords.contains name = true) ∧
    ∀ raw, last = .number raw → isNumber = true

/-- What stands in front does not matter. -/
theorem EndsAs.behind {ps : List Piece} {edge : Option String} {isNumber : Bool}
    (h : EndsAs ps edge isNumber) (front : List Piece) : EndsAs (front ++ ps) edge isNumber := by
  obtain ⟨last, hlast, hx⟩ := h
  refine ⟨last, ?_, hx⟩
  rw [List.getLast?_append_of_ne_nil, hlast]
  rintro rfl
  cases hlast

theorem EndsAs.weaken {ps : List Piece} {edge : Option String} {isNumber : Bool}
    (h : EndsAs ps edge isNumber) : EndsAs ps edge true := by
  obtain ⟨last, hlast, hx, -⟩ := h
  exact ⟨last, hlast, hx, fun _ _ => rfl⟩

theorem EndsAs.of_word {ps : List Piece} {name : String} {isNumber : Bool}
    (h : ps.getLast? = some (word name)) : EndsAs ps (some name) isNumber :=
  ⟨_, h, ⟨fun hx => ⟨name, rfl, hx⟩, fun ⟨_, rfl, hx⟩ => hx⟩, nofun⟩

/-- Behind a sign that ends an operand no other operand is expected. -/
theorem EndsAs.of_sign {ps : List Piece} {p : String} {isNumber : Bool}
    (h : ps.getLast? = some (punct p)) (hp : p ∈ operandEnds) : EndsAs ps none isNumber :=
  ⟨_, h, iff_of_false (by simp [expectsOperand, hp]) (by simp), nofun⟩

/-- How operands end that hold none of their own at the end. -/
theorem Tree.endsAs_bare {tag : τ} {n : Node (Tree τ) String} (h : (mk tag n).IsExpr)
    (hn : n.Shaped) (hl : Precedence.access ≤ n.precedence) (s : Setting) :
    EndsAs ((mk tag n).form.bare s) (n.map edge id).edge n.isNumber := by
  have hparens (front inside : List Piece) :
      (front ++ parens inside).getLast? = some (punct ")") := by
    rw [List.getLast?_append_of_ne_nil _ (by simp [parens, enclosed]), last_parens]
  rw [form_mk]
  cases n with
  | ident name => exact .of_word rfl
  | member base name => exact .of_word (List.getLast?_append_of_ne_nil _ (by simp))
  | literal value =>
    rcases value with raw | raw | (_ | _) | _ <;>
      exact ⟨_, rfl, iff_of_false Bool.false_ne_true (by simp [Node.map, Node.edge]),
        by simp [Node.isNumber]⟩
  | thisExpr =>
    exact ⟨_, rfl, iff_of_false (by decide) (by simp [Node.map, Node.edge]), by rintro _ ⟨⟩⟩
  | array items => exact .of_sign (p := "]") List.getLast?_concat (by decide)
  | object properties =>
    have hlast (layouts : List (List Piece)) :
        (Layout.object layouts).getLast? = some (punct "\x7d") := by
      cases layouts with
      | nil => rfl
      | cons p ps => exact List.getLast?_concat
    exact .of_sign (hlast _) (by decide)
  | functionExpr name params body =>
    have hbraced : (body.form.braced s).getLast? = some (punct "\x7d") := by
      rw [braced_of_block hn.2.2, last_block hn.2.2]
    have hne : body.form.braced s ≠ [] := by
      intro h
      rw [h] at hbraced
      cases hbraced
    have hlast (front : List Piece) :
        (front ++ space :: body.form.braced s).getLast? = some (punct "\x7d") := by
      rw [List.getLast?_append_of_ne_nil _ (List.cons_ne_nil _ _),
        List.getLast?_cons_of_ne_nil hne, hbraced]
    exact .of_sign (hlast _) (by decide)
  | call callee args | newExpr callee args => exact .of_sign (hparens _ _) (by decide)
  | index base key =>
    have hlast (front inside : List Piece) :
        (front ++ enclosed "[" inside "]").getLast? = some (punct "]") := by
      rw [List.getLast?_append_of_ne_nil _ (by simp [enclosed])]
      exact List.getLast?_concat
    exact .of_sign (hlast _ _) (by decide)
  | update op leading arg =>
    cases leading with
    | true => exact absurd hl (show ¬ 16 ≤ 14 by decide)
    | false => exact absurd hl (show ¬ 16 ≤ 15 by decide)
  | binary op =>
    have : op.precedence < 16 := by cases op <;> decide
    exact absurd hl (Nat.not_le.2 this)
  | logical op =>
    have : op.precedence < 16 := by cases op <;> decide
    exact absurd hl (Nat.not_le.2 this)
  | sequence => exact absurd hl (show ¬ 16 ≤ 0 by decide)
  | assign | arrow => exact absurd hl (show ¬ 16 ≤ 1 by decide)
  | conditional => exact absurd hl (show ¬ 16 ≤ 2 by decide)
  | unary => exact absurd hl (show ¬ 16 ≤ 14 by decide)
  | _ => cases h

/-- Whether an operand that binds at least as tightly as a factor ends in a name behind which the
scanner expects another operand. -/
theorem Tree.endsAs_expr {t : Tree τ} (h : t.IsExpr) (hs : t.Shaped) {level : Precedence}
    (hl : 12 ≤ level) (s : Setting) :
    EndsAs (t.form.expr level s) (t.edge level) true := by
  induction t using Tree.induct generalizing level s with
  | step t ih =>
  obtain ⟨tag, n⟩ := t
  obtain ⟨hn, hc⟩ := shaped_mk.1 hs
  rw [Form.expr, level_form, edge_mk, Node.precedence_map]
  by_cases hloose : n.precedence < level
  · -- in parentheses
    rw [if_pos (by simp [hloose]), if_pos hloose]
    exact .of_sign (last_parens _) (by decide)
  have htight : level ≤ n.precedence := Nat.not_lt.1 hloose
  have hin : (mk tag n).form.isIn = false := by
    rw [form_mk]
    cases n with
    | binary op lhs rhs =>
      cases op with
      | isIn => exact absurd (Nat.le_trans hl htight) (show ¬ 12 ≤ 9 by decide)
      | _ => rfl
    | _ => rfl
  rw [hin, if_neg (by simpa using hloose), if_neg hloose, form_mk]
  cases n with
  | unary op arg =>
    have inner := ih arg (by simp [children, node, Node.children]) hn
      (hc arg (by simp [Node.children])) (show 12 ≤ 14 by decide) s
    change EndsAs (Layout.unary op (arg.form.expr .unary s)) (arg.edge .unary) true
    unfold Layout.unary
    split
    · exact inner.behind [word op.text, space]
    · split
      · exact inner.behind [punct op.text, space]
      · exact inner.behind [punct op.text]
  | update op leading arg =>
    cases leading with
    | true =>
      exact (ih arg (by simp [children, node, Node.children]) hn
        (hc arg (by simp [Node.children])) (show 12 ≤ 16 by decide) s).behind [punct op.text]
    | false => exact .of_sign (p := op.text) List.getLast?_concat (by cases op <;> decide)
  | binary op lhs rhs =>
    have hlevel : 12 ≤ (operandLevels op).2 := by
      have : 12 ≤ op.precedence := Nat.le_trans hl htight
      revert this
      cases op <;> decide
    have inner := ih rhs (by simp [children, node, Node.children]) hn.2
      (hc rhs (by simp [Node.children])) hlevel s
    have := inner.behind (lhs.form.expr (operandLevels op).1 s ++ [space, binaryOp op, space])
    rwa [List.append_assoc] at this
  | logical op =>
    have : op.precedence < 12 := by cases op <;> decide
    exact absurd (Nat.le_trans hl htight) (Nat.not_le.2 this)
  | sequence => exact absurd (Nat.le_trans hl htight) (show ¬ 12 ≤ 0 by decide)
  | assign | arrow => exact absurd (Nat.le_trans hl htight) (show ¬ 12 ≤ 1 by decide)
  | conditional => exact absurd (Nat.le_trans hl htight) (show ¬ 12 ≤ 2 by decide)
  | literal value =>
    have hprimary : 16 ≤ (Node.literal value : Node (Tree τ) String).precedence := by
      rw [Literal.Spelled.precedence hn]
      decide
    exact form_mk tag _ ▸ (endsAs_bare h hn hprimary s).weaken
  | call | newExpr | member | index =>
    exact form_mk tag _ ▸ (endsAs_bare h hn (Nat.le_refl 16) s).weaken
  | ident | thisExpr | array | object | functionExpr =>
    exact form_mk tag _ ▸ (endsAs_bare h hn (show 16 ≤ 17 by decide) s).weaken
  | _ => cases h

end Graft
