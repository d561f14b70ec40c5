import Graft.Proofs.Printing.Sentence
import Graft.Proofs.Roundtrip.Operator
import Graft.Proofs.Roundtrip.Wrapped

/-!
# Expressions are read back

Every expression of the right shape is read back at each level at which it is printed. The
parentheses of the printer are those that the grammar needs.

* `Tree.ReadsBack` - what is to be shown of a tree
* `readBackAt_bare` - an expression whose parts are read back, without parentheses around it
-/

namespace Graft

open Piece Layout Graft.Tree Read Grammar
open Reading (of)

variable {τ : Type} {t : Tree τ} {s : Setting}

/-! ## What is to be shown -/

/-- Whether what follows is no further part of a statement. -/
def Ends (rest : List Mark) : Prop :=
  ∀ w ∈ ["else", "catch", "finally"], front? rest ≠ some (.word w)

/-- Whether a case of a switch ends. -/
def CaseEnds (rest : List Mark) : Prop :=
  front? rest = some (.word "case") ∨ front? rest = some (.word "default") ∨
    front? rest = some (.punct "\x7d")

/-- Whether the head of a loop goes on through a collection. -/
def AtEach (rest : List Mark) : Prop :=
  front? rest = some (.word "in") ∨ front? rest = some (.word "of")

/-- Whether a semicolon follows. -/
def AtSemicolon (rest : List Mark) : Prop :=
  front? rest = some (.punct ";")

namespace Tree

/-- What is to be shown of how the layouts of a tree are read back, as far as it has them. -/
structure ReadsBack (t : Tree τ) : Prop where
  expr : t.IsExpr → ∀ level s, ReadBackAt level s (t.form.expr level s) t.wrapped
  callee : t.IsExpr → t.form.hasCall = false → ∀ s,
    ReadBackChain memberSuffix 1 (t.form.expr .access s) t.wrapped
  block : t.IsBlock → ∀ s, ReadBack Grammar.block (fun _ => True) (t.form.block s) t.wrapped
  method : t.IsMethod → ∀ s, ReadBack bareFunction (fun _ => True) (t.form.methodTail s) t.wrapped
  declaration : t.kind = .varDecl → ∀ s,
    ReadBack varDecl AtSemicolon (t.form.declaration s) t.wrapped
  start : t.kind = .varDecl → ∀ s : Setting,
    ReadBack forVarHead AtSemicolon (t.form.declaration s.inHead) (.start (some t.wrapped))
  each : (∃ kind name, t.node = .varDecl kind [⟨name, none⟩]) → ∀ s,
    ReadBack forVarHead AtEach (t.form.declaration s) (.each t.wrapped)
  statement : t.IsStmt → ∀ s inline,
    ReadBack Grammar.statement Ends (t.form.statement s inline) t.wrapped
  case : t.kind = .switchCase → ∀ s,
    ReadBack switchCase CaseEnds (t.form.statement s false) (some t.wrapped)

/-- A tree of the right shape whose children are read back. -/
structure Ready (t : Tree τ) : Prop where
  shaped : t.Shaped
  readsBack : ∀ c ∈ t.children, c.ReadsBack

/-- What there is to use of a node when it is shown to be read back. -/
theorem Ready.parts {tag : τ} {n : Node (Tree τ) String} (h : (Tree.mk tag n).Ready) :
    n.Shaped ∧ (∀ c ∈ n.children, c.Written) ∧ ∀ c ∈ n.children, c.ReadsBack :=
  have ⟨hn, hc⟩ := shaped_mk.1 h.shaped
  ⟨hn, fun c hm => Graft.written (hc c hm), h.readsBack⟩

end Tree

/-! ## Parentheses -/

/-- An expression in parentheses that are always there. -/
theorem readBackAt_enclosed (s' : Setting) (r : t.ReadsBack) (w : t.Written) (h : t.IsExpr) :
    ReadBackAt 17 s' (parens (t.form.expr .sequence s)) t.wrapped :=
  readBackAt_parens (w.expr h _ s).balanced (r.expr h _ s)

/-- What a member is taken of. -/
theorem readBackAt_base (r : t.ReadsBack) (w : t.Written) (h : t.IsExpr) (s : Setting) :
    ReadBackAt 16 s (t.form.base s) t.wrapped := by
  rw [Form.base]
  split
  · exact (readBackAt_enclosed _ r w h).loosen (by decide)
  · exact r.expr h _ s

theorem readBackChain_base (r : t.ReadsBack) (w : t.Written) (h : t.IsExpr)
    (hc : t.form.hasCall = false) (s : Setting) :
    ReadBackChain memberSuffix 1 (t.form.base s) t.wrapped := by
  rw [Form.base]
  split
  · exact (readBackAt_enclosed s r w h).chain_of_primary
  · exact r.callee h hc s

/-- What is constructed. -/
theorem readBackChain_constructed (r : t.ReadsBack) (w : t.Written) (h : t.IsExpr) (s : Setting) :
    ReadBackChain memberSuffix 1 (t.form.constructed s) t.wrapped := by
  rw [Form.constructed]
  split
  · exact (readBackAt_enclosed s r w h).chain_of_primary
  · rename_i hc
    exact r.callee h (by simpa using (not_or.1 hc).2) s

/-! ## Expressions -/

theorem isName_free {names : List String} (h : ∀ x ∈ names, IsName x) :
    ∀ x ∈ names, isReserved x = false :=
  fun x hx => (h x hx).free

theorem starts_items {items : List (Tree τ)} (h : ∀ e ∈ items, e.IsExpr)
    (w : ∀ e ∈ items, e.Written) (s : Setting) :
    ∀ e ∈ items, ∃ k, StartsAs k (e.form.expr .assignment s) :=
  fun e he => ⟨_, ((w e he).expr (h e he) .assignment s).first⟩

theorem readBackAt_items {items : List (Tree τ)} (h : ∀ e ∈ items, e.IsExpr)
    (r : ∀ e ∈ items, e.ReadsBack) (s : Setting) :
    ∀ e ∈ items, ReadBackAt 1 s (e.form.expr .assignment s) e.wrapped :=
  fun e he => (r e he).expr (h e he) _ s

/-- The arguments of a call. -/
theorem readBack_items {items : List (Tree τ)} (h : ∀ e ∈ items, e.IsExpr)
    (w : ∀ e ∈ items, e.Written) (r : ∀ e ∈ items, e.ReadsBack) (s : Setting) :
    ReadBack arguments (fun _ => True) (parens (Form.items (items.map form) s))
      (items.map wrapped) := by
  rw [items_map]
  exact readBack_arguments (starts_items h w s) (readBackAt_items h r s)

/-- The body of a function. -/
theorem readBack_body {body : Tree τ} (h : body.IsBlock) (r : body.ReadsBack) (s : Setting) :
    ReadBack block (fun _ => True) (body.form.braced s) body.wrapped := by
  rw [braced_of_block h]
  exact r.block h s

-- The children of a node can be read off it.
attribute [local simp] Node.children

section Constructors

variable {tag : τ}

theorem readBackAt_bare_object {properties : List (Property (Tree τ) String)}
    (ready : (mk tag (.object properties)).Ready) (s : Setting) :
    ReadBackAt 17 s ((mk tag (.object properties)).form.bare s)
      (mk tag (.object properties)).wrapped := by
  obtain ⟨hn, -, r⟩ := ready.parts
  have layouts : (properties.map (·.map form id)).map (fun p : Property Form String =>
      key p.key :: punct ":" :: space :: p.value.expr .assignment s) =
        properties.map fun p => key p.key :: punct ":" :: space ::
          p.value.form.expr .assignment s := by
    rw [List.map_map]
    refine List.map_congr_left fun p _ => ?_
    obtain ⟨name | raw | raw, value⟩ := p <;> rfl
  have readings : properties.map (·.map wrapped id) =
      properties.map fun p => ⟨p.key, p.value.wrapped⟩ := by
    refine List.map_congr_left fun p _ => ?_
    obtain ⟨name | raw | raw, value⟩ := p <;> rfl
  rw [form_mk, wrapped_mk]
  change ReadBackAt 17 s (Layout.object ((properties.map (·.map form id)).map _))
    (of (.object (properties.map (·.map wrapped id))))
  rw [layouts, readings]
  exact readBackAt_object fun p hp => (r p.value (List.mem_map_of_mem hp)).expr (hn p hp).2 _ s

/-- An arrow in front of an expression, which is enclosed if it begins with a brace, or of a
block. -/
theorem readBackAt_bare_arrow {names : List String} {body : Tree τ} {isExpression : Bool}
    (ready : (mk tag (.arrow names body isExpression)).Ready) (s : Setting) :
    ReadBackAt 1 s ((mk tag (.arrow names body isExpression)).form.bare s)
      (mk tag (.arrow names body isExpression)).wrapped := by
  obtain ⟨hn, w, r⟩ := ready.parts
  have wb := w body (by simp)
  have rb := r body (by simp)
  rw [form_mk, wrapped_mk]
  cases isExpression with
  | true =>
    have hb : body.IsExpr := hn.2
    change ReadBackAt 1 s (infixed (Piece.params (names.map id)) (punct "=>")
      (if body.form.opening = .object then parens (body.form.expr .sequence s)
        else body.form.expr .assignment s)) (of (.arrow (names.map id) body.wrapped true))
    rw [List.map_id]
    split
    · exact readBackAt_arrow_expression hn.1 (fun rest => front_ne rfl (by decide))
        ((readBackAt_enclosed s rb wb hb).loosen (by decide))
    · rename_i hk
      refine readBackAt_arrow_expression hn.1 (fun rest => ?_) (rb.expr hb _ s)
      exact (wb.expr hb _ s).first.front_ne fun ho => hk (ho.2 rfl)
  | false =>
    have hb : body.IsBlock := hn.2
    change ReadBackAt 1 s (infixed (Piece.params (names.map id)) (punct "=>")
      (body.form.braced s)) (of (.arrow (names.map id) body.wrapped false))
    rw [List.map_id, braced_of_block hb]
    exact readBackAt_arrow_block hn.1 (wb.block hb s).first (rb.block hb s)

/-- A construction, as a base of members. -/
theorem readBackChain_newExpr {round : Rules → Reading → Read (Option Reading)} {lag : Nat}
    {callee : Tree τ} {args : List (Tree τ)} (ready : (mk tag (.newExpr callee args)).Ready)
    (s : Setting) :
    ReadBackChain round lag ((mk tag (.newExpr callee args)).form.bare s)
      (mk tag (.newExpr callee args)).wrapped := by
  obtain ⟨hn, w, r⟩ := ready.parts
  have args := readBack_items hn.2 (fun e he => w e (by simp [he]))
    (fun e he => r e (by simp [he])) s
  have wc := phrase_constructed (w callee (by simp)) hn.1 s
  have chain := readBackChain_constructed (r callee (by simp)) (w callee (by simp)) hn.1 s
  rw [form_mk, wrapped_mk]
  exact readBackChain_new chain (fun rest => wc.first.front_ne (not_opens_punct (by decide)))
    (wc.toItem.freshBehind false) args

end Constructors

/-- An expression without parentheses around it. -/
theorem readBackAt_bare {t : Tree τ} (h : t.IsExpr) (ready : t.Ready) (s : Setting)
    (hin : s.noIn = true → t.form.isIn = false) :
    ReadBackAt t.form.level s (t.form.bare s) t.wrapped := by
  obtain ⟨tag, n⟩ := t
  obtain ⟨hn, w, r⟩ := ready.parts
  cases n with
  | ident name => exact readBackAt_ident hn.free
  | literal value =>
    have primary : (Node.literal value : Node (Tree τ) String).precedence = .primary :=
      Literal.Spelled.precedence hn
    have level : (mk tag (.literal value)).form.level = 17 := by
      cases value <;> exact primary
    rw [level]
    exact readBackAt_literal value
  | thisExpr => exact readBackAt_this
  | array items =>
    have all : ReadBackAt 17 s _ _ :=
      readBackAt_array (starts_items hn w s) (readBackAt_items hn r s)
    rw [← items_map] at all
    rw [form_mk, wrapped_mk]
    exact all
  | functionExpr name params body =>
    have rb := readBack_body hn.2.2 (r body (by simp)) s
    have all := readBackAt_function (s := s) (fun x hx => (hn.1 x hx).free) (isName_free hn.2.1) rb
    rw [form_mk, wrapped_mk]
    change ReadBackAt 17 s (function (name.map id) (params.map id) (body.form.braced s))
      (of (.functionExpr (name.map id) (params.map id) body.wrapped))
    rw [Option.map_id, List.map_id]
    exact all
  | object properties => exact readBackAt_bare_object ready s
  | arrow names body isExpression => exact readBackAt_bare_arrow ready s
  | sequence items =>
    obtain ⟨x, y, rest, rfl⟩ : ∃ x y rest, items = x :: y :: rest := by
      match items, hn.1 with
      | x :: y :: rest, _ => exact ⟨x, y, rest, rfl⟩
    have all := readBackAt_sequence (readBackAt_items hn.2 r s)
    rw [← items_map] at all
    rw [form_mk, wrapped_mk]
    exact all
  | unary op arg => exact readBackAt_unary op ((r arg (by simp)).expr hn _ s)
  | update op leading arg =>
    have arg' := (r arg (by simp)).expr hn 16 s
    cases leading with
    | true => exact readBackAt_leading op arg'
    | false =>
      exact readBackAt_trailing op arg' ((w arg (by simp)).expr hn 16 s).toItem.freshBehind
  | binary op lhs rhs =>
    refine readBackAt_binary (fun hno hop => ?_) ((r lhs (by simp)).expr hn.1 _ s)
      ((r rhs (by simp)).expr hn.2 _ s)
    subst hop
    cases hin hno
  | logical op lhs rhs =>
    exact readBackAt_logical ((r lhs (by simp)).expr hn.1 _ s) ((r rhs (by simp)).expr hn.2 _ s)
  | assign op target value =>
    have reference : target.wrapped.IsReference := by
      rw [IsReference, kind_wrapped]
      exact hn.2.1
    exact readBackAt_assign op ((r target (by simp)).expr hn.1 _ s) reference
      ((r value (by simp)).expr hn.2.2 _ s)
  | conditional test consequent alternate =>
    exact readBackAt_conditional ((r test (by simp)).expr hn.1 _ s)
      ((r consequent (by simp)).expr hn.2.1 _ s) ((r alternate (by simp)).expr hn.2.2 _ s)
  | call callee args =>
    have args := readBack_items hn.2 (fun e he => w e (by simp [he]))
      (fun e he => r e (by simp [he])) s
    rw [form_mk, wrapped_mk]
    exact (((r callee (by simp)).expr hn.1 16 s).chain.call args).readBackAt
  | newExpr callee args => exact (readBackChain_newExpr ready s).readBackAt
  | member base name =>
    have base := (readBackAt_base (r base (by simp)) (w base (by simp)) hn.1 s).chain
    exact (base.member takesMembers_accessSuffix name).readBackAt
  | index base key =>
    have base := (readBackAt_base (r base (by simp)) (w base (by simp)) hn.1 s).chain
    exact (base.index takesMembers_accessSuffix ((r key (by simp)).expr hn.2 _ s)).readBackAt
  | _ => cases h

section Parts

variable (h : t.IsExpr) (ready : t.Ready)

include h ready

/-- An expression in parentheses of its own. -/
theorem readBackAt_parens_bare (s : Setting) :
    ReadBackAt 17 s (parens (t.form.bare s.inParens)) t.wrapped :=
  readBackAt_parens ((written ready.shaped).phrase h s.inParens).balanced
    ((readBackAt_bare h ready s.inParens nofun).loosen (Nat.zero_le _))

/-- An expression in the parentheses that its level asks for. -/
theorem readBackAt_expr (level : Nat) (s : Setting) :
    ReadBackAt level s (t.form.expr level s) t.wrapped := by
  rw [Form.expr]
  split
  · exact (readBackAt_parens_bare h ready s).of_primary level
  · rename_i hbare
    rw [Bool.or_eq_true, not_or, Bool.and_eq_true, not_and, decide_eq_true_eq, Nat.not_lt] at hbare
    refine (readBackAt_bare h ready s fun hno => ?_).loosen hbare.1
    exact Bool.eq_false_iff.2 (hbare.2 hno)

/-- The callee of a construction. -/
theorem readBackChain_callee (hc : t.form.hasCall = false) (s : Setting) :
    ReadBackChain memberSuffix 1 (t.form.expr .access s) t.wrapped := by
  rw [Form.expr]
  split
  · exact (readBackAt_parens_bare h ready s).chain_of_primary
  rename_i hbare
  rw [Bool.or_eq_true, not_or, Bool.and_eq_true, not_and, decide_eq_true_eq, Nat.not_lt] at hbare
  have bare := readBackAt_bare h ready s fun hno => Bool.eq_false_iff.2 (hbare.2 hno)
  by_cases hprimary : t.form.level = 17
  · exact (hprimary ▸ bare).chain_of_primary
  -- what is no primary expression is a chain, or stands on a level that asks for parentheses
  obtain ⟨tag, n⟩ := t
  obtain ⟨hn, w, r⟩ := ready.parts
  cases n with
  | newExpr callee args => exact readBackChain_newExpr ready s
  | member base name =>
    exact (readBackChain_base (r base (by simp)) (w base (by simp)) hn.1 hc s).member
      takesMembers_memberSuffix name
  | index base key =>
    exact (readBackChain_base (r base (by simp)) (w base (by simp)) hn.1 hc s).index
      takesMembers_memberSuffix ((r key (by simp)).expr hn.2 _ s)
  | call callee args => cases hc
  | literal value =>
    have primary : (Node.literal value : Node (Tree τ) String).precedence = .primary :=
      Literal.Spelled.precedence hn
    exact absurd (by cases value <;> exact primary) hprimary
  | ident | thisExpr | array | object | functionExpr => exact absurd rfl hprimary
  | binary op | logical op =>
    exact absurd (show 16 ≤ op.precedence from hbare.1) (by cases op <;> decide)
  | update op leading =>
    cases leading with
    | true => exact absurd (show 16 ≤ 14 from hbare.1) (by decide)
    | false => exact absurd (show 16 ≤ 15 from hbare.1) (by decide)
  | unary => exact absurd (show 16 ≤ 14 from hbare.1) (by decide)
  | conditional => exact absurd (show 16 ≤ 2 from hbare.1) (by decide)
  | assign | arrow => exact absurd (show 16 ≤ 1 from hbare.1) (by decide)
  | sequence => exact absurd (show 16 ≤ 0 from hbare.1) (by decide)
  | _ => cases h

end Parts

end Graft
