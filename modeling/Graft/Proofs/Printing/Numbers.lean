import Graft.Proofs.Grammar.Slots
import Graft.Proofs.Printing.SameText
import Graft.Proofs.Printing.Text

/-!
# Numbers with signs

The spelling of a number may carry a sign. A scanner takes it for an operator in front of a number,
and a printer lets it bind like one. So a tree with such a spelling is printed with the same
characters as the tree that has the operator in its place.

* `IsNumeral` - the spellings of numbers with and without a sign
* `Tree.withNumbers` - a tree whose numbers give way to other expressions
* `Tree.signed_alike` - operators in the place of signs leave the text alone
-/

namespace Graft

open Piece Layout Graft.Tree
open Reading (of)

variable {α τ : Type}

/-! ## Signs -/

/-- A number as an expression. -/
def Reading.numeral (raw : String) : Reading :=
  of (.literal (.number raw))

/-- What the spelling of a number is read as. -/
def Reading.signed (raw : String) : Reading :=
  match raw.toList with
  | '+' :: digits => of (.unary .plus (numeral (String.ofList digits)))
  | '-' :: digits => of (.unary .neg (numeral (String.ofList digits)))
  | _ => numeral raw

/-- A spelling of a number, with or without a sign. -/
inductive IsNumeral : String → Prop where
  | bare {raw : String} : (Lexeme.number raw).Spelled → IsNumeral raw
  | withSign {op : UnaryOp} {digits : String} : op ∈ [UnaryOp.plus, .neg] →
    (Lexeme.number digits).Spelled → IsNumeral (op.text ++ digits)

open Reading (numeral signed)

theorem signed_of_spelled {raw : String} (h : (Lexeme.number raw).Spelled) :
    signed raw = numeral raw := by
  have hstart := h.1
  unfold signed
  split
  · rename_i hraw
    rw [hraw] at hstart
    cases hstart
  · rename_i hraw
    rw [hraw] at hstart
    cases hstart
  · rfl

theorem signed_of_sign {op : UnaryOp} (h : op ∈ [UnaryOp.plus, .neg]) (digits : String) :
    signed (op.text ++ digits) = of (.unary op (numeral digits)) := by
  unfold signed
  rw [String.toList_append]
  rcases List.mem_pair.1 h with rfl | rfl
  · simp [UnaryOp.text]
  · simp [UnaryOp.text]

/-- A spelling is read as a number or as an operator in front of one. -/
theorem signed_cases {P : Reading → Prop} (raw : String) (number : P (numeral raw))
    (sign : ∀ op digits, P (of (.unary op (numeral digits)))) : P (signed raw) := by
  unfold signed
  split
  · exact sign .plus _
  · exact sign .neg _
  · exact number

/-- What holds of plain numbers and of operators in front of them holds of whatever the spelling of
a number is read as. -/
theorem IsNumeral.signed_induct {raw : String} (h : IsNumeral raw) {P : Reading → Prop}
    (plain : ∀ digits, (Lexeme.number digits).Spelled → P (numeral digits))
    (sign : ∀ op digits, (Lexeme.number digits).Spelled → P (of (.unary op (numeral digits)))) :
    P (signed raw) := by
  cases h with
  | bare h => exact signed_of_spelled h ▸ plain _ h
  | withSign hop h => exact signed_of_sign hop _ ▸ sign _ _ h

/-! ## Layouts of numbers -/

/-- The spelling of a number without a sign begins with none. -/
theorem head_of_number {digits : String} (h : (Lexeme.number digits).Spelled) :
    ∃ c cs, digits.toList = c :: cs ∧ c ≠ '+' ∧ c ≠ '-' := by
  have hstart := h.1
  rcases hcs : digits.toList with _ | ⟨c, cs⟩
  · rw [hcs] at hstart
    cases hstart
  · rw [hcs, startsNumber_cons] at hstart
    refine ⟨c, cs, rfl, ?_, ?_⟩
    · rintro rfl
      cases hstart
    · rintro rfl
      cases hstart

/-- A number needs no parentheses behind an operator. -/
theorem expr_numeral {digits : String} (h : (Lexeme.number digits).Spelled) (s : Setting) :
    (numeral digits).form.expr .unary s = [Piece.number digits] := by
  have spelled : Literal.Spelled (.number digits) := h
  have level : (numeral digits).form.level = Precedence.primary :=
    (level_form () _).trans (spelled.precedence (τ := Unit))
  have isIn : (numeral digits).form.isIn = false := by
    rw [numeral, of, form_mk]
    rfl
  rw [Form.expr, level, isIn, if_neg (by simp; decide), numeral, of, form_mk]
  rfl

/-- A sign and the number behind it do not become another lexeme. -/
theorem unary_number {op : UnaryOp} (hop : op ∈ [UnaryOp.plus, .neg]) {digits : String}
    (h : (Lexeme.number digits).Spelled) :
    Layout.unary op [Piece.number digits] = [punct op.text, Piece.number digits] := by
  obtain ⟨c, cs, hcs, hplus, hminus⟩ := head_of_number h
  have chars : charsOf [Piece.number digits] = c :: cs := by
    simpa [charsOf, Piece.number, chars, Lexeme.text] using hcs
  unfold Layout.unary
  rw [chars]
  rcases List.mem_pair.1 hop with rfl | rfl
  · simp [UnaryOp.text, UnaryOp.isKeyword, List.isPrefixOf, Ne.symm hplus]
  · simp [UnaryOp.text, UnaryOp.isKeyword, List.isPrefixOf, Ne.symm hminus]

/-- A sign in front of a number is printed like the operator in its place. -/
theorem bare_signed {op : UnaryOp} (hop : op ∈ [UnaryOp.plus, .neg]) {digits : String}
    (h : (Lexeme.number digits).Spelled) (s : Setting) :
    SameText ((numeral (op.text ++ digits)).form.bare s)
      ((of (.unary op (numeral digits))).form.bare s) := by
  have printed : (of (.unary op (numeral digits))).form.bare s =
      [punct op.text, Piece.number digits] := by
    rw [of, form_mk]
    show Layout.unary op ((numeral digits).form.expr .unary s) = _
    rw [expr_numeral h, unary_number hop h]
  rw [printed, numeral, of, form_mk]
  show charsOf [Piece.number (op.text ++ digits)] = _
  simp [charsOf, Piece.number, punct, chars, Lexeme.text]

/-- A number with a sign binds like an operator. -/
theorem precedence_of_sign {op : UnaryOp} (hop : op ∈ [UnaryOp.plus, .neg]) (digits : String) :
    (Node.literal (.number (op.text ++ digits)) : Node α String).precedence = .unary := by
  rcases List.mem_pair.1 hop with rfl | rfl
  · exact if_pos (.inl (by simp [UnaryOp.text]))
  · exact if_pos (.inr (by simp [UnaryOp.text]))

/-- The spelling of a number is printed like what it is read as. -/
theorem numeral_alike {raw : String} (h : IsNumeral raw) :
    (numeral raw).form.Alike (signed raw).form := by
  cases h with
  | bare h =>
    rw [signed_of_spelled h]
    exact .refl _
  | @withSign op digits hop h =>
    rw [signed_of_sign hop]
    have bare := bare_signed hop h
    rw [numeral, of, of, form_mk, form_mk] at bare ⊢
    have level : (Node.literal (.number (op.text ++ digits))).form.level = Precedence.unary :=
      precedence_of_sign (α := Form) hop digits
    have isIn : (Node.literal (.number (op.text ++ digits))).form.isIn = false := rfl
    have loose (s : Setting) : (Node.literal (.number (op.text ++ digits))).form.expr .sequence s =
        (Node.literal (.number (op.text ++ digits))).form.bare s.inParens := by
      rw [Form.expr, level, isIn, if_neg (by simp; decide)]
      rfl
    -- as the object of a member both stand in parentheses
    have base (s : Setting) :
        SameText ((Node.literal (.number (op.text ++ digits))).form.base s)
          ((Node.unary op (numeral digits).form).form.base s) := by
      show SameText (Piece.parens _) (Piece.parens _)
      rw [loose]
      exact (bare s.inParens).parens
    have asExpr : Form.Alike
        { (Node.literal (.number (op.text ++ digits))).form with statement := fun _ _ => [] }
        { (Node.unary op (numeral digits).form).form with statement := fun _ _ => [] } :=
      ⟨.inr ⟨rfl, rfl⟩, level, rfl, .inr ⟨rfl, rfl⟩, rfl, bare, base, fun _ => .refl _,
        fun _ => .refl _, fun _ => .refl _, fun _ _ => .refl _⟩
    exact { asExpr with statement := fun s _ => .cons _ (asExpr.exprStatement s) }

/-! ## Trees with other numbers -/

/-- A node whose contents give way to an expression if they are a number. -/
def Node.withNumbers (number : String → Reading) (n : Node Reading String) : Reading :=
  match n with
  | .literal (.number raw) => number raw
  | n => of n

namespace Tree

/-- A tree without tags whose numbers give way to other expressions. -/
def withNumbers (number : String → Reading) (t : Tree τ) : Reading :=
  t.fold fun _ n => n.withNumbers number

theorem withNumbers_mk (number : String → Reading) (tag : τ) (n : Node (Tree τ) String) :
    (mk tag n).withNumbers number = (n.map (withNumbers number) id).withNumbers number :=
  fold_mk _ tag n

end Tree

theorem Node.withNumbers_of_not {number : String → Reading} {n : Node Reading String}
    (h : n.isNumber = false) : n.withNumbers number = of n := by
  cases n with
  | literal value =>
    cases value with
    | number raw => cases h
    | _ => rfl
  | _ => rfl

/-- A node is a number, or it stays with what its children give way to. -/
theorem Node.isNumber_or (n : Node α String) :
    (∃ raw, n = .literal (.number raw)) ∨ n.isNumber = false := by
  cases n with
  | literal value =>
    cases value with
    | number raw => exact .inl ⟨raw, rfl⟩
    | _ => exact .inr rfl
  | _ => exact .inr rfl

namespace Tree

variable {number : String → Reading}

theorem withNumbers_number (tag : τ) (raw : String) :
    (mk tag (.literal (.number raw))).withNumbers number = number raw :=
  withNumbers_mk ..

theorem withNumbers_of_not {tag : τ} {n : Node (Tree τ) String} (h : n.isNumber = false) :
    (mk tag n).withNumbers number = of (n.map (withNumbers number) id) := by
  rw [withNumbers_mk, Node.withNumbers_of_not]
  rw [Node.isNumber_map, h]

/-! ## Slashes -/

/-- Numbers give way to expressions that do not end in a name and whose slashes divide. -/
structure Endless (number : String → Reading) : Prop where
  edge : ∀ raw level, (number raw).edge level = none
  divisible : ∀ raw, (number raw).Divisible

theorem edge_numeral (raw : String) (level : Precedence) : (numeral raw).edge level = none := by
  rw [numeral, of, edge_mk]
  exact ite_self _

theorem divisible_numeral (raw : String) : (numeral raw).Divisible :=
  divisible_mk.2 ⟨Node.divisible_of_none rfl, nofun⟩

theorem endless_numeral (raw : String) : Endless fun _ => numeral raw :=
  ⟨fun _ => edge_numeral raw, fun _ => divisible_numeral raw⟩

theorem endless_signed : Endless signed := by
  have sign (op : UnaryOp) (digits : String) :
      (∀ level, (of (.unary op (numeral digits))).edge level = none) ∧
        (of (.unary op (numeral digits))).Divisible := by
    refine ⟨fun level => ?_, divisible_mk.2 ⟨Node.divisible_of_none rfl, fun c hc => ?_⟩⟩
    · rw [of, edge_mk]
      show ite _ none ((numeral digits).edge .unary) = none
      rw [edge_numeral, ite_self]
    · obtain rfl := List.mem_singleton.1 hc
      exact divisible_numeral digits
  constructor
  · intro raw
    refine signed_cases (P := fun t => ∀ level, t.edge level = none) raw (edge_numeral raw) ?_
    exact fun op digits => (sign op digits).1
  · intro raw
    refine signed_cases (P := Divisible) raw (divisible_numeral raw) ?_
    exact fun op digits => (sign op digits).2

theorem edge_withNumbers (h : Endless number) (t : Tree τ) :
    (t.withNumbers number).edge = t.edge := by
  induction t using induct with
  | step t ih =>
    obtain ⟨tag, n⟩ := t
    rcases n.isNumber_or with ⟨raw, rfl⟩ | hn
    · funext level
      rw [withNumbers_number, h.edge, edge_mk]
      exact (ite_self _).symm
    · rw [withNumbers_of_not hn]
      exact edge_mk_map ih

theorem divisible_withNumbers (h : Endless number) (t : Tree τ) :
    (t.withNumbers number).Divisible ↔ t.Divisible := by
  induction t using induct with
  | step t ih =>
    obtain ⟨tag, n⟩ := t
    rcases n.isNumber_or with ⟨raw, rfl⟩ | hn
    · rw [withNumbers_number]
      exact iff_of_true (h.divisible raw) (divisible_mk.2 ⟨Node.divisible_of_none rfl, nofun⟩)
    · rw [withNumbers_of_not hn]
      exact divisible_mk_map (fun c _ => edge_withNumbers h c) ih

end Tree

/-! ## The grammar -/

/-- What is asked of the contents of a node but for the signs of numbers. -/
def Node.Numeral (n : Node α String) : Prop :=
  n.Spelled ∨ ∃ raw, n = .literal (.number raw) ∧ IsNumeral raw

theorem Node.stable_numeral : Stable Node.Numeral := by
  intro ι n f g h
  rintro (hs | ⟨raw, he, hr⟩)
  · exact .inl (stable_spelled n f g h hs)
  · cases n with
    | literal value => exact .inr ⟨raw, he, hr⟩
    | _ => cases he

theorem Kind.Alike.isExpression {k l : Kind} (h : k.Alike l) :
    k.isExpression = l.isExpression := by
  rcases h with rfl | ⟨rfl, rfl⟩ <;> rfl

theorem Kind.Alike.isStatement {k l : Kind} (h : k.Alike l) : k.isStatement = l.isStatement := by
  rcases h with rfl | ⟨rfl, rfl⟩ <;> rfl

/-- The slots of a node do not tell a literal from an operator in front of it. -/
theorem Node.slots_alike {n : Node α String} {k l : α → Kind}
    (h : ∀ c ∈ n.children, (k c).Alike (l c)) (hs : (n.map k id).Slots) : (n.map l id).Slots := by
  have expression : ∀ c ∈ n.children, (l c).isExpression = (k c).isExpression :=
    fun c hc => (h c hc).isExpression.symm
  have statement : ∀ c ∈ n.children, (l c).isStatement = (k c).isStatement :=
    fun c hc => (h c hc).isStatement.symm
  have told : ∀ c ∈ n.children, k c = l c ∨ k c = .literal ∧ l c = .unary := h
  clear h
  cases n <;>
    simp [Node.map, Node.Slots, Node.children, Declarator.map, Method.map, Property.map,
      Catch.map] at * <;>
    grind

theorem Node.Numeral.isNumeral {raw : String}
    (h : (Node.literal (.number raw) : Node α String).Numeral) : IsNumeral raw := by
  rcases h with h | ⟨raw', he, h⟩
  · exact .bare h
  · cases he
    exact h

theorem Node.Numeral.spelled {n : Node α String} (h : n.Numeral) (hn : n.isNumber = false) :
    n.Spelled := by
  rcases h with h | ⟨raw, rfl, -⟩
  · exact h
  · cases hn

namespace Tree

variable {t : Tree τ}

theorem kind_signed (t : Tree τ) : t.kind.Alike (t.withNumbers signed).kind := by
  obtain ⟨tag, n⟩ := t
  rcases n.isNumber_or with ⟨raw, rfl⟩ | hn
  · rw [withNumbers_number]
    refine signed_cases (P := fun t => Kind.literal.Alike t.kind) raw (.inl rfl) ?_
    exact fun _ _ => .inr ⟨rfl, rfl⟩
  · rw [withNumbers_of_not hn]
    exact .inl (Node.kind_map ..).symm

theorem isForLeft_signed (h : t.IsForLeft) : (t.withNumbers signed).IsForLeft := by
  rcases h with h | ⟨kind, name, h⟩
  · exact .inl ((kind_signed t).isExpression.symm.trans h)
  · obtain ⟨tag, n⟩ := t
    obtain rfl : n = .varDecl kind [⟨name, none⟩] := h
    exact .inr ⟨kind, name, congrArg node (withNumbers_of_not rfl)⟩

/-- Operators in the place of signs obey the grammar where the numbers did. -/
theorem grammatical_signed (h : t.Grammatical) : (t.withNumbers signed).Grammatical := by
  have number (raw : String) : (numeral raw).Grammatical :=
    (forall_preorder_iff _).2 ⟨⟨.of_slots trivial rfl, nofun⟩, nofun⟩
  have sign (op : UnaryOp) (digits : String) :
      (of (.unary op (numeral digits))).Grammatical := by
    refine (forall_preorder_iff _).2 ⟨⟨.of_slots rfl rfl, nofun⟩, fun c hc => ?_⟩
    obtain rfl := List.mem_singleton.1 hc
    exact number digits
  induction t using induct with
  | step t ih =>
    obtain ⟨tag, n⟩ := t
    rcases n.isNumber_or with ⟨raw, rfl⟩ | hn
    · rw [withNumbers_number]
      exact signed_cases (P := Grammatical) raw (number raw) sign
    · obtain ⟨here, below⟩ := (forall_preorder_iff _).1 h
      obtain ⟨slots, left⟩ := (fits_head_iff n).1 here.fits
      rw [withNumbers_of_not hn]
      -- slots and left sides go by kinds, names by the node alone
      refine (forall_preorder_iff _).2 ⟨⟨(fits_head_iff _).2 ⟨?_, fun l hl => ?_⟩, ?_⟩, ?_⟩
      · show ((n.map (withNumbers signed) id).map kind id).Slots
        rw [Node.map_map]
        exact Node.slots_alike (fun c _ => kind_signed c) slots
      · rw [show (of (n.map (withNumbers signed) id)).node.each? = _ from Node.each?_map ..] at hl
        obtain ⟨c, hc, rfl⟩ := Option.map_eq_some_iff.1 hl
        exact isForLeft_signed (left c hc)
      · rw [show (of (n.map (withNumbers signed) id)).node.identifiers = _ from
          Node.identifiers_map .., List.map_id]
        exact here.names
      · rw [show (of (n.map (withNumbers signed) id)).children = _ from Node.children_map ..,
          List.forall_mem_map]
        exact fun c hc => ih c hc (below c hc)

/-- Operators in the place of signs leave numbers that are spelled without them. -/
theorem spelled_signed (h : t.Each Node.Numeral) : (t.withNumbers signed).Each Node.Spelled := by
  induction t using induct with
  | step t ih =>
    obtain ⟨tag, n⟩ := t
    obtain ⟨here, below⟩ := each_mk.1 h
    rcases n.isNumber_or with ⟨raw, rfl⟩ | hn
    · rw [withNumbers_number]
      have number (digits : String) (hd : (Lexeme.number digits).Spelled) :
          (numeral digits).Each Node.Spelled := each_mk.2 ⟨hd, nofun⟩
      refine here.isNumeral.signed_induct (P := Each Node.Spelled) number fun op digits hd => ?_
      refine each_mk.2 ⟨trivial, fun c hc => ?_⟩
      obtain rfl := List.mem_singleton.1 hc
      exact number digits hd
    · have spelled := here.spelled ((Node.isNumber_map ..).trans hn)
      rw [withNumbers_of_not hn, of, each_mk, Node.spelled_map, Node.spelled_map,
        Node.children_map, List.forall_mem_map]
      exact ⟨(Node.spelled_map head n).1 spelled, fun c hc => ih c hc (below c hc)⟩

/-- A tree is printed with the same characters when operators take the place of the signs of its
numbers. -/
theorem signed_alike (h : t.Each Node.Numeral) : t.form.Alike (t.withNumbers signed).form := by
  induction t using induct with
  | step t ih =>
    obtain ⟨tag, n⟩ := t
    obtain ⟨here, below⟩ := each_mk.1 h
    rcases n.isNumber_or with ⟨raw, rfl⟩ | hn
    · rw [withNumbers_number]
      have alike := numeral_alike here.isNumeral
      rw [numeral, of, form_mk] at alike
      rw [form_mk]
      exact alike
    · rw [withNumbers_of_not hn, of, form_mk, form_mk, Node.map_map]
      exact Node.form_alike fun c hc => ih c hc (below c hc)

end Tree

end Graft
