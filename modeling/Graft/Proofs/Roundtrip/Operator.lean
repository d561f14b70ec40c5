import Graft.Proofs.Printing.Written
import Graft.Proofs.Roundtrip.Operand

/-!
# Operators are read back

What the layout of an expression with an operator is read back as, from the tightest operators to
the loosest, given that its operands are read back.

* `ReadBackChain` - operands with members, and calls where these may stand
* `readBackAt_binary` and the like - one operator between operands that are read back
-/

namespace Graft

open Piece Layout Read Grammar
open Reading (of)

variable {ps qs : List Piece} {t u v : Reading} {s : Setting} {d level : Nat} {fresh : Bool}
  {rest more : List Mark} {noIn : Bool}

/-! ## Members and calls -/

/-- Whether a layout is an operand that grows in rounds. A construction in front is read by rules
that are `lag` levels below: by those of the same depth in general, and by the nested ones as the
callee of another construction. -/
def ReadBackChain (round : Rules → Reading → Read (Option Reading)) (lag : Nat) (ps : List Piece)
    (t : Reading) : Prop :=
  ∀ d fresh rest, front? rest ≠ some (.punct "=>") → (marks fresh ps ++ rest).length + lag ≤ d →
    Plain (marks fresh ps ++ rest) ∧ Bare (marks fresh ps ++ rest) ∧
      Joined (TakesOperand (construction (rules (d - lag))) (rules d)) (round (rules d))
        (marks fresh ps ++ rest) t rest

/-- A round that takes members. -/
def TakesMembers (round : Rules → Reading → Read (Option Reading)) : Prop :=
  ∀ inner base before t after, Takes (memberSuffix inner base) before (some t) after →
    Takes (round inner base) before (some t) after

theorem takesMembers_memberSuffix : TakesMembers memberSuffix :=
  fun _ _ _ _ _ h => h

theorem takesMembers_accessSuffix : TakesMembers accessSuffix :=
  fun _ _ _ _ _ h => h.bind (.pure _ _)

variable {round : Rules → Reading → Read (Option Reading)} {lag : Nat}

theorem ReadBackChain.readBackAt (h : ReadBackChain accessSuffix 0 ps t) :
    ReadBackAt 16 s ps t := by
  intro d noIn fresh rest hs _ hlen
  obtain ⟨hp, hb, hj⟩ := h d fresh rest (hs.front_ne (by cases noIn <;> decide)) hlen
  exact .access rfl hp hb hj

theorem ReadBackAt.chain (h : ReadBackAt 16 s ps t) : ReadBackChain accessSuffix 0 ps t :=
  fun _ _ _ hr hlen => h.access hr hlen

/-- An operand by itself. -/
theorem ReadBackAt.chain_of_primary (h : ReadBackAt 17 s ps t) : ReadBackChain round lag ps t := by
  intro d fresh rest hr hlen
  cases h d false fresh rest (halts_of_ne_arrow hr) nofun (Nat.le_of_add_right_le hlen) with
  | primary _ hp hb hn h => exact ⟨hp, hb, t, rest, .inr ⟨hn, h⟩, .refl t rest⟩
  | _ => omega

/-- One more round. -/
theorem ReadBackChain.append (h : ReadBackChain round lag ps t) {l : Lexeme}
    (hq : qs.head? = some (lexeme l)) (hl : l ≠ .punct "=>")
    (hround : ∀ d fresh rest, (marks fresh qs ++ rest).length ≤ d →
      Takes (round (rules d) t) (marks fresh qs ++ rest) (some u) rest) :
    ReadBackChain round lag (ps ++ qs) u := by
  intro d fresh rest hr hlen
  obtain ⟨qs, rfl⟩ := List.head?_eq_some_iff.1 hq
  rw [marks_append, List.append_assoc] at hlen ⊢
  obtain ⟨hp, hb, first, between, hfirst, hg⟩ := h d fresh _ (front_ne rfl hl) hlen
  refine ⟨hp, hb, first, between, hfirst, hg.concat (hround d _ rest ?_) ?_⟩
  · rw [List.length_append] at hlen
    omega
  · rw [marks_lexeme, List.cons_append, List.length_cons, List.length_append]
    omega

theorem ReadBackChain.member (h : ReadBackChain round lag ps t) (hround : TakesMembers round)
    (name : String) :
    ReadBackChain round lag (ps ++ [punct ".", word name]) (of (.member t name)) := by
  refine h.append rfl (by decide) fun d fresh rest _ => hround _ _ _ _ _ ?_
  exact (takes_eatPunct "." _ _).bind (.pos rfl ((takes_propertyName name).bind (.pure _ _)))

theorem ReadBackChain.index (h : ReadBackChain round lag ps t) (hround : TakesMembers round)
    (hkey : ReadBackAt 0 s qs u) :
    ReadBackChain round lag (ps ++ enclosed "[" qs "]") (of (.index t u)) := by
  refine h.append rfl (by decide) fun d fresh rest hlen => hround _ _ _ _ _ ?_
  rw [marks_enclosed_append] at hlen ⊢
  obtain ⟨d, rfl, hd⟩ := exists_depth hlen
  refine (takes_eatPunct_other "." _ _ (by decide)).bind (.neg nofun ?_)
  refine (takes_eatPunct "[" _ _).bind (.pos rfl ?_)
  have key : Takes (Grammar.expression (rules d) false) _ u _ :=
    hkey.expression (halts_punct (by simp)) nofun hd
  exact key.bind ((takes_expectPunct "]" _ _).bind (.pure _ _))

/-- Arguments are no member. -/
theorem takes_memberSuffix_paren (inner : Rules) (base : Reading) :
    Takes (memberSuffix inner base) ((.punct "(", fresh) :: rest) none
      ((.punct "(", fresh) :: rest) :=
  (takes_eatPunct_other "." _ _ (by decide)).bind (.neg nofun
    ((takes_eatPunct_other "[" _ _ (by decide)).bind (.neg nofun (.pure _ _))))

theorem ReadBackChain.call {args : List Reading} (h : ReadBackChain accessSuffix lag ps t)
    (hargs : ReadBack arguments (fun _ => True) (parens qs) args) :
    ReadBackChain accessSuffix lag (ps ++ parens qs) (of (.call t args)) := by
  refine h.append rfl (by decide) fun d fresh rest hlen => ?_
  have arguments := hargs d fresh rest trivial hlen
  rw [parens, marks_enclosed_append] at arguments ⊢
  exact (takes_memberSuffix_paren _ t).bind (.at_punct (arguments.bind (.pure _ _)))

/-- A construction behind its keyword; the callee takes members, but no calls. -/
theorem takes_construction {args : List Reading} (h : ReadBackChain memberSuffix 1 ps t)
    (first : ∀ rest, front? (marks false ps ++ rest) ≠ some (.punct "."))
    (hargs : ReadBack arguments (fun _ => True) (parens qs) args)
    (hlen : (marks false ps ++ (marks false (parens qs) ++ rest)).length ≤ d) :
    Takes (construction (rules (d + 1)))
      ((.word "new", fresh) :: (marks false ps ++ (marks false (parens qs) ++ rest)))
      (of (.newExpr t args)) rest := by
  have arguments :
      Takes (arguments (rules (d + 1))) (marks false (parens qs) ++ rest) args rest := by
    refine hargs _ false rest trivial ?_
    rw [List.length_append] at hlen
    omega
  obtain ⟨-, -, base, between, hbase, hg⟩ :=
    h (d + 1) false (marks false (parens qs) ++ rest) (front_ne rfl (by decide)) (by omega)
  have members := takes_grow hg (takes_memberSuffix_paren _ t)
  refine (takes_expectWord "new" _ _).bind (.not_punct (first _) ?_)
  obtain ⟨hn, hb⟩ | ⟨hn, hb⟩ := hbase
  · refine (takes_isWord "new" _).bind (.pos (beq_iff_eq.2 hn) (hb.bind (members.bind ?_)))
    exact .at_punct (arguments.bind (.pure _ _))
  · refine (takes_isWord "new" _).bind (.neg (mt beq_iff_eq.1 hn) (hb.bind (members.bind ?_)))
    exact .at_punct (arguments.bind (.pure _ _))

theorem readBackChain_new {args : List Reading} (h : ReadBackChain memberSuffix 1 ps t)
    (first : ∀ rest, front? (marks false ps ++ rest) ≠ some (.punct "."))
    (closed : freshBehind false ps = false)
    (hargs : ReadBack arguments (fun _ => True) (parens qs) args) :
    ReadBackChain round lag (word "new" :: space :: ps ++ parens qs) (of (.newExpr t args)) := by
  intro d fresh rest hr hlen
  have layout : marks fresh (word "new" :: space :: ps ++ parens qs) ++ rest =
      (.word "new", fresh) :: (marks false ps ++ (marks false (parens qs) ++ rest)) := by
    simp [closed]
  have operator : unaryOp? (.word "new") = none := by decide
  rw [layout] at hlen ⊢
  obtain ⟨e, he, hd⟩ := exists_depth (Nat.le_sub_of_add_le hlen)
  refine ⟨plain_of_reserved (by decide), bare_cons operator rfl, _, rest, .inl ⟨rfl, ?_⟩,
    .refl _ rest⟩
  rw [he]
  exact takes_construction h first hargs hd

/-! ## Unary operators -/

/-- What a reader sees of a unary operator. -/
theorem exists_marks_unary (op : UnaryOp) (ps : List Piece) (fresh : Bool) :
    ∃ l, marks fresh (Layout.unary op ps) = (l, fresh) :: marks false ps ∧
      unaryOp? l = some op ∧ ∀ rest, Plain ((l, fresh) :: rest) := by
  have words : ∀ op : UnaryOp, op.isKeyword = true → isReserved op.text = true ∧
      unaryOp? (.word op.text) = some op := by
    intro op
    cases op <;> decide
  have signs : ∀ op : UnaryOp, op.isKeyword = false → op.text ≠ "(" ∧
      unaryOp? (.punct op.text) = some op := by
    intro op
    cases op <;> decide
  unfold Layout.unary
  split
  · obtain ⟨hr, hu⟩ := words op ‹_›
    exact ⟨_, rfl, hu, fun rest => plain_of_reserved hr⟩
  · obtain ⟨hp, hu⟩ := signs op (Bool.not_eq_true _ ▸ ‹_›)
    have plain : ∀ rest, Plain ((.punct op.text, fresh) :: rest) :=
      fun rest => plain_of_ne nofun fun heq => hp (Lexeme.punct.inj heq)
    split <;> exact ⟨_, rfl, hu, plain⟩

theorem readBackAt_unary (op : UnaryOp) (h : ReadBackAt 14 s ps t) :
    ReadBackAt 14 s (Layout.unary op ps) (of (.unary op t)) := by
  intro d noIn fresh rest hs _ hlen
  obtain ⟨l, hl, hop, plain⟩ := exists_marks_unary op ps fresh
  rw [hl, List.cons_append] at hlen ⊢
  obtain ⟨d, rfl, hd⟩ := exists_depth hlen
  refine .unary (.inl rfl) (plain _) ((takes_lexeme? _).bind ?_)
  have found : (front? ((l, fresh) :: (marks false ps ++ rest))).bind unaryOp? = some op := hop
  rw [found]
  have arg : Takes (Grammar.unary (rules d)) _ t _ := h.unary (.inl rfl) hs hd
  exact (takes_discard_next _ _).bind (arg.bind (.pure _ _))

theorem updateOp_facts (op : UpdateOp) : op.text ≠ "(" ∧ unaryOp? (.punct op.text) = none ∧
    updateOp? (.punct op.text) = some op ∧ ∀ noIn, joint noIn (.punct op.text) ≤ 16 := by
  cases op <;> decide

theorem readBackAt_leading (op : UpdateOp) (h : ReadBackAt 16 s ps t) :
    ReadBackAt 14 s (punct op.text :: ps) (of (.update op true t)) := by
  intro d noIn fresh rest hs _ hlen
  obtain ⟨hp, hu, hop, -⟩ := updateOp_facts op
  rw [marks_punct, List.cons_append] at hlen ⊢
  obtain ⟨d, rfl, hd⟩ := exists_depth hlen
  refine .unary (.inl rfl) (plain_of_ne nofun fun heq => hp (Lexeme.punct.inj heq))
    ((takes_lexeme? _).bind ?_)
  have none : (front? ((.punct op.text, fresh) :: (marks false ps ++ rest))).bind unaryOp? =
      none := hu
  have found : (front? ((.punct op.text, fresh) :: (marks false ps ++ rest))).bind updateOp? =
      some op := hop
  rw [none, found]
  have arg : Takes (Grammar.unary (rules d)) _ t _ :=
    (h.loosen (by decide : 14 ≤ 16)).unary (.inl rfl) hs hd
  exact (takes_discard_next _ _).bind (arg.bind (.pure _ _))

/-- An update operator on the line of its operand. -/
theorem readBackAt_trailing (op : UpdateOp) (h : ReadBackAt 16 s ps t)
    (closed : ∀ fresh, freshBehind fresh ps = false) :
    ReadBackAt 15 s (ps ++ [punct op.text]) (of (.update op false t)) := by
  intro d noIn fresh rest hs _ hlen
  obtain ⟨hp, -, hop, hjoint⟩ := updateOp_facts op
  have layout : marks fresh (ps ++ [punct op.text]) ++ rest =
      marks fresh ps ++ (.punct op.text, false) :: rest := by
    simp [closed]
  rw [layout] at hlen ⊢
  have hne : (.punct op.text : Lexeme) ≠ .punct "=>" := by cases op <;> decide
  obtain ⟨plain, bare, hj⟩ := h.access (front_ne rfl hne) hlen
  have hu : (front? (marks fresh ps ++ (.punct op.text, false) :: rest)).bind unaryOp? = none :=
    Option.bind_eq_none_iff.2 fun l hl => (bare l hl).1
  have hw : (front? (marks fresh ps ++ (.punct op.text, false) :: rest)).bind updateOp? = none :=
    Option.bind_eq_none_iff.2 fun l hl => (bare l hl).2
  refine .unary (.inr rfl) plain ((takes_lexeme? _).bind ?_)
  rw [hu, hw]
  refine (takes_access hj (halts_cons (hjoint noIn))).bind ((takes_lexeme? _).bind ?_)
  have found : (front? ((.punct op.text, false) :: rest)).bind updateOp? = some op := hop
  rw [found]
  exact (takes_newlineAhead _ _).bind (.pos rfl ((takes_discard_next _ _).bind (.pure _ _)))

/-! ## Operators between operands -/

/-- The left operand of an operator. It need not end with it. -/
theorem ReadBackAt.joined {left : Nat} (h : ReadBackAt left s ps t)
    (hl : left = level ∧ 3 ≤ level ∧ level ≤ 12 ∨ left = 15) (hs : Halts noIn (slack left) rest)
    (hn : noIn = true → s.noIn = true) (hlen : (marks fresh ps ++ rest).length ≤ d) :
    Plain (marks fresh ps ++ rest) ∧
      Joined (Takes (Grammar.unary (rules d))) (infixSuffix (rules d) noIn level)
        (marks fresh ps ++ rest) t rest := by
  cases h d noIn fresh rest hs (fun hi => .inl (hn hi)) hlen with
  | operator _ hp h =>
    obtain rfl : left = level := by omega
    exact ⟨hp, h⟩
  | unary _ hp h => exact ⟨hp, t, rest, h, .refl t rest⟩
  | _ => omega

/-- An operator between two operands. The levels of the operands are those at which the operator
groups. -/
theorem readBackAt_infix (op : Infix) {l : Lexeme} {left : Nat} (h : ReadBackAt left s ps t)
    (h' : ReadBackAt op.rightLevel s qs u)
    (hl : left = op.precedence ∧ op.precedence ≤ 12 ∨ left = 15)
    (hop : ∀ noIn, (noIn = true → s.noIn = true) → Infix.ofLexeme? noIn l = some op) :
    ReadBackAt op.precedence s (infixed ps (lexeme l) qs) (op.apply t u) := by
  have levels : 3 ≤ op.precedence ∧ op.precedence ≤ 13 ∧ op.rightLevel = slack op.precedence ∧
      3 ≤ op.rightLevel ∧ op.rightLevel ≤ 13 := by
    rcases op with op | op <;> cases op <;> decide
  obtain ⟨h3, h13, hslack, hr⟩ := levels
  intro d noIn fresh rest hs hn hlen
  have hn : noIn = true → s.noIn = true := fun hi => (hn hi).resolve_right (by
    rw [Nat.not_le]
    exact Nat.lt_succ_of_le h13)
  have hfound := hop noIn hn
  rw [marks_infixed, List.append_assoc, List.cons_append] at hlen ⊢
  have hjoint : joint noIn l = op.precedence + 1 := by simp only [joint, hfound]
  have hleft : Halts noIn (slack left)
      ((l, freshBehind fresh ps) :: (marks false qs ++ rest)) := by
    refine halts_cons (hjoint.trans_le ?_)
    rcases hl with ⟨rfl, h12⟩ | rfl
    · exact Nat.le_of_eq (slack_of_operator h3 h12).symm
    · exact Nat.succ_le_succ (Nat.le_trans h13 (by decide))
  obtain ⟨plain, first, between, hfirst, hg⟩ := h.joined (hl.imp_left fun hl => ⟨hl.1, h3, hl.2⟩)
    hleft hn hlen
  obtain ⟨d, rfl, hd⟩ := exists_depth_behind hlen
  refine .operator ⟨h3, h13⟩ plain ⟨first, between, hfirst, hg.concat ?_ ?_⟩
  · refine (takes_lexeme? _).bind ?_
    have found : (front? ((l, freshBehind fresh ps) :: (marks false qs ++ rest))).bind
        (Infix.ofLexeme? noIn) = some op := hfound
    rw [found]
    refine .neg (Nat.lt_irrefl _) ((takes_discard_next _ _).bind ?_)
    have right : Takes (Grammar.binary (rules d) noIn op.rightLevel) _ u _ :=
      h'.binary hr (hslack ▸ hs) hn hd
    exact right.bind (.pure _ _)
  · rw [List.length_cons, List.length_append]
    omega

/-- Where a bare `in` would end the head of a `for`, the operator is another one. -/
theorem readBackAt_binary {op : BinaryOp} (hop : s.noIn = true → op ≠ .isIn)
    (h : ReadBackAt (operandLevels op).1 s ps t) (h' : ReadBackAt (operandLevels op).2 s qs u) :
    ReadBackAt op.precedence s (infixed ps (binaryOp op) qs) (of (.binary op t u)) := by
  have sign : ∃ l, binaryOp op = lexeme l ∧
      ∀ noIn, (noIn = true → op ≠ .isIn) → Infix.ofLexeme? noIn l = some (.binary op) := by
    cases op
    case isIn =>
      refine ⟨_, rfl, fun noIn hn => ?_⟩
      cases noIn
      · rfl
      · exact absurd rfl (hn rfl)
    all_goals exact ⟨_, rfl, fun noIn _ => by cases noIn <;> decide⟩
  obtain ⟨l, hl, hfound⟩ := sign
  have right : Infix.rightLevel (.binary op) = (operandLevels op).2 := by cases op <;> rfl
  rw [hl]
  refine readBackAt_infix (.binary op) h (right ▸ h') ?_ fun noIn hn =>
    hfound noIn fun hi => hop (hn hi)
  cases op <;> decide

theorem readBackAt_logical {op : LogicalOp} (h : ReadBackAt op.precedence s ps t)
    (h' : ReadBackAt (op.precedence + 1) s qs u) :
    ReadBackAt op.precedence s (infixed ps (punct op.text) qs) (of (.logical op t u)) :=
  readBackAt_infix (.logical op) h (by cases op <;> exact h') (by cases op <;> decide)
    fun noIn _ => by cases op <;> cases noIn <;> decide

/-! ## Choices and assignments -/

/-- The level of a choice, or of an assignment, is too loose for what is laid out for no head. -/
theorem head_of_loose (hn : noIn = true → s.noIn = true ∨ 14 ≤ level) (hl : level < 14) :
    noIn = true → s.noIn = true :=
  fun hi => (hn hi).resolve_right (Nat.not_le.2 hl)

theorem readBackAt_conditional {rs : List Piece} (h : ReadBackAt 3 s ps t)
    (h' : ReadBackAt 1 s qs u) (h'' : ReadBackAt 1 s rs v) :
    ReadBackAt 2 s (infixed ps (punct "?") (infixed qs (punct ":") rs))
      (of (.conditional t u v)) := by
  intro d noIn fresh rest hs hn hlen
  have hn := head_of_loose hn (by decide)
  have layout : marks fresh (infixed ps (punct "?") (infixed qs (punct ":") rs)) ++ rest =
      marks fresh ps ++ (.punct "?", freshBehind fresh ps) ::
        (marks false qs ++ (.punct ":", freshBehind false qs) :: (marks false rs ++ rest)) := by
    simp [punct]
  rw [layout] at hlen ⊢
  have mark : joint noIn (.punct "?") ≤ 3 := by cases noIn <;> decide
  have plain := (h.joined (.inl ⟨rfl, by decide⟩) (halts_cons (Nat.le_succ_of_le mark)) hn hlen).1
  have test := h.binary (by decide) (halts_cons mark) hn hlen
  obtain ⟨d, rfl, hd⟩ := exists_depth_behind hlen
  have first : Takes (Grammar.assignment (rules d) false) _ u _ :=
    h'.assignment ((halts_punct (by simp)).mono (by decide)) Bool.false_ne_true.elim hd
  have second : Takes (Grammar.assignment (rules d) noIn) (marks false rs ++ rest) v rest :=
    h''.assignment hs hn (length_le_behind hd)
  refine .conditional rfl plain (test.bind ((takes_eatPunct "?" _ _).bind (.pos rfl ?_)))
  exact first.bind ((takes_expectPunct ":" _ _).bind (second.bind (.pure _ _)))

theorem assignOp_facts (op : AssignOp) : assignOp? (.punct op.text) = some op ∧
    (∀ noIn, joint noIn (.punct op.text) ≤ 2) ∧ op.text ≠ "=>" := by
  cases op <;> decide

theorem readBackAt_assign (op : AssignOp) (h : ReadBackAt 16 s ps t) (ht : t.IsReference)
    (h' : ReadBackAt 1 s qs u) :
    ReadBackAt 1 s (infixed ps (punct op.text) qs) (of (.assign op t u)) := by
  intro d noIn fresh rest hs hn hlen
  have hn := head_of_loose hn (by decide)
  obtain ⟨hop, hjoint, hne⟩ := assignOp_facts op
  have layout : marks fresh (infixed ps (punct op.text) qs) ++ rest =
      marks fresh ps ++ (.punct op.text, freshBehind fresh ps) :: (marks false qs ++ rest) := by
    simp [punct]
  rw [layout] at hlen ⊢
  have plain := (h.access (front_ne rfl fun heq => hne (Lexeme.punct.inj heq)) hlen).1
  have target := takes_conditional ((h.loosen (by decide : 3 ≤ 16)).binary (by decide)
    (halts_cons (Nat.le_succ_of_le (hjoint noIn))) hn hlen) (halts_cons (hjoint noIn))
  obtain ⟨d, rfl, hd⟩ := exists_depth_behind hlen
  refine .assignment rfl ((takes_arrowParameters_of_plain plain).bind (target.bind
    ((takes_lexeme? _).bind ?_)))
  have found : (front? ((.punct op.text, freshBehind fresh ps) ::
      (marks false qs ++ rest))).bind assignOp? = some op := hop
  have reference : isReference t = true := by
    rcases ht with h | h <;> simp [isReference, h]
  rw [found]
  have value : Takes (Grammar.assignment (rules d) noIn) _ u _ := h'.assignment hs hn hd
  exact .pos reference ((takes_discard_next _ _).bind (value.bind (.pure _ _)))

/-! ## Arrow functions -/

/-- The parameters of an arrow function, which the arrow behind them gives away. -/
theorem takes_arrowParameters {names : List String} {f : Bool} (hn : ∀ x ∈ names, IsName x) :
    Takes arrowParameters (marks fresh (params names) ++ (.punct "=>", f) :: rest) (some names)
      ((.punct "=>", f) :: rest) := by
  have balanced : Balanced (commas (names.map fun x => [word x])) :=
    (strip_commas fun x hx => item_word (hn x hx).word).1.balanced
  rw [params, parens, marks_enclosed_append]
  refine (takes_lexeme? _).bind (takes_get fun c hc => .pos ?_ ?_)
  · rw [arrowBehindGroup_iff, ← Cursor.map_fst_marks, hc, List.map_cons,
      behindGroup_of_isOpening _ _ rfl, List.map_append, Piece.map_fst_marks, balanced,
      List.map_cons, behindGroup_one _ rfl]
    exact ⟨_, rfl, rfl⟩
  · refine (takes_discard_next _ _).bind ((takes_names (fun x hx => (hn x hx).free)
      fun w fresh rest hr hf => takes_arrowParameter hr hf).bind ?_)
    exact (takes_expectPunct ")" _ _).bind (.pure _ _)

variable {names : List String}

/-- An arrow function whose body is a block. -/
theorem readBackAt_arrow_block (hn : ∀ x ∈ names, IsName x) (hps : ps.head? = some (punct "\x7b"))
    (h : ReadBack block (fun _ => True) ps t) :
    ReadBackAt 1 s (infixed (params names) (punct "=>") ps) (of (.arrow names t false)) := by
  intro d noIn fresh rest _ _ hlen
  obtain ⟨qs, rfl⟩ := List.head?_eq_some_iff.1 hps
  rw [punct, marks_infixed, List.append_assoc, List.cons_append] at hlen ⊢
  obtain ⟨d, rfl, hd⟩ := exists_depth_behind hlen
  refine .assignment rfl ((takes_arrowParameters hn).bind ?_)
  have body : Takes (block (rules d)) _ t _ := h d false rest trivial hd
  exact (takes_expectPunct "=>" _ _).bind (.at_punct (body.bind (.pure _ _)))

/-- An arrow function whose body is an expression that does not begin like a block. -/
theorem readBackAt_arrow_expression (hn : ∀ x ∈ names, IsName x)
    (first : ∀ rest, front? (marks false ps ++ rest) ≠ some (.punct "\x7b"))
    (h : ReadBackAt 1 s ps t) :
    ReadBackAt 1 s (infixed (params names) (punct "=>") ps) (of (.arrow names t true)) := by
  intro d noIn fresh rest hs hin hlen
  rw [punct, marks_infixed, List.append_assoc, List.cons_append] at hlen ⊢
  obtain ⟨d, rfl, hd⟩ := exists_depth_behind hlen
  refine .assignment rfl ((takes_arrowParameters hn).bind ?_)
  have body : Takes (Grammar.assignment (rules d) noIn) _ t _ :=
    h.assignment hs (head_of_loose hin (by decide)) hd
  exact (takes_expectPunct "=>" _ _).bind (.not_punct (first _) (body.bind (.pure _ _)))

/-! ## Sequences -/

theorem commas_cons {α : Type} (f : α → List Piece) (x : α) (xs : List α) :
    commas ((x :: xs).map f) = f x ++ xs.flatMap fun y => punct "," :: space :: f y := by
  induction xs generalizing x with
  | nil => simp [commas]
  | cons y ys ih =>
    rw [List.map_cons, List.map_cons, commas_cons_cons, ← List.map_cons, ih]
    rfl

/-- Rounds behind commas. What follows an item is the next comma or what follows them all. -/
theorem rounds_commas {α β : Type} {round : Read (Option β)} {f : α → List Piece} {g : α → β}
    (follow : List Mark → Prop) {xs : List α} (hcomma : ∀ f ms, follow ((.punct ",", f) :: ms))
    (h : ∀ x ∈ xs, ∀ fresh rest, follow rest → (marks false (f x) ++ rest).length ≤ d →
      Takes round ((.punct ",", fresh) :: (marks false (f x) ++ rest)) (some (g x)) rest)
    (stop : Takes round rest none rest) (hrest : follow rest)
    (hlen : (marks fresh (xs.flatMap fun y => punct "," :: space :: f y) ++ rest).length ≤ d + 1) :
    Rounds round (marks fresh (xs.flatMap fun y => punct "," :: space :: f y) ++ rest) (xs.map g)
      rest := by
  induction xs generalizing fresh with
  | nil => exact .stop stop
  | cons x xs ih =>
    obtain ⟨hx, hxs⟩ := List.forall_mem_cons.1 h
    have layout : marks fresh ((x :: xs).flatMap fun y => punct "," :: space :: f y) ++ rest =
        (.punct ",", fresh) :: (marks false (f x) ++
          (marks (freshBehind false (f x)) (xs.flatMap fun y => punct "," :: space :: f y) ++
            rest)) := by
      simp
    rw [layout] at hlen ⊢
    have hd := Nat.le_of_succ_le_succ hlen
    refine .more (hx _ _ ?_ hd) ?_ (ih hxs ?_)
    · cases xs with
      | nil => exact hrest
      | cons y ys => exact hcomma _ _
    · simp only [List.length_cons, List.length_append]
      omega
    · rw [List.length_append] at hd
      omega

theorem readBackAt_sequence {α : Type} {f : α → List Piece} {g : α → Reading} {x y : α}
    {xs : List α} (h : ∀ z ∈ x :: y :: xs, ReadBackAt 1 s (f z) (g z)) :
    ReadBackAt 0 s (commas ((x :: y :: xs).map f)) (of (.sequence ((x :: y :: xs).map g))) := by
  intro d noIn fresh rest hs hn hlen
  have hn := head_of_loose hn (by decide)
  obtain ⟨hx, hxs⟩ := List.forall_mem_cons.1 h
  have hcomma : ∀ f ms, Halts noIn 1 ((.punct ",", f) :: ms) := by
    intro f ms
    exact halts_cons (by cases noIn <;> decide : joint noIn (.punct ",") ≤ 1)
  rw [commas_cons, marks_append, List.append_assoc] at hlen ⊢
  have first : Takes (Grammar.assignment (rules d) noIn) _ (g x) _ :=
    hx.assignment (hcomma _ _) hn hlen
  obtain ⟨d, rfl, -⟩ := exists_depth_behind hlen
  have round : ∀ z ∈ y :: xs, ∀ fresh rest, Halts noIn 1 rest →
      (marks false (f z) ++ rest).length ≤ d →
        Takes (sequenceItem (rules (d + 1)) noIn)
          ((.punct ",", fresh) :: (marks false (f z) ++ rest)) (some (g z)) rest := by
    intro z hz fresh rest hr hl
    have item : Takes (Grammar.assignment (rules d) noIn) _ (g z) _ :=
      (hxs z hz).assignment hr hn hl
    exact (takes_eatPunct "," _ _).bind (.pos rfl (item.bind (.pure _ _)))
  have stop : Takes (sequenceItem (rules (d + 1)) noIn) rest none rest := by
    refine (takes_eatPunct_of_ne "," (hs.front_ne ?_)).bind (.neg nofun (.pure _ _))
    cases noIn <;> decide
  have tail := takes_many (rounds_commas _ hcomma round stop (hs.mono (by decide))
    (length_le_of_append hlen))
  exact .sequence rfl (first.bind (tail.bind (.pure _ _)))

end Graft
