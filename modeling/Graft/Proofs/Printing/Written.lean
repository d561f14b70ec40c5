import Graft.Proofs.Printing.Division

/-!
# Layouts of trees

The layout of every tree of the right shape is one of the phrases and sentences of the language,
and its slashes divide just when those of the tree do. Each node is looked at once, with layouts of
its children that are already known to be right.

* `Tree.Written` - what is to be shown of a tree
* `written` - it holds of all trees of the right shape
-/

namespace Graft

open Piece Layout Graft.Tree

variable {τ : Type} {ps qs : List Piece} {d e : Prop}

/-! ## What is to be shown -/

/-- A layout between brackets, which need not be of one kind. -/
structure Group (opening closing : String) (ps : List Piece) (d : Prop) : Prop
    extends Item ps d where
  first : ps.head? = some (punct opening)
  last_eq : ps.getLast? = some (punct closing)

namespace Group

variable {o c o' c' : String}

theorem congr (h : Group o c ps d) (hde : d ↔ e) : Group o c ps e :=
  { h with divides := h.divides.trans hde }

/-- A gap between two groups. -/
theorem append_gap (h : Group o c ps d) (h' : Group o' c' qs e) {p : Piece}
    (hp : p.lexeme? = none) : Group o c' (ps ++ p :: qs) (d ∧ e) := by
  refine ⟨h.toItem.append_gap h'.toItem hp, ?_, ?_⟩
  · rw [List.head?_append_of_ne_nil _ h.ne_nil, h.first]
  · rw [List.getLast?_append_of_ne_nil _ (List.cons_ne_nil _ _),
      List.getLast?_cons_of_ne_nil h'.ne_nil, h'.last_eq]

theorem phrase (h : Group "\x7b" c ps d) : Phrase .object ps d := by
  obtain ⟨qs, rfl⟩ := List.head?_eq_some_iff.1 h.first
  exact ⟨h.toItem, _, qs, rfl, by decide, fun _ => rfl⟩

theorem line (h : Group o c ps d) (hc : c ∈ looseSigns) : Line ps d := by
  refine ⟨h.toStrip, fun p hp => ?_⟩
  obtain rfl := Option.some.inj (h.last_eq.symm.trans hp)
  exact hc

end Group

namespace Tree

/-- What is to be shown of the layouts of a tree, as far as it has them. -/
structure Written (t : Tree τ) : Prop where
  phrase : t.IsExpr → ∀ s, Phrase t.form.opening (t.form.bare s) t.Divisible
  block : t.IsBlock → ∀ s, Group "\x7b" "\x7d" (t.form.block s) t.Divisible
  declaration : t.kind = .varDecl → ∀ s, Item (t.form.declaration s) t.Divisible
  method : t.IsMethod → ∀ s, Group "(" "\x7d" (t.form.methodTail s) t.Divisible
  sentence : t.IsStmt → ∀ s inline, OnLine s inline (t.form.statement s inline) t.Divisible
  line : t.kind = .switchCase → ∀ s, Line (t.form.statement s false) t.Divisible

variable {t : Tree τ}

theorem Written.expr (w : t.Written) (h : t.IsExpr) (level : Precedence) (s : Setting) :
    Phrase t.form.opening (t.form.expr level s) t.Divisible := by
  rw [Form.expr]
  split
  · exact .parens (w.phrase h s.inParens).toItem
  · exact w.phrase h s

end Tree

/-! ## Expressions -/

-- The slashes of a tree divide if those of its node and of its children do.
attribute [local simp] divisible_mk Node.Divisible Node.divided? Node.children

theorem item_word {name : String} (h : IsWord name) : Item [word name] True :=
  .lexeme h nofun

/-- A name, or a literal, or another word with which an expression may begin. -/
theorem phrase_lexeme {l : Lexeme} {k : Kind} (hs : l.Spelled) (hl : ∀ p, l ≠ .punct p)
    (ho : l.Opens k) : Phrase k [.lexeme l] True :=
  ⟨.lexeme hs hl, l, [], rfl, ho⟩

theorem opens_of_free {name : String} (h : Grammar.isReserved name = false) (k : Kind) :
    (Lexeme.word name).Opens k := by
  refine ⟨.inl h, ?_⟩
  rintro rfl
  exact absurd h (by decide)

/-- A word that is an expression by itself. -/
theorem phrase_keyword {w : String} (hw : w ∈ ["this", "null", "true", "false"]) (k : Kind) :
    Phrase k [word w] True := by
  have all : ∀ w ∈ ["this", "null", "true", "false"], w ∈ keywords ∧ w ∈ expressionWords ∧
      w ≠ "function" := by decide
  obtain ⟨hk, he, hf⟩ := all w hw
  exact phrase_lexeme (spelled_keyword hk) nofun ⟨.inr he, fun h => absurd h hf⟩

theorem phrase_literal {value : Literal} (h : value.Spelled) :
    Phrase .literal [Layout.literal value] True := by
  rcases value with raw | raw | (_ | _) | _
  · exact phrase_lexeme h nofun trivial
  · exact phrase_lexeme h nofun trivial
  · exact phrase_keyword (by simp) _
  · exact phrase_keyword (by simp) _
  · exact phrase_keyword (by simp) _

/-- A keyword in front of an expression. -/
theorem phrase_behind_word {w : String} {k : Kind} (hw : w ∈ ["new", "typeof", "void", "delete"])
    (h : Item ps d) : Phrase k (word w :: space :: ps) d := by
  have all : ∀ w ∈ ["new", "typeof", "void", "delete"], w ∈ keywords ∧ w ∈ expressionWords ∧
      w ≠ "function" := by decide
  obtain ⟨hk, he, hf⟩ := all w hw
  exact ⟨h.behind_word hk rfl, _, _, rfl, .inr he, fun heq => absurd heq hf⟩

/-- No expression begins with an equals sign. -/
theorem head_of_opens {l : Lexeme} {k : Kind} (h : l.Opens k) (hs : l.Spelled) {c : Char}
    (hc : c ∈ l.text.toList.head?) : c ≠ '=' := by
  cases l with
  | word text =>
    obtain ⟨first, cs, ht, hstart, -⟩ := hs
    obtain rfl : first = c := by simpa [Lexeme.text, ht] using hc
    rintro rfl
    exact absurd hstart (by decide)
  | number raw =>
    have hstart := hs.1
    rcases hcs : raw.toList with _ | ⟨first, cs⟩
    · rw [hcs] at hstart
      cases hstart
    · obtain rfl : first = c := by simpa [Lexeme.text, hcs] using hc
      rw [hcs, startsNumber_cons] at hstart
      rintro rfl
      cases hstart
  | quoted raw =>
    obtain ⟨quote, inside, ht, hq, -⟩ := hs
    obtain rfl : quote = c := by simpa [Lexeme.text, ht] using hc
    rcases hq with rfl | rfl <;> decide
  | punct p =>
    have all : ∀ p ∈ expressionSigns, p.toList.head? ≠ some '=' := by decide
    exact fun he => all p h.1 (he ▸ hc)

/-- The signs that stand in front of an operand. -/
theorem strip_sign {op : UnaryOp} (hk : op.isKeyword = false) :
    Strip [punct op.text] True ∧ ∀ k, (Lexeme.punct op.text).Opens k := by
  have all : ∀ op ∈ UnaryOp.symbolic, op.text ∈ punctuators ∧
      (Lexeme.punct op.text).isSlash = false ∧ (Lexeme.punct op.text).isOpening = false ∧
      (Lexeme.punct op.text).isClosing = false ∧ op.text ∈ expressionSigns ∧
      op.text ≠ "\x7b" := by decide
  obtain ⟨hs, hl, ho, hc, hx, hbrace⟩ := all op ((UnaryOp.isKeyword_eq_false_iff op).1 hk)
  exact ⟨.lexeme hs hl ⟨ho, hc⟩, fun k => ⟨hx, fun h => absurd h hbrace⟩⟩

/-- A sign may stand in front of an operand that does not begin with the same sign. -/
theorem meets_sign {op : UnaryOp} (hk : op.isKeyword = false) {l : Lexeme} {k : Kind}
    (hl : l.Opens k) (hs : l.Spelled)
    (hp : op.text.toList.isPrefixOf (charsOf (lexeme l :: ps)) = false) :
    Meets (punct op.text) (lexeme l) := by
  have all : ∀ op ∈ UnaryOp.symbolic, op.text ≠ "." ∧ op.text ≠ "/" ∧
      (op.text.toList.head?.any fun sign => decide (op.text.toList = [sign] ∧
        ∀ q ∈ punctuators, [sign] <+: q.toList →
          q.toList[1]? ∈ [none, some '=', some sign])) = true := by
    decide
  obtain ⟨hpoint, hslash, hsign⟩ := all op ((UnaryOp.isKeyword_eq_false_iff op).1 hk)
  obtain ⟨sign, -, hsign⟩ := (Option.any_eq_true ..).1 hsign
  obtain ⟨htext, hlong⟩ := of_decide_eq_true hsign
  intro c hhead
  simp only [Lexeme.endsAt, Bool.and_eq_true, Bool.not_eq_true', List.any_eq_false,
    List.isPrefixOf_iff_prefix]
  refine ⟨⟨fun q hq hpre => ?_, by simp [hpoint]⟩, by simp [hslash]⟩
  rw [htext] at hpre
  have hsecond : q.toList[1]? = some c := by
    obtain ⟨more, hq⟩ := hpre
    rw [← hq]
    rfl
  have second := hlong q hq ((List.prefix_append ..).trans hpre)
  rw [hsecond] at second
  obtain heq | rfl : c = '=' ∨ c = sign := by simpa using second
  · exact head_of_opens hl hs hhead heq
  · -- the sign would stand twice
    obtain ⟨cs, hcs⟩ := List.head?_eq_some_iff.1 hhead
    rw [htext, charsOf_cons, chars, hcs] at hp
    simp at hp

/-- A unary operator in front of its operand. -/
theorem phrase_unary {k k' : Kind} (op : UnaryOp) (h : Phrase k ps d) :
    Phrase k' (Layout.unary op ps) d := by
  unfold Layout.unary
  split
  · rename_i hk
    exact phrase_behind_word (by revert hk; cases op <;> decide) h.toItem
  · rename_i hk
    obtain ⟨sign, opens⟩ := strip_sign (Bool.not_eq_true _ ▸ hk)
    split
    · refine ⟨((h.toItem.behind_gap (p := space) rfl).behind sign fun p hp q hq => ?_).congr
        (by rw [true_and]), _, _, rfl, opens k'⟩
      obtain rfl := Option.some.inj hp
      obtain rfl := Option.some.inj hq
      trivial
    · rename_i hp
      refine ⟨(h.toItem.behind sign fun p hp' q hq => ?_).congr (by rw [true_and]), _, _, rfl,
        opens k'⟩
      obtain ⟨l, qs, rfl, hl⟩ := h.first
      obtain rfl := Option.some.inj hp'
      obtain rfl := Option.some.inj hq
      exact meets_sign (Bool.not_eq_true _ ▸ hk) hl (h.legible.spelled l (List.mem_cons_self ..))
        (Bool.not_eq_true _ ▸ hp)

/-- A name behind a point. A number would take the point. -/
theorem phrase_member {k : Kind} {name : String} (h : Phrase k ps d) (hn : IsWord name)
    (hnum : ∀ raw, ps.getLast? ≠ some (number raw)) :
    Phrase k (ps ++ [punct ".", word name]) d := by
  have suffix : Item [punct ".", word name] True := by
    have point : Strip [punct "."] True :=
      .lexeme (by decide : "." ∈ punctuators) (by decide) ⟨by decide, by decide⟩
    refine ((item_word hn).behind point fun p hp q hq => ?_).congr (by simp)
    obtain rfl := Option.some.inj hp
    obtain rfl := Option.some.inj hq
    obtain ⟨c, cs, ht, hstart, -⟩ := hn
    intro c' hc'
    obtain rfl : c = c' := by simpa [Lexeme.text, ht] using hc'
    obtain ⟨hd, hpoint, -⟩ := head_of_name hstart
    have all : ∀ q ∈ punctuators, ['.'] <+: q.toList → q.toList[1]? ∈ [none, some '.'] := by
      decide
    simp only [Lexeme.endsAt, Bool.and_eq_true, Bool.not_eq_true', List.any_eq_false,
      List.isPrefixOf_iff_prefix]
    refine ⟨⟨fun q hq hpre => hpoint ?_, by simp [hd]⟩, by simp⟩
    have second := all q hq ((List.prefix_append ..).trans hpre)
    obtain ⟨more, hq⟩ := hpre
    rw [← hq] at second
    simpa using second
  refine ⟨(suffix.behind h.toStrip fun p hp q hq => ?_).congr (by simp), h.first.append _⟩
  obtain rfl := Option.some.inj hq
  have hclose := h.last p hp
  cases p with
  | lexeme l =>
    cases l with
    | word w =>
      have : (Lexeme.word w).endsAt '.' = true := show (!isNamePart '.') = true by decide
      intro c hc
      obtain rfl := Option.some.inj hc
      exact this
    | number raw => exact absurd hp (hnum raw)
    | quoted raw => exact fun _ _ => rfl
    | punct p =>
      have ends : ∀ p ∈ operandEnds, p ∈ looseSigns := by decide
      exact meets_of_loose (p := punct p) (ends p hclose)
  | _ => cases hclose

/-- The parameters of a function. -/
theorem group_params {names : List String} (h : ∀ x ∈ names, IsName x) :
    Group "(" ")" (params names) True := by
  have items : Item (params names) (∀ x ∈ names, True) :=
    Item.enclosed_commas (f := fun name => [word name]) (fun x hx => item_word (h x hx).word)
      (by simp)
  exact ⟨items.congr (by simp), rfl, last_parens _⟩

/-- A function from its keyword on. -/
theorem phrase_function {name : Option String} {names : List String}
    (hx : ∀ x ∈ name, IsName x) (hn : ∀ x ∈ names, IsName x) (h : Group "\x7b" "\x7d" ps d) :
    Phrase .functionExpr (function name names ps) d := by
  have tail := (group_params hn).append_gap h (p := space) rfl
  have keyword : Item [word "function"] True := .lexeme (spelled_keyword (by decide)) nofun
  have calm : ∀ q ∈ (params names ++ space :: ps).head?, q.Calm := by
    intro q hq
    obtain rfl := Option.some.inj hq
    exact (by decide : "(" ∈ calmSigns)
  have opens : (Lexeme.word "function").Opens .functionExpr := ⟨.inr (by decide), fun _ => rfl⟩
  cases name with
  | none =>
    have all := (keyword.append tail.toItem calm).congr (by simp : _ ↔ d)
    rw [function, List.append_assoc]
    exact ⟨all, _, _, rfl, opens⟩
  | some x =>
    have named := keyword.append_gap (item_word (hx x rfl).word) (p := space) rfl
    have all := (named.append tail.toItem calm).congr (by simp : _ ↔ d)
    rw [function, List.append_assoc]
    exact ⟨all, _, _, rfl, opens⟩

/-- Expressions separated by commas. -/
theorem item_items {items : List (Tree τ)} (h : ∀ e ∈ items, e.IsExpr)
    (w : ∀ e ∈ items, e.Written) (s : Setting) :
    ∀ e ∈ items, Item (e.form.expr .assignment s) e.Divisible :=
  fun e he => ((w e he).expr (h e he) .assignment s).toItem

theorem items_map (items : List (Tree τ)) (s : Setting) :
    Form.items (items.map form) s = commas (items.map fun e => e.form.expr .assignment s) := by
  rw [Form.items, List.map_map]
  rfl

/-- The arguments of a call. -/
theorem group_arguments {items : List (Tree τ)} (h : ∀ e ∈ items, e.IsExpr)
    (w : ∀ e ∈ items, e.Written) (s : Setting) :
    Group "(" ")" (parens (Form.items (items.map form) s)) (∀ e ∈ items, e.Divisible) := by
  rw [items_map]
  exact ⟨.enclosed_commas (item_items h w s) (by simp), rfl, last_parens _⟩

theorem calm_parens (ps : List Piece) : ∀ q ∈ (parens ps).head?, q.Calm := by
  intro q hq
  obtain rfl := Option.some.inj hq
  exact (by decide : "(" ∈ calmSigns)

/-- A property of an object literal. -/
theorem item_property {p : Property (Tree τ) String} (hk : p.key.Spelled) (hv : p.value.IsExpr)
    (w : p.value.Written) (s : Setting) :
    Item (key p.key :: punct ":" :: space :: p.value.form.expr .assignment s)
      p.value.Divisible := by
  have front : Item [key p.key] True := by
    obtain ⟨name | raw | raw, value⟩ := p <;> exact .lexeme hk nofun
  have value := (((w.expr hv .assignment s).toItem.behind_gap (p := space) rfl).behind_sign
    (p := ":") (by simp))
  refine (front.append value fun q hq => ?_).congr (by rw [true_and])
  obtain rfl := Option.some.inj hq
  exact (by decide : ":" ∈ calmSigns)

/-- An object literal. -/
theorem phrase_object {properties : List (Property (Tree τ) String)}
    (h : ∀ p ∈ properties, p.key.Spelled ∧ p.value.IsExpr)
    (w : ∀ p ∈ properties, p.value.Written) (s : Setting) :
    Phrase .object (Layout.object (properties.map fun p =>
      key p.key :: punct ":" :: space :: p.value.form.expr .assignment s))
      (∀ p ∈ properties, p.value.Divisible) := by
  cases properties with
  | nil =>
    have none : Item (enclosed "\x7b" [] "\x7d") True := .enclosed .nil (by simp) nofun
    exact ⟨none.congr (by simp), _, _, rfl, by decide, fun _ => rfl⟩
  | cons p ps =>
    have items := Item.commas fun q hq => item_property (h q hq).1 (h q hq).2 (w q hq) s
    have inside := (items.behind_gap (p := space) rfl).toStrip.append_calm
      (Strip.gap (p := space) rfl) (items.behind_gap (p := space) rfl).last
      fun q hq => by cases Option.some.inj hq; trivial
    refine ⟨(Item.enclosed inside (by simp) fun q hq => .inl ?_).congr (by rw [and_true]), _, _,
      rfl, by decide, fun _ => rfl⟩
    obtain rfl : space = q := by
      rw [List.getLast?_append_of_ne_nil _ (List.cons_ne_nil _ _)] at hq
      exact Option.some.inj hq
    trivial

/-- Operands with a sign or a word between them that is no slash. -/
theorem phrase_infixed {k k' : Kind} {l : Lexeme} (h : Phrase k ps d) (h' : Phrase k' qs e)
    (hs : l.Spelled) (hb : l.isOpening = false ∧ l.isClosing = false) (hn : l.isSlash = false) :
    Phrase k (infixed ps (lexeme l) qs) (d ∧ e) :=
  h.of_infixed (h.toItem.infixed_of_not h'.toItem hs hb hn)

/-- A division, or an assignment that divides. -/
theorem phrase_slash {t : Tree τ} (w : t.Written) (h : t.IsExpr) (hs : t.Shaped)
    {level : Precedence} (hl : 12 ≤ level) (s : Setting) {k : Kind} (h' : Phrase k qs e)
    {p : String} (hp : p ∈ ["/", "/="]) :
    Phrase t.form.opening (infixed (t.form.expr level s) (punct p) qs)
      (¬ t.Expects level ∧ t.Divisible ∧ e) := by
  have signs : ∀ p ∈ ["/", "/="], p ∈ punctuators ∧ (Lexeme.punct p).isOpening = false ∧
      (Lexeme.punct p).isClosing = false ∧ (Lexeme.punct p).isSlash = true := by decide
  obtain ⟨hspelled, ho, hc, hslash⟩ := signs p hp
  have front := w.expr h level s
  refine front.of_infixed (front.toItem.infixed h'.toItem hspelled ⟨ho, hc⟩ (fun hn => ?_)
    fun _ last hlast => ?_)
  · rw [hslash] at hn
    cases hn
  · obtain ⟨last', hlast', hx, -⟩ := endsAs_expr h hs hl s
    obtain rfl : last' = last := Piece.lexeme.inj (Option.some.inj (hlast'.symm.trans hlast))
    rw [Expects, ← hx, Bool.not_eq_true]

theorem lexeme_binaryOp (op : BinaryOp) : ∃ l, binaryOp op = lexeme l ∧ l.Spelled ∧
    (l.isOpening = false ∧ l.isClosing = false) ∧ (op ≠ .div → l.isSlash = false) := by
  have sign : op.text ∈ punctuators → ∃ l, punct op.text = lexeme l ∧ l.Spelled ∧
      (l.isOpening = false ∧ l.isClosing = false) ∧ (op ≠ .div → l.isSlash = false) :=
    fun h => ⟨_, rfl, h, by cases op <;> decide, by cases op <;> decide⟩
  cases op with
  | isIn | instanceOf =>
    exact ⟨_, rfl, spelled_keyword (by decide), by decide, fun _ => by decide⟩
  | _ => exact sign (by decide)

/-- What a member is taken of. -/
theorem phrase_base {t : Tree τ} (w : t.Written) (h : t.IsExpr) (hs : t.Shaped) (s : Setting) :
    Phrase t.form.opening (t.form.base s) t.Divisible ∧
      ∀ raw, (t.form.base s).getLast? ≠ some (number raw) := by
  rw [Form.base]
  split
  · exact ⟨.parens (w.expr h .sequence s).toItem, fun raw => by simp [last_parens, punct, number]⟩
  · rename_i hnum
    refine ⟨w.expr h .access s, fun raw hlast => ?_⟩
    rw [Form.expr] at hlast
    split at hlast
    · simp [last_parens, punct, number] at hlast
    · rename_i htight
      obtain ⟨tag, n⟩ := t
      rw [level_form, Bool.or_eq_true, not_or, decide_eq_true_eq, Nat.not_lt] at htight
      obtain ⟨last, hl, -, hx⟩ := endsAs_bare h (shaped_mk.1 hs).1 htight.1 s
      have heq : Lexeme.number raw = last :=
        Piece.lexeme.inj (Option.some.inj (hlast.symm.trans hl))
      exact hnum ((isNumber_form tag n).trans (hx raw heq.symm))

/-- What is constructed. -/
theorem phrase_constructed {t : Tree τ} (w : t.Written) (h : t.IsExpr) (s : Setting) :
    Phrase t.form.opening (t.form.constructed s) t.Divisible := by
  rw [Form.constructed]
  split
  · exact .parens (w.expr h .sequence s).toItem
  · exact w.expr h .access s

section Constructors

variable {tag : τ} {s : Setting}

theorem phrase_bare_object {properties : List (Property (Tree τ) String)}
    (hn : (Node.object properties).Shaped) (w : ∀ p ∈ properties, p.value.Written) :
    Phrase .object ((mk tag (.object properties)).form.bare s)
      (mk tag (.object properties)).Divisible := by
  have all := phrase_object hn w s
  have layouts : (properties.map (·.map form id)).map (fun p =>
      key p.key :: punct ":" :: space :: p.value.expr .assignment s) =
        properties.map fun p => key p.key :: punct ":" :: space ::
          p.value.form.expr .assignment s := by
    rw [List.map_map]
    refine List.map_congr_left fun p _ => ?_
    obtain ⟨name | raw | raw, value⟩ := p <;> rfl
  rw [form_mk]
  change Phrase .object (Layout.object ((properties.map (·.map form id)).map _)) _
  rw [layouts]
  exact all.congr (by simp)

theorem phrase_bare_arrow {names : List String} {body : Tree τ} {isExpression : Bool}
    (hn : (Node.arrow names body isExpression).Shaped) (w : body.Written) :
    Phrase .arrow ((mk tag (.arrow names body isExpression)).form.bare s)
      (mk tag (.arrow names body isExpression)).Divisible := by
  have front : Phrase .arrow (parens (commas (names.map fun name => [word name]))) True :=
    ⟨(group_params hn.1).toItem, _, _, rfl, by decide, by simp⟩
  have arrow {k : Kind} {ps : List Piece} (h : Phrase k ps body.Divisible) :
      Phrase .arrow (infixed (Piece.params (names.map id)) (punct "=>") ps)
        (mk tag (.arrow names body isExpression)).Divisible := by
    rw [List.map_id]
    exact (phrase_infixed (l := .punct "=>") front h (by decide : "=>" ∈ punctuators)
      ⟨by decide, by decide⟩ (by decide)).congr (by simp)
  rw [form_mk]
  cases isExpression with
  | true =>
    have hbody : body.IsExpr := hn.2
    refine arrow (k := body.form.opening) ?_
    split
    · exact .parens (w.expr hbody _ s).toItem
    · exact w.expr hbody _ s
  | false =>
    have hbody : body.IsBlock := hn.2
    refine arrow (k := .object) (?_ : Phrase .object (body.form.braced s) _)
    rw [braced_of_block hbody]
    exact (w.block hbody s).phrase

theorem phrase_bare_update {op : UpdateOp} {leading : Bool} {arg : Tree τ}
    (hn : arg.IsExpr) (w : arg.Written) :
    Phrase (mk tag (.update op leading arg)).form.opening
      ((mk tag (.update op leading arg)).form.bare s)
      (mk tag (.update op leading arg)).Divisible := by
  have w := w.expr hn .access s
  have signs : op.text ∈ punctuators ∧ (Lexeme.punct op.text).isSlash = false ∧
      (Lexeme.punct op.text).isOpening = false ∧ (Lexeme.punct op.text).isClosing = false ∧
      op.text ∈ looseSigns ∧ op.text ∈ calmSigns ∧ op.text ∈ operandEnds ∧
      op.text ∈ expressionSigns ∧ op.text ≠ "\x7b" := by
    cases op <;> decide
  obtain ⟨hspelled, hl, ho, hcl, hloose, hcalm, hend, hx, hbrace⟩ := signs
  have sign : Strip [punct op.text] True := .lexeme hspelled hl ⟨ho, hcl⟩
  rw [form_mk]
  cases leading with
  | true =>
    have all := w.toItem.behind sign fun p hp q _ => by
      obtain rfl := Option.some.inj hp
      exact meets_of_loose hloose
    exact ⟨all.congr (by simp), _, _, rfl, hx, fun heq => absurd heq hbrace⟩
  | false =>
    have item : Item [punct op.text] True := ⟨sign, List.cons_ne_nil _ _, fun p hp => by
      obtain rfl := Option.some.inj hp
      exact hend⟩
    refine (w.append item fun q hq => ?_).congr (by simp)
    obtain rfl := Option.some.inj hq
    exact hcalm

/-- A slash divides if its left side does not end like something that an operand follows; of the
other signs none does any harm. -/
theorem phrase_bare_binary {op : BinaryOp} {lhs rhs : Tree τ}
    (hs : (mk tag (.binary op lhs rhs)).Shaped) (wl : lhs.Written) (wr : rhs.Written) :
    Phrase lhs.form.opening ((mk tag (.binary op lhs rhs)).form.bare s)
      (mk tag (.binary op lhs rhs)).Divisible := by
  obtain ⟨hn, hc⟩ := shaped_mk.1 hs
  have right := wr.expr hn.2 (operandLevels op).2 s
  rw [form_mk]
  by_cases hop : op = .div
  · subst hop
    exact (phrase_slash wl hn.1 (hc lhs (by simp)) (by decide) s right
      (p := "/") (by simp)).congr (by simp)
  · obtain ⟨l, hl, hspelled, hb, hslash⟩ := lexeme_binaryOp op
    have all := phrase_infixed (wl.expr hn.1 (operandLevels op).1 s) right hspelled hb (hslash hop)
    rw [← hl] at all
    have hd : (Node.binary op lhs rhs).Divisible := by
      cases op <;> first | exact absurd rfl hop | exact Node.divisible_of_none rfl
    exact all.congr (by rw [divisible_mk, and_iff_right hd]; simp)

theorem phrase_bare_assign {op : AssignOp} {target value : Tree τ}
    (hs : (mk tag (.assign op target value)).Shaped) (w : target.Written) (wv : value.Written) :
    Phrase target.form.opening ((mk tag (.assign op target value)).form.bare s)
      (mk tag (.assign op target value)).Divisible := by
  obtain ⟨hn, hc⟩ := shaped_mk.1 hs
  have right := wv.expr hn.2.2 .assignment s
  rw [form_mk]
  by_cases hop : op = .div
  · subst hop
    exact (phrase_slash w hn.1 (hc target (by simp)) (by decide) s right
      (p := "/=") (by simp)).congr (by simp)
  · have sign : op.text ∈ punctuators := by cases op <;> decide
    have hslash : (Lexeme.punct op.text).isSlash = false := by
      cases op <;> first | exact absurd rfl hop | decide
    have hd : (Node.assign op target value).Divisible := by
      cases op <;> first | exact absurd rfl hop | exact Node.divisible_of_none rfl
    exact (phrase_infixed (l := .punct op.text) (w.expr hn.1 .access s) right sign
      (by cases op <;> decide) hslash).congr (by rw [divisible_mk, and_iff_right hd]; simp)

end Constructors

/-- The layout of an expression without parentheses around it. -/
theorem phrase_bare {t : Tree τ} (h : t.IsExpr) (hs : t.Shaped)
    (parts : ∀ c ∈ t.children, c.Written) (s : Setting) :
    Phrase t.form.opening (t.form.bare s) t.Divisible := by
  obtain ⟨tag, n⟩ := t
  obtain ⟨hn, hc⟩ := shaped_mk.1 hs
  change ∀ c ∈ n.children, c.Written at parts
  cases n with
  | ident name =>
    exact (phrase_lexeme hn.word nofun (opens_of_free hn.free .ident)).congr (by simp)
  | literal value => exact (phrase_literal hn).congr (by simp)
  | thisExpr => exact (phrase_keyword (by simp) .thisExpr).congr (by simp)
  | array items =>
    have all : Item (enclosed "[" (Form.items (items.map form) s) "]") (∀ e ∈ items, e.Divisible) :=
      items_map items s ▸ .enclosed_commas (item_items hn parts s) (by simp)
    rw [form_mk]
    exact ⟨all.congr (by simp), _, _, rfl, by decide, by simp⟩
  | object properties =>
    exact phrase_bare_object hn fun p hp => parts p.value (List.mem_map_of_mem hp)
  | functionExpr name params body =>
    have hbody := (parts body (by simp)).block hn.2.2 s
    have all := phrase_function hn.1 hn.2.1 hbody
    rw [← braced_of_block hn.2.2] at all
    rw [form_mk]
    change Phrase .functionExpr (function (name.map id) (params.map id) (body.form.braced s)) _
    rw [Option.map_id, List.map_id]
    exact all.congr (by simp)
  | arrow names body isExpression => exact phrase_bare_arrow hn (parts body (by simp))
  | sequence items =>
    obtain ⟨x, y, rest, rfl⟩ : ∃ x y rest, items = x :: y :: rest := by
      match items, hn.1 with
      | x :: y :: rest, _ => exact ⟨x, y, rest, rfl⟩
    have all := Item.commas (item_items hn.2 parts s)
    rw [← items_map] at all
    have first := ((parts x (by simp)).expr (hn.2 x (by simp)) .assignment s).first
    rw [form_mk]
    refine ⟨all.congr (by simp), ?_⟩
    change StartsAs x.form.opening (commas (_ :: _ :: _))
    rw [commas_cons_cons]
    exact first.append _
  | unary op arg =>
    have w := (parts arg (by simp)).expr hn .unary s
    exact (phrase_unary op w).congr (by simp)
  | update op leading arg => exact phrase_bare_update hn (parts arg (by simp))
  | binary op lhs rhs => exact phrase_bare_binary hs (parts lhs (by simp)) (parts rhs (by simp))
  | logical op lhs rhs =>
    have left := (parts lhs (by simp)).expr hn.1 op.precedence s
    have right := (parts rhs (by simp)).expr hn.2 (op.precedence + 1) s
    have sign : op.text ∈ punctuators := by cases op <;> decide
    exact (phrase_infixed (l := .punct op.text) left right sign (by cases op <;> decide)
      (by cases op <;> decide)).congr (by simp)
  | assign op target value =>
    exact phrase_bare_assign hs (parts target (by simp)) (parts value (by simp))
  | conditional test consequent alternate =>
    have first := (parts test (by simp)).expr hn.1 (Precedence.conditional + 1) s
    have second := (parts consequent (by simp)).expr hn.2.1 .assignment s
    have third := (parts alternate (by simp)).expr hn.2.2 .assignment s
    have branches := phrase_infixed (l := .punct ":") second third
      (by decide : ":" ∈ punctuators) (by decide) (by decide)
    exact (phrase_infixed (l := .punct "?") first branches
      (by decide : "?" ∈ punctuators) (by decide) (by decide)).congr (by simp)
  | call callee args =>
    have w := (parts callee (by simp)).expr hn.1 .access s
    have args := group_arguments hn.2 (fun e he => parts e (by simp [he])) s
    rw [form_mk]
    exact (w.append args.toItem (calm_parens _)).congr (by simp)
  | newExpr callee args =>
    have w := phrase_constructed (parts callee (by simp)) hn.1 s
    have args := group_arguments hn.2 (fun e he => parts e (by simp [he])) s
    have front : Phrase .newExpr (word "new" :: space :: callee.form.constructed s)
        callee.Divisible := phrase_behind_word (by simp) w.toItem
    rw [form_mk]
    exact (front.append args.toItem (calm_parens _)).congr (by simp)
  | member base name =>
    obtain ⟨w, hnum⟩ := phrase_base (parts base (by simp)) hn.1 (hc base (by simp)) s
    exact (phrase_member w hn.2 hnum).congr (by simp)
  | index base key =>
    obtain ⟨w, -⟩ := phrase_base (parts base (by simp)) hn.1 (hc base (by simp)) s
    have inside := (parts key (by simp)).expr hn.2 .sequence s
    have key : Item (enclosed "[" (key.form.expr .sequence s) "]") key.Divisible :=
      .enclosed inside.toStrip (by simp) fun p hp => .inr (inside.last p hp)
    refine (w.append key fun q hq => ?_).congr (by simp)
    obtain rfl := Option.some.inj hq
    exact (by decide : "[" ∈ calmSigns)
  | _ => cases h

end Graft
