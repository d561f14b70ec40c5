import Graft.Proofs.Printing.Emission

/-!
# What printed expressions begin with

Where a statement may begin, a brace begins a block and the word `function` a declaration. What the
text of an expression begins with is told by its leftmost node, the one that its left side, and the
left side of that, goes back to. A brace or the word `function` comes first only where that node is
an object or a function; an expression that is a statement is then put in parentheses, so that a
reader takes it for an expression.

* `Tree.leftmost`, `Tree.opening_form` - the node whose text comes first
* `firstLexeme?` - the first token of a text, as it is scanned
* `statement_of_beginsExpression` - what a reader does with a lexeme that begins no other statement
* `starts_told` - the first lexemes of expressions and of expressions as statements
-/

namespace Graft

open Piece Text Emit Graft.Tree

variable {τ : Type}

/-! ## The leftmost node -/

namespace Tree

/-- The node that is reached by going from child to child along the left side. -/
def leftmost (t : Tree τ) : Tree τ :=
  match _h : t.node.leftChild? with
  | some c => leftmost c
  | none => t
termination_by t.size
decreasing_by exact size_lt_of_mem_children (Node.mem_children_of_leftChild? _h)

theorem leftmost_of_some {t c : Tree τ} (h : t.node.leftChild? = some c) :
    t.leftmost = c.leftmost := by
  rw [leftmost]
  split <;> simp_all

theorem leftmost_of_none {t : Tree τ} (h : t.node.leftChild? = none) : t.leftmost = t := by
  rw [leftmost]
  split <;> simp_all

/-- What a form tells of the left side is the kind of its leftmost node. -/
theorem opening_form (t : Tree τ) : t.form.opening = t.leftmost.kind := by
  induction t using induct with
  | step t ih =>
    obtain ⟨tag, n⟩ := t
    have opening : (mk tag n).form.opening =
        ((n.map form id).leftChild?.map (·.opening)).getD (n.map form id).kind := by
      rw [form_mk]
      rfl
    rw [opening, Node.leftChild?_map, Node.kind_map]
    cases hleft : n.leftChild? with
    | none =>
      rw [leftmost_of_none (t := mk tag n) hleft]
      rfl
    | some c =>
      rw [leftmost_of_some (t := mk tag n) hleft]
      exact ih c (Node.mem_children_of_leftChild? hleft)

end Tree

/-! ## The first lexeme of a text -/

/-- The first lexeme of a text, behind blanks and comments. -/
def firstLexeme? (text : String) : Option Lexeme :=
  match (splitGap text.toList).rest with
  | [] => none
  | c :: cs =>
    (splitLexeme none (Place.start.advance (splitGap text.toList).gap) c cs).toOption.map Prod.fst

/-- The first token of a text that is scanned has the first lexeme. -/
theorem firstLexeme?_of_scan {text : String} {tokens : Tokens} (h : scan text = .ok tokens) :
    firstLexeme? text = tokens.list.head?.map (·.lexeme) := by
  rw [scan, scanFrom_eq] at h
  unfold firstLexeme?
  generalize splitGap text.toList = front at h ⊢
  obtain ⟨gap, rest, closed⟩ := front
  cases closed with
  | false => cases h
  | true =>
    cases rest with
    | nil =>
      obtain rfl := Except.ok.inj h
      rfl
    | cons c cs =>
      simp only [if_true] at h
      cases hsplit : splitLexeme none (Place.start.advance gap) c cs with
      | error e =>
        rw [hsplit] at h
        cases h
      | ok split =>
        obtain ⟨l, after⟩ := split
        simp only [hsplit] at h ⊢
        generalize scanFrom (some l) _ after = more at h
        cases more with
        | error e => cases h
        | ok more =>
          obtain rfl := Except.ok.inj h
          rfl

/-- The first lexeme of a layout behind blanks. -/
theorem firstLexeme?_of_legible {gap : List Char} {l : Lexeme} {ps : List Piece}
    (hg : ∀ c ∈ gap, isBlank c) (h : Legible (lexeme l :: ps)) (hl : l.isSlash = false) :
    firstLexeme? (String.ofList (gap ++ charsOf (lexeme l :: ps))) = some l := by
  have spelled : l.Spelled := h.spelled l (List.mem_cons_self ..)
  obtain ⟨c, cs, hcs, split⟩ := splitGap_behind_blank spelled h.ends hg
  rw [firstLexeme?, String.toList_ofList, charsOf_cons, chars, split]
  simp only
  rw [splitLexeme_of_spelled spelled h.ends hcs fun hslash => by rw [hl] at hslash; cases hslash]
  rfl

theorem firstLexeme?_textOf {l : Lexeme} {ps : List Piece} (h : Legible (lexeme l :: ps))
    (hl : l.isSlash = false) : firstLexeme? (textOf (lexeme l :: ps)) = some l := by
  have blank : ∀ c ∈ ([] : List Char), isBlank c := nofun
  rw [textOf, ← List.nil_append (charsOf _)]
  exact firstLexeme?_of_legible blank h hl

/-- The start of a line is blank, and so is nothing at all. -/
theorem isBlank_line (s : Setting) (inline : Bool) :
    ∀ c ∈ charsOf (if inline then [] else [s.line]), isBlank c := by
  cases inline with
  | true => exact nofun
  | false =>
    intro c hc
    have hc : c ∈ '\n' :: indentation s.indent := by simpa [charsOf, Setting.line, chars] using hc
    rcases List.mem_cons.1 hc with rfl | hc
    · decide
    · obtain rfl := List.eq_of_mem_replicate hc
      decide

/-! ## What a reader does with it -/

/-- The words with which the grammar chooses a statement. -/
def statementWords : List String :=
  ["var", "let", "const", "function", "class", "if", "for", "while", "do", "switch", "with",
   "break", "continue", "return", "throw", "try", "import", "export", "debugger"]

/-- Whether a lexeme, where a statement may begin, begins an expression if it begins anything. -/
def Lexeme.BeginsExpression : Lexeme → Prop
  | word w => w ∉ statementWords
  | punct p => p ≠ "\x7b" ∧ p ≠ ";"
  | _ => True

/-- A word with which no statement is chosen is left to the rule for expressions. -/
theorem wordStatement_of_not_mem (inner : Rules) {w : String} (h : w ∉ statementWords) :
    Grammar.wordStatement inner w = Grammar.exprStmt inner := by
  unfold Grammar.wordStatement
  split <;> first | rfl | exact absurd (by decide) h

/-- To look at the next lexeme is to go on from the same place. -/
theorem bind_lexeme? {α : Type} (next : Option Lexeme → Read α) (c : Cursor) :
    (Read.lexeme? >>= next) c = next c.lexeme? c :=
  rfl

/-- In front of a lexeme that begins no other statement, a statement is an expression. -/
theorem statement_of_beginsExpression (inner : Rules) {c : Cursor} {l : Lexeme}
    (hc : c.lexeme? = some l) (hl : l.BeginsExpression) :
    Grammar.statement inner c = Grammar.exprStmt inner c := by
  unfold Grammar.statement
  rw [bind_lexeme?, hc]
  refine congrFun (?_ : _ = Grammar.exprStmt inner) c
  cases l with
  | word w => exact wordStatement_of_not_mem inner hl
  | punct p =>
    split
    · rename_i heq
      exact absurd (Lexeme.punct.inj (Option.some.inj heq)) hl.1
    · rename_i heq
      exact absurd (Lexeme.punct.inj (Option.some.inj heq)) hl.2
    · rename_i heq
      cases heq
    · rfl
  | _ => rfl

/-! ## Layouts of expressions -/

/-- The layout of an expression begins as its leftmost node tells. -/
theorem expr_start {t : Tree τ} (hs : t.Shaped) (h : t.IsExpr) (level : Precedence) (s : Setting) :
    ∃ l ps, t.form.expr level s = lexeme l :: ps ∧ Legible (lexeme l :: ps) ∧
      l.isSlash = false ∧ l.Opens t.leftmost.kind := by
  have phrase := (written hs).expr h level s
  obtain ⟨l, ps, layout, opens⟩ := phrase.first
  rw [opening_form] at opens
  rw [layout] at phrase
  exact ⟨l, ps, layout, phrase.legible, phrase.starts l rfl, opens⟩

/-- Of the words of statements only `function` begins an expression. -/
theorem beginsExpression_of_opens {k : Kind} {l : Lexeme} (h : l.Opens k) (ho : k ≠ .object)
    (hf : k ≠ .functionExpr) : l.BeginsExpression := by
  have words : ∀ w ∈ statementWords, Grammar.isReserved w = true ∧
      (w ∈ expressionWords → w = "function") := by decide
  cases l with
  | word w =>
    intro hw
    obtain ⟨reserved, only⟩ := words w hw
    rcases h.1 with free | he
    · rw [reserved] at free
      cases free
    · exact hf (h.2 (only he))
  | punct p =>
    refine ⟨fun hp => ho (h.2 hp), ?_⟩
    rintro rfl
    exact absurd h.1 (by decide)
  | _ => trivial

/-- An expression as a statement begins no other statement. -/
theorem exprStatement_start {t : Tree τ} (hs : t.Shaped) (h : t.IsExpr) (s : Setting) :
    ∃ l ps, t.form.exprStatement s = lexeme l :: ps ∧ Legible (lexeme l :: ps) ∧
      l.isSlash = false ∧ l.BeginsExpression := by
  have phrase := (written hs).expr h .sequence s
  have told {k : Kind} {ps : List Piece} (hps : Phrase k ps t.Divisible) (ho : k ≠ .object)
      (hf : k ≠ .functionExpr) :
      ∃ l qs, ps ++ [punct ";"] = lexeme l :: qs ∧ Legible (lexeme l :: qs) ∧
        l.isSlash = false ∧ l.BeginsExpression := by
    have line := hps.toItem.semicolon
    obtain ⟨l, qs, rfl, opens⟩ := hps.first
    exact ⟨l, _, rfl, line.legible, line.starts l rfl, beginsExpression_of_opens opens ho hf⟩
  unfold Form.exprStatement
  split
  · exact told (k := .ident) (.parens phrase.toItem) nofun nofun
  · rename_i hk
    rw [not_or] at hk
    exact told phrase hk.1 hk.2

/-- A statement that is an expression, or an expression in place of one, is printed as an expression
behind the start of its line. -/
theorem statement_eq_exprStatement {t : Tree τ} (hs : t.Shaped)
    (h : t.IsExpr ∨ t.kind = .exprStmt) :
    ∃ e : Tree τ, e.Shaped ∧ e.IsExpr ∧
      ∀ s : Setting, t.form.statement s false = s.line :: e.form.exprStatement s := by
  obtain ⟨tag, n⟩ := t
  obtain ⟨hn, parts⟩ := shaped_mk.1 hs
  rcases h with h | h
  · refine ⟨mk tag n, hs, h, fun s => ?_⟩
    rw [form_mk]
    cases n with
    | ident | literal | thisExpr | array | object | functionExpr | arrow | sequence | unary | update
    | binary | logical | assign | conditional | call | newExpr | member | index => rfl
    | _ => cases h
  · cases n with
    | exprStmt arg =>
      refine ⟨arg, parts arg (List.mem_cons_self ..), hn, fun s => ?_⟩
      rw [form_mk]
      rfl
    | _ => cases h

/-! ## What is put out -/

/-- What is put out for an expression begins as its leftmost node tells. -/
theorem exists_first_expr {t : Tree τ} (hs : t.Shaped) (h : t.IsExpr) (level : Precedence)
    {e : Emitter} (he : e.inlineNext = false) : ∃ text l,
    (t.printer.expr level).after e = { e with output := e.output ++ text } ∧
      firstLexeme? text = some l ∧ l.Opens t.leftmost.kind := by
  have writes : (t.printer.expr level).after e = e.plus (t.form.expr level e.setting) :=
    t.prints.expr level e he
  obtain ⟨l, ps, layout, legible, slash, opens⟩ := expr_start hs h level e.setting
  rw [layout] at writes
  exact ⟨_, l, writes, firstLexeme?_textOf legible slash, opens⟩

/-- What is put out for an expression as a statement begins no other statement, on a line of its own
as well as on one that is there. -/
theorem exists_first_statement {t : Tree τ} (hs : t.Shaped) (h : t.IsExpr ∨ t.kind = .exprStmt)
    (e : Emitter) : ∃ text l,
    t.printer.statement.after e = { e with output := e.output ++ text, inlineNext := false } ∧
      firstLexeme? text = some l ∧ l.BeginsExpression := by
  have program : t.form.kind ≠ .program := by
    obtain ⟨tag, n⟩ := t
    rw [kind_form]
    rintro hk
    cases n with
    | program body => rcases h with h | h <;> cases h
    | _ => cases hk
  obtain ⟨x, hx, hexpr, statement⟩ := statement_eq_exprStatement hs h
  obtain ⟨l, ps, layout, legible, slash, begins⟩ := exprStatement_start hx hexpr e.setting
  have runs : t.printer.statement.after e = { e with inlineNext := false }.plus
      ((if e.inlineNext then [] else [e.setting.line]) ++
        (t.form.statement e.setting false).tail) := (t.prints.states program).begins e
  rw [statement, List.tail_cons, layout] at runs
  refine ⟨_, l, runs, ?_, begins⟩
  rw [textOf, charsOf_append]
  exact firstLexeme?_of_legible (isBlank_line e.setting e.inlineNext) legible slash

/-- The first lexeme that is put out for an expression of a program is a brace only if its leftmost
node is an object, and the word `function` only if that is a function. What is put out for an
expression as a statement begins neither with a brace nor with a word with which a statement is
chosen, wherever it stands; so that a reader in front of it takes an expression. -/
theorem starts_told {source : String} {s : Script} (h : Script.read source = .ok s) :
    (∀ id, (s.kind id).isExpression → ∀ level (e : Emitter), e.inlineNext = false → ∃ text l,
      ((s.printer id).expr level).after e = { e with output := e.output ++ text } ∧
      firstLexeme? text = some l ∧
      (l = .punct "\x7b" → (s.tree id).leftmost.kind = .object) ∧
      (l = .word "function" → (s.tree id).leftmost.kind = .functionExpr)) ∧
    ∀ id, (s.kind id).isExpression ∨ s.kind id = .exprStmt → ∀ e : Emitter, ∃ text l,
      (s.printer id).statement.after e =
        { e with output := e.output ++ text, inlineNext := false } ∧
      firstLexeme? text = some l ∧ l ≠ .punct "\x7b" ∧ (∀ w ∈ statementWords, l ≠ .word w) ∧
      ∀ (inner : Rules) (c : Cursor), c.lexeme? = some l →
        Grammar.statement inner c = Grammar.exprStmt inner c := by
  have shaped := Script.shaped_read h
  constructor
  · intro id hid level e he
    have hexpr : (s.tree id).IsExpr := by rwa [IsExpr, s.kind_tree]
    obtain ⟨text, l, runs, first, opens⟩ := exists_first_expr (shaped id) hexpr level he
    refine ⟨text, l, runs, first, ?_, ?_⟩
    · rintro rfl
      exact opens.2 rfl
    · rintro rfl
      exact opens.2 rfl
  · intro id hid e
    have hstmt : (s.tree id).IsExpr ∨ (s.tree id).kind = .exprStmt := by
      rwa [IsExpr, s.kind_tree]
    obtain ⟨text, l, runs, first, begins⟩ := exists_first_statement (shaped id) hstmt e
    refine ⟨text, l, runs, first, ?_, ?_, fun inner c hc =>
      statement_of_beginsExpression inner hc begins⟩
    · rintro rfl
      exact begins.1 rfl
    · rintro w hw rfl
      exact begins hw

/-- A member of an object: the expression begins with a brace, the statement does not. -/
theorem starts_told_object : ∃ s, Script.read "(\x7b\x7d).x" = .ok s ∧ ∃ member text,
    ((s.printer member).expr .sequence).after .new = ⟨0, text, false, false⟩ ∧
    firstLexeme? text = some (.punct "\x7b") ∧ (s.tree member).leftmost.kind = .object ∧
    ∃ text l, (s.printer member).statement.after .new = ⟨0, text, false, false⟩ ∧
      firstLexeme? text = some l ∧ l ≠ .punct "\x7b" := by
  obtain ⟨s, hs, shown⟩ : ∃ s, Script.read "(\x7b\x7d).x" = .ok s ∧
      decide (s.kind 2 = .member ∧ firstLexeme? (textOf ((s.tree 2).form.expr .sequence .outer)) =
        some (.punct "\x7b")) = true := exists_read (by decide +kernel)
  obtain ⟨member, first⟩ := of_decide_eq_true shown
  obtain ⟨expressions, statements⟩ := starts_told hs
  have isExpr : (s.kind 2).isExpression := by rw [member]; rfl
  have printed : ((s.printer 2).expr .sequence).after .new =
      ⟨0, "" ++ textOf ((s.tree 2).form.expr .sequence .outer), false, false⟩ :=
    (s.tree 2).prints.expr .sequence .new rfl
  obtain ⟨text, l, runs, told, object, -⟩ := expressions 2 isExpr .sequence .new rfl
  obtain rfl : text = textOf ((s.tree 2).form.expr .sequence .outer) :=
    (String.append_right_inj "").1 (congrArg Emitter.output (runs.symm.trans printed))
  obtain ⟨line, l', runs', told', brace, -⟩ := statements 2 (.inl isExpr) .new
  rw [first] at told
  refine ⟨s, hs, 2, _, runs, ?_, object (Option.some.inj told).symm, _, l', runs', ?_, brace⟩
  · rwa [show Emitter.new.output = "" from rfl, String.empty_append]
  · rwa [show Emitter.new.output = "" from rfl, String.empty_append]

end Graft
