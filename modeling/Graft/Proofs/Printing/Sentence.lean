import Graft.Proofs.Printing.Written

/-!
# Layouts of statements

Statements stand on lines of their own, and what they end with may stand in front of anything. So
the layouts of statements are put together without a look at what they hold.

* `sentence_statement` - the layout of a statement whose parts are laid out right
* `written` - all trees of the right shape are laid out right
* `strip_text` - and so is a whole program
-/

namespace Graft

open Piece Layout Graft.Tree

variable {τ : Type} {ps qs : List Piece} {d e : Prop}

/-! ## Lines -/

namespace Line

theorem congr (h : Line ps d) (hde : d ↔ e) : Line ps e :=
  { h with divides := h.divides.trans hde }

theorem nil : Line [] True := ⟨.nil, nofun⟩

theorem append (h : Line ps d) (h' : Line qs e) : Line (ps ++ qs) (d ∧ e) := by
  refine ⟨h.toStrip.append_loose h'.toStrip h.last, fun p hp => ?_⟩
  cases qs with
  | nil => exact h.last p (by rwa [List.append_nil] at hp)
  | cons q qs =>
    rw [List.getLast?_append_of_ne_nil _ (List.cons_ne_nil _ _)] at hp
    exact h'.last p hp

/-- A calm piece in front of which an item stands. -/
theorem behind_item (h : Line qs e) (h' : Item ps d) (hne : qs ≠ [])
    (hq : ∀ q ∈ qs.head?, q.Calm) : Line (ps ++ qs) (d ∧ e) := by
  refine ⟨h'.toStrip.append_calm h.toStrip h'.last hq, fun p hp => h.last p ?_⟩
  rwa [List.getLast?_append_of_ne_nil _ hne] at hp

theorem behind_gap {p : Piece} (hp : p.lexeme? = none) (h : Line ps d) : Line (p :: ps) d := by
  have gap : Line [p] True := by
    refine ⟨.gap hp, fun q hq => ?_⟩
    obtain rfl := Option.some.inj hq
    cases p with
    | lexeme l => cases hp
    | _ => trivial
  exact (gap.append h).congr (by rw [true_and])

theorem behind_sign {p : String} (hp : p ∈ [";", ",", ":"]) (h : Line ps d) :
    Line (punct p :: ps) d := by
  have loose : ∀ p ∈ [";", ",", ":"], p ∈ looseSigns := by decide
  have sign : Line [punct p] True := by
    refine ⟨Strip.nil.behind_sign hp, fun q hq => ?_⟩
    obtain rfl := Option.some.inj hq
    exact loose p hp
  exact (sign.append h).congr (by rw [true_and])

theorem behind_word {w : String} (hw : w ∈ keywords) (h : Line ps d) (hne : ps ≠ [])
    (hp : ∀ p ∈ ps.head?, p.Calm) : Line (word w :: ps) d :=
  (h.behind_item (.lexeme (spelled_keyword hw) nofun) hne hp).congr (by rw [true_and])

end Line

/-- A semicolon behind an item. -/
theorem Item.semicolon (h : Item ps d) : Line (ps ++ [punct ";"]) d := by
  refine (Line.behind_item (Line.nil.behind_sign (by simp)) h (List.cons_ne_nil _ _)
    fun q hq => ?_).congr (by rw [and_true])
  obtain rfl := Option.some.inj hq
  exact (by decide : ";" ∈ calmSigns)

/-- A line is a sentence if it begins with a lexeme that may begin one. -/
theorem sentence_of_line {l : Lexeme} (h : Line (lexeme l :: ps) d) (hl : l.Begins) :
    Sentence (lexeme l :: ps) d :=
  ⟨h, l, ps, rfl, hl⟩

theorem Sentence.behind_line {inline : Bool} (h : Sentence ps d) (s : Setting) :
    OnLine s inline (s.line :: ps) d :=
  ⟨ps, h, .inl rfl⟩

namespace OnLine

variable {s : Setting} {inline : Bool}

theorem congr (h : OnLine s inline ps d) (hde : d ↔ e) : OnLine s inline ps e := by
  obtain ⟨qs, hq, hps⟩ := h
  exact ⟨qs, { hq with divides := hq.divides.trans hde }, hps⟩

theorem line (h : OnLine s inline ps d) : Line ps d := by
  obtain ⟨qs, hq, rfl | ⟨-, rfl⟩⟩ := h
  · exact hq.toLine.behind_gap rfl
  · exact hq.toLine

/-- A statement that does not go on a line begins one. -/
theorem exists_eq (h : OnLine s false ps d) : ∃ qs, ps = s.line :: qs ∧ Sentence qs d := by
  obtain ⟨qs, hq, hps | ⟨hf, -⟩⟩ := h
  · exact ⟨qs, hps, hq⟩
  · cases hf

end OnLine

/-! ## Braces -/

/-- Lines in braces. -/
theorem group_braces (h : Line ps d) (s : Setting) : Group "\x7b" "\x7d" (braces s ps) d := by
  have inside : Line (ps ++ [s.line]) d :=
    (h.append (Line.nil.behind_gap (p := s.line) rfl)).congr (by rw [and_true])
  have all : Item (enclosed "\x7b" (ps ++ [s.line]) "\x7d") d :=
    .enclosed inside.toStrip (by simp) fun p hp => .inl (inside.last p hp)
  have layout : braces s ps = enclosed "\x7b" (ps ++ [s.line]) "\x7d" := by
    simp [braces, enclosed]
  exact layout ▸ ⟨all, rfl, List.getLast?_concat⟩

theorem group_noBraces : Group "\x7b" "\x7d" noBraces True :=
  ⟨.enclosed .nil (by simp) nofun, rfl, rfl⟩

/-- Lines one after the other. -/
theorem line_flatMap {α : Type} {f : α → List Piece} {D : α → Prop} {xs : List α}
    (h : ∀ x ∈ xs, Line (f x) (D x)) : Line (xs.flatMap f) (∀ x ∈ xs, D x) := by
  induction xs with
  | nil => exact Line.nil.congr (by simp)
  | cons x xs ih =>
    obtain ⟨hx, hxs⟩ := List.forall_mem_cons.1 h
    rw [List.flatMap_cons]
    exact (hx.append (ih hxs)).congr List.forall_mem_cons.symm

theorem statements_map (body : List (Tree τ)) (s : Setting) :
    Form.statements (body.map form) s = body.flatMap fun c => c.form.statement s false := by
  rw [Form.statements, List.flatMap_map]

theorem line_statements {body : List (Tree τ)} (h : ∀ c ∈ body, c.IsStmt)
    (w : ∀ c ∈ body, c.Written) (s : Setting) :
    Line (Form.statements (body.map form) s) (∀ c ∈ body, c.Divisible) := by
  rw [statements_map]
  exact line_flatMap fun c hc => ((w c hc).sentence (h c hc) s false).line

/-- A statement as a block. -/
theorem group_braced {t : Tree τ} (w : t.Written) (h : t.IsStmt) (s : Setting) :
    Group "\x7b" "\x7d" (t.form.braced s) t.Divisible := by
  by_cases hb : t.IsBlock
  · rw [braced_of_block hb]
    exact w.block hb s
  · rw [Form.braced, if_neg (by obtain ⟨tag, n⟩ := t; rw [kind_form]; exact hb)]
    exact group_braces (w.sentence h s.deeper false).line s

/-! ## Parts of statements -/

-- The slashes of a tree divide if those of its node and of its children do.
attribute [local simp] divisible_mk Node.Divisible Node.divided? Node.children

theorem isStmt_of_isBlock {t : Tree τ} (h : t.IsBlock) : t.IsStmt := by
  rw [IsStmt, h]
  rfl

/-- A layout that may follow a word: it is not empty and begins with a gap. -/
structure Tail (ps : List Piece) (d : Prop) : Prop extends Line ps d where
  ne_nil : ps ≠ []
  calm : ∀ p ∈ ps.head?, p.Calm

theorem Tail.of_gap {p : Piece} (hp : p.lexeme? = none) (h : Line ps d) : Tail (p :: ps) d := by
  refine ⟨h.behind_gap hp, List.cons_ne_nil _ _, fun q hq => ?_⟩
  obtain rfl := Option.some.inj hq
  cases p with
  | lexeme l => cases hp
  | _ => trivial

theorem Tail.behind_item (h : Tail qs e) (h' : Item ps d) : Line (ps ++ qs) (d ∧ e) :=
  h.toLine.behind_item h' h.ne_nil h.calm

theorem Group.line_braces (h : Group "\x7b" "\x7d" ps d) : Line ps d :=
  h.line (by decide)

/-- A statement as the body of another. -/
theorem tail_controlled {t : Tree τ} (w : t.Written) (h : t.IsStmt) (s : Setting) :
    Tail (t.form.controlled s) t.Divisible := by
  rw [Form.controlled]
  split
  · rename_i hb
    have hb : t.IsBlock := by
      obtain ⟨tag, n⟩ := t
      rwa [kind_form] at hb
    exact .of_gap rfl (w.block hb s).line_braces
  · obtain ⟨ps, hps, hsentence⟩ := (w.sentence h s.deeper false).exists_eq
    exact hps ▸ .of_gap rfl hsentence.toLine

/-- A statement behind `else`. -/
theorem tail_alternative {t : Tree τ} (w : t.Written) (h : t.IsStmt) (s : Setting) :
    Tail (t.form.alternative s) t.Divisible := by
  rw [Form.alternative]
  split
  · exact .of_gap rfl (w.sentence h s true).line
  · exact tail_controlled w h s

/-- What may stand in the head of a statement: each part of it may be left out. -/
structure Clause (ps : List Piece) (d : Prop) : Prop extends Strip ps d where
  last : ∀ p ∈ ps.getLast?, p.Loose ∨ p.Closes

theorem Item.clause (h : Item ps d) : Clause ps d :=
  ⟨h.toStrip, fun p hp => .inr (h.last p hp)⟩

/-- A semicolon between two parts of a head. -/
theorem Clause.semicolon (h : Clause ps d) (h' : Clause qs e) :
    Clause (ps ++ punct ";" :: qs) (d ∧ e) := by
  refine ⟨h.toStrip.append (h'.toStrip.behind_sign (p := ";") (by simp)) fun p hp q hq => ?_,
    fun p hp => ?_⟩
  · obtain rfl := Option.some.inj hq
    exact (h.last p hp).elim meets_of_loose fun h => meets_of_calm h (by decide : ";" ∈ calmSigns)
  · rw [List.getLast?_append_of_ne_nil _ (List.cons_ne_nil _ _)] at hp
    cases qs with
    | nil =>
      obtain rfl := Option.some.inj hp
      exact .inl (by decide : ";" ∈ looseSigns)
    | cons q qs =>
      rw [List.getLast?_cons_cons] at hp
      exact h'.last p hp

theorem clause_option {α : Type} {f : α → List Piece} {D : α → Prop} {part : Option α}
    (h : ∀ x ∈ part, Item (f x) (D x)) : Clause ((part.map f).getD []) (∀ x ∈ part, D x) := by
  cases part with
  | none => exact ⟨Strip.nil.congr (by simp), nofun⟩
  | some x => exact ((h x rfl).congr (by simp)).clause

theorem clause_spaced {α : Type} {f : α → List Piece} {D : α → Prop} {part : Option α}
    (h : ∀ x ∈ part, Item (f x) (D x)) : Clause (spaced (part.map f)) (∀ x ∈ part, D x) := by
  cases part with
  | none => exact ⟨Strip.nil.congr (by simp), nofun⟩
  | some x => exact (((h x rfl).behind_gap (p := space) rfl).congr (by simp)).clause

theorem line_option {α : Type} {f : α → List Piece} {D : α → Prop} {part : Option α}
    (h : ∀ x ∈ part, Line (f x) (D x)) : Line ((part.map f).getD []) (∀ x ∈ part, D x) := by
  cases part with
  | none => exact Line.nil.congr (by simp)
  | some x => exact (h x rfl).congr (by simp)

/-- The head of a statement. -/
theorem item_headed {keyword : String} (hk : keyword ∈ keywords) (h : Clause ps d) :
    Item (headed keyword ps) d :=
  (Item.enclosed h.toStrip (by simp) h.last).behind_word hk rfl

/-- A statement with a head and a body. -/
theorem sentence_headed {keyword : String} (hk : keyword ∈ keywords)
    (hb : keyword ∉ continuations) (head : Clause ps d) (body : Tail qs e) :
    Sentence (headed keyword ps ++ qs) (d ∧ e) :=
  sentence_of_line (body.behind_item (item_headed hk head)) hb

/-- A word in front of a gap and braces. -/
theorem line_braced {w : String} (hw : w ∈ keywords) (h : Group "\x7b" "\x7d" ps d) :
    Line (word w :: space :: ps) d :=
  (h.line_braces.behind_gap rfl).behind_word hw (List.cons_ne_nil _ _) fun q hq => by
    obtain rfl := Option.some.inj hq
    trivial

/-- One variable of a declaration. -/
theorem item_declarator {x : Declarator (Tree τ) String} (hx : IsName x.name)
    (he : ∀ e ∈ x.init, e.IsExpr) (w : ∀ e ∈ x.init, e.Written) (s : Setting) :
    Item (declarator x.name (x.init.map fun e => e.form.expr .assignment s))
      (∀ e ∈ x.init, e.Divisible) := by
  obtain ⟨name, init⟩ := x
  cases init with
  | none => exact (item_word hx.word).congr (by simp)
  | some e =>
    have value := (w e rfl).expr (he e rfl) .assignment s
    exact ((item_word hx.word).infixed_of_not value.toItem (l := .punct "=")
      (by decide : "=" ∈ punctuators) (by decide) (by decide)).congr (by simp)

/-- A declaration of variables without its semicolon. -/
theorem item_declaration {t : Tree τ} (h : t.kind = .varDecl) (hs : t.Shaped)
    (parts : ∀ c ∈ t.children, c.Written) (s : Setting) :
    Item (t.form.declaration s) t.Divisible := by
  obtain ⟨tag, n⟩ := t
  change ∀ c ∈ n.children, c.Written at parts
  obtain ⟨hn, -⟩ := shaped_mk.1 hs
  rw [form_mk]
  cases n with
  | varDecl kind declarators =>
    obtain ⟨x, rest, rfl⟩ := List.exists_cons_of_ne_nil hn.1
    have each : ∀ y ∈ x :: rest,
        Item (declarator y.name (y.init.map fun e => e.form.expr .assignment s))
          (∀ e ∈ y.init, e.Divisible) := fun y hy =>
      item_declarator (hn.2 y hy).1 (hn.2 y hy).2
        (fun e he => parts e (List.mem_filterMap.2 ⟨y, hy, he⟩)) s
    have all := (Item.commas each).behind_word (p := space)
      (by cases kind <;> decide : kind.text ∈ keywords) rfl
    have layouts : ((x :: rest).map (·.map form id)).map (fun d : Declarator Form String =>
        declarator d.name (d.init.map fun e => e.expr .assignment s)) =
          (x :: rest).map fun y => declarator y.name
            (y.init.map fun e => e.form.expr .assignment s) := by
      rw [List.map_map]
      refine List.map_congr_left fun y _ => ?_
      simp [Declarator.map, Function.comp_def]
    change Item (Layout.varDecl kind (((x :: rest).map (·.map form id)).map _)) _
    rw [layouts]
    refine all.congr ?_
    rw [divisible_mk, and_iff_right (Node.divisible_of_none rfl)]
    simp only [Node.children, List.mem_filterMap]
    refine ⟨?_, fun h y hy c hc => h c ⟨y, hy, hc⟩⟩
    rintro h c ⟨y, hy, hc⟩
    exact h y hy c hc
  | _ => cases h

/-- The left side of the head of a `for`. -/
theorem item_forLeft {t : Tree τ} (w : t.Written) (h : t.IsForStart) (level : Precedence)
    (s : Setting) : Item (t.form.forLeft level s) t.Divisible := by
  have hkind : t.form.kind = t.kind := by
    obtain ⟨tag, n⟩ := t
    exact kind_form tag n
  rw [Form.forLeft, hkind]
  split
  · exact w.declaration ‹_› s
  · rename_i hv
    exact (w.expr (h.resolve_right hv) level s).toItem

/-- The function of a method, behind its name. -/
theorem group_method {t : Tree τ} (h : t.IsMethod) (hs : t.Shaped)
    (parts : ∀ c ∈ t.children, c.Written) (s : Setting) :
    Group "(" "\x7d" (t.form.methodTail s) t.Divisible := by
  obtain ⟨tag, n⟩ := t
  obtain ⟨names, body, rfl⟩ : ∃ names body, n = .functionExpr none names body := h
  obtain ⟨hn, -⟩ := shaped_mk.1 hs
  have w := parts body (by simp [children, node])
  rw [form_mk]
  change Group "(" "\x7d" (params (names.map id) ++ space :: body.form.braced s) _
  rw [List.map_id, braced_of_block hn.2.2]
  exact ((group_params hn.2.1).append_gap (w.block hn.2.2 s) rfl).congr (by simp)

/-- A method behind the start of its line. -/
theorem line_method {m : Method (Tree τ) String} (hm : IsWord m.name) (h : m.function.IsMethod)
    (w : m.function.Written) (s : Setting) :
    Line (method m.name m.isStatic (m.function.form.methodTail s)) m.function.Divisible := by
  have tail := w.method h s
  have named : Item (word m.name :: m.function.form.methodTail s) m.function.Divisible := by
    refine ((item_word hm).append tail.toItem fun q hq => ?_).congr (by rw [true_and])
    rw [tail.first] at hq
    obtain rfl := Option.some.inj hq
    exact (by decide : "(" ∈ calmSigns)
  have closed : ∀ p ∈ (word m.name :: m.function.form.methodTail s).getLast?, p.Loose := by
    intro p hp
    rw [List.getLast?_cons_of_ne_nil tail.ne_nil, tail.last_eq] at hp
    obtain rfl := Option.some.inj hp
    exact (by decide : "\x7d" ∈ looseSigns)
  rw [method]
  split
  · refine ⟨(named.behind_word (by decide : "static" ∈ keywords) (p := space) rfl).toStrip,
      fun p hp => closed p ?_⟩
    rwa [List.getLast?_append_of_ne_nil _ (List.cons_ne_nil _ _)] at hp
  · exact ⟨named.toStrip, closed⟩

/-- The statements of a block. -/
theorem group_block {t : Tree τ} (h : t.IsBlock) (hs : t.Shaped)
    (parts : ∀ c ∈ t.children, c.Written) (s : Setting) :
    Group "\x7b" "\x7d" (t.form.block s) t.Divisible := by
  obtain ⟨tag, n⟩ := t
  obtain ⟨hn, -⟩ := shaped_mk.1 hs
  change ∀ c ∈ n.children, c.Written at parts
  rw [form_mk]
  cases n with
  | block body =>
    have inside := line_statements hn parts s.deeper
    cases body with
    | nil => exact group_noBraces.congr (by simp)
    | cons c cs =>
      exact (group_braces inside s).congr (by simp)
  | _ => cases h

/-- A case of a switch. -/
theorem line_case {t : Tree τ} (h : t.kind = .switchCase) (hs : t.Shaped)
    (parts : ∀ c ∈ t.children, c.Written) (s : Setting) :
    Line (t.form.statement s false) t.Divisible := by
  obtain ⟨tag, n⟩ := t
  obtain ⟨hn, -⟩ := shaped_mk.1 hs
  change ∀ c ∈ n.children, c.Written at parts
  rw [form_mk]
  cases n with
  | switchCase test consequent =>
    have body := line_statements hn.2 (fun c hc => parts c (by simp [hc])) s.deeper
    have tail := body.behind_sign (p := ":") (by simp)
    have calm : ∀ q ∈ (punct ":" :: Form.statements (consequent.map form) s.deeper).head?,
        q.Calm := by
      intro q hq
      obtain rfl := Option.some.inj hq
      exact (by decide : ":" ∈ calmSigns)
    cases test with
    | none =>
      have word : Item [word "default"] True := .lexeme (spelled_keyword (by decide)) nofun
      exact ((tail.behind_item word (List.cons_ne_nil _ _) calm).behind_gap (p := s.line) rfl).congr
        (by simp)
    | some test =>
      have label := ((parts test (by simp)).expr (hn.1 test rfl) .sequence
        s).toItem.behind_word (by decide : "case" ∈ keywords) (p := space) rfl
      exact ((tail.behind_item label (List.cons_ne_nil _ _) calm).behind_gap (p := s.line)
        rfl).congr (by simp)
  | _ => cases h

/-- What catches, behind the block of a `try`. -/
theorem line_catch {h : Catch (Tree τ) String} (hp : ∀ x ∈ h.param, IsName x)
    (hb : h.body.IsBlock) (w : h.body.Written) (s : Setting) :
    Line (space :: catchHead h.param ++ h.body.form.braced s) h.body.Divisible := by
  have body := group_braced w (isStmt_of_isBlock hb) s
  obtain ⟨param, inside⟩ := h
  cases param with
  | none => exact (line_braced (by decide) body).behind_gap rfl
  | some x =>
    have param := (item_word (hp x rfl).word).parens.behind_word
      (by decide : "catch" ∈ keywords) (p := space) rfl
    have all := (Tail.of_gap (p := space) rfl body.line_braces).behind_item param
    have layout : space :: catchHead (some x) ++ inside.form.braced s =
        space :: (word "catch" :: space :: parens [word x] ++ space :: inside.form.braced s) := by
      simp [catchHead]
    rw [layout]
    exact (all.behind_gap rfl).congr (by rw [true_and])

/-- A class up to its body. -/
def classHead (name : String) (superclass : Option (List Piece)) : List Piece :=
  word "class" :: space :: word name ::
    superclass.elim [] fun superclass => space :: word "extends" :: space :: superclass

theorem classDecl_nil (s : Setting) (name : String) (superclass : Option (List Piece)) :
    classDecl s name superclass [] = classHead name superclass ++ space :: noBraces := by
  cases superclass <;> rfl

theorem classDecl_of_ne_nil (s : Setting) (name : String) (superclass : Option (List Piece))
    {methods : List (List Piece)} (h : methods ≠ []) :
    classDecl s name superclass methods =
      classHead name superclass ++ space :: braces s methods.flatten := by
  obtain ⟨m, ms, rfl⟩ := List.exists_cons_of_ne_nil h
  cases superclass <;> rfl

theorem item_classHead {name : String} {superclass : Option (Tree τ)} (hn : IsName name)
    (he : ∀ e ∈ superclass, e.IsExpr) (we : ∀ e ∈ superclass, e.Written) (s : Setting) :
    Item (classHead name (superclass.map fun e => e.form.expr .access s))
      (∀ e ∈ superclass, e.Divisible) := by
  have named := (item_word hn.word).behind_word (by decide : "class" ∈ keywords) (p := space) rfl
  cases superclass with
  | none => exact named.congr (by simp)
  | some e =>
    have parent := ((we e rfl).expr (he e rfl) .access s).toItem.behind_word
      (by decide : "extends" ∈ keywords) (p := space) rfl
    exact (named.append_gap parent (p := space) rfl).congr (by simp)

/-- A class from its keyword on. -/
theorem line_classDecl {name : String} {superclass : Option (Tree τ)}
    {methods : List (Method (Tree τ) String)} (hn : IsName name)
    (he : ∀ e ∈ superclass, e.IsExpr) (we : ∀ e ∈ superclass, e.Written)
    (hm : ∀ m ∈ methods, IsWord m.name ∧ m.function.IsMethod)
    (wm : ∀ m ∈ methods, m.function.Written) (s : Setting) :
    Line (classDecl s name (superclass.map fun e => e.form.expr .access s)
      (methods.map fun m =>
        s.deeper.line :: method m.name m.isStatic (m.function.form.methodTail s.deeper)))
      ((∀ e ∈ superclass, e.Divisible) ∧ ∀ m ∈ methods, m.function.Divisible) := by
  have head := item_classHead hn he we s
  have whole {body : List Piece}
      (hbody : Group "\x7b" "\x7d" body (∀ m ∈ methods, m.function.Divisible)) :=
    (Tail.of_gap (p := space) rfl hbody.line_braces).behind_item head
  cases methods with
  | nil =>
    rw [List.map_nil, classDecl_nil]
    exact whole (group_noBraces.congr (by simp))
  | cons m ms =>
    rw [classDecl_of_ne_nil _ _ _ (by simp), ← List.flatMap_def]
    refine whole (group_braces (line_flatMap fun m' hm' => ?_) s)
    exact (line_method (hm m' hm').1 (hm m' hm').2 (wm m' hm') s.deeper).behind_gap rfl

/-! ## Statements -/

/-- A statement may begin with whatever an expression may begin with. -/
theorem begins_of_opens {l : Lexeme} {k : Kind} (h : l.Opens k) : l.Begins := by
  cases l with
  | word w =>
    have words : ∀ w ∈ continuations, Grammar.isReserved w = true ∧ w ∉ expressionWords := by
      decide
    intro hw
    obtain ⟨hr, he⟩ := words w hw
    rcases h.1 with hf | hx
    · rw [hr] at hf
      cases hf
    · exact he hx
  | punct p =>
    rintro rfl
    exact absurd h.1 (by decide)
  | _ => trivial

section Constructors

variable {tag : τ} {s : Setting} {inline : Bool}

theorem onLine_functionDecl {name : String} {params : List String} {body : Tree τ}
    (hn : (Node.functionDecl name params body).Shaped) (w : body.Written) :
    OnLine s inline ((mk tag (.functionDecl name params body)).form.statement s inline)
      (mk tag (.functionDecl name params body)).Divisible := by
  have hbody := w.block hn.2.2 s
  have all := phrase_function (by simpa using hn.1 : ∀ x ∈ some name, IsName x) hn.2.1 hbody
  have line : Line (function (some name) params (body.form.block s)) body.Divisible := by
    refine ⟨all.toStrip, fun p hp => hbody.line_braces.last p ?_⟩
    rwa [function, List.getLast?_append_of_ne_nil _ (List.cons_ne_nil _ _),
      List.getLast?_cons_of_ne_nil hbody.ne_nil] at hp
  rw [form_mk]
  change OnLine s inline (s.line :: function (some name) (params.map id) (body.form.braced s)) _
  rw [List.map_id, braced_of_block hn.2.2]
  exact ((sentence_of_line line (by decide : "function" ∉ continuations)).behind_line s).congr
    (by simp)

theorem onLine_classDecl {name : String} {superclass : Option (Tree τ)}
    {methods : List (Method (Tree τ) String)}
    (hn : (Node.classDecl name superclass methods).Shaped) (we : ∀ e ∈ superclass, e.Written)
    (wm : ∀ m ∈ methods, m.function.Written) :
    OnLine s inline ((mk tag (.classDecl name superclass methods)).form.statement s inline)
      (mk tag (.classDecl name superclass methods)).Divisible := by
  have all := line_classDecl hn.1 hn.2.1 we hn.2.2 wm s
  have layout : (mk tag (.classDecl name superclass methods)).form.statement s inline =
      s.line :: classDecl s name (superclass.map fun e => e.form.expr .access s)
        (methods.map fun m =>
          s.deeper.line :: method m.name m.isStatic (m.function.form.methodTail s.deeper)) := by
    rw [form_mk]
    simp [Node.map, Node.form, Node.statement, Function.comp_def, Method.map]
  rw [layout]
  refine ((sentence_of_line all (by decide : "class" ∉ continuations)).behind_line s).congr ?_
  rw [divisible_mk]
  simp [or_imp, forall_and]

/-- A conditional stays on its line behind `else`. -/
theorem Sentence.placed {ps : List Piece} {d : Prop} (h : Sentence ps d) :
    OnLine s inline ((if inline then [] else [s.line]) ++ ps) d := by
  cases inline with
  | true => exact ⟨ps, h, .inr ⟨rfl, rfl⟩⟩
  | false => exact h.behind_line s

theorem onLine_ifStmt {test consequent : Tree τ} {alternate : Option (Tree τ)}
    (hn : (Node.ifStmt test consequent alternate).Shaped) (wt : test.Written)
    (wc : consequent.Written) (wa : ∀ c ∈ alternate, c.Written) :
    OnLine s inline ((mk tag (.ifStmt test consequent alternate)).form.statement s inline)
      (mk tag (.ifStmt test consequent alternate)).Divisible := by
  have cond := (wt.expr hn.1 .sequence s).toItem.clause
  rw [form_mk]
  cases alternate with
  | none =>
    have all : OnLine s inline _ _ := (sentence_headed (by decide : "if" ∈ keywords) (by decide)
      cond (tail_controlled wc hn.2.1 s)).placed
    rw [← List.append_assoc] at all
    exact all.congr (by simp)
  | some alternate =>
    have head := (item_headed (by decide : "if" ∈ keywords) cond).append_gap
      (group_braced wc hn.2.1 s).toItem (p := space) rfl
    have branch := tail_alternative (wa alternate rfl) (hn.2.2 alternate rfl) s
    have tail := Tail.of_gap (p := space) rfl
      (branch.toLine.behind_word (by decide : "else" ∈ keywords) branch.ne_nil branch.calm)
    have all : OnLine s inline _ (mk tag (.ifStmt test consequent (some alternate))).Divisible :=
      (sentence_of_line (tail.behind_item head) (by decide : "if" ∉ continuations)).placed.congr
        (by simp [and_assoc])
    cases inline <;> exact all

theorem onLine_forStmt {init test step : Option (Tree τ)} {body : Tree τ}
    (hn : (Node.forStmt init test step body).Shaped)
    (parts : ∀ e, e ∈ init ∨ e ∈ test ∨ e ∈ step → e.Written) (w : body.Written) :
    OnLine s inline ((mk tag (.forStmt init test step body)).form.statement s inline)
      (mk tag (.forStmt init test step body)).Divisible := by
  have start := clause_option fun e he =>
    item_forLeft (parts e (.inl he)) (hn.1 e he) .sequence s.inHead
  have cond := clause_spaced fun e he =>
    ((parts e (.inr (.inl he))).expr (hn.2.1 e he) .sequence s).toItem
  have next := clause_spaced fun e he =>
    ((parts e (.inr (.inr he))).expr (hn.2.2.1 e he) .sequence s).toItem
  have all := sentence_headed (by decide : "for" ∈ keywords) (by decide)
    ((start.semicolon cond).semicolon next) (tail_controlled w hn.2.2.2 s)
  have layout : (mk tag (.forStmt init test step body)).form.statement s inline =
      s.line :: (headed "for"
        ((init.map fun e => e.form.forLeft .sequence s.inHead).getD [] ++ punct ";" ::
          spaced (test.map fun e => e.form.expr .sequence s) ++ punct ";" ::
          spaced (step.map fun e => e.form.expr .sequence s)) ++ body.form.controlled s) := by
    rw [form_mk]
    simp [Node.map, Node.form, Node.statement, Function.comp_def]
  rw [layout]
  refine (all.behind_line s).congr ?_
  rw [divisible_mk]
  simp [or_imp, forall_and, and_assoc]

/-- A loop over the keys or the members of a value. -/
theorem onLine_forEach {left right body : Tree τ}
    (hn : left.IsForLeft ∧ right.IsExpr ∧ body.IsStmt) (wl : left.Written) (wr : right.Written)
    (wb : body.Written) {w : String} (hw : w ∈ keywords) (level : Precedence) :
    OnLine s inline
      (s.line :: headed "for" (infixed (left.form.forLeft .access s) (word w)
        (right.form.expr level s)) ++ body.form.controlled s)
      (left.Divisible ∧ right.Divisible ∧ body.Divisible) := by
  have start : left.IsForStart := hn.1.imp_right (by rintro ⟨_, _, h⟩; rw [kind, h]; rfl)
  have head := (item_forLeft wl start .access s).infixed_of_not (wr.expr hn.2.1 level s).toItem
    (l := .word w) (spelled_keyword hw) ⟨rfl, rfl⟩ rfl
  have all := sentence_headed (by decide : "for" ∈ keywords) (by decide) head.clause
    (tail_controlled wb hn.2.2 s)
  exact (all.behind_line s).congr and_assoc

theorem onLine_doWhile {body test : Tree τ} (hn : (Node.doWhile body test).Shaped)
    (wb : body.Written) (wt : test.Written) :
    OnLine s inline ((mk tag (.doWhile body test)).form.statement s inline)
      (mk tag (.doWhile body test)).Divisible := by
  have cond := (wt.expr hn.1 .sequence s).toItem.clause
  have tail := tail_controlled wb hn.2 s
  have front := tail.toLine.behind_word (by decide : "do" ∈ keywords) tail.ne_nil tail.calm
  have back := (item_headed (by decide : "while" ∈ keywords) cond).semicolon
  have hgap : (if body.form.kind = .block then space else s.line).lexeme? = none := by
    split <;> rfl
  have all := sentence_of_line (front.append (back.behind_gap hgap))
    (by decide : "do" ∉ continuations)
  have layout : (mk tag (.doWhile body test)).form.statement s inline =
      s.line :: (word "do" :: body.form.controlled s ++
        (if body.form.kind = .block then space else s.line) ::
          (headed "while" (test.form.expr .sequence s) ++ [punct ";"])) := by
    rw [form_mk]
    simp [Node.map, Node.form, Node.statement]
  rw [layout]
  exact (all.behind_line s).congr (by simp)

theorem onLine_tryStmt {body : Tree τ} {handler : Option (Catch (Tree τ) String)}
    {finalizer : Option (Tree τ)} (hn : (Node.tryStmt body handler finalizer).Shaped)
    (wb : body.Written) (wh : ∀ h ∈ handler, h.body.Written) (wf : ∀ f ∈ finalizer, f.Written) :
    OnLine s inline ((mk tag (.tryStmt body handler finalizer)).form.statement s inline)
      (mk tag (.tryStmt body handler finalizer)).Divisible := by
  have front := line_braced (by decide : "try" ∈ keywords)
    (group_braced wb (isStmt_of_isBlock hn.1) s)
  have caught := line_option fun (x : Catch (Tree τ) String) (hx : x ∈ handler) =>
    line_catch (hn.2.1 x hx).1 (hn.2.1 x hx).2 (wh x hx) s
  have final := line_option fun f (hf : f ∈ finalizer) =>
    (line_braced (by decide : "finally" ∈ keywords)
      (group_braced (wf f hf) (isStmt_of_isBlock (hn.2.2.1 f hf)) s)).behind_gap (p := space) rfl
  have all := sentence_of_line ((front.append caught).append final)
    (by decide : "try" ∉ continuations)
  have layout : (mk tag (.tryStmt body handler finalizer)).form.statement s inline =
      s.line :: (word "try" :: space :: body.form.braced s ++
        ((handler.map fun h => space :: catchHead h.param ++ h.body.form.braced s).getD []) ++
        ((finalizer.map fun f =>
          space :: word "finally" :: space :: f.form.braced s).getD [])) := by
    rw [form_mk]
    simp [Node.map, Node.form, Node.statement, Function.comp_def, Catch.map]
  rw [layout]
  refine (all.behind_line s).congr ?_
  rw [divisible_mk]
  simp [or_imp, forall_and, and_assoc]

/-- A keyword and the expression that it is about. -/
theorem onLine_behind_keyword {arg : Tree τ} (hn : arg.IsExpr) (w : arg.Written) {k : String}
    (hk : k ∈ keywords) (hb : k ∉ continuations) :
    OnLine s inline (s.line :: word k :: space :: (arg.form.expr .sequence s ++ [punct ";"]))
      arg.Divisible := by
  have all := ((w.expr hn .sequence s).toItem.behind_word hk (p := space) rfl).semicolon
  exact (sentence_of_line all hb).behind_line s

/-- An expression as a statement, in parentheses if it begins like another statement. -/
theorem onLine_exprStmt {arg : Tree τ} (hn : arg.IsExpr) (w : arg.Written) :
    OnLine s inline ((mk tag (.exprStmt arg)).form.statement s inline)
      (mk tag (.exprStmt arg)).Divisible := by
  have begins {k : Kind} {ps : List Piece} (h : Phrase k ps arg.Divisible) :
      OnLine s inline (s.line :: (ps ++ [punct ";"])) (mk tag (.exprStmt arg)).Divisible := by
    have all := h.toItem.semicolon
    obtain ⟨l, qs, rfl, hl⟩ := h.first
    exact ((sentence_of_line all (begins_of_opens hl)).behind_line s).congr (by simp)
  rw [form_mk]
  change OnLine s inline (s.line :: (_ ++ [punct ";"])) _
  split
  · exact begins (k := .ident) (.parens (w.expr hn .sequence s).toItem)
  · exact begins (w.expr hn .sequence s)

end Constructors

/-- The layout of a statement whose parts are laid out right. -/
theorem sentence_statement {t : Tree τ} (h : t.IsStmt) (hs : t.Shaped)
    (parts : ∀ c ∈ t.children, c.Written) (s : Setting) (inline : Bool) :
    OnLine s inline (t.form.statement s inline) t.Divisible := by
  have hdeclaration : t.kind = .varDecl → Item (t.form.declaration s) t.Divisible :=
    fun hv => item_declaration hv hs parts s
  obtain ⟨tag, n⟩ := t
  obtain ⟨hn, hc⟩ := shaped_mk.1 hs
  change ∀ c ∈ n.children, c.Written at parts
  cases n with
  | varDecl kind declarators =>
    have hk : kind.text ∉ continuations := by cases kind <;> decide
    obtain ⟨x, rest, rfl⟩ := List.exists_cons_of_ne_nil hn.1
    rw [form_mk] at hdeclaration ⊢
    exact (sentence_of_line (hdeclaration rfl).semicolon hk).behind_line s
  | functionDecl name params body => exact onLine_functionDecl hn (parts body (by simp))
  | classDecl name superclass methods =>
    refine onLine_classDecl hn (fun e he => parts e (by simp [Option.mem_def.1 he])) fun m hm =>
      parts m.function ?_
    simp only [Node.children, List.mem_append, List.mem_map]
    exact .inr ⟨m, hm, rfl⟩
  | returnStmt arg =>
    have hb : "return" ∉ continuations := by decide
    cases arg with
    | none =>
      have word : Item [word "return"] True := .lexeme (spelled_keyword (by decide)) (by rintro _ ⟨⟩)
      exact ((sentence_of_line word.semicolon hb).behind_line s).congr (by simp)
    | some e =>
      exact (onLine_behind_keyword (hn e rfl) (parts e (by simp))
        (by decide : "return" ∈ keywords) hb).congr (by simp)
  | ifStmt test consequent alternate =>
    exact onLine_ifStmt hn (parts test (by simp)) (parts consequent (by simp))
      fun c hc => parts c (by simp [Option.mem_def.1 hc])
  | forStmt init test step body =>
    refine onLine_forStmt hn (fun e he => parts e ?_) (parts body (by simp))
    rcases he with he | he | he <;> simp [Option.mem_def.1 he]
  | forIn left right body =>
    exact (onLine_forEach hn (parts left (by simp)) (parts right (by simp)) (parts body (by simp))
      (by decide : "in" ∈ keywords) .sequence).congr (by simp)
  | forOf left right body =>
    exact (onLine_forEach hn (parts left (by simp)) (parts right (by simp)) (parts body (by simp))
      (by decide : "of" ∈ keywords) .assignment).congr (by simp)
  | whileStmt test body | withStmt test body =>
    have head := ((parts test (by simp)).expr hn.1 .sequence s).toItem
    have body := tail_controlled (parts body (by simp)) hn.2 s
    exact ((sentence_headed (by decide) (by decide) head.clause body).behind_line s).congr (by simp)
  | doWhile body test => exact onLine_doWhile hn (parts body (by simp)) (parts test (by simp))
  | switchStmt discriminant cases =>
    rw [form_mk]
    have head := ((parts discriminant (by simp)).expr hn.1 .sequence s).toItem
    have inside : Line (Form.statements (cases.map form) s.deeper) (∀ c ∈ cases, c.Divisible) := by
      rw [statements_map]
      exact line_flatMap fun c hc => (parts c (by simp [hc])).line (hn.2 c hc) _
    have body := Tail.of_gap (p := space) rfl (group_braces inside s).line_braces
    exact ((sentence_headed (by decide) (by decide) head.clause body).behind_line s).congr (by simp)
  | block body =>
    have all := group_block (t := mk tag (.block body)) rfl hs parts s
    rw [form_mk] at all ⊢
    obtain ⟨qs, hqs⟩ := List.head?_eq_some_iff.1 all.first
    have line := all.line_braces
    rw [hqs] at line
    change OnLine s inline (s.line :: (Node.map form id (.block body)).form.block s) _
    rw [hqs]
    exact (sentence_of_line line (by decide : "\x7b" ≠ "\x7d")).behind_line s
  | breakStmt | continueStmt =>
    exact ((sentence_of_line (Item.lexeme (spelled_keyword (by decide)) (by rintro _ ⟨⟩)).semicolon
      (by decide : _ ∉ continuations)).behind_line s).congr (by simp)
  | throwStmt arg =>
    exact (onLine_behind_keyword hn (parts arg (by simp)) (by decide : "throw" ∈ keywords)
      (by decide)).congr (by simp)
  | tryStmt body handler finalizer =>
    exact onLine_tryStmt hn (parts body (by simp))
      (fun h hh => parts h.body (by simp [Option.mem_def.1 hh]))
      fun f hf => parts f (by simp [Option.mem_def.1 hf])
  | exprStmt arg => exact onLine_exprStmt hn (parts arg (by simp))
  | empty =>
    exact ((sentence_of_line (Line.nil.behind_sign (p := ";") (by simp))
      (by decide : ";" ≠ "\x7d")).behind_line s).congr (by simp)
  | _ => cases h

/-! ## Whole trees -/

/-- All trees of the right shape are laid out right. -/
theorem written {t : Tree τ} (hs : t.Shaped) : t.Written := by
  induction t using Tree.induct with
  | step t ih =>
    have parts : ∀ c ∈ t.children, c.Written := fun c hc => ih c hc (((shaped_iff t).1 hs).2 c hc)
    exact {
      phrase := fun h s => phrase_bare h hs parts s
      block := fun h s => group_block h hs parts s
      declaration := fun h s => item_declaration h hs parts s
      method := fun h s => group_method h hs parts s
      sentence := fun h s inline => sentence_statement h hs parts s inline
      line := fun h s => line_case h hs parts s }

end Graft
