import Graft.Proofs.Roundtrip.Sentence

/-!
# Whole trees are read back

Every tree of the right shape is read back in each of its layouts, by induction over its children:
each rule finds its parts read back already.

* `readBack_statement` - a statement whose parts are read back
* `readsBack` - all trees of the right shape are read back
-/

namespace Graft

open Piece Layout Graft.Tree Read Grammar
open Reading (of)

variable {τ : Type} {t : Tree τ} {s : Setting}

/-! ## Parts of statements -/

/-- A condition or the like. -/
theorem freshBehind_expr (w : t.Written) (h : t.IsExpr) (level : Precedence) (s : Setting)
    (fresh : Bool) : freshBehind fresh (t.form.expr level s) = false :=
  (w.expr h level s).toItem.freshBehind fresh

/-- Statements in a row. -/
theorem readBack_statements {body : List (Tree τ)} (h : ∀ c ∈ body, c.IsStmt)
    (r : ∀ c ∈ body, c.ReadsBack) (s : Setting) :
    ∀ c ∈ body, ReadBack statement Ends (c.form.statement s false) c.wrapped :=
  fun c hc => (r c hc).statement (h c hc) s false

theorem exists_mark_statements {body : List (Tree τ)} (h : ∀ c ∈ body, c.IsStmt)
    (w : ∀ c ∈ body, c.Written) (s : Setting) :
    ∀ c ∈ body, ∀ fresh, ∃ l ms,
      marks fresh (c.form.statement s false) = (l, true) :: ms ∧ l.Begins :=
  fun c hc fresh => (w c hc).exists_mark (h c hc) s fresh

/-- What the head of a loop begins with. -/
theorem readBack_forLeft_start (w : t.Written) (r : t.ReadsBack) (h : t.IsForStart) (s : Setting) :
    ReadBack (fun r => forHead (step r)) AtSemicolon (t.form.forLeft .sequence s.inHead)
      (.start (some t.wrapped)) := by
  have hkind : t.form.kind = t.kind := by
    obtain ⟨tag, n⟩ := t
    exact kind_form tag n
  rw [Form.forLeft, hkind]
  split
  · rename_i hv
    obtain ⟨kind, qs, hqs⟩ : ∃ (kind : VarKind) (qs : List Piece),
        t.form.declaration s.inHead = word kind.text :: qs := by
      obtain ⟨tag, n⟩ := t
      cases n with
      | varDecl kind declarators =>
        rw [form_mk]
        cases declarators <;> exact ⟨kind, _, rfl⟩
      | _ => cases hv
    have start := r.start hv s
    rw [hqs] at start ⊢
    exact readBack_forHead_var start
  · rename_i hv
    have he := h.resolve_right hv
    exact readBack_forHead_start (w.expr he _ _).first rfl (r.expr he _ _)

/-- What a loop through a collection assigns to. -/
theorem readBack_forLeft_each (w : t.Written) (r : t.ReadsBack) (h : t.IsForLeft) (s : Setting) :
    ReadBack (fun r => forHead (step r)) AtEach (t.form.forLeft .access s) (.each t.wrapped) := by
  have hkind : t.form.kind = t.kind := by
    obtain ⟨tag, n⟩ := t
    exact kind_form tag n
  rw [Form.forLeft, hkind]
  rcases h with he | hv
  · rw [if_neg (by rintro hv; rw [IsExpr, hv] at he; cases he)]
    exact readBack_forHead_each (w.expr he _ _).first (r.expr he _ _)
  · have each := r.each hv s
    obtain ⟨kind, name, hn⟩ := hv
    obtain ⟨tag, n⟩ := t
    obtain rfl : n = .varDecl kind [⟨name, none⟩] := hn
    rw [if_pos (show (mk tag _).kind = .varDecl from rfl)]
    rw [form_mk] at each ⊢
    exact readBack_forHead_var each

/-- The parts of a declaration of variables. -/
theorem declarators_readsBack {declarators : List (Declarator (Tree τ) String)}
    (h : ∀ d ∈ declarators, IsName d.name ∧ ∀ e ∈ d.init, e.IsExpr)
    (r : ∀ d ∈ declarators, ∀ e ∈ d.init, e.ReadsBack) :
    ∀ d ∈ declarators, d.ReadsBack :=
  fun d hd => ⟨(h d hd).1.free, (h d hd).2, r d hd⟩

theorem declaration_eq (tag : τ) (kind : VarKind) (declarators : List (Declarator (Tree τ) String))
    (s : Setting) :
    (mk tag (.varDecl kind declarators)).form.declaration s =
      Layout.varDecl kind (declarators.map (·.layout s)) := by
  rw [form_mk]
  simp [Node.map, Node.form, Node.declaration, Function.comp_def, Declarator.map, Declarator.layout]

theorem wrapped_varDecl (tag : τ) (kind : VarKind)
    (declarators : List (Declarator (Tree τ) String)) :
    (mk tag (.varDecl kind declarators)).wrapped =
      of (.varDecl kind (declarators.map (·.map wrapped id))) :=
  wrapped_mk _ _

section Declaration

variable {tag : τ} {kind : VarKind} {declarators : List (Declarator (Tree τ) String)}

theorem mem_children_varDecl {d : Declarator (Tree τ) String} (hd : d ∈ declarators) {e : Tree τ}
    (he : e ∈ d.init) : e ∈ (Node.varDecl kind declarators).children :=
  List.mem_filterMap.2 ⟨d, hd, he⟩

/-- Every way in which a declaration of variables is read back. -/
theorem readsBack_declaration (ready : (mk tag (.varDecl kind declarators)).Ready) (s : Setting) :
    ReadBack varDecl AtSemicolon ((mk tag (.varDecl kind declarators)).form.declaration s)
        (mk tag (.varDecl kind declarators)).wrapped ∧
      ReadBack forVarHead AtSemicolon
        ((mk tag (.varDecl kind declarators)).form.declaration s.inHead)
        (.start (some (mk tag (.varDecl kind declarators)).wrapped)) := by
  obtain ⟨⟨hne, hn⟩, -, r⟩ := ready.parts
  obtain ⟨d, ds, rfl⟩ := List.exists_cons_of_ne_nil hne
  have parts := declarators_readsBack hn fun d hd e he => r e (mem_children_varDecl hd he)
  rw [declaration_eq, declaration_eq, wrapped_varDecl]
  exact ⟨readBack_varDecl kind parts s, readBack_forStart kind parts s⟩

end Declaration

/-! ## Cases and blocks -/

/-- How a case begins. -/
theorem exists_mark_case {t : Tree τ} (h : t.kind = .switchCase) (s : Setting) (fresh : Bool)
    (rest : List Mark) : CaseEnds (marks fresh (t.form.statement s false) ++ rest) ∧
      marks fresh (t.form.statement s false) ≠ [] := by
  obtain ⟨tag, n⟩ := t
  rw [form_mk]
  cases n with
  | switchCase test consequent =>
    cases test with
    | none => exact ⟨.inr (.inl rfl), List.cons_ne_nil _ _⟩
    | some test => exact ⟨.inl rfl, List.cons_ne_nil _ _⟩
  | _ => cases h

-- The children of a node can be read off it.
attribute [local simp] Node.children

/-- A case whose parts are read back. -/
theorem readBack_case {t : Tree τ} (h : t.kind = .switchCase) (ready : t.Ready) (s : Setting) :
    ReadBack switchCase CaseEnds (t.form.statement s false) (some t.wrapped) := by
  obtain ⟨tag, n⟩ := t
  obtain ⟨hn, w, r⟩ := ready.parts
  cases n with
  | switchCase test consequent =>
    have all := readBack_switchCase (p := fun e : Tree τ => e.form.expr .sequence s) (q := wrapped)
      (f := fun c : Tree τ => c.form.statement s.deeper false) (g := wrapped)
      (fun e he => (r e (by simp [Option.mem_def.1 he])).expr (hn.1 e he) 0 s)
      (fun e he => freshBehind_expr (w e (by simp [Option.mem_def.1 he])) (hn.1 e he) _ s)
      (exists_mark_statements hn.2 (fun c hc => w c (by simp [hc])) _)
      (readBack_statements hn.2 (fun c hc => r c (by simp [hc])) _)
    have layout : (mk tag (.switchCase test consequent)).form.statement s false =
        s.line :: (caseLabelLayout (fun e : Tree τ => e.form.expr .sequence s) test ++
          punct ":" :: consequent.flatMap fun c => c.form.statement s.deeper false) := by
      rw [form_mk, ← statements_map]
      cases test <;> simp [Node.map, Node.form, Node.statement, caseLabelLayout]
    have reading : (mk tag (.switchCase test consequent)).wrapped =
        of (.switchCase (test.map wrapped) (consequent.map wrapped)) := wrapped_mk _ _
    rw [layout, reading]
    exact all.behind_line s
  | _ => cases h

/-- A block whose statements are read back. -/
theorem readBack_block {t : Tree τ} (h : t.IsBlock) (ready : t.Ready) (s : Setting) :
    ReadBack block (fun _ => True) (t.form.block s) t.wrapped := by
  obtain ⟨tag, n⟩ := t
  obtain ⟨hn, w, r⟩ := ready.parts
  cases n with
  | block body =>
    have reading : (mk tag (.block body)).wrapped = of (.block (body.map wrapped)) := wrapped_mk _ _
    rw [reading]
    cases body with
    | nil => exact readBack_noBraces
    | cons c cs =>
      have layout : (mk tag (.block (c :: cs))).form.block s =
          braces s ((c :: cs).flatMap fun c => c.form.statement s.deeper false) := by
        rw [form_mk, ← statements_map]
        rfl
      rw [layout]
      exact readBack_braces (exists_mark_statements hn w _) (readBack_statements hn r _) s
  | _ => cases h

/-! ## Statements -/

/-- A layout that is read back as a statement, with the line in front of it or without. -/
def ReadOnLine (s : Setting) (inline : Bool) (layout : List Piece) (u : Reading) : Prop :=
  ∃ ps, ReadBack statement Ends ps u ∧ (layout = s.line :: ps ∨ inline = true ∧ layout = ps)

section Lines

variable {ps : List Piece} {u : Reading} {inline : Bool}

theorem ReadBack.on_line {follow : List Mark → Prop} (h : ReadBack Grammar.statement follow ps u)
    (s : Setting) (hf : ∀ rest, Ends rest → follow rest) : ReadOnLine s inline (s.line :: ps) u :=
  ⟨ps, h.mono hf, .inl rfl⟩

theorem ReadOnLine.readBack (h : ReadOnLine s inline ps u) : ReadBack statement Ends ps u := by
  obtain ⟨qs, h, rfl | ⟨-, rfl⟩⟩ := h
  · exact h.behind_line s
  · exact h

/-- A conditional stays on its line behind `else`. -/
theorem ReadBack.placed (h : ReadBack Grammar.statement Ends ps u) :
    ReadOnLine s inline ((if inline then [] else [s.line]) ++ ps) u := by
  cases inline
  · exact ⟨ps, h, .inl rfl⟩
  · exact ⟨ps, h, .inr ⟨rfl, rfl⟩⟩

end Lines

section Constructors

variable {tag : τ} {inline : Bool}

theorem readOnLine_varDecl {kind : VarKind} {declarators : List (Declarator (Tree τ) String)}
    (ready : (mk tag (.varDecl kind declarators)).Ready) :
    ReadOnLine s inline ((mk tag (.varDecl kind declarators)).form.statement s inline)
      (mk tag (.varDecl kind declarators)).wrapped := by
  have all := readBack_varStmt (readsBack_declaration ready s).1
  have layout : (mk tag (.varDecl kind declarators)).form.statement s inline =
      s.line :: ((mk tag (.varDecl kind declarators)).form.declaration s ++ [punct ";"]) := by
    rw [form_mk]
    rfl
  have hfirst : ((mk tag (.varDecl kind declarators)).form.declaration s ++ [punct ";"]).head? =
      some (word kind.text) := by
    rw [declaration_eq]
    cases declarators <;> rfl
  rw [layout]
  refine (all.by_word hfirst fun inner => ?_).on_line s fun _ _ => trivial
  cases kind <;> rfl

theorem readOnLine_functionDecl {name : String} {params : List String} {body : Tree τ}
    (ready : (mk tag (.functionDecl name params body)).Ready) :
    ReadOnLine s inline ((mk tag (.functionDecl name params body)).form.statement s inline)
      (mk tag (.functionDecl name params body)).wrapped := by
  obtain ⟨hn, -, r⟩ := ready.parts
  have rb := readBack_body hn.2.2 (r body (by simp)) s
  have all := readBack_functionDecl hn.1.free (isName_free hn.2.1) rb
  have layout : (mk tag (.functionDecl name params body)).form.statement s inline =
      s.line :: function (some name) params (body.form.braced s) := by
    rw [form_mk]
    simp [Node.map, Node.form, Node.statement]
  have reading : (mk tag (.functionDecl name params body)).wrapped =
      of (.functionDecl name params body.wrapped) := by
    rw [wrapped_mk]
    simp [Node.map, Node.wrapped]
  rw [layout, reading]
  exact (all.by_word rfl fun _ => rfl).on_line s fun _ _ => trivial

theorem readOnLine_classDecl {name : String} {superclass : Option (Tree τ)}
    {methods : List (Method (Tree τ) String)}
    (ready : (mk tag (.classDecl name superclass methods)).Ready) :
    ReadOnLine s inline ((mk tag (.classDecl name superclass methods)).form.statement s inline)
      (mk tag (.classDecl name superclass methods)).wrapped := by
  obtain ⟨hn, w, r⟩ := ready.parts
  have functions : ∀ m ∈ methods,
      m.function ∈ (Node.classDecl name superclass methods).children := by
    intro m hm
    simp only [Node.children, List.mem_append, List.mem_map]
    exact .inr ⟨m, hm, rfl⟩
  have all := readBack_classDecl (f := fun e : Tree τ => e.form.expr .access s) (g := wrapped)
    (p := fun m => method m.name m.isStatic (m.function.form.methodTail s.deeper))
    (q := fun m : Method (Tree τ) String => ⟨m.name, m.isStatic, m.function.wrapped⟩)
    hn.1.free
    (fun e he => (r e (by simp [Option.mem_def.1 he])).expr (hn.2.1 e he) 16 s)
    (fun m hm => by
      rcases m with ⟨name, _ | _, function⟩ <;> exact ⟨_, _, rfl⟩)
    (fun m hm => readBack_method ((w _ (functions m hm)).method (hn.2.2 m hm).2 _).first
      ((r _ (functions m hm)).method (hn.2.2 m hm).2 s.deeper)) s
  have layout : (mk tag (.classDecl name superclass methods)).form.statement s inline =
      s.line :: Layout.classDecl s name (superclass.map fun e => e.form.expr .access s)
        (methods.map fun m => s.deeper.line ::
          method m.name m.isStatic (m.function.form.methodTail s.deeper)) := by
    rw [form_mk]
    simp [Node.map, Node.form, Node.statement, Function.comp_def, Method.map]
  have reading : (mk tag (.classDecl name superclass methods)).wrapped =
      of (.classDecl name (superclass.map wrapped)
        (methods.map fun m => ⟨m.name, m.isStatic, m.function.wrapped⟩)) :=
    wrapped_mk _ _
  rw [layout, reading]
  exact (all.by_word rfl fun _ => rfl).on_line s fun _ _ => trivial

/-- In front of `else` there is a block, so that a conditional inside of it keeps its own. -/
theorem readOnLine_ifStmt {test consequent : Tree τ} {alternate : Option (Tree τ)}
    (ready : (mk tag (.ifStmt test consequent alternate)).Ready) :
    ReadOnLine s inline ((mk tag (.ifStmt test consequent alternate)).form.statement s inline)
      (mk tag (.ifStmt test consequent alternate)).wrapped := by
  obtain ⟨hn, w, r⟩ := ready.parts
  have rt := (r test (by simp)).expr hn.1 0 s
  have wc := w consequent (by simp)
  have rc := r consequent (by simp)
  cases alternate with
  | none =>
    have all := readBack_ifStmt rt (readBack_controlled s hn.2.1 wc rc)
    have layout : (mk tag (.ifStmt test consequent none)).form.statement s inline =
        (if inline then [] else [s.line]) ++
          (headed "if" (test.form.expr .sequence s) ++ consequent.form.controlled s) := by
      rw [form_mk]
      exact List.append_assoc _ _ _
    have reading : (mk tag (.ifStmt test consequent none)).wrapped =
        of (.ifStmt test.wrapped consequent.wrapped none) := wrapped_mk _ _
    rw [layout]
    exact ReadBack.placed (reading ▸ all.by_word rfl fun _ => rfl)
  | some alternate =>
    have all := readBack_ifStmt_else rt (readBack_braced s hn.2.1 wc rc)
      (group_braced wc hn.2.1 s).first
      (readBack_alternative s (hn.2.2 alternate rfl) (w alternate (by simp))
        (r alternate (by simp)))
    have layout : (mk tag (.ifStmt test consequent (some alternate))).form.statement s inline =
        (if inline then [] else [s.line]) ++ (headed "if" (test.form.expr .sequence s) ++
          (space :: consequent.form.braced s ++
            space :: word "else" :: alternate.form.alternative s)) := by
      rw [form_mk]
      simp [Node.map, Node.form, Node.statement, Node.ifHead]
    have reading : (mk tag (.ifStmt test consequent (some alternate))).wrapped =
        of (.ifStmt test.wrapped consequent.wrapped.asBlock (some alternate.wrapped)) :=
      wrapped_mk _ _
    rw [layout]
    exact ReadBack.placed (reading ▸ all.by_word rfl fun _ => rfl)

theorem readOnLine_forStmt {init test each : Option (Tree τ)} {body : Tree τ}
    (ready : (mk tag (.forStmt init test each body)).Ready) :
    ReadOnLine s inline ((mk tag (.forStmt init test each body)).form.statement s inline)
      (mk tag (.forStmt init test each body)).wrapped := by
  obtain ⟨hn, w, r⟩ := ready.parts
  have rb := readBack_controlled s hn.2.2.2 (w body (by simp)) (r body (by simp))
  have parts : ∀ e, e ∈ test ∨ e ∈ each → e.IsExpr ∧ e.Written ∧ e.ReadsBack := by
    rintro e (he | he) <;> obtain rfl := Option.mem_def.1 he
    · exact ⟨hn.2.1 e rfl, w e (by simp), r e (by simp)⟩
    · exact ⟨hn.2.2.1 e rfl, w e (by simp), r e (by simp)⟩
  have head : ReadBack (fun r => forHead (step r)) AtSemicolon
      ((init.map fun e => e.form.forLeft .sequence s.inHead).getD [])
      (.start (init.map wrapped)) := by
    cases init with
    | none => exact readBack_forHead_none
    | some e => exact readBack_forLeft_start (w e (by simp)) (r e (by simp)) (hn.1 e rfl) s
  have all := readBack_forStmt (f := fun e : Tree τ => e.form.expr .sequence s) (g := wrapped)
    head (fun e he => ⟨_, ((parts e he).2.1.expr (parts e he).1 0 s).first⟩)
    (fun e he => (parts e he).2.2.expr (parts e he).1 0 s) rb
  have layout : (mk tag (.forStmt init test each body)).form.statement s inline =
      s.line :: (headed "for" (((init.map fun e => e.form.forLeft .sequence s.inHead).getD []) ++
        punct ";" :: spaced (test.map fun e => e.form.expr .sequence s) ++
        punct ";" :: spaced (each.map fun e => e.form.expr .sequence s)) ++
          body.form.controlled s) := by
    rw [form_mk]
    simp [Node.map, Node.form, Node.statement, Function.comp_def]
  have reading : (mk tag (.forStmt init test each body)).wrapped =
      of (.forStmt (init.map wrapped) (test.map wrapped) (each.map wrapped) body.wrapped) :=
    wrapped_mk _ _
  rw [layout, reading]
  exact (all.by_word rfl fun _ => rfl).on_line s fun _ => id

theorem readOnLine_switchStmt {discriminant : Tree τ} {cases : List (Tree τ)}
    (ready : (mk tag (.switchStmt discriminant cases)).Ready) :
    ReadOnLine s inline ((mk tag (.switchStmt discriminant cases)).form.statement s inline)
      (mk tag (.switchStmt discriminant cases)).wrapped := by
  obtain ⟨hn, -, r⟩ := ready.parts
  have all := readBack_switchStmt (f := fun c : Tree τ => c.form.statement s.deeper false)
    (g := wrapped) s ((r discriminant (by simp)).expr hn.1 0 s)
    (fun c hc fresh rest => (exists_mark_case (hn.2 c hc) _ fresh rest).1)
    (fun c hc fresh => (exists_mark_case (hn.2 c hc) _ fresh []).2)
    (fun c hc => (r c (by simp [hc])).case (hn.2 c hc) _)
  have layout : (mk tag (.switchStmt discriminant cases)).form.statement s inline =
      s.line :: (headed "switch" (discriminant.form.expr .sequence s) ++ space ::
        braces s (cases.flatMap fun c => c.form.statement s.deeper false)) := by
    rw [form_mk, ← statements_map]
    rfl
  have reading : (mk tag (.switchStmt discriminant cases)).wrapped =
      of (.switchStmt discriminant.wrapped (cases.map wrapped)) := wrapped_mk _ _
  rw [layout, reading]
  exact (all.by_word rfl fun _ => rfl).on_line s fun _ _ => trivial

theorem readOnLine_tryStmt {body : Tree τ} {handler : Option (Catch (Tree τ) String)}
    {finalizer : Option (Tree τ)} (ready : (mk tag (.tryStmt body handler finalizer)).Ready) :
    ReadOnLine s inline ((mk tag (.tryStmt body handler finalizer)).form.statement s inline)
      (mk tag (.tryStmt body handler finalizer)).wrapped := by
  obtain ⟨hn, w, r⟩ := ready.parts
  have blocks : ∀ b, b ∈ (Node.tryStmt body handler finalizer).children → b.IsBlock →
      (b.form.braced s).head? = some (punct "\x7b") ∧
        ReadBack block (fun _ => True) (b.form.braced s) b.wrapped := by
    intro b hb hk
    exact ⟨(group_braced (w b hb) (isStmt_of_isBlock hk) s).first, readBack_body hk (r b hb) s⟩
  have caught : ∀ c ∈ handler, _ := fun c hc =>
    blocks c.body (by simp [Option.mem_def.1 hc]) (hn.2.1 c hc).2
  have all := readBack_tryStmt (f := fun b : Tree τ => b.form.braced s) (g := wrapped)
    hn.2.2.2 (blocks body (by simp) hn.1).2
    (fun c hc x hx => ((hn.2.1 c hc).1 x hx).free) (fun c hc => (caught c hc).1)
    (fun c hc => (caught c hc).2)
    (fun b hb => (blocks b (by simp [Option.mem_def.1 hb]) (hn.2.2.1 b hb)).2)
  have layout : (mk tag (.tryStmt body handler finalizer)).form.statement s inline =
      s.line :: (word "try" :: space :: body.form.braced s ++
        ((handler.map (·.layout fun b => b.form.braced s)).getD []) ++
        ((finalizer.map fun f =>
          space :: word "finally" :: space :: f.form.braced s).getD [])) := by
    rw [form_mk]
    simp [Node.map, Node.form, Node.statement, Function.comp_def, Catch.map, Catch.layout]
  have reading : (mk tag (.tryStmt body handler finalizer)).wrapped =
      of (.tryStmt body.wrapped (handler.map (·.map wrapped id)) (finalizer.map wrapped)) :=
    wrapped_mk _ _
  rw [layout, reading]
  exact (all.by_word rfl fun _ => rfl).on_line s fun _ => id

/-- An expression as a statement, in parentheses if it begins like another statement. -/
theorem readOnLine_exprStmt {arg : Tree τ} (ready : (mk tag (.exprStmt arg)).Ready) :
    ReadOnLine s inline ((mk tag (.exprStmt arg)).form.statement s inline)
      (mk tag (.exprStmt arg)).wrapped := by
  obtain ⟨hn, w, r⟩ := ready.parts
  have wa := w arg (by simp)
  have ra := r arg (by simp)
  have he : arg.IsExpr := hn
  have layout : (mk tag (.exprStmt arg)).form.statement s inline =
      s.line :: arg.form.exprStatement s := by
    rw [form_mk]
    rfl
  have reading : (mk tag (.exprStmt arg)).wrapped = of (.exprStmt arg.wrapped) := wrapped_mk _ _
  have anywhere : ∀ rest, Ends rest → True := fun _ _ => trivial
  rw [layout, reading, Form.exprStatement]
  refine ReadBack.on_line ?_ s anywhere
  split
  · have enclosed := readBackAt_enclosed (s := s) s ra wa he
    have starts : StartsAs .ident (parens (arg.form.expr .sequence s)) :=
      ⟨.punct "(", _, rfl, by decide, by decide⟩
    exact readBack_statement_of_opens (starts.append _) (by decide) (by decide)
      (readBack_exprStmt (enclosed.of_primary 0))
  · rename_i ho
    obtain ⟨ho, hf⟩ := not_or.1 ho
    exact readBack_statement_of_opens ((wa.expr he 0 s).first.append _) ho hf
      (readBack_exprStmt (ra.expr he 0 s))

end Constructors

/-- A statement whose parts are read back. -/
theorem readBack_statement {t : Tree τ} (h : t.IsStmt) (ready : t.Ready) (s : Setting)
    (inline : Bool) : ReadOnLine s inline (t.form.statement s inline) t.wrapped := by
  obtain ⟨tag, n⟩ := t
  obtain ⟨hn, w, r⟩ := ready.parts
  have anywhere : ∀ rest, Ends rest → True := fun _ _ => trivial
  have same : ∀ rest, Ends rest → Ends rest := fun _ h => h
  cases n with
  | varDecl kind declarators => exact readOnLine_varDecl ready
  | functionDecl name params body => exact readOnLine_functionDecl ready
  | classDecl name superclass methods => exact readOnLine_classDecl ready
  | returnStmt arg =>
    cases arg with
    | none =>
      exact (readBack_return.by_word rfl fun _ => rfl).on_line s anywhere
    | some arg =>
      have he : arg.IsExpr := hn arg rfl
      have all := readBack_return_some ((w arg (by simp)).expr he 0 s).first
        ((r arg (by simp)).expr he 0 s)
      exact (all.by_word rfl fun _ => rfl).on_line s anywhere
  | ifStmt test consequent alternate => exact readOnLine_ifStmt ready
  | forStmt init test each body => exact readOnLine_forStmt ready
  | forIn left right body =>
    have head := readBack_forLeft_each (w left (by simp)) (r left (by simp)) hn.1 s
    have all := readBack_forEachStmt false head ((r right (by simp)).expr hn.2.1 0 s)
      (readBack_controlled s hn.2.2 (w body (by simp)) (r body (by simp)))
    exact (all.by_word rfl fun _ => rfl).on_line s same
  | forOf left right body =>
    have head := readBack_forLeft_each (w left (by simp)) (r left (by simp)) hn.1 s
    have all := readBack_forEachStmt true head ((r right (by simp)).expr hn.2.1 1 s)
      (readBack_controlled s hn.2.2 (w body (by simp)) (r body (by simp)))
    exact (all.by_word rfl fun _ => rfl).on_line s same
  | whileStmt test body =>
    have all := readBack_whileStmt ((r test (by simp)).expr hn.1 0 s)
      (readBack_controlled s hn.2 (w body (by simp)) (r body (by simp)))
    exact (all.by_word rfl fun _ => rfl).on_line s same
  | withStmt scope body =>
    have all := readBack_withStmt ((r scope (by simp)).expr hn.1 0 s)
      (readBack_controlled s hn.2 (w body (by simp)) (r body (by simp)))
    exact (all.by_word rfl fun _ => rfl).on_line s same
  | doWhile body test =>
    have hgap : (if body.form.kind = .block then space else s.line).lexeme? = none := by
      split <;> rfl
    have all := readBack_doWhile ((r test (by simp)).expr hn.1 0 s)
      (readBack_controlled s hn.2 (w body (by simp)) (r body (by simp))) hgap
    exact (all.by_word rfl fun _ => rfl).on_line s anywhere
  | switchStmt discriminant cases => exact readOnLine_switchStmt ready
  | block body =>
    have hb : (mk tag (.block body)).IsBlock := rfl
    have all : ReadBack Grammar.statement Ends _ _ :=
      (readBack_block hb ready s).statement (group_block hb ready.shaped w s).first
    exact all.on_line s same
  | breakStmt =>
    exact ((readBack_transfer "break" .breakStmt).by_word rfl fun _ => rfl).on_line s anywhere
  | continueStmt =>
    exact ((readBack_transfer "continue" .continueStmt).by_word rfl fun _ => rfl).on_line s anywhere
  | throwStmt arg =>
    exact ((readBack_throwStmt ((r arg (by simp)).expr hn 0 s)).by_word rfl
      fun _ => rfl).on_line s anywhere
  | tryStmt body handler finalizer => exact readOnLine_tryStmt ready
  | exprStmt arg => exact readOnLine_exprStmt ready
  | empty => exact readBack_empty.on_line s anywhere
  | _ => cases h

/-! ## Functions and heads -/

/-- The function of a method. -/
theorem readBack_methodTail {t : Tree τ} (h : t.IsMethod) (ready : t.Ready) (s : Setting) :
    ReadBack bareFunction (fun _ => True) (t.form.methodTail s) t.wrapped := by
  obtain ⟨tag, n⟩ := t
  obtain ⟨names, body, rfl⟩ : ∃ names body, n = .functionExpr none names body := h
  obtain ⟨hn, -, r⟩ := ready.parts
  have all := readBack_bareFunction (isName_free hn.2.1)
    (readBack_body hn.2.2 (r body (by simp)) s)
  have layout : (mk tag (.functionExpr none names body)).form.methodTail s =
      params names ++ space :: body.form.braced s := by
    rw [form_mk]
    simp [Node.map, Node.form, Node.methodTail]
  have reading : (mk tag (.functionExpr none names body)).wrapped =
      of (.functionExpr none names body.wrapped) := by
    rw [wrapped_mk]
    simp [Node.map, Node.wrapped]
  rw [layout, reading]
  exact all

/-- The one variable of a loop through a collection. -/
theorem readBack_each {t : Tree τ} (hs : t.Shaped)
    (h : ∃ kind name, t.node = .varDecl kind [⟨name, none⟩]) (s : Setting) :
    ReadBack forVarHead AtEach (t.form.declaration s) (.each t.wrapped) := by
  obtain ⟨tag, n⟩ := t
  obtain ⟨kind, name, rfl⟩ : ∃ kind name, n = .varDecl kind [⟨name, none⟩] := h
  obtain ⟨hn, -⟩ := shaped_mk.1 hs
  rw [declaration_eq, wrapped_varDecl]
  exact readBack_forEach kind (hn.2 _ (List.mem_singleton_self _)).1.free

/-! ## Whole trees -/

/-- All trees of the right shape are read back. -/
theorem readsBack {t : Tree τ} (hs : t.Shaped) : t.ReadsBack := by
  induction t using Tree.induct with
  | step t ih =>
    have shaped := ((shaped_iff t).1 hs).2
    have ready : t.Ready := ⟨hs, fun c hc => ih c hc (shaped c hc)⟩
    exact {
      expr := fun h level s => readBackAt_expr h ready level s
      callee := fun h hc s => readBackChain_callee h ready hc s
      block := fun h s => readBack_block h ready s
      method := fun h s => readBack_methodTail h ready s
      declaration := fun h s => by
        obtain ⟨tag, n⟩ := t
        cases n with
        | varDecl kind declarators => exact (readsBack_declaration ready s).1
        | _ => cases h
      start := fun h s => by
        obtain ⟨tag, n⟩ := t
        cases n with
        | varDecl kind declarators => exact (readsBack_declaration ready s).2
        | _ => cases h
      each := fun h s => readBack_each hs h s
      statement := fun h s inline => (readBack_statement h ready s inline).readBack
      case := fun h s => readBack_case h ready s }

end Graft
