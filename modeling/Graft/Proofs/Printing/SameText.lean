import Graft.Proofs.Printing.Division

/-!
# Layouts with the same text

What is printed of a node depends on its children through little: the characters of their layouts,
how tightly they bind, and whether they are of one of a few kinds. So a child may give way to
another one that agrees with it in that, and the text of the parent stays the same. A number with a
sign and the operator in front of a number agree so, although they are different lexemes.

* `SameText` - layouts with the same characters
* `Form.Alike` - forms that a parent cannot tell apart by its text
* `Node.form_alike` - the form of a node follows those of its children
-/

namespace Graft

open Piece Layout

variable {α : Type}

/-! ## Layouts -/

/-- Layouts that are written with the same characters. -/
def SameText (ps qs : List Piece) : Prop :=
  charsOf ps = charsOf qs

namespace SameText

variable {ps qs ps' qs' : List Piece}

theorem refl (ps : List Piece) : SameText ps ps := rfl

theorem append (h : SameText ps qs) (h' : SameText ps' qs') :
    SameText (ps ++ ps') (qs ++ qs') := by
  unfold SameText at *
  rw [charsOf_append, charsOf_append, h, h']

theorem cons (p : Piece) (h : SameText ps qs) : SameText (p :: ps) (p :: qs) :=
  (refl [p]).append h

theorem enclosed (opening closing : String) (h : SameText ps qs) :
    SameText (Piece.enclosed opening ps closing) (Piece.enclosed opening qs closing) :=
  cons _ (h.append (refl _))

theorem parens (h : SameText ps qs) : SameText (Piece.parens ps) (Piece.parens qs) :=
  h.enclosed "(" ")"

theorem braces (s : Setting) (h : SameText ps qs) :
    SameText (Layout.braces s ps) (Layout.braces s qs) :=
  cons _ (h.append (refl _))

theorem infixed (op : Piece) (h : SameText ps qs) (h' : SameText ps' qs') :
    SameText (Layout.infixed ps op ps') (Layout.infixed qs op qs') :=
  h.append (cons _ (cons _ (cons _ h')))

theorem headed (keyword : String) (h : SameText ps qs) :
    SameText (Layout.headed keyword ps) (Layout.headed keyword qs) :=
  cons _ (cons _ h.parens)

/-- Whether two signs would become one is told by the characters. -/
theorem unary (op : UnaryOp) (h : SameText ps qs) :
    SameText (Layout.unary op ps) (Layout.unary op qs) := by
  unfold Layout.unary
  rw [show charsOf ps = charsOf qs from h]
  split
  · exact cons _ (cons _ h)
  · split
    · exact cons _ (cons _ h)
    · exact cons _ h

theorem function (name : Option String) (parameters : List String) (h : SameText ps qs) :
    SameText (Layout.function name parameters ps) (Layout.function name parameters qs) :=
  cons _ ((refl _).append (cons _ h))

section Families

variable {F G : α → List Piece}

theorem flatMap {cs : List α} (h : ∀ c ∈ cs, SameText (F c) (G c)) :
    SameText (cs.flatMap F) (cs.flatMap G) := by
  induction cs with
  | nil => rfl
  | cons c cs ih =>
    obtain ⟨hc, hcs⟩ := List.forall_mem_cons.1 h
    rw [List.flatMap_cons, List.flatMap_cons]
    exact hc.append (ih hcs)

theorem commas {cs : List α} (h : ∀ c ∈ cs, SameText (F c) (G c)) :
    SameText (Piece.commas (cs.map F)) (Piece.commas (cs.map G)) := by
  induction cs with
  | nil => rfl
  | cons c cs ih =>
    obtain ⟨hc, hcs⟩ := List.forall_mem_cons.1 h
    cases cs with
    | nil => simpa [Piece.commas] using hc
    | cons d ds =>
      have rest := ih hcs
      simp only [List.map_cons, commas_cons_cons] at rest ⊢
      exact hc.append (cons _ (cons _ rest))

/-- A part that may be left out. -/
theorem option {o : Option α} (h : ∀ c ∈ o, SameText (F c) (G c)) :
    SameText ((o.map F).getD []) ((o.map G).getD []) := by
  cases o with
  | none => rfl
  | some c => exact h c rfl

theorem spaced {o : Option α} (h : ∀ c ∈ o, SameText (F c) (G c)) :
    SameText (Layout.spaced (o.map F)) (Layout.spaced (o.map G)) := by
  cases o with
  | none => rfl
  | some c => exact cons _ (h c rfl)

/-- Layouts that are put in a row one by one. -/
theorem flatten {cs : List α} (h : ∀ c ∈ cs, SameText (F c) (G c)) :
    SameText (cs.map F).flatten (cs.map G).flatten := by
  rw [← List.flatMap_def, ← List.flatMap_def]
  exact flatMap h

theorem object {cs : List α} (h : ∀ c ∈ cs, SameText (F c) (G c)) :
    SameText (Layout.object (cs.map F)) (Layout.object (cs.map G)) := by
  cases cs with
  | nil => rfl
  | cons c cs => exact (cons _ ((commas h).append (refl _))).enclosed _ _

theorem varDecl (kind : VarKind) {cs : List α} (h : ∀ c ∈ cs, SameText (F c) (G c)) :
    SameText (Layout.varDecl kind (cs.map F)) (Layout.varDecl kind (cs.map G)) := by
  cases cs with
  | nil => rfl
  | cons c cs => exact cons _ (cons _ (commas h))

theorem declarator (name : String) {o : Option α} (h : ∀ c ∈ o, SameText (F c) (G c)) :
    SameText (Layout.declarator name (o.map F)) (Layout.declarator name (o.map G)) := by
  cases o with
  | none => rfl
  | some c => exact (refl _).infixed _ (h c rfl)

theorem classDecl {β : Type} {M N : β → List Piece} (s : Setting) (name : String) {o : Option α}
    {ms : List β} (h : ∀ c ∈ o, SameText (F c) (G c)) (hm : ∀ m ∈ ms, SameText (M m) (N m)) :
    SameText (Layout.classDecl s name (o.map F) (ms.map M))
      (Layout.classDecl s name (o.map G) (ms.map N)) := by
  have body : SameText (Layout.braces s (ms.map M).flatten) (Layout.braces s (ms.map N).flatten) :=
    (flatten hm).braces s
  cases o with
  | none =>
    refine cons _ (cons _ (cons _ (cons _ ?_)))
    cases ms with
    | nil => rfl
    | cons m ms => exact body
  | some c =>
    refine cons _ (cons _ (cons _ (append (cons _ (cons _ (cons _ (h c rfl)))) (cons _ ?_))))
    cases ms with
    | nil => rfl
    | cons m ms => exact body

end Families

theorem ite {c : Prop} [Decidable c] (h : SameText ps qs) (h' : SameText ps' qs') :
    SameText (if c then ps else ps') (if c then qs else qs') := by
  split
  · exact h
  · exact h'

end SameText

/-! ## Forms -/

/-- Kinds that a parent does not tell apart: they are equal, or those of a literal and of an
operator in front of it. -/
def Kind.Alike (k l : Kind) : Prop :=
  k = l ∨ k = .literal ∧ l = .unary

theorem Kind.Alike.refl (k : Kind) : k.Alike k :=
  .inl rfl

/-- A kind that is neither a literal nor an operator is told. -/
theorem Kind.Alike.eq_iff {k l m : Kind} (h : k.Alike l) (hl : m ≠ .literal) (hu : m ≠ .unary) :
    k = m ↔ l = m := by
  rcases h with rfl | ⟨rfl, rfl⟩
  · exact Iff.rfl
  · exact iff_of_false (Ne.symm hl) (Ne.symm hu)

/-- Forms that a parent cannot tell apart by its text. -/
structure Form.Alike (f g : Form) : Prop where
  kind : f.kind.Alike g.kind
  level : f.level = g.level
  isIn : f.isIn = g.isIn
  opening : f.opening.Alike g.opening
  hasCall : f.hasCall = g.hasCall
  bare : ∀ s, SameText (f.bare s) (g.bare s)
  base : ∀ s, SameText (f.base s) (g.base s)
  declaration : ∀ s, SameText (f.declaration s) (g.declaration s)
  methodTail : ∀ s, SameText (f.methodTail s) (g.methodTail s)
  block : ∀ s, SameText (f.block s) (g.block s)
  statement : ∀ s inline, SameText (f.statement s inline) (g.statement s inline)

namespace Form

theorem Alike.refl (f : Form) : f.Alike f :=
  ⟨.refl _, rfl, rfl, .refl _, rfl, fun _ => .refl _, fun _ => .refl _, fun _ => .refl _,
    fun _ => .refl _, fun _ => .refl _, fun _ _ => .refl _⟩

variable {f g : Form}

theorem expr_congr (hl : f.level = g.level) (hi : f.isIn = g.isIn)
    (h : ∀ s, SameText (f.bare s) (g.bare s)) (level : Precedence) (s : Setting) :
    SameText (f.expr level s) (g.expr level s) := by
  unfold expr
  rw [hl, hi]
  exact .ite (h _).parens (h _)

namespace Alike

theorem expr (h : f.Alike g) (level : Precedence) (s : Setting) :
    SameText (f.expr level s) (g.expr level s) :=
  expr_congr h.level h.isIn h.bare level s

theorem exprStatement (h : f.Alike g) (s : Setting) :
    SameText (f.exprStatement s) (g.exprStatement s) := by
  unfold Form.exprStatement
  simp only [h.opening.eq_iff (m := .object) nofun nofun,
    h.opening.eq_iff (m := .functionExpr) nofun nofun]
  exact (SameText.ite (h.expr _ _).parens (h.expr _ _)).append (.refl _)

theorem braced (h : f.Alike g) (s : Setting) : SameText (f.braced s) (g.braced s) := by
  unfold Form.braced
  simp only [h.kind.eq_iff (m := .block) nofun nofun]
  exact .ite (h.block s) ((h.statement _ _).braces s)

theorem controlled (h : f.Alike g) (s : Setting) :
    SameText (f.controlled s) (g.controlled s) := by
  unfold Form.controlled
  simp only [h.kind.eq_iff (m := .block) nofun nofun]
  exact .ite (.cons _ (h.block s)) (h.statement _ _)

theorem alternative (h : f.Alike g) (s : Setting) :
    SameText (f.alternative s) (g.alternative s) := by
  unfold Form.alternative
  simp only [h.kind.eq_iff (m := .ifStmt) nofun nofun]
  exact .ite (.cons _ (h.statement _ _)) (h.controlled s)

theorem forLeft (h : f.Alike g) (level : Precedence) (s : Setting) :
    SameText (f.forLeft level s) (g.forLeft level s) := by
  unfold Form.forLeft
  simp only [h.kind.eq_iff (m := .varDecl) nofun nofun]
  exact .ite (h.declaration s) (h.expr level s)

theorem constructed (h : f.Alike g) (s : Setting) :
    SameText (f.constructed s) (g.constructed s) := by
  unfold Form.constructed
  rw [h.level, h.hasCall]
  exact .ite (h.expr _ _).parens (h.expr _ _)

end Alike

section Families

variable {cs : List α} {F G : α → Form}

theorem items_alike (h : ∀ c ∈ cs, (F c).Alike (G c)) (s : Setting) :
    SameText (items (cs.map F) s) (items (cs.map G) s) := by
  unfold items
  rw [List.map_map, List.map_map]
  exact SameText.commas fun c hc => (h c hc).expr _ _

theorem statements_alike (h : ∀ c ∈ cs, (F c).Alike (G c)) (s : Setting) :
    SameText (statements (cs.map F) s) (statements (cs.map G) s) := by
  unfold statements
  rw [List.flatMap_map, List.flatMap_map]
  exact SameText.flatMap fun c hc => (h c hc).statement _ _

theorem spaced_alike {o : Option α} (h : ∀ c ∈ o, (F c).Alike (G c)) (level : Precedence)
    (s : Setting) :
    SameText (Layout.spaced ((o.map F).map fun e => e.expr level s))
      (Layout.spaced ((o.map G).map fun e => e.expr level s)) := by
  rw [Option.map_map, Option.map_map]
  exact SameText.spaced fun c hc => (h c hc).expr _ _

end Families

end Form

/-! ## Forms of nodes -/

namespace Node

variable {n : Node α String} {F G : α → Form}

theorem bare_alike (h : ∀ c ∈ n.children, (F c).Alike (G c)) (s : Setting) :
    SameText ((n.map F id).bare s) ((n.map G id).bare s) := by
  cases n with
  | array items => exact (Form.items_alike h s).enclosed "[" "]"
  | object properties =>
    show SameText (Layout.object (List.map _ (properties.map (·.map F id))))
      (Layout.object (List.map _ (properties.map (·.map G id))))
    rw [List.map_map, List.map_map]
    refine .object fun p hp => .cons _ (.cons _ (.cons _ ?_))
    exact (h p.value (List.mem_map_of_mem hp)).expr _ _
  | functionExpr name parameters body =>
    exact .function _ _ ((h body (List.mem_cons_self ..)).braced s)
  | arrow parameters body isExpression =>
    have hb := h body (List.mem_cons_self ..)
    cases isExpression with
    | false => exact (SameText.refl _).infixed _ (hb.braced s)
    | true =>
      refine (SameText.refl _).infixed _ ?_
      simp only [hb.opening.eq_iff (m := .object) nofun nofun]
      exact .ite (hb.expr _ _).parens (hb.expr _ _)
  | sequence items => exact Form.items_alike h s
  | unary op arg => exact .unary op ((h arg (List.mem_cons_self ..)).expr _ _)
  | update op leading arg =>
    have harg := h arg (List.mem_cons_self ..)
    cases leading with
    | true => exact .cons _ (harg.expr _ _)
    | false => exact (harg.expr _ _).append (.refl _)
  | binary op lhs rhs | logical op lhs rhs | assign op lhs rhs =>
    obtain ⟨hl, hr⟩ := List.forall_mem_cons.1 h
    exact (hl.expr _ _).infixed _ ((hr rhs (List.mem_cons_self ..)).expr _ _)
  | conditional test consequent alternate =>
    obtain ⟨ht, h⟩ := List.forall_mem_cons.1 h
    obtain ⟨hc, ha⟩ := List.forall_mem_cons.1 h
    exact (ht.expr _ _).infixed _
      ((hc.expr _ _).infixed _ ((ha alternate (List.mem_cons_self ..)).expr _ _))
  | call callee args =>
    obtain ⟨hc, ha⟩ := List.forall_mem_cons.1 h
    exact (hc.expr _ _).append (Form.items_alike ha s).parens
  | newExpr callee args =>
    obtain ⟨hc, ha⟩ := List.forall_mem_cons.1 h
    exact .cons _ (.cons _ ((hc.constructed s).append (Form.items_alike ha s).parens))
  | member base name => exact ((h base (List.mem_cons_self ..)).base s).append (.refl _)
  | index base key =>
    obtain ⟨hb, hk⟩ := List.forall_mem_cons.1 h
    exact (hb.base s).append
      (((hk key (List.mem_cons_self ..)).expr _ _).enclosed "[" "]")
  | _ => exact .refl _

theorem declaration_alike (h : ∀ c ∈ n.children, (F c).Alike (G c)) (s : Setting) :
    SameText ((n.map F id).declaration s) ((n.map G id).declaration s) := by
  cases n with
  | varDecl kind declarators =>
    show SameText (Layout.varDecl kind (List.map _ (declarators.map (·.map F id))))
      (Layout.varDecl kind (List.map _ (declarators.map (·.map G id))))
    rw [List.map_map, List.map_map]
    refine .varDecl kind fun d hd => ?_
    simp only [Function.comp_apply, Declarator.map, Option.map_map]
    refine .declarator _ fun c hc => ?_
    exact (h c (List.mem_filterMap.2 ⟨d, hd, hc⟩)).expr _ _
  | _ => exact .refl _

theorem methodTail_alike (h : ∀ c ∈ n.children, (F c).Alike (G c)) (s : Setting) :
    SameText ((n.map F id).methodTail s) ((n.map G id).methodTail s) := by
  cases n with
  | functionExpr name parameters body =>
    exact (SameText.refl _).append (.cons _ ((h body (List.mem_cons_self ..)).braced s))
  | _ => exact .refl _

theorem blockBody_alike (h : ∀ c ∈ n.children, (F c).Alike (G c)) (s : Setting) :
    SameText ((n.map F id).blockBody s) ((n.map G id).blockBody s) := by
  cases n with
  | block body =>
    cases body with
    | nil => exact .refl _
    | cons c cs => exact (Form.statements_alike h _).braces s
  | _ => exact .refl _

theorem ifHead_alike {f g : Form} (h : f.Alike g) (s : Setting) (inline : Bool) :
    SameText (ifHead f s inline) (ifHead g s inline) :=
  (SameText.refl _).append ((h.expr _ _).headed "if")

theorem class_alike (name : String) {superclass : Option α} {methods : List (Method α String)}
    (hs : ∀ c ∈ superclass, (F c).Alike (G c))
    (hm : ∀ m ∈ methods, (F m.function).Alike (G m.function)) (s : Setting) :
    SameText
      (Layout.classDecl s name ((superclass.map F).map fun e => e.expr .access s)
        ((methods.map (·.map F id)).map fun m =>
          s.deeper.line :: Layout.method m.name m.isStatic (m.function.methodTail s.deeper)))
      (Layout.classDecl s name ((superclass.map G).map fun e => e.expr .access s)
        ((methods.map (·.map G id)).map fun m =>
          s.deeper.line :: Layout.method m.name m.isStatic (m.function.methodTail s.deeper))) := by
  rw [Option.map_map, Option.map_map, List.map_map, List.map_map]
  refine .classDecl s name (fun c hc => (hs c hc).expr _ _) fun m hm' => .cons _ ?_
  exact (SameText.refl _).append (.cons _ ((hm m hm').methodTail _))

theorem catch_alike {handler : Option (Catch α String)}
    (h : ∀ c ∈ handler, (F c.body).Alike (G c.body)) (s : Setting) :
    SameText
      (((handler.map (·.map F id)).map fun h =>
        space :: Layout.catchHead h.param ++ h.body.braced s).getD [])
      (((handler.map (·.map G id)).map fun h =>
        space :: Layout.catchHead h.param ++ h.body.braced s).getD []) := by
  rw [Option.map_map, Option.map_map]
  exact .option fun c hc => .cons _ (.append (.refl _) ((h c hc).braced s))

theorem finally_alike {finalizer : Option α} (h : ∀ c ∈ finalizer, (F c).Alike (G c))
    (s : Setting) :
    SameText
      (((finalizer.map F).map fun f => space :: word "finally" :: space :: f.braced s).getD [])
      (((finalizer.map G).map fun f => space :: word "finally" :: space :: f.braced s).getD []) := by
  rw [Option.map_map, Option.map_map]
  exact .option fun c hc => .cons _ (.cons _ (.cons _ ((h c hc).braced s)))

/-- The three parts in the head of a `for`, each of which may be left out. -/
theorem forHead_alike {init test step : Option α} (hi : ∀ c ∈ init, (F c).Alike (G c))
    (ht : ∀ c ∈ test, (F c).Alike (G c)) (hs : ∀ c ∈ step, (F c).Alike (G c)) (s : Setting) :
    SameText
      ((((init.map F).map fun e => e.forLeft .sequence s.inHead).getD []) ++
        punct ";" :: Layout.spaced ((test.map F).map fun e => e.expr .sequence s) ++
        punct ";" :: Layout.spaced ((step.map F).map fun e => e.expr .sequence s))
      ((((init.map G).map fun e => e.forLeft .sequence s.inHead).getD []) ++
        punct ";" :: Layout.spaced ((test.map G).map fun e => e.expr .sequence s) ++
        punct ";" :: Layout.spaced ((step.map G).map fun e => e.expr .sequence s)) := by
  have start : SameText (((init.map F).map fun e => e.forLeft .sequence s.inHead).getD [])
      (((init.map G).map fun e => e.forLeft .sequence s.inHead).getD []) := by
    rw [Option.map_map, Option.map_map]
    exact .option fun c hc => (hi c hc).forLeft _ _
  exact (start.append (.cons _ (Form.spaced_alike ht .sequence s))).append
    (.cons _ (Form.spaced_alike hs .sequence s))

/-- A keyword with its head in parentheses, and the body that it is in front of. -/
theorem headed_alike {ps qs : List Piece} (keyword : String) (h : SameText ps qs) {f g : Form}
    (hb : f.Alike g) (s : Setting) :
    SameText (s.line :: Layout.headed keyword ps ++ f.controlled s)
      (s.line :: Layout.headed keyword qs ++ g.controlled s) :=
  .cons _ (.append (.headed keyword h) (hb.controlled s))

theorem statement_alike (h : ∀ c ∈ n.children, (F c).Alike (G c))
    {other other' : Setting → List Piece} (ho : ∀ s, SameText (other s) (other' s)) (s : Setting)
    (inline : Bool) :
    SameText (statement other (n.map F id) s inline) (statement other' (n.map G id) s inline) := by
  cases n with
  | program body => exact Form.statements_alike h s
  | varDecl kind declarators => exact .cons _ ((declaration_alike h s).append (.refl _))
  | functionDecl name parameters body =>
    exact .cons _ (.function _ _ ((h body (List.mem_cons_self ..)).braced s))
  | classDecl name superclass methods =>
    obtain ⟨hs, hm⟩ := List.forall_mem_append.1 h
    exact .cons _ (class_alike name (fun c hc => hs c (Option.mem_toList.2 hc))
      (fun m hm' => hm m.function (List.mem_map_of_mem hm')) s)
  | returnStmt arg =>
    refine .cons _ (.cons _ (.append (Form.spaced_alike (fun c hc => ?_) _ _) (.refl _)))
    exact h c (Option.mem_toList.2 hc)
  | ifStmt test consequent alternate =>
    obtain ⟨ht, h⟩ := List.forall_mem_cons.1 h
    obtain ⟨hc, ha⟩ := List.forall_mem_cons.1 h
    cases alternate with
    | none => exact (ifHead_alike ht s inline).append (hc.controlled s)
    | some alternate =>
      have halternate := (ha alternate (List.mem_cons_self ..)).alternative s
      refine ((ifHead_alike ht s inline).append (.cons _ (hc.braced s))).append ?_
      exact .cons _ (.cons _ halternate)
  | forStmt init test step body =>
    obtain ⟨hi, h⟩ := List.forall_mem_append.1 h
    obtain ⟨ht, h⟩ := List.forall_mem_append.1 h
    obtain ⟨hs, hb⟩ := List.forall_mem_append.1 h
    have head := forHead_alike (fun c hc => hi c (Option.mem_toList.2 hc))
      (fun c hc => ht c (Option.mem_toList.2 hc)) (fun c hc => hs c (Option.mem_toList.2 hc)) s
    exact headed_alike "for" head (hb body (List.mem_cons_self ..)) s
  | forIn left right body | forOf left right body =>
    obtain ⟨hl, h⟩ := List.forall_mem_cons.1 h
    obtain ⟨hr, hb⟩ := List.forall_mem_cons.1 h
    exact headed_alike "for" (.infixed _ (hl.forLeft _ _) (hr.expr _ _))
      (hb body (List.mem_cons_self ..)) s
  | whileStmt test body =>
    obtain ⟨ht, hb⟩ := List.forall_mem_cons.1 h
    exact headed_alike "while" (ht.expr _ _) (hb body (List.mem_cons_self ..)) s
  | doWhile body test =>
    obtain ⟨hb, ht⟩ := List.forall_mem_cons.1 h
    replace ht := ht test (List.mem_cons_self ..)
    have hkind := hb.kind.eq_iff (m := .block) nofun nofun
    simp only [map, statement, hkind]
    exact .append (.append (.cons _ (.cons _ (hb.controlled s)))
      (.cons _ (.headed "while" (ht.expr _ _)))) (.refl _)
  | switchStmt discriminant cases =>
    obtain ⟨hd, hc⟩ := List.forall_mem_cons.1 h
    exact .cons _ (.append (.headed "switch" (hd.expr _ _))
      (.cons _ ((Form.statements_alike hc _).braces s)))
  | switchCase test consequent =>
    obtain ⟨ht, hc⟩ := List.forall_mem_append.1 h
    cases test with
    | none => exact .cons _ (.cons _ (.cons _ (Form.statements_alike hc _)))
    | some test =>
      exact .cons _ (.cons _ (.cons _ (.append ((ht test (List.mem_cons_self ..)).expr _ _)
        (.cons _ (Form.statements_alike hc _)))))
  | block body => exact .cons _ (blockBody_alike h s)
  | withStmt scope body =>
    obtain ⟨hs, hb⟩ := List.forall_mem_cons.1 h
    exact headed_alike "with" (hs.expr _ _) (hb body (List.mem_cons_self ..)) s
  | throwStmt arg =>
    exact .cons _ (.cons _ (.cons _ (.append ((h arg (List.mem_cons_self ..)).expr _ _) (.refl _))))
  | tryStmt body handler finalizer =>
    obtain ⟨hb, h⟩ := List.forall_mem_cons.1 h
    obtain ⟨hh, hf⟩ := List.forall_mem_append.1 h
    have caught := catch_alike
      (fun c hc => hh c.body (Option.mem_toList.2 (Option.mem_map_of_mem _ hc))) s
    have last := finally_alike (fun c hc => hf c (Option.mem_toList.2 hc)) s
    exact .append (.append (.cons _ (.cons _ (.cons _ (hb.braced s)))) caught) last
  | exprStmt arg => exact .cons _ ((h arg (List.mem_cons_self ..)).exprStatement s)
  | breakStmt | continueStmt | empty => exact .refl _
  | _ => exact .cons _ (ho s)

/-- The kind of what the text of a node begins with. -/
theorem opening_alike (h : ∀ c ∈ n.children, (F c).Alike (G c)) :
    (n.map F id).form.opening.Alike (n.map G id).form.opening := by
  have first (c : α) (hc : c ∈ n.children) : (F c).opening.Alike (G c).opening := (h c hc).opening
  cases n with
  | sequence items =>
    cases items with
    | nil => exact .refl _
    | cons c cs => exact first c (List.mem_cons_self ..)
  | update op leading arg =>
    cases leading with
    | true => exact .refl _
    | false => exact first arg (List.mem_cons_self ..)
  | binary op lhs rhs | logical op lhs rhs | assign op lhs rhs | index lhs rhs
  | conditional lhs consequent alternate | call lhs args | member lhs name =>
    exact first lhs (List.mem_cons_self ..)
  | _ => exact .refl _

/-- The form of a node follows those of its children. -/
theorem form_alike (h : ∀ c ∈ n.children, (F c).Alike (G c)) :
    (n.map F id).form.Alike (n.map G id).form := by
  have kind : (n.map F id).kind = (n.map G id).kind := by rw [kind_map, kind_map]
  have level : (n.map F id).precedence = (n.map G id).precedence := by
    rw [precedence_map, precedence_map]
  have isIn : (n.map F id).isInOperation = (n.map G id).isInOperation := by
    cases n with
    | binary op => cases op <;> rfl
    | _ => rfl
  have isNumber : (n.map F id).isNumber = (n.map G id).isNumber := by
    rw [isNumber_map, isNumber_map]
  have hasCall : (n.map F id).form.hasCall = (n.map G id).form.hasCall := by
    cases n with
    | member base name => exact (h base (List.mem_cons_self ..)).hasCall
    | index base key => exact (h base (List.mem_cons_self ..)).hasCall
    | _ => rfl
  have expr := Form.expr_congr (f := (n.map F id).form) (g := (n.map G id).form) level isIn
    (bare_alike h)
  have base (s : Setting) : SameText ((n.map F id).form.base s) ((n.map G id).form.base s) := by
    unfold Form.base
    rw [show (n.map F id).form.isNumber = (n.map G id).form.isNumber from isNumber]
    exact .ite (expr _ _).parens (expr _ _)
  -- an expression as a statement is printed by its form but for the statement
  have asExpr : Form.Alike { (n.map F id).form with statement := fun _ _ => [] }
      { (n.map G id).form with statement := fun _ _ => [] } :=
    ⟨.inl kind, level, isIn, opening_alike h, hasCall, bare_alike h, base, declaration_alike h,
      methodTail_alike h, blockBody_alike h, fun _ _ => .refl _⟩
  exact { asExpr with statement := statement_alike h asExpr.exprStatement }

end Node

end Graft
