import Graft.Printing.Emitter
import Graft.Proofs.Printing.Division

/-!
# What an emitter puts out

The steps that print a node put out the characters of its layout at the end of the text, and leave
everything else as it was. What they put out depends on the indentation and on whether they are in
the head of a `for`, not on the text in front. There is one lemma for each way of putting steps
together; a node is then read off its own steps.

* `Emit.Writes` - steps that put out a layout and change nothing else
* `Emit.Begins` - steps that put out a statement, on a line of its own or on the one that is there
* `Tree.prints` - the steps that print a tree put out its layout
-/

namespace Graft

open Piece

variable {α τ : Type}

/-! ## Text at the end -/

namespace Emitter

/-- Where the next layout stands. -/
def setting (e : Emitter) : Setting :=
  ⟨e.indent, e.noIn⟩

/-- With a layout at the end of the text. -/
def plus (e : Emitter) (ps : List Piece) : Emitter :=
  { e with output := e.output ++ textOf ps }

theorem plus_nil (e : Emitter) : e.plus [] = e := by
  have : textOf [] = "" := rfl
  simp [plus, this]

theorem plus_append (e : Emitter) (ps qs : List Piece) :
    e.plus (ps ++ qs) = (e.plus ps).plus qs := by
  simp [plus, textOf_append, String.append_assoc]

end Emitter

namespace Emit

variable {p q : Emit} {f g : Setting → List Piece}

/-! ## Steps that write -/

/-- Steps that put out a layout and change nothing else. -/
def Writes (p : Emit) (f : Setting → List Piece) : Prop :=
  ∀ e : Emitter, e.inlineNext = false → p.after e = e.plus (f e.setting)

namespace Writes

theorem congr (h : Writes p f) (hfg : ∀ s, f s = g s) : Writes p g := by
  intro e he
  rw [h e he, hfg]

theorem nothing : Writes (pure ()) fun _ => [] :=
  fun e _ => e.plus_nil.symm

theorem seq (h : Writes p f) (h' : Writes q g) :
    Writes (do p; q) fun s => f s ++ g s := by
  intro e he
  show q.after (p.after e) = _
  rw [h e he, h' (e.plus (f e.setting)) he, Emitter.plus_append]
  rfl

theorem put {text : String} (ps : List Piece) (h : textOf ps = text) :
    Writes (put text) fun _ => ps := by
  intro e _
  subst h
  rfl

theorem lexeme (l : Lexeme) : Writes (Emit.put l.text) fun _ => [.lexeme l] :=
  put _ (textOf_lexeme l)

theorem putLine {text : String} (ps : List Piece) (h : textOf ps = text) :
    Writes (putLine text) fun s => s.line :: ps := by
  intro e _
  subst h
  have split := e.plus_append [e.setting.line] ps
  have line : textOf [e.setting.line] = String.ofList ('\n' :: indentation e.indent) := by
    simp [textOf, charsOf, Setting.line, Emitter.setting, chars]
  rw [List.singleton_append] at split
  rw [split, Emitter.plus, Emitter.plus, line]
  rfl

theorem ite {c : Prop} [Decidable c] (h : Writes p f) (h' : Writes q g) :
    Writes (if c then p else q) fun s => if c then f s else g s := by
  split
  · exact h
  · exact h'

/-- The indentation is afterwards what it was. -/
theorem deeper (h : Writes p f) : Writes (deeper p) fun s => f s.deeper := by
  intro e he
  have inside := h { e with indent := e.indent + 1 } he
  show (fun e : Emitter => { e with indent := e.indent - 1 })
    (p.after { e with indent := e.indent + 1 }) = _
  rw [inside]
  rfl

/-- The flag is afterwards what it was. -/
theorem withNoIn (noIn : Bool) (h : Writes p f) :
    Writes (withNoIn noIn p) fun s => f { s with noIn := noIn } := by
  intro e he
  have inside := h { e with noIn := noIn } he
  show (fun e' : Emitter => { e' with noIn := e.noIn }) (p.after { e with noIn := noIn }) = _
  rw [inside]
  rfl

/-- The space is put where the operand begins: what was put out before it is not touched. -/
theorem apart (sign : String) (h : Writes p f) :
    Writes (apart sign p) fun s =>
      if sign.toList.isPrefixOf (charsOf (f s)) then space :: f s else f s := by
  intro e he
  have chars : (e.output ++ textOf (f e.setting)).toList =
      e.output.toList ++ charsOf (f e.setting) := by
    rw [String.toList_append, textOf, String.toList_ofList]
  have take : (e.output.toList ++ charsOf (f e.setting)).take e.output.length =
      e.output.toList := List.take_left' (String.length_toList ..)
  have drop : (e.output.toList ++ charsOf (f e.setting)).drop e.output.length =
      charsOf (f e.setting) := List.drop_left' (String.length_toList ..)
  show (fun e' : Emitter =>
    if sign.toList.isPrefixOf (e'.output.toList.drop e.output.length) then
      { e' with output := String.ofList (e'.output.toList.take e.output.length ++
          ' ' :: e'.output.toList.drop e.output.length) }
    else e') (p.after e) = _
  rw [h e he]
  simp only [Emitter.plus, chars, take, drop]
  split
  · rw [String.ofList_append, String.ofList_toList]
    rfl
  · rfl

/-! ## Several steps -/

theorem enclosed (opening closing : String) (h : Writes p f) :
    Writes (Emit.enclosed opening p closing) fun s => Piece.enclosed opening (f s) closing :=
  ((lexeme (.punct opening)).seq (h.seq (lexeme (.punct closing)))).congr fun _ => rfl

theorem parens (h : Writes p f) : Writes (Emit.parens p) fun s => Piece.parens (f s) :=
  h.enclosed "(" ")"

theorem parensIf {c : Prop} [Decidable c] (h : Writes p f) :
    Writes (Emit.parensIf c p) fun s => if c then Piece.parens (f s) else f s :=
  h.parens.ite h

theorem infixed {op : String} (sign : Piece) (hop : textOf [sign] = op) (h : Writes p f)
    (h' : Writes q g) :
    Writes (Emit.infixed p op q) fun s => Layout.infixed (f s) sign (g s) :=
  h.seq ((put [space] rfl).seq ((put [sign] hop).seq ((put [space] rfl).seq h')))

theorem braces (h : Writes p f) :
    Writes (Emit.braces p) fun s => Layout.braces s (f s.deeper) :=
  ((put [punct "\x7b"] rfl).seq (h.deeper.seq (putLine [punct "\x7d"] rfl))).congr fun _ => rfl

section Families

variable {P : α → Emit} {F : α → Setting → List Piece}

theorem inTurn {cs : List α} (h : ∀ c ∈ cs, Writes (P c) (F c)) :
    Writes (Emit.inTurn (cs.map P)) fun s => cs.flatMap fun c => F c s := by
  induction cs with
  | nil => exact nothing
  | cons c cs ih =>
    obtain ⟨hc, hcs⟩ := List.forall_mem_cons.1 h
    exact hc.seq (ih hcs)

theorem separated {cs : List α} (h : ∀ c ∈ cs, Writes (P c) (F c)) :
    Writes (Emit.separated (cs.map P)) fun s => commas (cs.map fun c => F c s) := by
  induction cs with
  | nil => exact nothing
  | cons c cs ih =>
    obtain ⟨hc, hcs⟩ := List.forall_mem_cons.1 h
    cases cs with
    | nil => exact hc.congr fun s => by simp [commas]
    | cons d ds =>
      refine (hc.seq ((put [punct ",", space] rfl).seq (ih hcs))).congr fun s => ?_
      simp only [List.map_cons, commas_cons_cons]
      rfl

/-- A part that may be left out. -/
theorem optional {o : Option α} (h : ∀ c ∈ o, Writes (P c) (F c)) :
    Writes (Emit.optional (o.map P)) fun s => (o.map fun c => F c s).getD [] := by
  cases o with
  | none => exact nothing
  | some c => exact h c rfl

theorem spaced {o : Option α} (h : ∀ c ∈ o, Writes (P c) (F c)) :
    Writes (Emit.spaced (o.map P)) fun s => Layout.spaced (o.map fun c => F c s) := by
  cases o with
  | none => exact nothing
  | some c => exact (put [space] rfl).seq (h c rfl)

/-! ## Parts of nodes -/

theorem params (names : List String) : Writes (Emit.params names) fun _ => Piece.params names :=
  (separated fun name _ => lexeme (.word name)).parens

theorem function (name : Option String) (parameters : List String) (h : Writes p f) :
    Writes (Emit.function name parameters p) fun s => Layout.function name parameters (f s) := by
  have rest := (params parameters).seq ((put [space] rfl).seq h)
  cases name with
  | none => exact (lexeme (.word "function")).seq (nothing.seq rest)
  | some name =>
    exact (lexeme (.word "function")).seq
      (((put [space] rfl).seq (lexeme (.word name))).seq rest)

theorem declarator (name : String) {o : Option α} (h : ∀ c ∈ o, Writes (P c) (F c)) :
    Writes (Emit.declarator name (o.map P)) fun s =>
      Layout.declarator name (o.map fun c => F c s) := by
  cases o with
  | none => exact lexeme (.word name)
  | some c => exact infixed (punct "=") rfl (lexeme (.word name)) (h c rfl)

theorem varDecl (kind : VarKind) {cs : List α} (h : ∀ c ∈ cs, Writes (P c) (F c)) :
    Writes (Emit.varDecl kind (cs.map P)) fun s =>
      Layout.varDecl kind (cs.map fun c => F c s) := by
  have all := separated h
  cases cs with
  | nil => exact (lexeme (.word kind.text)).seq nothing
  | cons c cs => exact (lexeme (.word kind.text)).seq ((put [space] rfl).seq all)

theorem object {cs : List α} (h : ∀ c ∈ cs, Writes (P c) (F c)) :
    Writes (Emit.object (cs.map P)) fun s => Layout.object (cs.map fun c => F c s) := by
  have all := separated h
  cases cs with
  | nil => exact put Layout.noBraces rfl
  | cons c cs =>
    refine ((put [punct "\x7b", space] rfl).seq
      (all.seq (put [space, punct "\x7d"] rfl))).congr fun s => ?_
    simp [Layout.object, Piece.enclosed]

/-- A class behind its keyword. -/
theorem classTail {β : Type} {M : β → Emit} {N : β → Setting → List Piece} (name : String)
    {o : Option α} {ms : List β} (h : ∀ c ∈ o, Writes (P c) (F c))
    (hm : ∀ m ∈ ms, Writes (M m) (N m)) :
    Writes (Emit.classTail name (o.map P) (ms.map M)) fun s =>
      (Layout.classDecl s name (o.map fun c => F c s) (ms.map fun m => N m s.deeper)).drop 2 := by
  unfold Emit.classTail
  rw [Option.map_map]
  have heritage := optional fun c hc =>
    (put [space, word "extends", space] rfl).seq (h c hc)
  have body := (inTurn hm).braces
  have named := lexeme (.word name)
  cases ms with
  | nil =>
    have all := named.seq (heritage.seq ((put [space] rfl).seq (put Layout.noBraces rfl)))
    refine all.congr fun s => ?_
    cases o <;> simp [Layout.classDecl, word]
  | cons m ms =>
    refine (named.seq (heritage.seq ((put [space] rfl).seq body))).congr fun s => ?_
    cases o <;> simp [Layout.classDecl, List.flatMap_def, word]

theorem method (name : String) (isStatic : Bool) (h : Writes p f) :
    Writes (Emit.method name isStatic p) fun s => s.line :: Layout.method name isStatic (f s) := by
  cases isStatic with
  | true =>
    exact (putLine [word "static", space] rfl).seq ((lexeme (.word name)).seq h)
  | false => exact (putLine [] rfl).seq ((lexeme (.word name)).seq h)

end Families

theorem key (k : Key String) : Writes (Emit.key k) fun _ => [Layout.key k] := by
  cases k with
  | word name => exact lexeme (.word name)
  | quoted raw => exact lexeme (.quoted raw)
  | number raw => exact lexeme (.number raw)

theorem literal (value : Literal) :
    Writes (Emit.literal value) fun _ => [Layout.literal value] := by
  cases value with
  | number raw => exact lexeme (.number raw)
  | quoted raw => exact lexeme (.quoted raw)
  | bool value => cases value <;> exact put _ rfl
  | null => exact put _ rfl

theorem unary (op : UnaryOp) (h : Writes p f) :
    Writes (Emit.unary op p) fun s => Layout.unary op (f s) := by
  have sign : textOf [punct op.text] = op.text := textOf_lexeme (.punct op.text)
  unfold Emit.unary Layout.unary
  split
  · exact (lexeme (.word op.text)).seq ((put [space] rfl).seq h)
  · refine ((put _ sign).seq (h.apart op.text)).congr fun s => ?_
    split <;> rfl

theorem catchHead (param : Option String) :
    Writes (Emit.catchHead param) fun _ => space :: Layout.catchHead param := by
  cases param with
  | none => exact put _ rfl
  | some param =>
    exact (put [space, word "catch", space, punct "("] rfl).seq
      ((lexeme (.word param)).seq (put [punct ")", space] rfl))

end Writes

/-! ## Steps that begin a statement -/

/-- Steps that put out a layout on a line of its own, or on the line that is there if they were told
to go on; either way this is then settled for what follows. -/
def Begins (p : Emit) (f : Setting → List Piece) : Prop :=
  ∀ e : Emitter, p.after e = { e with inlineNext := false }.plus
    ((if e.inlineNext then [] else [e.setting.line]) ++ f e.setting)

namespace Begins

theorem start {text : String} (ps : List Piece) (h : textOf ps = text) :
    Begins (start text) fun _ => ps := by
  intro e
  cases hinline : e.inlineNext with
  | true =>
    have step : (Emit.start text).after e = (Emit.put text).after { e with inlineNext := false } :=
      congrArg (fun b : Bool => (if b then Emit.put text else Emit.putLine text).after
        { e with inlineNext := false }) hinline
    rw [step, Writes.put ps h _ rfl]
    rfl
  | false =>
    have step : (Emit.start text).after e =
        (Emit.putLine text).after { e with inlineNext := false } :=
      congrArg (fun b : Bool => (if b then Emit.put text else Emit.putLine text).after
        { e with inlineNext := false }) hinline
    rw [step, Writes.putLine ps h _ rfl]
    rfl

theorem congr (h : Begins p f) (hfg : ∀ s, f s = g s) : Begins p g := by
  intro e
  rw [h e, hfg]

theorem seq (h : Begins p f) (h' : Writes q g) : Begins (do p; q) fun s => f s ++ g s := by
  intro e
  show q.after (p.after e) = _
  rw [h e, h' _ rfl, ← Emitter.plus_append, List.append_assoc]
  rfl

theorem headed (keyword : String) (h : Writes p f) :
    Begins (headed keyword p) fun s => Layout.headed keyword (f s) := by
  have front : textOf ([word keyword] ++ [space, punct "("]) = keyword ++ " (" := by
    rw [textOf_append]
    exact congrArg (· ++ " (") (textOf_lexeme (.word keyword))
  exact (start _ front).seq (h.seq (.lexeme (.punct ")")))

/-- A statement on a line of its own. -/
theorem writes (h : Begins p f) : Writes p fun s => s.line :: f s := by
  intro e he
  rw [h e, he]
  obtain ⟨indent, output, inlineNext, noIn⟩ := e
  subst he
  rfl

/-- A statement on the line that is there. -/
theorem goOn (h : Begins p f) : Writes (do Emit.goOn; p) f := by
  intro e he
  show p.after { e with inlineNext := true } = _
  rw [h { e with inlineNext := true }]
  obtain ⟨indent, output, inlineNext, noIn⟩ := e
  subst he
  rfl

end Begins

/-- Steps that put out a statement whose layout begins with the start of its line. -/
def States (p : Emit) (f : Setting → List Piece) : Prop :=
  ∃ g, Begins p g ∧ ∀ s : Setting, f s = s.line :: g s

namespace States

theorem writes (h : States p f) : Writes p f := by
  obtain ⟨g, hbegins, hf⟩ := h
  exact hbegins.writes.congr fun s => (hf s).symm

theorem begins (h : States p f) : Begins p fun s => (f s).tail := by
  obtain ⟨g, hbegins, hf⟩ := h
  exact hbegins.congr fun s => by rw [hf s, List.tail_cons]

end States

end Emit

/-! ## Printers -/

open Emit

namespace Printer

/-- Steps that put out the layouts of a form, in all its uses. -/
structure Prints (p : Printer) (f : Form) : Prop where
  kind : p.kind = f.kind
  level : p.level = f.level
  isIn : p.isIn = f.isIn
  isNumber : p.isNumber = f.isNumber
  opening : p.opening = f.opening
  hasCall : p.hasCall = f.hasCall
  bare : Writes p.bare f.bare
  declaration : Writes p.declaration f.declaration
  methodTail : Writes p.methodTail f.methodTail
  block : Writes p.block f.block
  statement : Writes p.statement fun s => f.statement s false
  /-- A whole program has no line of its own. -/
  states : f.kind ≠ .program → States p.statement fun s => f.statement s false
  /-- The only statement that goes on a line is an `if`. -/
  goesOn : f.kind = .ifStmt → ∀ s, f.statement s false = s.line :: f.statement s true

theorem expr_writes {p : Printer} {f : Form} (hlevel : p.level = f.level) (hin : p.isIn = f.isIn)
    (h : Writes p.bare f.bare) (level : Precedence) :
    Writes (p.expr level) fun s => f.expr level s := by
  intro e he
  show (if p.level < level || (e.setting.noIn && p.isIn) then
    Emit.parens (withNoIn false p.bare) else p.bare).after e = e.plus (f.expr level e.setting)
  rw [hlevel, hin, Form.expr]
  split
  · exact (h.withNoIn false).parens e he
  · exact h e he

theorem exprStatement_writes {p : Printer} {f : Form} (hopening : p.opening = f.opening)
    (h : Writes (p.expr .sequence) fun s => f.expr .sequence s) :
    Writes p.exprStatement fun s => f.exprStatement s := by
  unfold exprStatement
  rw [hopening]
  exact h.parensIf.seq (.lexeme (.punct ";"))

namespace Prints

variable {p : Printer} {f : Form}

theorem expr (h : p.Prints f) (level : Precedence) :
    Writes (p.expr level) fun s => f.expr level s :=
  expr_writes h.level h.isIn h.bare level

theorem exprStatement (h : p.Prints f) : Writes p.exprStatement fun s => f.exprStatement s :=
  exprStatement_writes h.opening (h.expr .sequence)

theorem braced (h : p.Prints f) : Writes p.braced fun s => f.braced s := by
  unfold Printer.braced
  rw [h.kind]
  exact h.block.ite h.statement.braces

theorem controlled (h : p.Prints f) : Writes p.controlled fun s => f.controlled s := by
  unfold Printer.controlled
  rw [h.kind]
  exact ((Writes.put [space] rfl).seq h.block).ite h.statement.deeper

theorem alternative (h : p.Prints f) : Writes p.alternative fun s => f.alternative s := by
  unfold Printer.alternative Form.alternative
  rw [h.kind]
  split
  · rename_i hif
    have begins := (h.states (by rw [hif]; nofun)).begins
    refine (Writes.put [space] rfl).seq (begins.goOn.congr fun s => ?_)
    rw [h.goesOn hif, List.tail_cons]
  · exact h.controlled

theorem forLeft (h : p.Prints f) (level : Precedence) :
    Writes (p.forLeft level) fun s => f.forLeft level s := by
  unfold Printer.forLeft
  rw [h.kind]
  exact h.declaration.ite (h.expr level)

/-- The condition of a `do` loop goes on the line on which a block ends. -/
theorem goesOn_while (h : p.Prints f) :
    Writes (if p.kind = .block then Emit.put " while (" else putLine "while (") fun s =>
      [if f.kind = .block then space else s.line, word "while", space, punct "("] := by
  rw [h.kind]
  refine ((Writes.put [space, word "while", space, punct "("] rfl).ite
    (Writes.putLine [word "while", space, punct "("] rfl)).congr fun s => ?_
  split <;> rfl

theorem base (h : p.Prints f) : Writes p.base fun s => f.base s := by
  unfold Printer.base
  rw [h.isNumber]
  exact (h.expr .sequence).parens.ite (h.expr .access)

theorem constructed (h : p.Prints f) : Writes p.constructed fun s => f.constructed s := by
  unfold Printer.constructed
  rw [h.level, h.hasCall]
  exact (h.expr .sequence).parens.ite (h.expr .access)

section Families

variable {cs : List α} {P : α → Printer} {F : α → Form}

theorem items (h : ∀ c ∈ cs, (P c).Prints (F c)) :
    Writes (Printer.items (cs.map P)) fun s => Form.items (cs.map F) s := by
  unfold Printer.items
  rw [List.map_map]
  refine (Writes.separated fun c hc => (h c hc).expr .assignment).congr fun s => ?_
  rw [Form.items, List.map_map]
  rfl

theorem statements (h : ∀ c ∈ cs, (P c).Prints (F c)) :
    Writes (Printer.statements (cs.map P)) fun s => Form.statements (cs.map F) s := by
  unfold Printer.statements
  rw [List.map_map]
  refine (Writes.inTurn fun c hc => (h c hc).statement).congr fun s => ?_
  rw [Form.statements, List.flatMap_map]

theorem spaced {o : Option α} (h : ∀ c ∈ o, (P c).Prints (F c)) (level : Precedence) :
    Writes (Emit.spaced ((o.map P).map fun e => e.expr level)) fun s =>
      Layout.spaced ((o.map F).map fun e => e.expr level s) := by
  rw [Option.map_map]
  refine (Writes.spaced fun c hc => (h c hc).expr level).congr fun s => ?_
  rw [Option.map_map]
  rfl

end Families

end Prints

end Printer

/-! ## What a layout depends on -/

namespace Node

variable {β ν μ : Type}

theorem isInOperation_map (f : α → β) (g : ν → μ) (n : Node α ν) :
    (n.map f g).isInOperation = n.isInOperation := by
  cases n with
  | binary op => cases op <;> rfl
  | _ => rfl

theorem leftChild?_map (f : α → β) (g : ν → μ) (n : Node α ν) :
    (n.map f g).leftChild? = n.leftChild?.map f := by
  cases n with
  | sequence items => exact List.head?_map
  | update op leading arg => cases leading <;> rfl
  | _ => rfl

theorem mem_children_of_leftChild? {n : Node α ν} {c : α} (h : n.leftChild? = some c) :
    c ∈ n.children := by
  cases n with
  | sequence items => exact List.mem_of_head? h
  | update op leading arg =>
    cases leading with
    | true => cases h
    | false => cases h; exact List.mem_cons_self ..
  | binary | logical | assign | conditional | call | member | index =>
    cases h; exact List.mem_cons_self ..
  | _ => cases h

end Node

/-! ## Nodes -/

namespace Node

variable {n : Node α String} {P : α → Printer} {F : α → Form}

theorem bare_writes (h : ∀ c ∈ n.children, (P c).Prints (F c)) :
    Writes (n.map P id).emitBare (n.map F id).bare := by
  cases n with
  | ident name => exact .lexeme (.word name)
  | literal value => exact .literal value
  | thisExpr => exact .lexeme (.word "this")
  | array items => exact (Printer.Prints.items h).enclosed "[" "]"
  | object properties =>
    show Writes (Emit.object (List.map _ (properties.map (·.map P id)))) fun s =>
      Layout.object (List.map _ (properties.map (·.map F id)))
    simp only [List.map_map]
    refine Writes.object fun p hp => ?_
    have value := (h p.value (List.mem_map_of_mem hp)).expr .assignment
    obtain ⟨key, value'⟩ := p
    cases key <;> exact (Writes.key _).seq ((Writes.put [punct ":", space] rfl).seq value)
  | functionExpr name parameters body =>
    exact .function _ _ (h body (List.mem_cons_self ..)).braced
  | arrow parameters body isExpression =>
    have hb := h body (List.mem_cons_self ..)
    cases isExpression with
    | false => exact (Writes.params _).infixed (punct "=>") rfl hb.braced
    | true =>
      refine (Writes.params _).infixed (punct "=>") rfl ?_
      simp only [hb.opening]
      exact (hb.expr _).parens.ite (hb.expr _)
  | sequence items => exact Printer.Prints.items h
  | unary op arg => exact .unary op ((h arg (List.mem_cons_self ..)).expr _)
  | update op leading arg =>
    have harg := (h arg (List.mem_cons_self ..)).expr .access
    have sign := Writes.lexeme (.punct op.text)
    cases leading with
    | true => exact sign.seq harg
    | false => exact harg.seq sign
  | binary op lhs rhs =>
    obtain ⟨hl, hr⟩ := List.forall_mem_cons.1 h
    have sign : textOf [Layout.binaryOp op] = op.text := by
      cases op <;> exact textOf_lexeme _
    exact (hl.expr _).infixed _ sign ((hr rhs (List.mem_cons_self ..)).expr _)
  | logical op lhs rhs | assign op lhs rhs =>
    obtain ⟨hl, hr⟩ := List.forall_mem_cons.1 h
    exact (hl.expr _).infixed (punct op.text) (textOf_lexeme _)
      ((hr rhs (List.mem_cons_self ..)).expr _)
  | conditional test consequent alternate =>
    obtain ⟨ht, h⟩ := List.forall_mem_cons.1 h
    obtain ⟨hc, ha⟩ := List.forall_mem_cons.1 h
    exact (ht.expr _).infixed (punct "?") rfl
      ((hc.expr _).infixed (punct ":") rfl ((ha alternate (List.mem_cons_self ..)).expr _))
  | call callee args =>
    obtain ⟨hc, ha⟩ := List.forall_mem_cons.1 h
    exact (hc.expr _).seq (Printer.Prints.items ha).parens
  | newExpr callee args =>
    obtain ⟨hc, ha⟩ := List.forall_mem_cons.1 h
    exact (Writes.put [word "new", space] rfl).seq
      (hc.constructed.seq (Printer.Prints.items ha).parens)
  | member base name =>
    exact (h base (List.mem_cons_self ..)).base.seq
      ((Writes.put [punct "."] rfl).seq (.lexeme (.word name)))
  | index base key =>
    obtain ⟨hb, hk⟩ := List.forall_mem_cons.1 h
    exact hb.base.seq (((hk key (List.mem_cons_self ..)).expr _).enclosed "[" "]")
  | _ => exact .nothing

theorem declaration_writes (h : ∀ c ∈ n.children, (P c).Prints (F c)) :
    Writes (n.map P id).emitDeclaration (n.map F id).declaration := by
  cases n with
  | varDecl kind declarators =>
    show Writes (Emit.varDecl kind (List.map _ (declarators.map (·.map P id)))) fun s =>
      Layout.varDecl kind (List.map _ (declarators.map (·.map F id)))
    simp only [List.map_map]
    refine Writes.varDecl kind fun d hd => ?_
    simp only [Function.comp_apply, Declarator.map, Option.map_map]
    exact Writes.declarator _ fun c hc =>
      (h c (List.mem_filterMap.2 ⟨d, hd, hc⟩)).expr .assignment
  | _ => exact .nothing

theorem methodTail_writes (h : ∀ c ∈ n.children, (P c).Prints (F c)) :
    Writes (n.map P id).emitMethodTail (n.map F id).methodTail := by
  cases n with
  | functionExpr name parameters body =>
    exact (Writes.params _).seq
      ((Writes.put [space] rfl).seq (h body (List.mem_cons_self ..)).braced)
  | _ => exact .nothing

theorem block_writes (h : ∀ c ∈ n.children, (P c).Prints (F c)) :
    Writes (n.map P id).emitBlock (n.map F id).blockBody := by
  cases n with
  | block body =>
    cases body with
    | nil => exact .put Layout.noBraces rfl
    | cons c cs => exact (Printer.Prints.statements h).braces
  | _ => exact .nothing

/-- What stands between the parentheses of a `for` with semicolons. -/
theorem forHead_writes {init test step : Option α}
    (hi : ∀ c ∈ init, (P c).Prints (F c)) (ht : ∀ c ∈ test, (P c).Prints (F c))
    (hs : ∀ c ∈ step, (P c).Prints (F c)) :
    Writes (emitForHead (init.map P) (test.map P) (step.map P)) fun s =>
      (((init.map F).map fun e => e.forLeft .sequence s.inHead).getD []) ++
        punct ";" :: Layout.spaced ((test.map F).map fun e => e.expr .sequence s) ++
        punct ";" :: Layout.spaced ((step.map F).map fun e => e.expr .sequence s) := by
  unfold emitForHead
  rw [Option.map_map]
  have start := Writes.optional fun c hc => ((hi c hc).forLeft .sequence).withNoIn true
  have semicolon := Writes.lexeme (.punct ";")
  have rest := (semicolon.seq (Printer.Prints.spaced ht .sequence)).seq
    (semicolon.seq (Printer.Prints.spaced hs .sequence))
  refine (start.seq rest).congr fun s => ?_
  simp [Function.comp_def, Setting.inHead, punct]

/-- A class behind its keyword. -/
theorem class_writes (name : String) {superclass : Option α} {methods : List (Method α String)}
    (hs : ∀ c ∈ superclass, (P c).Prints (F c))
    (hm : ∀ m ∈ methods, (P m.function).Prints (F m.function)) :
    Writes (Emit.classTail (id name) ((superclass.map P).map fun p => p.expr .access)
        ((methods.map (·.map P id)).map fun m =>
          Emit.method m.name m.isStatic m.function.methodTail)) fun s =>
      (Layout.classDecl s (id name) ((superclass.map F).map fun e => e.expr .access s)
        ((methods.map (·.map F id)).map fun m =>
          s.deeper.line :: Layout.method m.name m.isStatic
            (m.function.methodTail s.deeper))).drop 2 := by
  simp only [Option.map_map, List.map_map, Function.comp_def, Method.map, id_eq]
  have extended (c : α) (hc : c ∈ superclass) := (hs c hc).expr .access
  have printed (m : Method α String) (h : m ∈ methods) :=
    (hm m h).methodTail.method m.name m.isStatic
  have all := Writes.classTail name extended printed
  exact all

theorem catch_writes {handler : Option (Catch α String)}
    (h : ∀ c ∈ handler, (P c.body).Prints (F c.body)) :
    Writes (Emit.optional ((handler.map (·.map P id)).map fun h => do
        Emit.catchHead h.param
        h.body.braced)) fun s =>
      ((handler.map (·.map F id)).map fun h =>
        space :: Layout.catchHead h.param ++ h.body.braced s).getD [] := by
  simp only [Option.map_map]
  have caught (c : Catch α String) (hc : c ∈ handler) :=
    (Writes.catchHead (c.param.map id)).seq (h c hc).braced
  have all := Writes.optional caught
  exact all

theorem finally_writes {finalizer : Option α} (h : ∀ c ∈ finalizer, (P c).Prints (F c)) :
    Writes (Emit.optional ((finalizer.map P).map fun p => do
        Emit.put " finally "
        p.braced)) fun s =>
      ((finalizer.map F).map fun f => space :: word "finally" :: space :: f.braced s).getD [] := by
  simp only [Option.map_map]
  have last (c : α) (hc : c ∈ finalizer) :=
    (Writes.put [space, word "finally", space] rfl).seq (h c hc).braced
  have all := Writes.optional last
  exact all

/-- A statement begins with the start of its line, a whole program apart. -/
theorem statement_states (h : ∀ c ∈ n.children, (P c).Prints (F c)) (hn : n.kind ≠ .program)
    {p : Emit} {other : Setting → List Piece} (ho : Writes p other) :
    States (emitStatement p (n.map P id)) fun s => statement other (n.map F id) s false := by
  have line : Begins (start "") fun _ => [] := .start [] rfl
  have semicolon := Writes.lexeme (.punct ";")
  cases n with
  | program body => exact absurd rfl hn
  | varDecl kind declarators =>
    exact ⟨_, line.seq ((declaration_writes h).seq semicolon), fun _ => rfl⟩
  | functionDecl name parameters body =>
    exact ⟨_, line.seq (.function _ _ (h body (List.mem_cons_self ..)).braced), fun _ => rfl⟩
  | classDecl name superclass methods =>
    obtain ⟨hs, hm⟩ := List.forall_mem_append.1 h
    have tail := class_writes name (fun c hc => hs c (Option.mem_toList.2 hc)) fun m hm' =>
      hm m.function (List.mem_map_of_mem hm')
    exact ⟨_, (Begins.start [word "class", space] rfl).seq tail, fun _ => rfl⟩
  | returnStmt arg =>
    have harg := Printer.Prints.spaced (fun c hc => h c (Option.mem_toList.2 hc)) .sequence
    exact ⟨_, (Begins.start [word "return"] rfl).seq (harg.seq semicolon), fun _ => rfl⟩
  | ifStmt test consequent alternate =>
    obtain ⟨ht, h⟩ := List.forall_mem_cons.1 h
    obtain ⟨hc, ha⟩ := List.forall_mem_cons.1 h
    have head := Begins.headed "if" (ht.expr .sequence)
    cases alternate with
    | none => exact ⟨_, head.seq hc.controlled, fun _ => rfl⟩
    | some alternate =>
      have halternate := (ha alternate (List.mem_cons_self ..)).alternative
      refine ⟨_, head.seq ((Writes.put [space] rfl).seq (hc.braced.seq
        ((Writes.put [space, word "else"] rfl).seq halternate))), fun s => ?_⟩
      simp [Layout.headed, map, statement, ifHead]
  | forStmt init test step body =>
    obtain ⟨hi, h⟩ := List.forall_mem_append.1 h
    obtain ⟨ht, h⟩ := List.forall_mem_append.1 h
    obtain ⟨hs, hb⟩ := List.forall_mem_append.1 h
    have head := forHead_writes (fun c hc => hi c (Option.mem_toList.2 hc))
      (fun c hc => ht c (Option.mem_toList.2 hc)) fun c hc => hs c (Option.mem_toList.2 hc)
    exact ⟨_, (Begins.headed "for" head).seq (hb body (List.mem_cons_self ..)).controlled,
      fun _ => rfl⟩
  | forIn left right body =>
    obtain ⟨hl, h⟩ := List.forall_mem_cons.1 h
    obtain ⟨hr, hb⟩ := List.forall_mem_cons.1 h
    have head := (hl.forLeft .access).infixed (word "in") rfl (hr.expr .sequence)
    exact ⟨_, (Begins.headed "for" head).seq (hb body (List.mem_cons_self ..)).controlled,
      fun _ => rfl⟩
  | forOf left right body =>
    obtain ⟨hl, h⟩ := List.forall_mem_cons.1 h
    obtain ⟨hr, hb⟩ := List.forall_mem_cons.1 h
    have head := (hl.forLeft .access).infixed (word "of") rfl (hr.expr .assignment)
    exact ⟨_, (Begins.headed "for" head).seq (hb body (List.mem_cons_self ..)).controlled,
      fun _ => rfl⟩
  | whileStmt test body =>
    obtain ⟨ht, hb⟩ := List.forall_mem_cons.1 h
    exact ⟨_, (Begins.headed "while" (ht.expr _)).seq (hb body (List.mem_cons_self ..)).controlled,
      fun _ => rfl⟩
  | doWhile body test =>
    obtain ⟨hb, ht⟩ := List.forall_mem_cons.1 h
    have tail := ((ht test (List.mem_cons_self ..)).expr .sequence).seq
      (Writes.put [punct ")", punct ";"] rfl)
    refine ⟨_, (Begins.start [word "do"] rfl).seq (hb.controlled.seq (hb.goesOn_while.seq tail)),
      fun s => ?_⟩
    simp [statement, map, Layout.headed, Piece.parens, Piece.enclosed]
  | switchStmt discriminant cases =>
    obtain ⟨hd, hc⟩ := List.forall_mem_cons.1 h
    have body := (Writes.put [space] rfl).seq (Printer.Prints.statements hc).braces
    exact ⟨_, (Begins.headed "switch" (hd.expr _)).seq body, fun _ => rfl⟩
  | switchCase test consequent =>
    obtain ⟨ht, hc⟩ := List.forall_mem_append.1 h
    have body := (Printer.Prints.statements hc).deeper
    cases test with
    | none => exact ⟨_, (Begins.start [word "default", punct ":"] rfl).seq body, fun _ => rfl⟩
    | some test =>
      have label := (ht test (List.mem_cons_self ..)).expr .sequence
      exact ⟨_, (Begins.start [word "case", space] rfl).seq
        (label.seq ((Writes.lexeme (.punct ":")).seq body)), fun _ => rfl⟩
  | block body => exact ⟨_, line.seq (block_writes h), fun _ => rfl⟩
  | withStmt scope body =>
    obtain ⟨hs, hb⟩ := List.forall_mem_cons.1 h
    exact ⟨_, (Begins.headed "with" (hs.expr _)).seq (hb body (List.mem_cons_self ..)).controlled,
      fun _ => rfl⟩
  | breakStmt => exact ⟨_, .start [word "break", punct ";"] rfl, fun _ => rfl⟩
  | continueStmt => exact ⟨_, .start [word "continue", punct ";"] rfl, fun _ => rfl⟩
  | throwStmt arg =>
    have harg := (h arg (List.mem_cons_self ..)).expr .sequence
    exact ⟨_, (Begins.start [word "throw", space] rfl).seq (harg.seq semicolon), fun _ => rfl⟩
  | tryStmt body handler finalizer =>
    obtain ⟨hb, h⟩ := List.forall_mem_cons.1 h
    obtain ⟨hh, hf⟩ := List.forall_mem_append.1 h
    have caught := catch_writes fun c hc =>
      hh c.body (Option.mem_toList.2 (Option.mem_map_of_mem _ hc))
    have last := finally_writes fun c hc => hf c (Option.mem_toList.2 hc)
    refine ⟨_, (Begins.start [word "try", space] rfl).seq (hb.braced.seq (caught.seq last)),
      fun s => ?_⟩
    simp [statement, map]
  | exprStmt arg =>
    exact ⟨_, line.seq (h arg (List.mem_cons_self ..)).exprStatement, fun _ => rfl⟩
  | empty => exact ⟨_, .start [punct ";"] rfl, fun _ => rfl⟩
  | _ => exact ⟨_, line.seq ho, fun _ => rfl⟩

/-- The steps of a node follow those of its children. -/
theorem printer_prints (h : ∀ c ∈ n.children, (P c).Prints (F c)) :
    (n.map P id).printer.Prints (n.map F id).form := by
  have kind : (n.map P id).kind = (n.map F id).kind := by rw [kind_map, kind_map]
  have level : (n.map P id).precedence = (n.map F id).precedence := by
    rw [precedence_map, precedence_map]
  have isIn : (n.map P id).isInOperation = (n.map F id).isInOperation := by
    rw [isInOperation_map, isInOperation_map]
  have isNumber : (n.map P id).isNumber = (n.map F id).isNumber := by
    rw [isNumber_map, isNumber_map]
  have opening : (n.map P id).printer.opening = (n.map F id).form.opening := by
    show ((n.map P id).leftChild?.map (·.opening)).getD (n.map P id).kind =
      ((n.map F id).leftChild?.map (·.opening)).getD (n.map F id).kind
    rw [leftChild?_map, leftChild?_map, kind, Option.map_map, Option.map_map]
    cases hleft : n.leftChild? with
    | none => rfl
    | some c => exact (h c (mem_children_of_leftChild? hleft)).opening
  have hasCall : (n.map P id).printer.hasCall = (n.map F id).form.hasCall := by
    cases n with
    | member base name | index base key => exact (h base (List.mem_cons_self ..)).hasCall
    | _ => rfl
  have other := Printer.exprStatement_writes (p := (n.map P id).printer) (f := (n.map F id).form)
    opening (Printer.expr_writes level isIn (bare_writes h) .sequence)
  have states (hn : n.kind ≠ .program) := statement_states h hn other
  have statement : Writes (n.map P id).printer.statement fun s =>
      (n.map F id).form.statement s false := by
    by_cases hn : n.kind = .program
    · cases n with
      | program body => exact Printer.Prints.statements h
      | _ => cases hn
    · exact (states hn).writes
  refine ⟨kind, level, isIn, isNumber, opening, hasCall, bare_writes h, declaration_writes h,
    methodTail_writes h, block_writes h, statement, fun hn => states ?_, fun hif s => ?_⟩
  · rwa [← kind_map F id n]
  · replace hif : n.kind = .ifStmt := (kind_map F id n).symm.trans hif
    cases n with
    | ifStmt test consequent alternate => cases alternate <;> rfl
    | _ => cases hif

end Node

/-! ## Trees -/

/-- The steps that print a tree put out its layout. -/
theorem Tree.prints (t : Tree τ) : t.printer.Prints t.form := by
  induction t using induct with
  | step t ih =>
    obtain ⟨tag, n⟩ := t
    rw [printer_mk, form_mk]
    exact Node.printer_prints ih

end Graft
