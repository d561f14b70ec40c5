import Graft.Proofs.Building.Expression

/-!
# Statements, built and read

Every rule for statements takes the same steps on both sides, and so does the whole grammar: the
rules of a depth, wherever fewer tokens are ahead.

* `mirrors_statement` - the rule that chooses by the first word
* `mirrored_step` - one more level of nesting
* `mirrored_rules` - the rules of every depth
-/

namespace Graft

namespace Building

open Reading (of)

variable {ts : Tokens} {noIn fresh : Bool} {most : Nat} {pre : Builder → Prop}
  {inner' : BuildRules} {inner : Rules}

/-! ## Ends of statements -/

theorem mirrors_atStatementEnd :
    Mirrors ts noIn most fresh pre atStatementEnd Grammar.atStatementEnd never Same := by
  refine (mirrors_isPunct _).skip fun _ => (mirrors_isPunct _).skip fun _ => ?_
  refine mirrors_atEnd.skip fun _ => mirrors_newlineAhead.skip fun _ => ?_
  exact .pure rfl fun _ => ⟨rfl, rfl⟩

theorem mirrors_semicolon :
    Mirrors ts noIn most fresh pre semicolon Grammar.semicolon never Same := by
  refine (mirrors_eatPunct _).eaten (.pure rfl fun _ => ⟨rfl, rfl⟩) ?_
  refine mirrors_atStatementEnd.skip fun _ => .ite (fun _ => ?_) fun _ => mirrors_refuse _
  exact .pure rfl fun _ => ⟨rfl, rfl⟩

theorem mirrors_parenthesized (h : Mirrored ts most inner' inner) :
    Mirrors ts noIn most false pre (parenthesized inner') (Grammar.parenthesized inner) always
      Plants := by
  refine (mirrors_expectPunct _).skip fun _ => ?_
  refine (h.expression false).allowed.bind fun e e' => (mirrors_expectPunct _).skip fun _ => ?_
  exact .pure rfl fun s _ he => he

/-! ## Blocks and declarations -/

theorem mirrors_blockItem (h : Mirrored ts most inner' inner) :
    Mirrors ts false most false Anywhere (blockItem inner') (Grammar.blockItem inner) Option.isSome
      (Optional Plants) := by
  refine (mirrors_isPunct _).skip fun _ => .ite (fun _ => .pure rfl .missing) fun _ => ?_
  refine mirrors_atEnd.skip fun _ => .check fun _ => ?_
  exact h.statement.bind fun x y => .pure rfl fun s _ hx => .found hx

theorem mirrors_block (h : Mirrored ts most inner' inner) :
    Mirrors ts false most true Anywhere (block inner') (Grammar.block inner) always Plants := by
  refine (mirrors_expectPunct _).skip fun _ => ?_
  refine (mirrors_many (mirrors_blockItem h)).bind fun body body' => ?_
  refine mirrors_discard_next.skip fun _ => mirrors_store rfl fun s s₀ hb => plants_of ?_
  simp only [Node.traverse, run_bind, run_pure, hb]

theorem mirrors_varKind :
    Mirrors ts noIn most fresh pre varKind Grammar.varKind always Same := by
  refine .look fun found => ?_
  rcases found with _ | w | _ | _ | _
  case some.word =>
    dsimp only
    rcases VarKind.ofText? w with _ | kind
    · exact mirrors_refuse _
    · exact .takeFront (.pure rfl fun _ => ⟨rfl, rfl⟩)
  all_goals exact mirrors_refuse _

/-- What is planted for a declared name. -/
abbrev DeclaratorPlants : Declarator Reading String → Declarator NodeId Sym → Script → Script →
    Prop :=
  Via (Declarator.traverse Script.plant Script.intern)

theorem mirrors_declarator (h : Mirrored ts most inner' inner) (name : String) (name' : Sym) :
    Mirrors ts noIn most false pre (declarator inner' name') (Grammar.declarator inner noIn name)
      never fun d d' s₁ s' => ∀ s, Via Script.intern name name' s s₁ →
        DeclaratorPlants d d' s s' := by
  refine (mirrors_eatPunct _).eaten ?_ (.pure rfl fun s s₀ hn => ?_)
  · refine .bind (h.assignment noIn) fun value value' => .pure rfl fun s s₁ hv s₀ hn => ?_
    have hi := (Optional.found hv).via
    simp only [DeclaratorPlants, Via, Declarator.traverse, run_bind, run_pure, hn, hi]
  · simp only [DeclaratorPlants, Via, Declarator.traverse, Option.mapM_none, run_bind, run_pure, hn]

theorem mirrors_declaredName (h : Mirrored ts most inner' inner) :
    Mirrors ts false most true Anywhere (declaredName inner') (Grammar.declaredName inner) always
      DeclaratorPlants := by
  refine (mirrors_isPunct _).skip fun _ => (mirrors_isPunct _).skip fun _ => .guard ?_
  refine mirrors_identifier.bind fun name name' => ?_
  exact (mirrors_declarator h name name').here

theorem mirrors_furtherItem {α β : Type} {plan : α → StateM Script β} {item' : Build β}
    {item : Read α} (h : Mirrors ts noIn most false Anywhere item' item always (Via plan)) :
    Mirrors ts noIn most false Anywhere (furtherItem item') (Grammar.furtherItem item)
      Option.isSome (Optional (Via plan)) := by
  refine (mirrors_eatPunct _).eaten ?_ (.pure rfl .missing)
  exact h.bind fun x y => .pure rfl fun s s₀ hx => .found hx

theorem mirrors_varDecl (h : Mirrored ts most inner' inner) :
    Mirrors ts false most true Anywhere (varDecl inner') (Grammar.varDecl inner) always
      Plants := by
  refine mirrors_varKind.skip fun kind => ?_
  refine .bind (mirrors_declaredName h).behind fun first first' => ?_
  refine (mirrors_many (mirrors_furtherItem (mirrors_declaredName h).behind)).bind ?_
  refine fun rest rest' => mirrors_store rfl fun s s₁ hr s₀ hf => plants_of ?_
  have all := via_cons hf hr
  simp only [Node.traverse, run_bind, run_pure, all]

theorem mirrors_functionDecl (h : Mirrored ts most inner' inner) :
    Mirrors ts false most true Anywhere (functionDecl inner') (Grammar.functionDecl inner) always
      Plants := by
  refine (mirrors_expectWord _).skip fun _ => (mirrors_isPunct _).skip fun _ => .guard ?_
  refine mirrors_identifier.bind fun name name' => ?_
  refine mirrors_function h fun params params' body body' => mirrors_store rfl ?_
  refine fun s s₁ s₂ hp hb s₀ hn => plants_of ?_
  simp only [Node.traverse, run_bind, run_pure, hn, hp, hb]

/-- What is planted for a method. -/
abbrev MethodPlants : Method Reading String → Method NodeId Sym → Script → Script → Prop :=
  Via (Method.traverse Script.plant Script.intern)

theorem mirrors_method (h : Mirrored ts most inner' inner) :
    Mirrors ts false most true Anywhere (method inner') (Grammar.method inner) always
      MethodPlants := by
  have rest : ∀ isStatic : Bool, Mirrors ts false most true Anywhere
      (do
        if ← atAccessor then Build.unsupported .accessor
        let name ← propertyName
        return ⟨name, isStatic, ← bareFunction inner'⟩)
      (do
        if ← Grammar.atAccessor then Read.unsupported .accessor
        let name ← Grammar.propertyName
        return ⟨name, isStatic, ← Grammar.bareFunction inner⟩) always MethodPlants := by
    refine fun isStatic => mirrors_atAccessor.skip fun _ => .guard ?_
    refine mirrors_propertyName.bind fun name name' => ?_
    refine (mirrors_bareFunction h).bind fun f f' => .pure rfl fun s s₁ hf s₀ hn => ?_
    simp only [MethodPlants, Via, Method.traverse, run_bind, run_pure, hn, hf]
  refine (mirrors_isWord _).skip fun _ => mirrors_second?.skip fun _ => ?_
  refine .ite (fun _ => ?_) fun _ => ?_
  · exact mirrors_discard_next.skip fun _ => rest _
  · exact rest _

theorem mirrors_classItem (h : Mirrored ts most inner' inner) :
    Mirrors ts false most false Anywhere (classItem inner') (Grammar.classItem inner) Option.isSome
      (Optional (Via (Option.mapM (Method.traverse Script.plant Script.intern)))) := by
  refine (mirrors_eatPunct _).eaten (.pure rfl .missing) ?_
  refine (mirrors_eatPunct _).eaten (.pure rfl fun s => .found rfl) ?_
  refine .bind (mirrors_method h).behind fun m m' => .pure rfl fun s s₀ hm => ?_
  exact .found (Optional.found hm).via

/-- What is planted of items that may be missing. -/
theorem via_filterMap {α β : Type} {plan : α → StateM Script β} {xs : List (Option α)}
    {ys : List (Option β)} {s s' : Script} (h : Via (List.mapM (Option.mapM plan)) xs ys s s') :
    Via (List.mapM plan) (xs.filterMap id) (ys.filterMap id) s s' := by
  induction xs generalizing ys s with
  | nil =>
    obtain ⟨rfl, rfl⟩ := nil_of_via h
    exact via_nil
  | cons x xs ih =>
    obtain ⟨y, zs, s₁, rfl, hx, h⟩ := exists_of_via_cons h
    cases x with
    | none =>
      cases (show ((none : Option β), s) = (y, s₁) from hx)
      have below := ih h
      exact below
    | some x =>
      obtain ⟨⟨⟩, rfl⟩ : some _ = y ∧ _ = s₁ := Prod.mk.inj hx
      exact via_cons rfl (ih h)

theorem mirrors_classDecl (h : Mirrored ts most inner' inner) :
    Mirrors ts false most true Anywhere (classDecl inner') (Grammar.classDecl inner) always
      Plants := by
  have rest : ∀ name name' (superclass : Option Reading) (superclass' : Option NodeId),
      superclass.isSome = superclass'.isSome → Mirrors ts false most false Anywhere
      (do
        Build.expectPunct "\x7b"
        let items ← Build.many (classItem inner')
        Build.store (.classDecl name' superclass' (items.filterMap id)))
      (do
        Read.expectPunct "\x7b"
        let items ← Read.many (Grammar.classItem inner)
        return of (.classDecl name superclass (items.filterMap id))) never
      fun t id s₂ s' => ∀ s₁, Optional Plants superclass superclass' s₁ s₂ →
        ∀ s, Via Script.intern name name' s s₁ → Plants t id s s' := by
    refine fun name name' superclass superclass' _ => (mirrors_expectPunct _).skip fun _ => ?_
    refine (mirrors_many (mirrors_classItem h)).bind fun items items' => mirrors_store rfl ?_
    refine fun s s₂ hi s₁ hs s₀ hn => plants_of ?_
    have hi := via_filterMap hi
    have hs := hs.via
    simp only [Node.traverse, run_bind, run_pure, hn, hs, hi]
  refine (mirrors_expectWord _).skip fun _ => mirrors_identifier.bind fun name name' => ?_
  refine (mirrors_eatWord _).eaten ?_ ?_
  · exact .present (rest name name') (mirrors_access h).behind
  · exact .absent (rest name name')

/-! ## Choices -/

theorem mirrors_ifStmt (h : Mirrored ts most inner' inner) :
    Mirrors ts false most true Anywhere (ifStmt inner') (Grammar.ifStmt inner) always Plants := by
  have rest : ∀ test test' cons cons' (alt : Option Reading) (alt' : Option NodeId),
      alt.isSome = alt'.isSome → Mirrors ts false most false Anywhere
      (Build.store (.ifStmt test' cons' alt')) (pure (of (.ifStmt test cons alt))) never
      fun t id s₂ s' => ∀ s₁', Optional Plants alt alt' s₁' s₂ → ∀ s₁, Plants cons cons' s₁ s₁' →
        ∀ s, Plants test test' s s₁ → Plants t id s s' := by
    refine fun test test' cons cons' alt alt' _ => mirrors_store rfl ?_
    refine fun s s₂ ha s₁ hc s₀ ht => plants_of ?_
    have ha := ha.via
    simp only [Node.traverse, run_bind, run_pure, ht, hc, ha]
  refine (mirrors_expectWord _).skip fun _ => (mirrors_parenthesized h).bind fun test test' => ?_
  refine h.statement.here.bind fun cons cons' => (mirrors_eatWord _).eaten ?_ ?_
  · exact .present (rest test test' cons cons') h.statement
  · exact .absent (rest test test' cons cons')

theorem mirrors_caseItem (h : Mirrored ts most inner' inner) :
    Mirrors ts false most false Anywhere (caseItem inner') (Grammar.caseItem inner) Option.isSome
      (Optional Plants) := by
  refine (mirrors_isWord _).skip fun _ => (mirrors_isWord _).skip fun _ => ?_
  refine (mirrors_isPunct _).skip fun _ => .ite (fun _ => .pure rfl .missing) fun _ => ?_
  refine mirrors_atEnd.skip fun _ => .check fun _ => ?_
  exact h.statement.bind fun x y => .pure rfl fun s _ hx => .found hx

theorem mirrors_caseLabel (h : Mirrored ts most inner' inner) :
    Mirrors ts false most true Anywhere (caseLabel inner') (Grammar.caseLabel inner) always
      (Optional Plants) := by
  refine (mirrors_eatWord _).eaten ?_ ?_
  · exact (h.expression false).bind fun x y => .pure rfl fun s _ hx => .found hx
  · exact (mirrors_eatWord _).eaten (.pure rfl .missing) (mirrors_refuse _)

theorem mirrors_switchCase (h : Mirrored ts most inner' inner) :
    Mirrors ts false most false Anywhere (switchCase inner') (Grammar.switchCase inner)
      Option.isSome (Optional Plants) := by
  refine (mirrors_eatPunct _).eaten (.pure rfl .missing) ?_
  refine .bind (mirrors_caseLabel h).behind fun test test' => ?_
  refine (mirrors_expectPunct _).skip fun _ => ?_
  refine (mirrors_many (mirrors_caseItem h)).bind fun cons cons' => .stored fun id => .pure rfl ?_
  refine fun s s₁ hs s₀ hc s₂ ht => .found (plants_stored ?_ hs)
  have ht := ht.via
  simp only [Node.traverse, run_bind, run_pure, ht, hc]

theorem mirrors_switchStmt (h : Mirrored ts most inner' inner) :
    Mirrors ts false most true Anywhere (switchStmt inner') (Grammar.switchStmt inner) always
      Plants := by
  refine (mirrors_expectWord _).skip fun _ => (mirrors_parenthesized h).bind fun d d' => ?_
  refine (mirrors_expectPunct _).skip fun _ => ?_
  refine (mirrors_many (mirrors_switchCase h)).bind fun cases cases' => mirrors_store rfl ?_
  refine fun s s₁ hc s₀ hd => plants_of ?_
  simp only [Node.traverse, run_bind, run_pure, hd, hc]

/-- What is planted for the clause of a `try` that catches. -/
abbrev CatchPlants : Catch Reading String → Catch NodeId Sym → Script → Script → Prop :=
  Via (Catch.traverse Script.plant Script.intern)

theorem mirrors_catchClause (h : Mirrored ts most inner' inner) :
    Mirrors ts false most false pre (catchClause inner') (Grammar.catchClause inner) never
      (Optional CatchPlants) := by
  refine (mirrors_eatWord _).eaten ?_ (.pure rfl .missing)
  refine (mirrors_eatPunct _).eaten ?_ ?_
  · refine mirrors_identifier.bind fun param param' => (mirrors_expectPunct _).skip fun _ => ?_
    refine h.block.bind fun body body' => .pure rfl fun s s₁ hb s₀ hp => .found ?_
    have hp := (Optional.found hp).via
    simp only [CatchPlants, Via, Catch.traverse, run_bind, run_pure, hp, hb]
  · refine h.block.bind fun body body' => .pure rfl fun s s₁ hb => .found ?_
    simp only [CatchPlants, Via, Catch.traverse, Option.mapM_none, run_bind, run_pure, hb]

theorem mirrors_tryStmt (h : Mirrored ts most inner' inner) :
    Mirrors ts false most true Anywhere (tryStmt inner') (Grammar.tryStmt inner) always
      Plants := by
  have rest : ∀ body body' (handler : Option (Catch Reading String))
      (handler' : Option (Catch NodeId Sym)) (finalizer : Option Reading)
      (finalizer' : Option NodeId), handler.isSome = handler'.isSome →
      finalizer.isSome = finalizer'.isSome → Mirrors ts false most false Anywhere
      (do
        if handler'.isNone && finalizer'.isNone then Build.refuse .catchOrFinally
        Build.store (.tryStmt body' handler' finalizer'))
      (do
        if handler.isNone && finalizer.isNone then Read.refuse .catchOrFinally
        return of (.tryStmt body handler finalizer)) never
      fun t id s₂ s' => ∀ s₁', Optional Plants finalizer finalizer' s₁' s₂ →
        ∀ s₁, Optional CatchPlants handler handler' s₁ s₁' → ∀ s, Plants body body' s s₁ →
          Plants t id s s' := by
    intro body body' handler handler' finalizer finalizer' hh hf
    rw [← Option.not_isSome, ← Option.not_isSome, ← Option.not_isSome, ← Option.not_isSome, hh, hf]
    refine .check fun _ => mirrors_store rfl fun s s₂ hf s₁ hh s₀ hb => plants_of ?_
    have hh := hh.via
    have hf := hf.via
    simp only [Node.traverse, run_bind, run_pure, hb, hh, hf]
  refine (mirrors_expectWord _).skip fun _ => h.block.here.bind fun body body' => ?_
  refine (mirrors_catchClause h).bind fun handler handler' => ?_
  refine .given (fun _ hh => hh.elim fun _ => Optional.isSome_eq) fun same => ?_
  refine (mirrors_eatWord _).eaten ?_ ?_
  · exact .present (fun o o' => rest body body' handler handler' o o' same) h.block
  · exact .absent fun o o' => rest body body' handler handler' o o' same

/-! ## Loops -/

/-- What is planted for the head of a `for`. -/
inductive HeadPlants : Grammar.ForHead → ForHead → Script → Script → Prop
  | each {left left' s s'} : Plants left left' s s' → HeadPlants (.each left) (.each left') s s'
  | start {init init' s s'} : Optional Plants init init' s s' →
      HeadPlants (.start init) (.start init') s s'

theorem HeadPlants.left {left : Reading} {left' : NodeId} {s s' : Script}
    (h : HeadPlants (.each left) (.each left') s s') : Plants left left' s s' := by
  cases h
  assumption

theorem HeadPlants.init {init : Option Reading} {init' : Option NodeId} {s s' : Script}
    (h : HeadPlants (.start init) (.start init') s s') : Optional Plants init init' s s' := by
  cases h
  assumption

theorem mirrors_atEach : Mirrors ts noIn most fresh pre atEach Grammar.atEach never Same := by
  refine (mirrors_isWord _).skip fun _ => (mirrors_isWord _).skip fun _ => ?_
  exact .pure rfl fun _ => ⟨rfl, rfl⟩

theorem mirrors_forVarHead (h : Mirrored ts most inner' inner) :
    Mirrors ts true most false pre (forVarHead inner') (Grammar.forVarHead inner) always
      HeadPlants := by
  have further : Mirrors ts true most false Anywhere
      (furtherItem do declarator inner' (← identifier))
      (Grammar.furtherItem do Grammar.declarator inner true (← Grammar.identifier)) Option.isSome
      (Optional DeclaratorPlants) :=
    mirrors_furtherItem (mirrors_identifier.bind fun name name' => mirrors_declarator h name name')
  refine mirrors_varKind.skip fun kind => mirrors_identifier.bind fun name name' => ?_
  refine mirrors_atEach.skip fun _ => .ite (fun _ => ?_) fun _ => ?_
  · refine .stored fun id => .pure rfl fun s s₁ hs s₀ hn => .each (plants_stored ?_ hs)
    simp only [Node.traverse, Declarator.traverse, List.mapM_cons, List.mapM_nil, Option.mapM_none,
      run_bind, run_pure, hn]
  · refine (mirrors_declarator h name name').bind fun first first' => ?_
    refine (mirrors_many further).bind fun rest rest' => .stored fun id => .pure rfl ?_
    refine fun s s₂ hs s₁ hr s₀ hd s₃ hn => .start (.found (plants_stored ?_ hs))
    have all := via_cons (hd _ hn) hr
    simp only [Node.traverse, run_bind, run_pure, all]

theorem mirrors_forHead (h : Mirrored ts most inner' inner) :
    Mirrors ts true most false pre (forHead inner') (Grammar.forHead inner) never
      HeadPlants := by
  have start : Mirrors ts true most false Anywhere
      (do
        let e ← inner'.expression
        if ← atEach then return .each e
        return .start (some e))
      (do
        let e ← inner.expression true
        if ← Grammar.atEach then return .each e
        return .start (some e)) never HeadPlants := by
    refine (h.expression true).bind fun e e' => mirrors_atEach.skip fun _ => ?_
    refine .ite (fun _ => .pure rfl fun s _ he => .each he) fun _ => .pure rfl fun s _ he => ?_
    exact .start (.found he)
  refine (mirrors_isPunct _).skip fun _ => .ite (fun _ => ?_) fun _ => ?_
  · exact .pure rfl fun s => .start (.missing s)
  refine .look fun found => ?_
  split
  · exact (mirrors_forVarHead h).last
  · exact (mirrors_forVarHead h).last
  · exact (mirrors_forVarHead h).last
  · try simp only [*]
    exact start.here

/-- A rule that goes on behind what a loop goes through. -/
theorem mirrors_forEach (h : Mirrored ts most inner' inner) (left : Reading) (left' : NodeId) :
    Mirrors ts false most false pre (forEach inner' left') (Grammar.forEach inner left) never
      fun t id s₁ s' => ∀ s, Plants left left' s s₁ → Plants t id s s' := by
  have rest : ∀ (isOf : Bool) right right', Mirrors ts false most false Anywhere
      (do
        Build.expectPunct ")"
        let body ← inner'.statement
        Build.store (if isOf then .forOf left' right' body else .forIn left' right' body))
      (do
        Read.expectPunct ")"
        let body ← inner.statement
        return of (if isOf then .forOf left right body else .forIn left right body)) never
      fun t id s₂ s' => ∀ s₁, Plants right right' s₁ s₂ → ∀ s, Plants left left' s s₁ →
        Plants t id s s' := by
    refine fun isOf right right' => (mirrors_expectPunct _).skip fun _ => ?_
    refine h.statement.bind fun body body' => mirrors_store rfl fun s s₂ hb s₁ hr s₀ hl => ?_
    refine plants_of ?_
    cases isOf <;>
      simp only [Node.traverse, run_bind, run_pure, hl, hr, hb, if_true, Bool.false_eq_true,
        if_false]
  refine (mirrors_isWord _).skip fun isOf => mirrors_discard_next.skip fun _ => ?_
  refine .ite (fun _ => ?_) fun _ => ?_
  · exact (h.assignment false).bind fun right right' => (rest isOf right right').here
  · exact (h.expression false).bind fun right right' => (rest isOf right right').here

theorem mirrors_forPart (h : Mirrored ts most inner' inner) (close : String) :
    Mirrors ts false most false pre (forPart inner' close) (Grammar.forPart inner close) never
      (Optional Plants) := by
  refine (mirrors_isPunct _).skip fun _ => .ite (fun _ => .pure rfl .missing) fun _ => ?_
  exact (h.expression false).allowed.bind fun e e' => .pure rfl fun s _ he => .found he

theorem mirrors_forStmt (h : Mirrored ts most inner' inner) :
    Mirrors ts false most true Anywhere (forStmt inner') (Grammar.forStmt inner) always
      Plants := by
  refine (mirrors_expectWord _).skip fun _ => (mirrors_isWord _).skip fun _ => .guard ?_
  refine (mirrors_expectPunct _).skip fun _ => ?_
  refine (mirrors_forHead h).switched.bind fun head head' => ?_
  rcases head with left | init <;> rcases head' with left' | init'
  case each.each =>
    exact ((mirrors_forEach h left left').imp fun t id s s' ht s₀ hh => ht s₀ hh.left).here
  case start.start =>
    refine (mirrors_expectPunct _).skip fun _ => (mirrors_forPart h _).bind fun test test' => ?_
    refine (mirrors_expectPunct _).skip fun _ => (mirrors_forPart h _).bind fun step step' => ?_
    refine (mirrors_expectPunct _).skip fun _ => h.statement.bind fun body body' => ?_
    refine mirrors_store rfl fun s s₃ hb s₂ hs s₁ ht s₀ hi => plants_of ?_
    have hi := hi.init.via
    have ht := ht.via
    have hs := hs.via
    simp only [Node.traverse, run_bind, run_pure, hi, ht, hs, hb]
  all_goals
    rintro b c hb ⟨_, hh⟩
    cases hh

theorem mirrors_whileStmt (h : Mirrored ts most inner' inner) :
    Mirrors ts false most true Anywhere (whileStmt inner') (Grammar.whileStmt inner) always
      Plants := by
  refine (mirrors_expectWord _).skip fun _ => (mirrors_parenthesized h).bind fun test test' => ?_
  refine h.statement.here.bind fun body body' => mirrors_store rfl fun s s₁ hb s₀ ht => plants_of ?_
  simp only [Node.traverse, run_bind, run_pure, ht, hb]

theorem mirrors_doWhile (h : Mirrored ts most inner' inner) :
    Mirrors ts false most true Anywhere (doWhile inner') (Grammar.doWhile inner) always
      Plants := by
  refine (mirrors_expectWord _).skip fun _ => h.statement.bind fun body body' => ?_
  refine (mirrors_expectWord _).skip fun _ => (mirrors_parenthesized h).bind fun test test' => ?_
  refine (mirrors_eatPunct _).discarded.skip fun _ => mirrors_store rfl ?_
  refine fun s s₁ ht s₀ hb => plants_of ?_
  simp only [Node.traverse, run_bind, run_pure, ht, hb]

theorem mirrors_withStmt (h : Mirrored ts most inner' inner) :
    Mirrors ts false most true Anywhere (withStmt inner') (Grammar.withStmt inner) always
      Plants := by
  refine (mirrors_expectWord _).skip fun _ => (mirrors_parenthesized h).bind fun scope scope' => ?_
  refine h.statement.here.bind fun body body' => mirrors_store rfl fun s s₁ hb s₀ hs => plants_of ?_
  simp only [Node.traverse, run_bind, run_pure, hs, hb]

/-! ## Transfers of control -/

theorem mirrors_transfer {l : Lexeme} {node : Node Reading String} {node' : Node NodeId Sym}
    (hn : ∀ s, node.traverse Script.plant Script.intern s = (node', s)) :
    Mirrors ts false most fresh (fun b => b.lexeme? = some l) (transfer node')
      (Grammar.transfer node) takes Plants := by
  have rest : Mirrors ts false most false Anywhere
      (do
        semicolon
        Build.store node')
      (do
        Grammar.semicolon
        return of node) never Plants :=
    mirrors_semicolon.skip fun _ => mirrors_store rfl fun s => plants_of (hn s)
  refine .takeFront (.look fun found => ?_)
  rcases found with _ | w | _ | _ | _
  case some.word =>
    refine mirrors_newlineAhead.skip fun _ => .ite (fun _ => rest) fun _ => ?_
    exact (mirrors_unsupported _).unreached
  all_goals exact rest.here

theorem mirrors_returnStmt (h : Mirrored ts most inner' inner) :
    Mirrors ts false most true Anywhere (returnStmt inner') (Grammar.returnStmt inner) always
      Plants := by
  have rest : ∀ (arg : Option Reading) (arg' : Option NodeId), arg.isSome = arg'.isSome →
      Mirrors ts false most false Anywhere
      (do
        semicolon
        Build.store (.returnStmt arg'))
      (do
        Grammar.semicolon
        return of (.returnStmt arg)) never
      fun t id s₁ s' => ∀ s, Optional Plants arg arg' s s₁ → Plants t id s s' := by
    refine fun arg arg' _ => mirrors_semicolon.skip fun _ => mirrors_store rfl ?_
    refine fun s s₀ ha => plants_of ?_
    have ha := ha.via
    simp only [Node.traverse, run_bind, run_pure, ha]
  refine (mirrors_expectWord _).skip fun _ => mirrors_atStatementEnd.skip fun _ => ?_
  exact .ite (fun _ => .absent rest) fun _ => .present rest (h.expression false)

theorem mirrors_throwStmt (h : Mirrored ts most inner' inner) :
    Mirrors ts false most true Anywhere (throwStmt inner') (Grammar.throwStmt inner) always
      Plants := by
  refine (mirrors_expectWord _).skip fun _ => (h.expression false).bind fun arg arg' => ?_
  refine mirrors_semicolon.skip fun _ => mirrors_store rfl fun s s₀ ha => plants_of ?_
  simp only [Node.traverse, run_bind, run_pure, ha]

/-! ## Statements -/

theorem mirrors_exprStmt (h : Mirrored ts most inner' inner) :
    Mirrors ts false most true Anywhere (exprStmt inner') (Grammar.exprStmt inner) always
      Plants := by
  refine (mirrors_expression h).bind fun arg arg' => ?_
  refine mirrors_semicolon.skip fun _ => mirrors_store rfl fun s s₀ ha => plants_of ?_
  simp only [Node.traverse, run_bind, run_pure, ha]

theorem mirrors_varStmt (h : Mirrored ts most inner' inner) :
    Mirrors ts false most true Anywhere (varStmt inner') (Grammar.varStmt inner) always
      Plants := by
  refine (mirrors_varDecl h).bind fun e e' => mirrors_semicolon.skip fun _ => ?_
  exact .pure rfl fun s s₀ he => he

theorem mirrors_wordStatement (h : Mirrored ts most inner' inner) (word : String) :
    Mirrors ts false most true (fun b => b.lexeme? = some (.word word))
      (wordStatement inner' word) (Grammar.wordStatement inner word) always Plants := by
  unfold wordStatement
  split
  · exact (mirrors_varStmt h).here
  · exact (mirrors_varStmt h).here
  · exact (mirrors_varStmt h).here
  · exact (mirrors_functionDecl h).here
  · exact (mirrors_classDecl h).here
  · exact (mirrors_ifStmt h).here
  · exact (mirrors_forStmt h).here
  · exact (mirrors_whileStmt h).here
  · exact (mirrors_doWhile h).here
  · exact (mirrors_switchStmt h).here
  · exact (mirrors_withStmt h).here
  · exact mirrors_transfer fun _ => rfl
  · exact mirrors_transfer fun _ => rfl
  · exact (mirrors_returnStmt h).here
  · exact (mirrors_throwStmt h).here
  · exact (mirrors_tryStmt h).here
  · exact mirrors_unsupported _
  · exact mirrors_unsupported _
  · exact mirrors_unsupported _
  · rw [Grammar.wordStatement] <;> try assumption
    exact (mirrors_exprStmt h).here

theorem mirrors_statement (h : Mirrored ts most inner' inner) :
    Mirrors ts false most true Anywhere (statement inner') (Grammar.statement inner) always
      Plants := by
  refine .look fun found => ?_
  split
  · exact (mirrors_block h).here
  · exact .takeFront (mirrors_store rfl fun s => plants_of rfl)
  · exact mirrors_wordStatement h _
  · try simp only [*]
    exact (mirrors_exprStmt h).here

/-! ## The whole grammar -/

/-- The rules one level above others have room for a token more. -/
theorem mirrored_step (h : Mirrored ts most inner' inner) :
    Mirrored ts (most + 1) (step inner') (Grammar.step inner) where
  statement := mirrors_statement h
  block := mirrors_block h
  expression _ := mirrors_expression h
  assignment _ := mirrors_assignment h
  binary _ level := mirrors_binary h level
  unary _ := mirrors_unary h
  construction _ := mirrors_construction h

/-- Rules of any depths take the same steps, where fewer tokens are ahead. -/
theorem mirrored_rules {most depth depth' : Nat} (h : most ≤ depth) (h' : most ≤ depth') :
    Mirrored ts most (rules depth) (Grammar.rules depth') := by
  induction most generalizing depth depth' with
  | zero =>
    exact ⟨.of_zero, .of_zero, fun _ => .of_zero, fun _ => .of_zero, fun _ _ => .of_zero,
      fun _ => .of_zero, fun _ => .of_zero⟩
  | succ most ih =>
    obtain ⟨depth, rfl⟩ := Nat.exists_eq_add_of_le' (Nat.le_trans (Nat.le_add_left 1 most) h)
    obtain ⟨depth', rfl⟩ := Nat.exists_eq_add_of_le' (Nat.le_trans (Nat.le_add_left 1 most) h')
    exact mirrored_step (ih (Nat.le_of_succ_le_succ h) (Nat.le_of_succ_le_succ h'))

end Building

end Graft
