import Graft.Proofs.Enclosing.Expression

/-!
# Statements in front of one more bracket

Within an expression a statement stands in the body of a function, where a brace closes behind it.
So a rule for statements never meets the bracket behind the last token: it ends in front of a token
of its own.

* `settles_block` - the body of a function
* `settles_statement` - the rule that chooses by the first word
* `carrying_rules` - the rules of every depth
-/

namespace Graft

open Reading (of)
open Read

namespace Grammar

variable {k : Closing} {inside noIn : Bool} {inner : Rules}

/-! ## Ends of statements -/

theorem settles_atStatementEnd : Settles k true atStatementEnd := by
  refine fun d => .isPunct rfl fun _ => .isPunct rfl fun _ => .atEnd fun _ => ?_
  exact .newlineAhead (fun _ _ _ => .inl rfl) fun _ => .done

theorem settles_semicolon : Settles k true semicolon := by
  refine fun d => .eatPunct rfl (.neutral _ rfl rfl) .done ?_
  refine (settles_atStatementEnd d).bind fun _ => .ite (fun _ => .done) fun _ => ?_
  exact .of_refuses (refuses_refuse _)

theorem settles_parenthesized (h : Carrying k inner) : Settles k inside (parenthesized inner) :=
  fun _ => .expectPunct (.opening _ rfl) (carries_nested h rfl fun _ => .done)

/-! ## Blocks and declarations -/

/-- The statements of a block end in front of its closing brace. -/
theorem carries_blockItem (h : Carrying k inner) {d : Nat} :
    Carries k true (Open (d + 1)) (blockItem inner)
      (Going (Open (d + 1)) (Facing (some (.punct "\x7d")) (d + 1))) := by
  refine .seesPunct rfl fun closes => .ite (fun hc => ?_) fun _ => ?_
  · exact .pure fun _ _ hd => ⟨hd.1 hc, hd.2⟩
  refine .of_imp (.atEnd fun _ => .check ?_) fun _ _ hd => hd.2
  exact (h.statement d).bind fun _ => .pure fun _ _ hd => hd

theorem settles_block (h : Carrying k inner) : Settles k inside (block inner) := by
  refine fun d => .expectPunct (.opening _ rfl) ?_
  -- the brace that ends the statements is in front of the bracket, too
  have body : Carries k inside (Open (d + 2)) (many (blockItem inner))
      fun _ => Facing (some (.punct "\x7d")) (d + 2) :=
    (carries_many (carries_blockItem h)).of_inside nofun
  exact body.bind fun _ => .drop (.closing _ rfl) .done

theorem settles_varKind : Settles k true varKind := by
  refine fun d => .look nofun fun found => ?_
  rcases found with _ | w | _ | _ | _
  case some.word =>
    dsimp only
    rcases VarKind.ofText? w with _ | kind
    · exact .of_refuses (refuses_refuse _)
    · exact .drop (.neutral _ rfl rfl) .done
  all_goals exact .of_refuses (refuses_refuse _)

theorem settles_declarator (h : Carrying k inner) (name : String) :
    Settles k true (declarator inner noIn name) :=
  fun d => .eatPunct rfl (.neutral _ rfl rfl) (h.assignment true noIn d).returns .done

theorem settles_declaredName (h : Carrying k inner) : Settles k true (declaredName inner) := by
  refine fun d => .isPunct rfl fun _ => .isPunct rfl fun _ => .guard ?_
  exact (settles_identifier d).bind fun name => settles_declarator h name d

theorem settles_furtherItem {α : Type} {item : Read α} (h : Settles k true item) :
    Settles k true (furtherItem item) :=
  fun d => .eatPunct rfl (.neutral _ rfl rfl) (h d).returns .done

theorem settles_varDecl (h : Carrying k inner) : Settles k true (varDecl inner) := by
  refine fun d => (settles_varKind d).bind fun kind => ?_
  refine (settles_declaredName h d).bind fun first => ?_
  exact (carries_many ((settles_furtherItem (settles_declaredName h)).going d)).returns

theorem settles_functionDecl (h : Carrying k inner) : Settles k true (functionDecl inner) := by
  refine fun d => .expectWord (.isPunct rfl fun _ => .guard ?_)
  refine (settles_identifier d).bind fun name => ?_
  exact (settles_functionParts h d).returns

theorem settles_method (h : Carrying k inner) : Settles k true (method inner) := by
  intro d
  have rest (isStatic : Bool) : Carries k true (Open (d + 1))
      (do
        if ← atAccessor then unsupported .accessor
        let name ← propertyName
        return (⟨name, isStatic, ← bareFunction inner⟩ : Method Reading String))
      fun _ => Open (d + 1) := by
    refine (settles_atAccessor d).bind fun _ => .guard ?_
    exact (settles_propertyName d).bind fun _ => (settles_bareFunction h d).returns
  -- the word is taken only where it was seen
  refine .seesWord fun isWord => .second? rfl fun _ => ?_
  refine .ite (fun hs => ?_) fun _ => (rest _).of_imp fun _ _ hd => hd.2
  refine .of_imp (.drop (l := .word "static") (.neutral _ rfl rfl) (rest _)) fun _ _ hd => ?_
  exact ⟨hd.1 (Bool.and_eq_true_iff.1 hs).1, hd.2⟩

/-- What stands in a class ends behind its closing brace. -/
theorem carries_classItem (h : Carrying k inner) {d : Nat} :
    Carries k true (Open (d + 2)) (classItem inner) (Going (Open (d + 2)) (Open (d + 1))) := by
  refine .eatPunct rfl (.closing _ rfl) (.pure fun _ _ hd => hd) ?_
  refine .eatPunct rfl (.neutral _ rfl rfl) (.pure fun _ _ hd => hd) ?_
  exact (settles_method h (d + 1)).bind fun _ => .pure fun _ _ hd => hd

theorem settles_classDecl (h : Carrying k inner) : Settles k true (classDecl inner) := by
  intro d
  have rest (name : String) (superclass : Option Reading) : Carries k true (Open (d + 1))
      (do
        expectPunct "\x7b"
        let items ← many (classItem inner)
        return of (.classDecl name superclass (items.filterMap id))) fun _ => Open (d + 1) :=
    .expectPunct (.opening _ rfl) (carries_many (carries_classItem h)).returns
  refine .expectWord ((settles_identifier d).bind fun name => .eatWord ?_ (rest name none))
  exact (settles_access h d).map.bind (rest name)

/-! ## Choices -/

theorem settles_ifStmt (h : Carrying k inner) : Settles k true (ifStmt inner) := by
  refine fun d => .expectWord ((settles_parenthesized h d).bind fun test => ?_)
  exact (h.statement d).bind fun _ => .eatWord (h.statement d).map.returns .done

theorem settles_caseItem (h : Carrying k inner) : Settles k true (caseItem inner) := by
  refine fun d => .isWord fun _ => .isWord fun _ => .isPunct rfl fun _ => ?_
  refine .ite (fun _ => .done) fun _ => .atEnd fun _ => .check ?_
  exact (h.statement d).returns

theorem settles_caseLabel (h : Carrying k inner) : Settles k true (caseLabel inner) := by
  refine fun d => .eatWord (h.expression true false d).returns (.eatWord .done ?_)
  exact .of_refuses (refuses_refuse _)

/-- What stands in a `switch` ends behind its closing brace. -/
theorem carries_switchCase (h : Carrying k inner) {d : Nat} :
    Carries k true (Open (d + 2)) (switchCase inner) (Going (Open (d + 2)) (Open (d + 1))) := by
  refine .eatPunct rfl (.closing _ rfl) (.pure fun _ _ hd => hd) ?_
  refine (settles_caseLabel h (d + 1)).bind fun test => .expectPunct (.neutral _ rfl rfl) ?_
  refine (carries_many ((settles_caseItem h).going (d + 1))).bind fun _ => ?_
  exact .pure fun _ _ hd => hd

theorem settles_switchStmt (h : Carrying k inner) : Settles k true (switchStmt inner) := by
  refine fun d => .expectWord ((settles_parenthesized h d).bind fun _ => ?_)
  exact .expectPunct (.opening _ rfl) (carries_many (carries_switchCase h)).returns

theorem settles_catchClause (h : Carrying k inner) : Settles k true (catchClause inner) := by
  refine fun d => .eatWord (.eatPunct rfl (.opening _ rfl) ?_ (h.block true d).returns) .done
  refine (settles_identifier (d + 1)).bind fun _ => ?_
  exact .expectPunct (.closing _ rfl) (h.block true d).returns

theorem settles_tryStmt (h : Carrying k inner) : Settles k true (tryStmt inner) := by
  refine fun d => .expectWord ((h.block true d).bind fun body => ?_)
  refine (settles_catchClause h d).bind fun handler => ?_
  have rest (finalizer : Option Reading) : Carries k true (Open (d + 1))
      (do
        if handler.isNone && finalizer.isNone then refuse .catchOrFinally
        return of (.tryStmt body handler finalizer)) fun _ => Open (d + 1) :=
    .check .done
  exact .eatWord ((h.block true d).map.bind rest) (rest none)

/-! ## Loops -/

/-- What stands behind the head of a `for`: in a loop through a collection, its word. -/
def Headed (d : Nat) : ForHead → Stand
  | .each _ => fun found e => (∃ w, found = some (.word w)) ∧ e = d
  | .start _ => Open d

theorem carries_atEach {d : Nat} : Carries k true (Open d) atEach fun each found e =>
    (each = true → ∃ w, found = some (.word w)) ∧ e = d := by
  refine .seesWord fun isIn => .seesWord fun isOf => .pure fun found e hd => ⟨fun hw => ?_, hd.2.2⟩
  rcases Bool.or_eq_true_iff.1 hw with hw | hw
  · exact ⟨_, hd.2.1 hw⟩
  · exact ⟨_, hd.1 hw⟩

theorem carries_forVarHead (h : Carrying k inner) {d : Nat} :
    Carries k true (Open (d + 1)) (forVarHead inner) (Headed (d + 1)) := by
  refine (settles_varKind d).bind fun kind => (settles_identifier d).bind fun name => ?_
  refine carries_atEach.bind fun _ => .ite (fun he => ?_) fun _ => ?_
  · exact .pure fun _ _ hd => ⟨hd.1 he, hd.2⟩
  have further : Settles k true (furtherItem do declarator inner true (← identifier)) :=
    settles_furtherItem fun d => (settles_identifier d).bind fun name => settles_declarator h name d
  refine .of_imp ((settles_declarator h name d).bind fun first => ?_) fun _ _ hd => hd.2
  exact (carries_many (further.going d)).bind fun _ => .pure fun _ _ hd => hd

theorem carries_forHead (h : Carrying k inner) {d : Nat} :
    Carries k true (Open (d + 1)) (forHead inner) (Headed (d + 1)) := by
  have start : Carries k true (Open (d + 1))
      (do
        let e ← inner.expression true
        if ← atEach then return .each e
        return .start (some e)) (Headed (d + 1)) := by
    refine (h.expression true true d).bind fun e => carries_atEach.bind fun _ => ?_
    exact .ite (fun he => .pure fun _ _ hd => ⟨hd.1 he, hd.2⟩) fun _ => .pure fun _ _ hd => hd.2
  refine .isPunct rfl fun _ => .ite (fun _ => .pure fun _ _ hd => hd) fun _ => ?_
  refine .look nofun fun found => ?_
  split
  · exact (carries_forVarHead h).facing rfl
  · exact (carries_forVarHead h).facing rfl
  · exact (carries_forVarHead h).facing rfl
  · exact start.facing rfl

/-- What stands behind the word of a loop through a collection, and behind the head. -/
theorem carries_forEach (h : Carrying k inner) (left : Reading) {d : Nat} :
    Carries k true (Headed (d + 2) (.each left)) (forEach inner left) fun _ => Open (d + 1) := by
  have rest (isOf : Bool) (right : Reading) : Carries k true (Open (d + 2))
      (do
        expectPunct ")"
        let body ← inner.statement
        return of (if isOf then .forOf left right body else .forIn left right body))
      fun _ => Open (d + 1) :=
    .expectPunct (.closing _ rfl) (h.statement d).returns
  rintro c e t c' ⟨⟨w, hw⟩, rfl⟩ hc
  have behind : Carries k true (Facing (some (.word w)) (d + 2)) (forEach inner left)
      fun _ => Open (d + 1) := by
    refine .isWord fun isOf => .drop (.neutral _ rfl rfl) (.ite (fun _ => ?_) fun _ => ?_)
    · exact (h.assignment true false (d + 1)).bind (rest isOf)
    · exact (h.expression true false (d + 1)).bind (rest isOf)
  exact behind c _ t c' ⟨hw, rfl⟩ hc

theorem settles_forPart (h : Carrying k inner) (close : String) :
    Settles k true (forPart inner close) :=
  fun d => .isPunct (Bool.or_true _) fun _ => .ite (fun _ => .done) fun _ =>
    (h.expression true false d).returns

theorem settles_forStmt (h : Carrying k inner) : Settles k true (forStmt inner) := by
  refine fun d => .expectWord (.isWord fun _ => .guard (.expectPunct (.opening _ rfl) ?_))
  refine (carries_forHead h).bind fun head => ?_
  cases head with
  | each left => exact carries_forEach h left
  | start init =>
    refine .expectPunct (.neutral _ rfl rfl) ((settles_forPart h _ (d + 1)).bind fun test => ?_)
    refine .expectPunct (.neutral _ rfl rfl) ((settles_forPart h _ (d + 1)).bind fun step => ?_)
    exact .expectPunct (.closing _ rfl) (h.statement d).returns

theorem settles_whileStmt (h : Carrying k inner) : Settles k true (whileStmt inner) :=
  fun d => .expectWord ((settles_parenthesized h d).bind fun _ => (h.statement d).returns)

theorem settles_doWhile (h : Carrying k inner) : Settles k true (doWhile inner) := by
  refine fun d => .expectWord ((h.statement d).bind fun body => .expectWord ?_)
  refine (settles_parenthesized h d).bind fun test => ?_
  have eaten : Settles k true (eatPunct ";") := fun _ =>
    carries_eat_plain (eats_eatPunct ";") (by decide) (.neutral _ rfl rfl)
  exact (eaten d).discarded.bind fun _ => .done

theorem settles_withStmt (h : Carrying k inner) : Settles k true (withStmt inner) :=
  fun d => .expectWord ((settles_parenthesized h d).bind fun _ => (h.statement d).returns)

/-! ## Transfers of control -/

theorem carries_transfer {node : Node Reading String} {word : String} {d : Nat} :
    Carries k true (Facing (some (.word word)) (d + 1)) (transfer node) fun _ => Open (d + 1) := by
  refine .drop (.neutral _ rfl rfl) (.look nofun fun found => ?_)
  have rest : Carries k true (Facing found (d + 1))
      (do
        semicolon
        return of node) fun _ => Open (d + 1) :=
    ((settles_semicolon d).returns).facing rfl
  rcases found with _ | w | _ | _ | _
  case some.word =>
    refine .newlineAhead (fun _ _ _ => .inl rfl) fun _ => .ite (fun _ => rest) fun _ => ?_
    exact .of_refuses (refuses_unsupported _).bind
  all_goals exact rest

theorem settles_returnStmt (h : Carrying k inner) : Settles k true (returnStmt inner) := by
  intro d
  have rest (arg : Option Reading) : Carries k true (Open (d + 1))
      (do
        semicolon
        return of (.returnStmt arg)) fun _ => Open (d + 1) :=
    (settles_semicolon d).returns
  refine .expectWord ((settles_atStatementEnd d).bind fun _ => ?_)
  refine .ite (fun _ => rest none) fun _ => ?_
  exact (h.expression true false d).map.bind rest

theorem settles_throwStmt (h : Carrying k inner) : Settles k true (throwStmt inner) := by
  refine fun d => .expectWord ((h.expression true false d).bind fun _ => ?_)
  exact (settles_semicolon d).returns

/-! ## Statements -/

theorem settles_exprStmt (h : Carrying k inner) : Settles k true (exprStmt inner) :=
  fun d => (settles_expression h d).bind fun _ => (settles_semicolon d).returns

theorem settles_varStmt (h : Carrying k inner) : Settles k true (varStmt inner) :=
  fun d => (settles_varDecl h d).bind fun _ => (settles_semicolon d).returns

theorem carries_wordStatement (h : Carrying k inner) (word : String) {d : Nat} :
    Carries k true (Facing (some (.word word)) (d + 1)) (wordStatement inner word)
      fun _ => Open (d + 1) := by
  unfold wordStatement
  split
  · exact (settles_varStmt h d).facing rfl
  · exact (settles_varStmt h d).facing rfl
  · exact (settles_varStmt h d).facing rfl
  · exact (settles_functionDecl h d).facing rfl
  · exact (settles_classDecl h d).facing rfl
  · exact (settles_ifStmt h d).facing rfl
  · exact (settles_forStmt h d).facing rfl
  · exact (settles_whileStmt h d).facing rfl
  · exact (settles_doWhile h d).facing rfl
  · exact (settles_switchStmt h d).facing rfl
  · exact (settles_withStmt h d).facing rfl
  · exact carries_transfer
  · exact carries_transfer
  · exact (settles_returnStmt h d).facing rfl
  · exact (settles_throwStmt h d).facing rfl
  · exact (settles_tryStmt h d).facing rfl
  · exact .of_refuses (refuses_unsupported _)
  · exact .of_refuses (refuses_unsupported _)
  · exact .of_refuses (refuses_unsupported _)
  · exact (settles_exprStmt h d).facing rfl

theorem settles_statement (h : Carrying k inner) : Settles k true (statement inner) := by
  refine fun d => .look nofun fun found => ?_
  split
  · exact (settles_block h d).facing rfl
  · exact .drop (.neutral _ rfl rfl) .done
  · exact carries_wordStatement h _
  · exact (settles_exprStmt h d).facing rfl

/-! ## The whole grammar -/

/-- The rules one level above. -/
theorem carrying_step (h : Carrying k inner) : Carrying k (step inner) where
  statement := settles_statement h
  block _ := settles_block h
  expression _ _ := settles_expression h
  assignment _ _ := settles_assignment h
  binary _ _ level := settles_binary h level
  unary _ := settles_unary h
  construction _ := settles_construction h

theorem carrying_rules (k : Closing) (depth : Nat) : Carrying k (rules depth) := by
  induction depth with
  | zero =>
    have none {inside : Bool} {α : Type} : Settles k inside (tooDeep : Read α) :=
      fun _ => .of_refuses refuses_tooDeep
    exact ⟨none, fun _ => none, fun _ _ => none, fun _ _ => none, fun _ _ _ => none, fun _ => none,
      fun _ => none⟩
  | succ depth ih => exact carrying_step ih

end Grammar

end Graft
