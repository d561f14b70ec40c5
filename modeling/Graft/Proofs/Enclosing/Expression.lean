import Graft.Proofs.Enclosing.Carries

/-!
# Expressions in front of one more bracket

Every rule for expressions gives the same in front of one more bracket, given that the nested rules
do so. A rule that comes to the end of the tokens has looked there for an operator, a suffix or a
comma, and a closing bracket is none of these. What is nested in brackets of its own ends inside.

* `Carrying` - nested rules that do the same in front of one more bracket
* `settles_expression` - the loosest level, which rests on all others
-/

namespace Graft

open Reading (of)
open Read

/-- A reader that leaves as many brackets open as it finds, of which there is one at least. -/
def Settles (k : Closing) (inside : Bool) {α : Type} (p : Read α) : Prop :=
  ∀ d, Carries k inside (Open (d + 1)) p fun _ => Open (d + 1)

/-- Rules that do the same in front of one more bracket. Statements are read only inside. -/
structure Carrying (k : Closing) (inner : Rules) : Prop where
  statement : Settles k true inner.statement
  block : ∀ inside, Settles k inside inner.block
  expression : ∀ inside noIn, Settles k inside (inner.expression noIn)
  assignment : ∀ inside noIn, Settles k inside (inner.assignment noIn)
  binary : ∀ inside noIn level, Settles k inside (inner.binary noIn level)
  unary : ∀ inside, Settles k inside inner.unary
  construction : ∀ inside, Settles k inside inner.construction

variable {k : Closing} {inside noIn : Bool} {inner : Rules}

/-- A round that leaves as many brackets open as it finds, whether it is the last or not. -/
theorem Settles.going {α : Type} {p : Read (Option α)} (h : Settles k inside p) (d : Nat) :
    Carries k inside (Open (d + 1)) p (Going (Open (d + 1)) (Open (d + 1))) :=
  (h d).imp fun found _ _ hd => by cases found <;> exact hd

namespace Grammar

/-- Items in brackets of their own. -/
theorem carries_enclosed {α β : Type} {item : Read α} {close : String} {f : List α → Read β}
    {d : Nat} (h : Settles k true item) (hc : (Lexeme.punct close).isClosing = true)
    (hf : ∀ items, Carries k inside (Open (d + 1)) (f items) fun _ => Open (d + 1)) :
    Carries k inside (Open (d + 2)) (do
      let items ← commaList close item
      expectPunct close
      f items) fun _ => Open (d + 1) :=
  (carries_commaList (h (d + 1))).before fun items => .expectPunct (.closing _ hc) (hf items)

/-- An expression in brackets of its own. -/
theorem carries_nested (h : Carrying k inner) {β : Type} {close : String} {f : Reading → Read β}
    {d : Nat} (hc : (Lexeme.punct close).isClosing = true)
    (hf : ∀ e, Carries k inside (Open (d + 1)) (f e) fun _ => Open (d + 1)) :
    Carries k inside (Open (d + 2)) (do
      let e ← inner.expression false
      expectPunct close
      f e) fun _ => Open (d + 1) :=
  (h.expression inside false (d + 1)).bind fun e => .expectPunct (.closing _ hc) (hf e)

/-! ## Names and functions -/

theorem settles_identifier : Settles k inside identifier := by
  refine fun d => .look (fun _ => rfl) fun found => ?_
  rcases found with _ | w | _ | _ | _
  case some.word =>
    exact .check (.drop (.neutral _ rfl rfl) (.named .done))
  all_goals exact .of_refuses (refuses_refuse _)

theorem settles_propertyName : Settles k inside propertyName := by
  refine fun d => .look (fun _ => rfl) fun found => ?_
  rcases found with _ | w | _ | _ | _
  case some.word => exact .drop (.neutral _ rfl rfl) (.named .done)
  all_goals exact .of_refuses (refuses_refuse _)

theorem settles_parameter : Settles k inside parameter := by
  refine fun d => .isPunct rfl fun _ => .guard ((settles_identifier d).bind fun _ => ?_)
  exact .isPunct rfl fun _ => .guard .done

theorem settles_functionParts (h : Carrying k inner) : Settles k inside (functionParts inner) := by
  refine fun d => .expectPunct (.opening _ rfl) ?_
  exact carries_enclosed settles_parameter rfl fun params => (h.block inside d).returns

theorem settles_bareFunction (h : Carrying k inner) : Settles k inside (bareFunction inner) :=
  fun d => (settles_functionParts h d).returns

/-! ## Arrow functions -/

theorem settles_arrowParameter : Settles k inside arrowParameter := by
  refine fun d => (settles_identifier d).bind fun _ => ?_
  refine .isPunct rfl fun _ => .isPunct rfl fun _ => .guard ?_
  exact .done

theorem settles_arrowParameters : Settles k inside arrowParameters := by
  refine fun d => .look (fun _ => rfl) fun found => ?_
  split
  · -- the bracket behind a name is no arrow
    refine .second? rfl fun _ => .ite (fun _ => ?_) fun _ => .pure fun _ _ h => h.2
    exact (settles_identifier d).facing rfl |>.returns
  · refine .ifArrow (.drop (.opening _ rfl) ?_) (.pure fun _ _ h => h.2)
    exact carries_enclosed settles_arrowParameter rfl fun params => .done
  · exact .pure fun _ _ h => h.2

theorem settles_arrowBody (h : Carrying k inner) (params : List String) :
    Settles k inside (arrowBody inner noIn params) := by
  refine fun d => .expectPunct (.neutral _ rfl rfl) (.isPunct rfl fun _ => .ite ?_ ?_)
  · exact fun _ => (h.block inside d).returns
  · exact fun _ => (h.assignment inside noIn d).returns

/-! ## Operands -/

theorem settles_arrayItem (h : Carrying k inner) : Settles k inside (arrayItem inner) := by
  refine fun d => .isPunct rfl fun _ => .guard ?_
  exact .isPunct rfl fun _ => .guard (h.assignment inside false d)

theorem settles_atAccessor : Settles k inside atAccessor := by
  refine fun d => .isWord fun _ => .isWord fun _ => .second? rfl fun second => ?_
  split <;> exact .done

/-- What stands behind the opening bracket of an array literal. -/
theorem carries_array (h : Carrying k inner) {d : Nat} :
    Carries k inside (Open (d + 2)) (array inner) fun _ => Open (d + 1) :=
  carries_enclosed (settles_arrayItem h) rfl fun _ => .done

theorem settles_propertyValue (h : Carrying k inner) (shorthand : Option String) :
    Settles k inside (propertyValue inner shorthand) := by
  refine fun d => .eatPunct rfl (.neutral _ rfl rfl) (h.assignment inside false d) ?_
  refine .isPunct rfl fun _ => .ite (fun _ => settles_bareFunction h d) fun _ => ?_
  cases shorthand with
  | some name => exact .done
  | none => exact .of_refuses (refuses_refuse _)

theorem settles_property (h : Carrying k inner) : Settles k inside (property inner) := by
  have value (shorthand : Option String) {α : Type} (made : Reading → α) {d : Nat} :
      Carries k inside (Open (d + 1)) (do return made (← propertyValue inner shorthand))
        fun _ => Open (d + 1) :=
    (settles_propertyValue h shorthand d).returns
  refine fun d => (settles_atAccessor d).bind fun _ => .guard (.take ?_ fun l place => ?_)
  · exact fun place => refuses_refuseAt _ _
  dsimp only
  split
  case h_1 heq =>
    cases heq
    exact .taken (.neutral _ rfl rfl) (.named (value _ _))
  case h_2 heq =>
    cases heq
    exact .taken (.neutral _ rfl rfl) (value _ _)
  case h_3 heq =>
    cases heq
    exact .taken (.neutral _ rfl rfl) (value _ _)
  case h_4 => exact .refused (refuses_throw _)
  case h_5 => exact .refused (refuses_throw _)
  case h_6 => exact .refused (refuses_refuseAt _ _)

/-- What stands behind the opening brace of an object literal. -/
theorem carries_object (h : Carrying k inner) {d : Nat} :
    Carries k inside (Open (d + 2)) (object inner) fun _ => Open (d + 1) :=
  carries_enclosed (settles_property h) rfl fun _ => .done

theorem settles_functionExpr (h : Carrying k inner) : Settles k inside (functionExpr inner) := by
  refine fun d => .isPunct rfl fun _ => .guard (.isPunct rfl fun _ => ?_)
  refine .ite (fun _ => ?_) fun _ => ?_
  · exact (settles_functionParts h d).returns
  · exact (settles_identifier d).map.bind fun name => (settles_functionParts h d).returns

theorem settles_wordOperand (h : Carrying k inner) (spot : Spot) (word : String) :
    Settles k inside (wordOperand inner spot word) := by
  intro d
  unfold wordOperand
  split
  case h_5 => exact settles_functionExpr h d
  case h_6 => exact .of_refuses (refuses_throw _)
  case h_7 => exact .of_refuses (refuses_throw _)
  case h_8 =>
    exact .ite (fun _ => .of_refuses (refuses_refuseAt _ _).bind) fun _ => .named .done
  all_goals exact .done

theorem settles_primary (h : Carrying k inner) : Settles k inside (primary inner) := by
  refine fun d => .take (fun place => refuses_refuseAt _ _) fun l place => ?_
  dsimp only
  split
  case h_1 heq =>
    cases heq
    exact .taken (.neutral _ rfl rfl) (settles_wordOperand h _ _ d)
  case h_2 heq =>
    cases heq
    exact .taken (.neutral _ rfl rfl) .done
  case h_3 heq =>
    cases heq
    exact .taken (.neutral _ rfl rfl) .done
  case h_4 heq =>
    cases heq
    exact .taken (.opening _ rfl) (carries_nested h rfl fun e => .done)
  case h_5 heq =>
    cases heq
    exact .taken (.opening _ rfl) (carries_array h)
  case h_6 heq =>
    cases heq
    exact .taken (.opening _ rfl) (carries_object h)
  case h_7 => exact .refused (refuses_throw _)
  case h_8 => exact .refused (refuses_throw _)
  case h_9 => exact .refused (refuses_refuseAt _ _)

/-! ## Members, calls and constructions -/

theorem settles_argument (h : Carrying k inner) : Settles k inside (argument inner) :=
  fun d => .isPunct rfl fun _ => .guard (h.assignment inside false d)

theorem settles_arguments (h : Carrying k inner) : Settles k inside (arguments inner) :=
  fun _ => .expectPunct (.opening _ rfl) (carries_enclosed (settles_argument h) rfl fun _ => .done)

theorem settles_memberSuffix (h : Carrying k inner) (base : Reading) :
    Settles k inside (memberSuffix inner base) := by
  refine fun d => .eatPunct rfl (.neutral _ rfl rfl) (settles_propertyName d).returns ?_
  exact .eatPunct rfl (.opening _ rfl) (carries_nested h rfl fun key => .done) .done

theorem settles_accessSuffix (h : Carrying k inner) (base : Reading) :
    Settles k inside (accessSuffix inner base) := by
  refine fun d => (settles_memberSuffix h base d).bind fun found => ?_
  cases found with
  | some e => exact .done
  | none =>
    exact .isPunct rfl fun _ => .ite (fun _ => (settles_arguments h d).returns) fun _ => .done

theorem settles_construction (h : Carrying k inner) : Settles k inside (construction inner) := by
  intro d
  have behind (base : Reading) : Carries k inside (Open (d + 1))
      (do
        let callee ← grow (memberSuffix inner) base
        let args ← if ← isPunct "(" then arguments inner else pure []
        return of (.newExpr callee args)) fun _ => Open (d + 1) := by
    refine (carries_grow (fun base => (settles_memberSuffix h base).going d) base).bind fun _ => ?_
    refine .isPunct rfl fun _ => .ite (fun _ => ?_) fun _ => ?_
    · exact (settles_arguments h d).returns
    · exact .done
  refine .expectWord (.isPunct rfl fun _ => .guard (.isWord fun _ => ?_))
  refine .ite (fun _ => ?_) fun _ => ?_
  · exact (h.construction inside d).bind behind
  · exact (settles_primary h d).bind behind

theorem settles_access (h : Carrying k inner) : Settles k inside (access inner) := by
  intro d
  have behind (base : Reading) :
      Carries k inside (Open (d + 1)) (grow (accessSuffix inner) base) fun _ => Open (d + 1) :=
    carries_grow (fun base => (settles_accessSuffix h base).going d) base
  refine .isWord fun _ => .ite (fun _ => ?_) fun _ => ?_
  · exact (settles_construction h d).bind behind
  · exact (settles_primary h d).bind behind

/-! ## Operators -/

/-- A sign that is found among operators, none of which is a bracket. -/
theorem turns_of_find? {Op : Type} {text : Op → String} {ops : List Op} {p : String} {op : Op}
    (plain : ∀ op, (Lexeme.punct (text op)).isOpening = false ∧
      (Lexeme.punct (text op)).isClosing = false)
    (h : ops.find? (text · == p) = some op) (d : Nat) : (Lexeme.punct p).Turns d d := by
  obtain rfl : text op = p := by simpa using List.find?_some h
  exact .neutral d (plain op).1 (plain op).2

theorem turns_unaryOp {l : Lexeme} {op : UnaryOp} (h : unaryOp? l = some op) (d : Nat) :
    l.Turns d d := by
  cases l with
  | punct p => exact turns_of_find? (fun op => by cases op <;> decide) h d
  | _ => exact .neutral d rfl rfl

theorem turns_updateOp {l : Lexeme} {op : UpdateOp} (h : updateOp? l = some op) (d : Nat) :
    l.Turns d d := by
  cases l with
  | punct p => exact turns_of_find? (fun op => by cases op <;> decide) h d
  | _ => exact .neutral d rfl rfl

theorem turns_assignOp {l : Lexeme} {op : AssignOp} (h : assignOp? l = some op) (d : Nat) :
    l.Turns d d := by
  cases l with
  | punct p => exact turns_of_find? (fun op => by cases op <;> decide) h d
  | _ => exact .neutral d rfl rfl

theorem turns_infixOp {l : Lexeme} {op : Infix} (h : Infix.ofLexeme? noIn l = some op) (d : Nat) :
    l.Turns d d := by
  cases l with
  | punct p =>
    rcases Option.or_eq_some_iff.1 h with h | ⟨-, h⟩
    · obtain ⟨_, h, -⟩ := Option.map_eq_some_iff.1 h
      exact turns_of_find? (fun op => by cases op <;> decide) h d
    · obtain ⟨_, h, -⟩ := Option.map_eq_some_iff.1 h
      exact turns_of_find? (fun op => by cases op <;> decide) h d
  | _ => exact .neutral d rfl rfl

theorem settles_unary (h : Carrying k inner) : Settles k inside (unary inner) := by
  refine fun d => .look (fun _ => rfl) fun front => ?_
  rcases hprefix : front.bind unaryOp? with _ | op
  case some =>
    obtain ⟨l, rfl, hl⟩ := Option.bind_eq_some_iff.1 hprefix
    exact .drop (turns_unaryOp hl _) (h.unary inside d).returns
  rcases hprefix : front.bind updateOp? with _ | op
  case some =>
    obtain ⟨l, rfl, hl⟩ := Option.bind_eq_some_iff.1 hprefix
    exact .drop (turns_updateOp hl _) (h.unary inside d).returns
  refine ((settles_access h d).facing rfl).bind fun e => .look (fun _ => rfl) fun behind => ?_
  rcases hsuffix : behind.bind updateOp? with _ | op
  · exact .pure fun _ _ hd => hd.2
  obtain ⟨l, rfl, hl⟩ := Option.bind_eq_some_iff.1 hsuffix
  -- the operator stands in front, so that the end of the line is the token's own
  refine .newlineAhead (fun _ _ hd => .inr (by simp [hd.1])) fun _ => .ite (fun _ => ?_) fun _ => ?_
  · exact .drop (turns_updateOp hl _) .done
  · exact .pure fun _ _ hd => hd.2

theorem settles_infixSuffix (h : Carrying k inner) (level : Precedence) (lhs : Reading) :
    Settles k inside (infixSuffix inner noIn level lhs) := by
  refine fun d => .look (fun _ => rfl) fun front => ?_
  rcases hop : front.bind (Infix.ofLexeme? noIn) with _ | op
  · exact .pure fun _ _ hd => hd.2
  obtain ⟨l, rfl, hl⟩ := Option.bind_eq_some_iff.1 hop
  refine .ite (fun _ => .pure fun _ _ hd => hd.2) fun _ => ?_
  exact .drop (turns_infixOp hl _) (h.binary inside noIn op.rightLevel d).returns

theorem settles_binary (h : Carrying k inner) (level : Precedence) :
    Settles k inside (binary inner noIn level) := by
  refine fun d => (settles_unary h d).bind fun first => ?_
  exact carries_grow (fun lhs => (settles_infixSuffix h level lhs).going d) first

theorem settles_conditional (h : Carrying k inner) :
    Settles k inside (conditional inner noIn) := by
  refine fun d => (settles_binary h _ d).bind fun test => ?_
  refine .eatPunct rfl (.neutral _ rfl rfl) ?_ .done
  refine (h.assignment inside false d).bind fun consequent => ?_
  exact .expectPunct (.neutral _ rfl rfl) (h.assignment inside noIn d).returns

theorem settles_assignment (h : Carrying k inner) : Settles k inside (assignment inner noIn) := by
  refine fun d => (settles_arrowParameters d).bind fun params => ?_
  cases params with
  | some params => exact settles_arrowBody h params d
  | none =>
    refine (settles_conditional h d).bind fun target => .look (fun _ => rfl) fun behind => ?_
    rcases hop : behind.bind assignOp? with _ | op
    · exact .pure fun _ _ hd => hd.2
    obtain ⟨l, rfl, hl⟩ := Option.bind_eq_some_iff.1 hop
    refine .ite (fun _ => ?_) fun _ => .of_refuses (refuses_unsupported _).bind
    exact .drop (turns_assignOp hl _) (h.assignment inside noIn d).returns

theorem settles_sequenceItem (h : Carrying k inner) :
    Settles k inside (sequenceItem inner noIn) :=
  fun d => .eatPunct rfl (.neutral _ rfl rfl) (h.assignment inside noIn d).returns .done

theorem settles_expression (h : Carrying k inner) : Settles k inside (expression inner noIn) := by
  refine fun d => (settles_assignment h d).bind fun first => ?_
  refine (carries_many ((settles_sequenceItem h).going d)).bind fun rest => ?_
  cases rest <;> exact .done

end Grammar

end Graft
