import Graft.Proofs.Building.Parse
import Graft.Proofs.Enclosing.Statement

/-!
# Redundant parentheses

An expression that takes all its tokens is read between parentheses as it is without them: behind
the opening one the same rules take the same tokens in front of one more bracket, and every rule
around them has nothing to add behind the closing one.

* `read_group` - a reader of an expression in parentheses
* `expression_parenthesized` - building it gives the same node in the same script
-/

namespace Graft

open Read

/-- Two steps one behind the other. -/
theorem Read.ok_bind {α β : Type} {p : Read α} {f : α → Read β} {c c' c'' : Cursor} {a : α} {b : β}
    (h : p c = .ok a c') (h' : f a c' = .ok b c'') : (p >>= f) c = .ok b c'' := by
  rw [bind_of_ok h, h']

namespace Grammar

variable {inner : Rules} {noIn : Bool} {c c₁ e : Cursor} {t : Reading}

/-! ## Behind the last token -/

/-- Nothing grows where nothing is added. -/
theorem grow_end {round : Reading → Read (Option Reading)} (h : round t e = .ok none e) :
    grow round t e = .ok t e := by
  change growWithin round (e.ahead.length + 1) t e = _
  exact ok_bind h rfl

section Behind

variable (he : e.ahead = [])

include he

theorem lexeme?_end : lexeme? e = .ok none e :=
  congrArg (EStateM.Result.ok · e) (Cursor.lexeme?_nil he)

theorem isPunct_end (text : String) : isPunct text e = .ok false e :=
  ok_bind (lexeme?_end he) rfl

theorem eatPunct_end (text : String) : eatPunct text e = .ok false e := by
  rw [eats_eatPunct, Cursor.lexeme?_nil he]
  rfl

theorem accessSuffix_end (base : Reading) : accessSuffix inner base e = .ok none e := by
  have member : memberSuffix inner base e = .ok none e :=
    ok_bind (eatPunct_end he ".") (ok_bind (eatPunct_end he "[") rfl)
  exact ok_bind member (ok_bind (isPunct_end he "(") rfl)

theorem infixSuffix_end (level : Precedence) (lhs : Reading) :
    infixSuffix inner noIn level lhs e = .ok none e :=
  ok_bind (lexeme?_end he) rfl

end Behind

/-! ## In front of a group -/

section Group

variable (group : c.lexeme? = some (.punct "(")) (he : e.ahead = [])

include group

theorem primary_group (h : inner.expression false { c with ahead := c.ahead.tail } = .ok t c₁)
    (hc : c₁.lexeme? = some (.punct ")")) :
    primary inner c = .ok t { c₁ with ahead := c₁.ahead.tail } := by
  obtain ⟨token, tokens, ha, hl⟩ := Cursor.exists_cons group
  have spot : c.spot = ⟨some (.punct "("), token.place⟩ := by rw [Cursor.spot, ha, ← hl]
  have taken : next c = .ok c.spot { c with ahead := c.ahead.tail } := rfl
  refine ok_bind taken ?_
  rw [spot]
  exact ok_bind h (ok_bind ((eats_eatPunct ")").expect_front hc) rfl)

theorem arrowParameters_group (h : arrowBehindGroup c.ahead = false) :
    arrowParameters c = .ok none c := by
  have front : lexeme? c = .ok (some (.punct "(")) c := congrArg (EStateM.Result.ok · c) group
  refine ok_bind front ?_
  have here : (get : Read Cursor) c = .ok c c := rfl
  refine ok_bind here ?_
  rw [if_neg (by simp [h])]
  rfl

include he

theorem access_group (h : primary inner c = .ok t e) : access inner c = .ok t e := by
  have front : isWord "new" c = .ok false c := by
    change EStateM.Result.ok (c.lexeme? == some (.word "new")) c = _
    rw [group]
    rfl
  exact ok_bind front (ok_bind h (grow_end (accessSuffix_end he t)))

theorem unary_group (h : primary inner c = .ok t e) : unary inner c = .ok t e := by
  have front : lexeme? c = .ok (some (.punct "(")) c := congrArg (EStateM.Result.ok · c) group
  have bare : unaryOp? (.punct "(") = none ∧ updateOp? (.punct "(") = none := by decide
  refine ok_bind front ?_
  rw [Option.bind_some, Option.bind_some, bare.1, bare.2]
  exact ok_bind (access_group group he h) (ok_bind (lexeme?_end he) rfl)

theorem binary_group (level : Precedence) (h : primary inner c = .ok t e) :
    binary inner noIn level c = .ok t e :=
  ok_bind (unary_group group he h) (grow_end (infixSuffix_end he level t))

theorem conditional_group (h : primary inner c = .ok t e) : conditional inner noIn c = .ok t e :=
  ok_bind (binary_group group he _ h) (ok_bind (eatPunct_end he "?") rfl)

theorem assignment_group (harrow : arrowBehindGroup c.ahead = false)
    (h : primary inner c = .ok t e) : assignment inner noIn c = .ok t e :=
  ok_bind (arrowParameters_group group harrow)
    (ok_bind (conditional_group group he h) (ok_bind (lexeme?_end he) rfl))

theorem expression_group (harrow : arrowBehindGroup c.ahead = false)
    (h : primary inner c = .ok t e) : expression inner noIn c = .ok t e := by
  have last : sequenceItem inner noIn e = .ok none e := ok_bind (eatPunct_end he ",") rfl
  have all : many (sequenceItem inner noIn) e = .ok [] e := by
    change manyWithin (sequenceItem inner noIn) (e.ahead.length + 1) e = _
    exact ok_bind last rfl
  exact ok_bind (assignment_group group he harrow h) (ok_bind all rfl)

end Group

/-- A reader of an expression that takes all its tokens, and one with parentheses around them. -/
theorem read_group {ts : List Token} {finish finish' : Text.Place} {script : Script}
    {opening closing : Token} {depth : Nat} {c' : Cursor} (ho : opening.lexeme = .punct "(")
    (hc : closing.lexeme = .punct ")")
    (h : expression (rules depth) false ⟨ts, finish, script⟩ = .ok t c') (hall : c'.ahead = []) :
    expression (rules (depth + 1)) noIn ⟨opening :: ts ++ [closing], finish', script⟩ =
      .ok t ⟨[], finish', c'.script⟩ := by
  let k : Closing := ⟨closing.newlineBefore, closing.place, finish'⟩
  have hk : k.token = closing := by rw [Closing.token, ← hc]
  have settled : Settles k false (expression (rules depth) false) :=
    settles_expression (carrying_rules k depth)
  obtain ⟨_, ⟨taken, htaken, hdepth⟩, rfl, run⟩ := settled 0 _ _ t c' rfl h
  -- the group ends where the last bracket is, so that no arrow follows it
  have harrow : arrowBehindGroup (opening :: ts ++ [closing]) = false := by
    have behind : afterGroup 1 (ts ++ [closing]) = some [] := by
      rw [show ts = taken by simpa [hall] using htaken, hdepth, afterGroup_one (by rw [hc]; rfl)]
    rw [arrowBehindGroup, List.cons_append,
      afterGroup_turns (show opening.lexeme.Turns 0 1 from ho ▸ .opening 0 rfl), behind]
  have inside : expression (rules depth) false ⟨ts ++ [closing], finish', script⟩ =
      .ok t ⟨[closing], finish', c'.script⟩ := by
    have run := run nofun
    rwa [Cursor.closed, Cursor.closed, hk, hall] at run
  have group : (⟨opening :: ts ++ [closing], finish', script⟩ : Cursor).lexeme? =
      some (.punct "(") := congrArg some ho
  have close : (⟨[closing], finish', c'.script⟩ : Cursor).lexeme? = some (.punct ")") :=
    congrArg some hc
  exact expression_group group rfl harrow (primary_group group inside close)

end Grammar

open Builder (Beside)

/-- An expression from the first token on, built and read. -/
theorem expression_outcome (tokens : Tokens) (depth : Nat) (hd : tokens.list.length ≤ depth) :
    Outcome tokens (.ofTokens tokens) (.ofTokens tokens)
      (fun t id b' => Plants t id ⟨Script.empty.nodes, b'.script.names⟩ b'.script)
      (Build.expression (.ofTokens tokens))
      (Grammar.expression (Grammar.rules depth) false (.ofTokens tokens)) := by
  have beside : Beside tokens (.ofTokens tokens) (.ofTokens tokens) :=
    (Builder.inBounds_ofTokens tokens).beside
  have run := Building.parse_outcome .expression beside nofun (Nat.le_refl _) hd
  exact run.imp fun _ _ _ _ _ h => h.2 _ (.refl _)

/-- A builder has taken all tokens where the reader beside it has. -/
theorem Builder.Beside.position_of_nil {ts : Tokens} {b : Builder} {c : Cursor}
    (h : Beside ts b c) (hc : c.ahead = []) : b.position = ts.list.length := by
  rw [← h.length_ahead, ← h.ahead, hc]
  rfl

/-- Parentheses around an expression do not show in what is built: if a builder takes all tokens
for an expression, it also does so with parentheses around them, and gives the same node, in a
script with the same nodes and the same names. -/
theorem expression_parenthesized (opening closing : Token) (finish' : Text.Place)
    {ts : List Token} {finish : Text.Place} {id : NodeId} {b : Builder}
    (ho : opening.lexeme = .punct "(") (hc : closing.lexeme = .punct ")")
    (h : Build.expression (.ofTokens ⟨ts, finish⟩) = .ok id b) (hall : b.position = ts.length) :
    ∃ b', Build.expression (.ofTokens ⟨opening :: ts ++ [closing], finish'⟩) = .ok id b' ∧
      b'.position = (opening :: ts ++ [closing]).length ∧ b'.script = b.script := by
  -- one more level than the tokens need, so that the same rules serve inside the parentheses
  have bare := expression_outcome ⟨ts, finish⟩ (ts.length + 1) (Nat.le_succ _)
  have full := expression_outcome ⟨opening :: ts ++ [closing], finish'⟩ (ts.length + 2) (by simp)
  rw [h] at bare
  cases hq : Grammar.expression (Grammar.rules (ts.length + 1)) false (.ofTokens ⟨ts, finish⟩)
  case error => rw [hq] at bare; exact bare.elim
  case ok t c' =>
    rw [hq] at bare
    obtain ⟨moved, planted⟩ := bare
    have taken : c'.ahead = [] := by
      rw [moved.beside.ahead, Builder.ahead, moved.beside.tokens]
      exact List.drop_eq_nil_of_le (Nat.le_of_eq hall.symm)
    have read : Grammar.expression (Grammar.rules (ts.length + 2)) false
        ⟨opening :: ts ++ [closing], finish', .empty⟩ = .ok t ⟨[], finish', c'.script⟩ :=
      Grammar.read_group ho hc hq taken
    rw [Cursor.ofTokens, read] at full
    cases hp : Build.expression (.ofTokens ⟨opening :: ts ++ [closing], finish'⟩)
    case error => rw [hp] at full; exact full.elim
    case ok id' b' =>
      rw [hp] at full
      obtain ⟨moved', planted'⟩ := full
      -- both plant the same tree, with the same names
      have names : b'.script.names = b.script.names :=
        moved'.beside.names.symm.trans moved.beside.names
      rw [names] at planted'
      obtain ⟨rfl, same⟩ := Prod.mk.inj (planted'.symm.trans planted)
      exact ⟨b', rfl, moved'.beside.position_of_nil rfl, same⟩

/-- A function whose body ends in front of the bracket: the tokens of `x => x + 1`. -/
def successor : List Token :=
  [⟨.word "x", false, ⟨1, 2⟩⟩, ⟨.punct "=>", false, ⟨1, 4⟩⟩, ⟨.word "x", false, ⟨1, 7⟩⟩,
    ⟨.punct "+", false, ⟨1, 9⟩⟩, ⟨.number "1", false, ⟨1, 11⟩⟩]

theorem expression_parenthesized_successor :
    ∃ id b b', Build.expression (.ofTokens ⟨successor, ⟨1, 12⟩⟩) = .ok id b ∧
      b.position = successor.length ∧
      Build.expression (.ofTokens ⟨⟨.punct "(", false, ⟨1, 1⟩⟩ :: successor ++
        [⟨.punct ")", false, ⟨1, 12⟩⟩], ⟨1, 13⟩⟩) = .ok id b' ∧
      b'.position = successor.length + 2 ∧ b'.script = b.script := by
  have run : ∃ id b, Build.expression (.ofTokens ⟨successor, ⟨1, 12⟩⟩) = .ok id b ∧
      b.position = successor.length := ⟨_, _, rfl, rfl⟩
  obtain ⟨id, b, h, hall⟩ := run
  obtain ⟨b', h', hall', same⟩ := expression_parenthesized ⟨.punct "(", false, ⟨1, 1⟩⟩
    ⟨.punct ")", false, ⟨1, 12⟩⟩ ⟨1, 13⟩ rfl rfl h hall
  exact ⟨id, b, b', h, hall, h', hall', same⟩

end Graft
