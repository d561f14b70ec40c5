import Graft.Proofs.Building.Statement

/-!
# What a rule of a builder makes of a state

Every rule for a statement or an expression ends behind a token that it took or at a token that it
refuses, among the tokens. However deep the rules are beyond the number of tokens ahead, the answer
is the same.

* `Parse` - the rules by name
* `builds_parse` - a rule from anywhere among the tokens
* `parse_sameAnswer` - rules of two depths
-/

namespace Graft

open Builder (Beside Leads)

namespace Builder

/-- A builder that stands at a token or at the end. -/
def InBounds (b : Builder) : Prop :=
  b.position ≤ b.tokens.list.length

/-- The reader that stands where a builder stands. -/
def cursor (b : Builder) : Cursor :=
  ⟨b.ahead, b.tokens.finish, b.script⟩

theorem InBounds.beside {b : Builder} (h : b.InBounds) : Beside b.tokens b b.cursor :=
  ⟨rfl, h, rfl, rfl, rfl⟩

theorem inBounds_ofTokens (tokens : Tokens) : (ofTokens tokens).InBounds :=
  Nat.zero_le _

/-- A builder that has moved on, or not at all, among the same tokens. -/
structure Stays (b b' : Builder) : Prop where
  tokens : b'.tokens = b.tokens
  position_le : b.position ≤ b'.position
  inBounds : b'.InBounds

theorem Stays.trans {b b' b'' : Builder} (h : b.Stays b') (h' : b'.Stays b'') : b.Stays b'' :=
  ⟨h'.tokens.trans h.tokens, Nat.le_trans h.position_le h'.position_le, h'.inBounds⟩

theorem Stays.length_ahead_le {b b' : Builder} (h : b.Stays b') :
    b'.ahead.length ≤ b.ahead.length := by
  rw [b.length_ahead, b'.length_ahead, h.tokens]
  exact Nat.sub_le_sub_left h.position_le _

/-- A run that takes a token, or ends at one that it refuses. -/
def Advances {α : Type} (b : Builder) : EStateM.Result SourceError Builder α → Prop
  | .ok _ b' => b.Stays b' ∧ b.position < b'.position
  | .error e b' => b.Stays b' ∧ e.PointsAt b.tokens

/-- A run that takes all tokens, or ends at one that it refuses. -/
def Finishes {α : Type} (b : Builder) : EStateM.Result SourceError Builder α → Prop
  | .ok _ b' => b.Stays b' ∧ b'.position = b.tokens.list.length
  | .error e b' => b.Stays b' ∧ e.PointsAt b.tokens

/-- Two runs that give the same, or refuse the same token in the same words. -/
def SameAnswer {α : Type} : EStateM.Result SourceError Builder α →
    EStateM.Result SourceError Builder α → Prop
  | .ok a b, .ok a' b' => a = a' ∧ b = b'
  | .error e b, .error e' b' => e = e' ∧ b.position = b'.position
  | _, _ => False

end Builder

/-! ## Rules by name -/

/-- The rules for statements and for the levels of expressions. -/
inductive Parse where
  | statement
  | block
  | expression
  | assignment
  | conditional
  | binary (level : Precedence)
  | unary
  | access
  | construction
  | primary
deriving Repr, DecidableEq

namespace Parse

/-- Whether the rule is for statements, which are read only where `in` is an operator. -/
def isForStatements : Parse → Bool
  | statement | block => true
  | _ => false

/-- The rule of a builder. -/
def build (inner : BuildRules) : Parse → Build NodeId
  | statement => Building.statement inner
  | block => Building.block inner
  | expression => Building.expression inner
  | assignment => Building.assignment inner
  | conditional => Building.conditional inner
  | binary level => Building.binary inner level
  | unary => Building.unary inner
  | access => Building.access inner
  | construction => Building.construction inner
  | primary => Building.primary inner

/-- The rule of a reader. -/
def read (inner : Rules) (noIn : Bool) : Parse → Read Reading
  | statement => Grammar.statement inner
  | block => Grammar.block inner
  | expression => Grammar.expression inner noIn
  | assignment => Grammar.assignment inner noIn
  | conditional => Grammar.conditional inner noIn
  | binary level => Grammar.binary inner noIn level
  | unary => Grammar.unary inner
  | access => Grammar.access inner
  | construction => Grammar.construction inner
  | primary => Grammar.primary inner

end Parse

namespace Building

variable {ts : Tokens} {noIn : Bool} {most : Nat} {inner' : BuildRules} {inner : Rules}

theorem mirrors_parse (h : Mirrored ts most inner' inner) (parse : Parse)
    (hn : parse.isForStatements → noIn = false) :
    Mirrors ts noIn most true Anywhere (parse.build inner') (parse.read inner noIn) always
      Plants := by
  cases parse with
  | statement => exact hn rfl ▸ mirrors_statement h
  | block => exact hn rfl ▸ mirrors_block h
  | expression => exact mirrors_expression h
  | assignment => exact mirrors_assignment h
  | conditional => exact mirrors_conditional h
  | binary level => exact mirrors_binary h level
  | unary => exact mirrors_unary h
  | access => exact mirrors_access h
  | construction => exact mirrors_construction h
  | primary => exact mirrors_primary h

/-- A rule takes the same steps as its reader, whatever depth each of them has beyond the number of
tokens ahead. -/
theorem parse_outcome (parse : Parse) {b : Builder} {c : Cursor} (hb : Beside ts b c)
    (hn : parse.isForStatements → b.noIn = false) {depth depth' : Nat}
    (hd : b.ahead.length ≤ depth) (hd' : b.ahead.length ≤ depth') :
    Outcome ts b c (fun t id b' => b.position + 1 ≤ b'.position ∧
      ∀ names, b'.script.names.Within names →
        Plants t id ⟨b.script.nodes, names⟩ ⟨b'.script.nodes, names⟩)
      (parse.build (rules depth) b) (parse.read (Grammar.rules depth') b.noIn c) :=
  mirrors_parse (mirrored_rules hd hd') parse hn b c hb trivial rfl (Nat.lt_succ_self _)

theorem stays_of_moved {b b' : Builder} {c c' : Cursor} (hb : b.tokens = ts)
    (h : Moved ts b b' c c') : b.Stays b' where
  tokens := h.beside.tokens.trans hb.symm
  position_le := h.leads.position_le
  inBounds := by
    rw [Builder.InBounds, h.beside.tokens]
    exact h.beside.position_le

/-- What a reader leaves is the end of what it had. -/
theorem suffix_of_read (parse : Parse) {c c' : Cursor} {t : Reading} {depth : Nat}
    (hn : parse.isForStatements → noIn = false) (hd : c.ahead.length ≤ depth)
    (h : parse.read (Grammar.rules depth) noIn c = .ok t c') : c'.ahead <:+ c.ahead := by
  have hb : Beside ⟨c.ahead, c.finish⟩ ⟨⟨c.ahead, c.finish⟩, 0, noIn, c.script⟩ c :=
    ⟨rfl, Nat.zero_le _, rfl, rfl, rfl⟩
  have run := parse_outcome parse hb hn hd hd
  rw [h] at run
  cases hp : parse.build (rules depth) _ <;> rw [hp] at run
  case ok id b' =>
    rw [run.1.beside.ahead, Builder.ahead, run.1.beside.tokens]
    exact List.drop_suffix _ _
  case error => exact run.elim

/-- What a rule makes of a state: a tree that is planted behind tokens that it took, or a refusal of
a token. -/
def Builds (b : Builder) : EStateM.Result SourceError Builder NodeId → Prop
  | .ok id b' => b.Stays b' ∧ b.Leads b' ∧ b.position < b'.position ∧
    ∃ t, Plants t id ⟨b.script.nodes, b'.script.names⟩ b'.script
  | .error e b' => b.Stays b' ∧ b.Leads b' ∧ e.PointsAt b.tokens

theorem builds_of_outcome {b : Builder} {c : Cursor} (hb : b.tokens = ts)
    {out : EStateM.Result SourceError Builder NodeId}
    {read : EStateM.Result SourceError Cursor Reading}
    (h : Outcome ts b c (fun t id b' => b.position + 1 ≤ b'.position ∧
      ∀ names, b'.script.names.Within names →
        Plants t id ⟨b.script.nodes, names⟩ ⟨b'.script.nodes, names⟩) out read) :
    Builds b out := by
  cases out <;> cases read
  case ok.ok =>
    exact ⟨stays_of_moved hb h.1, h.1.leads, h.2.1, _, h.2.2 _ (.refl _)⟩
  case error.error => exact ⟨stays_of_moved hb h.2.2, h.2.2.leads, hb ▸ h.2.1⟩
  all_goals exact h.elim

/-- A rule from anywhere among the tokens. -/
theorem builds_parse (parse : Parse) {b : Builder} (hb : b.InBounds)
    (hn : parse.isForStatements → b.noIn = false) {depth : Nat} (hd : b.ahead.length ≤ depth) :
    Builds b (parse.build (rules depth) b) :=
  builds_of_outcome rfl (parse_outcome parse hb.beside hn hd hd)

theorem advances_of_builds {b : Builder} {out : EStateM.Result SourceError Builder NodeId}
    (h : Builds b out) : b.Advances out := by
  cases out with
  | ok id b' => exact ⟨h.1, h.2.2.1⟩
  | error e b' => exact ⟨h.1, h.2.2⟩

end Building

/-! ## Depth -/

/-- Builders at the same place beside a reader. -/
theorem Builder.Beside.position_eq {ts : Tokens} {b b' : Builder} {c : Cursor}
    (h : Beside ts b c) (h' : Beside ts b' c) : b.position = b'.position := by
  have := h.length_ahead
  have := h'.length_ahead
  have : b.ahead.length = b'.ahead.length := by rw [← h.ahead, ← h'.ahead]
  omega

/-- What is stored and said follows from what the reader gives and says. -/
theorem Outcome.sameAnswer {ts : Tokens} {b : Builder} {c : Cursor}
    {out out' : EStateM.Result SourceError Builder NodeId}
    {read : EStateM.Result SourceError Cursor Reading} {good : Reading → NodeId → Builder → Prop}
    (h : Outcome ts b c good out read) (h' : Outcome ts b c good out' read)
    (hgood : ∀ t id b', good t id b' → Plants t id ⟨b.script.nodes, b'.script.names⟩ b'.script) :
    Builder.SameAnswer out out' := by
  cases out <;> cases out' <;> cases read
  case ok.ok.ok id b' id' b'' t c' =>
    have hp := hgood _ _ _ h.2
    have hp' := hgood _ _ _ h'.2
    have names : b'.script.names = b''.script.names :=
      h.1.beside.names.symm.trans h'.1.beside.names
    have same : (id, b'.script) = (id', b''.script) := by rw [← hp, ← hp', names]
    obtain ⟨hid, hs⟩ := Prod.mk.inj same
    refine ⟨hid, ?_⟩
    obtain ⟨tokens, position, noIn, script⟩ := b'
    obtain ⟨tokens', position', noIn', script'⟩ := b''
    have ht : tokens = tokens' := h.1.beside.tokens.trans h'.1.beside.tokens.symm
    have hpos : position = position' := h.1.beside.position_eq h'.1.beside
    have hn : noIn = noIn' := h.1.leads.noIn.trans h'.1.leads.noIn.symm
    have hs : script = script' := hs
    rw [ht, hpos, hn, hs]
  case error.error.error =>
    exact ⟨h.1.trans h'.1.symm, h.2.2.beside.position_eq h'.2.2.beside⟩
  all_goals first
    | exact h.elim
    | exact h'.elim

theorem Building.parse_sameAnswer (parse : Parse) {b : Builder} (hb : b.InBounds)
    (hn : parse.isForStatements → b.noIn = false) {depth depth' : Nat}
    (hd : b.ahead.length ≤ depth) (hd' : b.ahead.length ≤ depth') :
    Builder.SameAnswer (parse.build (rules depth) b) (parse.build (rules depth') b) :=
  (parse_outcome parse hb.beside hn hd hd).sameAnswer (parse_outcome parse hb.beside hn hd' hd)
    fun _ _ _ h => h.2 _ (.refl _)

end Graft
