import Graft.Proofs.Building.Parse
import Graft.Proofs.Roundtrip.Operand

/-!
# Operators by their precedence

Operands that are joined by operators are read as a tree in which every operator stands above those
that bind more tightly, and equals are grouped to the left, exponentiations alone to the right.
This tree is found by adding an operator and its operand at the right end of a tree, as far down as
the operators there allow. A reader finds every tree of the kind from what it reads in order; so
there is only one for each order.

* `Reading.inOrder` - operands and operators from left to right
* `Reading.Ranked` - every operator has operands that bind as tightly as it asks
* `Reading.ranked_add` - a further operator with its operand
* `takes_binary_of_ranked` - a reader finds what is ranked
* `ranked_binary` - operands joined by operators have one ranked tree, which is read
-/

namespace Graft

open Read Grammar
open Reading (of)

/-! ## Operators -/

namespace Grammar.Infix

/-- How an operator is spelled. -/
def lexeme : Infix → Lexeme
  | .binary .isIn => .word "in"
  | .binary .instanceOf => .word "instanceof"
  | .binary op => .punct op.text
  | .logical op => .punct op.text

theorem ofLexeme?_lexeme (op : Infix) : ofLexeme? false op.lexeme = some op := by
  rcases op with op | op <;> cases op <;> decide

/-- How tightly the operators of the left operand have to bind. -/
def leftLevel (op : Infix) : Precedence :=
  if op = .binary .exp then op.precedence + 1 else op.precedence

theorem rightLevel_eq (op : Infix) :
    op.rightLevel = if op = .binary .exp then op.precedence else op.precedence + 1 := by
  rcases op with op | op <;> cases op <;> rfl

/-- The one operator that groups to the right binds more tightly than all others. -/
theorem precedence_lt {op : Infix} (h : op ≠ .binary .exp) :
    op.precedence < precedence (.binary .exp) := by
  rcases op with op | op <;> cases op <;> first | decide | exact absurd rfl h

theorem precedence_le_rightLevel (op : Infix) : op.precedence ≤ op.rightLevel := by
  rw [rightLevel_eq]
  split
  · exact Nat.le_refl _
  · exact Nat.le_succ _

/-- No operator binds more loosely than this one. -/
theorem or_le_precedence (op : Infix) : LogicalOp.or.precedence ≤ op.precedence := by
  rcases op with op | op <;> cases op <;> decide

/-- An operator ends the right operand of another one just if the other one may be at the root of
its left operand. -/
theorem precedence_lt_rightLevel_iff (op other : Infix) :
    op.precedence < other.rightLevel ↔ op.leftLevel ≤ other.precedence := by
  rw [rightLevel_eq, leftLevel]
  by_cases h : op = .binary .exp <;> by_cases h' : other = .binary .exp
  · simp [h, h']
  · have := precedence_lt h'
    rw [if_pos h, if_neg h', Nat.lt_succ_iff, h]
    exact iff_of_false (Nat.not_le.2 this) (Nat.not_le.2 (Nat.lt_succ_of_lt this))
  · have := precedence_lt h
    rw [if_neg h, if_pos h', h']
    exact iff_of_true this this.le
  · rw [if_neg h, if_neg h', Nat.lt_succ_iff]

end Grammar.Infix

/-! ## Trees of operators -/

/-- What an expression is made of where it is read in order: operators, and operands, which have no
operator at their roots. -/
inductive Constituent where
  | operand (t : Reading)
  | operator (op : Infix)

namespace Reading

/-- The operator at the root of a tree with its operands. -/
def infix? : Reading → Option (Infix × Reading × Reading)
  | .mk _ (.binary op lhs rhs) => some (.binary op, lhs, rhs)
  | .mk _ (.logical op lhs rhs) => some (.logical op, lhs, rhs)
  | _ => none

/-- Operands and operators from left to right. -/
def inOrder : Reading → List Constituent
  | .mk _ (.binary op lhs rhs) => inOrder lhs ++ .operator (.binary op) :: inOrder rhs
  | .mk _ (.logical op lhs rhs) => inOrder lhs ++ .operator (.logical op) :: inOrder rhs
  | t => [.operand t]

variable {t u lhs rhs : Reading} {op : Infix}

theorem infix?_apply (op : Infix) (lhs rhs : Reading) :
    (op.apply lhs rhs).infix? = some (op, lhs, rhs) := by
  cases op <;> rfl

theorem eq_apply_of_infix? (h : t.infix? = some (op, lhs, rhs)) : t = op.apply lhs rhs := by
  unfold infix? at h
  split at h
  · cases h; rfl
  · cases h; rfl
  · cases h

theorem inOrder_apply (op : Infix) (lhs rhs : Reading) :
    (op.apply lhs rhs).inOrder = lhs.inOrder ++ .operator op :: rhs.inOrder := by
  cases op <;> rw [Infix.apply, of, inOrder]

theorem inOrder_of_none (h : t.infix? = none) : t.inOrder = [.operand t] := by
  unfold inOrder
  split
  · cases h
  · cases h
  · rfl

/-- What holds of operands, and of an operator with its operands whenever it holds of these. -/
theorem infix_induct {motive : Reading → Prop} (operand : ∀ t, t.infix? = none → motive t)
    (joined : ∀ (op : Infix) lhs rhs, motive lhs → motive rhs → motive (op.apply lhs rhs))
    (t : Reading) :
    motive t := by
  induction t using Tree.induct with
  | step t ih =>
    cases h : infix? t with
    | none => exact operand t h
    | some found =>
      obtain ⟨op, lhs, rhs⟩ := found
      obtain rfl := eq_apply_of_infix? h
      refine joined op lhs rhs (ih lhs ?_) (ih rhs ?_) <;> cases op <;>
        simp [Infix.apply, of, Tree.children, Tree.node, Node.children]

/-- How tightly the operator at the root binds, if there is one. -/
def rank? (t : Reading) : Option Precedence :=
  t.infix?.map (·.1.precedence)

theorem rank?_apply (op : Infix) (lhs rhs : Reading) :
    (op.apply lhs rhs).rank? = some op.precedence := by
  rw [rank?, infix?_apply]
  rfl

/-- Whether an operator may stand above two operands: no operator at the root of one of them binds
more loosely, and one that binds as tightly is on the left, or on the right of an exponentiation. -/
def Ranks (op : Infix) (lhs rhs : Reading) : Prop :=
  if op = .binary .exp then
    (∀ p ∈ lhs.rank?, op.precedence < p) ∧ ∀ p ∈ rhs.rank?, op.precedence ≤ p
  else (∀ p ∈ lhs.rank?, op.precedence ≤ p) ∧ ∀ p ∈ rhs.rank?, op.precedence < p

theorem ranks_iff : Ranks op lhs rhs ↔
    (∀ p ∈ lhs.rank?, op.leftLevel ≤ p) ∧ ∀ p ∈ rhs.rank?, op.rightLevel ≤ p := by
  rw [Ranks, Infix.leftLevel, Infix.rightLevel_eq]
  split <;> rfl

/-- Whether every operator of a tree may stand above its operands. -/
def Ranked (t : Reading) : Prop :=
  ∀ u ∈ t.preorder, ∀ op lhs rhs, u = op.apply lhs rhs → Ranks op lhs rhs

theorem ranked_apply : (op.apply lhs rhs).Ranked ↔ Ranks op lhs rhs ∧ lhs.Ranked ∧ rhs.Ranked := by
  have children : (op.apply lhs rhs).children = [lhs, rhs] := by cases op <;> rfl
  rw [Ranked, Tree.forall_preorder_iff, children, List.forall_mem_cons, List.forall_mem_singleton]
  refine and_congr_left fun _ => ⟨fun h => h op lhs rhs rfl, fun h op' lhs' rhs' he => ?_⟩
  obtain ⟨rfl, rfl, rfl⟩ : op = op' ∧ lhs = lhs' ∧ rhs = rhs' := by
    have := congrArg infix? he
    simpa [infix?_apply] using this
  exact h

theorem ranked_ident (name : String) : (of (.ident name)).Ranked := by
  rw [Ranked, Tree.forall_preorder_iff]
  refine ⟨fun op lhs rhs he => ?_, by simp [of, Tree.children, Tree.node, Node.children]⟩
  have := congrArg infix? he
  rw [infix?_apply] at this
  cases this

/-! ## One more operand -/

/-- Put an operator with its right operand at the right end of a tree, below all operators that bind
more loosely. -/
def add (op : Infix) (x : Reading) : Reading → Reading
  | .mk tag (.binary other lhs rhs) =>
    if op.precedence < Infix.rightLevel (.binary other) then
      op.apply (.mk tag (.binary other lhs rhs)) x
    else .mk tag (.binary other lhs (add op x rhs))
  | .mk tag (.logical other lhs rhs) =>
    if op.precedence < Infix.rightLevel (.logical other) then
      op.apply (.mk tag (.logical other lhs rhs)) x
    else .mk tag (.logical other lhs (add op x rhs))
  | t => op.apply t x

theorem add_apply (op : Infix) (x : Reading) (other : Infix) (lhs rhs : Reading) :
    add op x (other.apply lhs rhs) =
      if op.precedence < other.rightLevel then op.apply (other.apply lhs rhs) x
      else other.apply lhs (add op x rhs) := by
  cases other <;> rw [Infix.apply, of, add] <;> rfl

theorem add_of_none {x : Reading} (h : t.infix? = none) : add op x t = op.apply t x := by
  unfold add
  split
  · cases h
  · cases h
  · rfl

theorem inOrder_add {x : Reading} (hx : x.infix? = none) (op : Infix) (t : Reading) :
    (add op x t).inOrder = t.inOrder ++ [.operator op, .operand x] := by
  induction t using infix_induct with
  | operand t h => rw [add_of_none h, inOrder_apply, inOrder_of_none hx]
  | joined other lhs rhs _ ih =>
    rw [add_apply]
    split
    · rw [inOrder_apply, inOrder_of_none hx]
    · rw [inOrder_apply, inOrder_apply, ih, List.append_assoc, List.cons_append]

/-- The root is the new operator, or it stays. -/
theorem rank?_add (op : Infix) (x t : Reading) :
    ∀ p ∈ (add op x t).rank?, p = op.precedence ∨ p ∈ t.rank? := by
  induction t using infix_induct with
  | operand t h =>
    rw [add_of_none h, rank?_apply]
    exact fun p hp => .inl (Option.some.inj hp).symm
  | joined other lhs rhs _ _ =>
    rw [add_apply]
    split
    · rw [rank?_apply]
      exact fun p hp => .inl (Option.some.inj hp).symm
    · rw [rank?_apply, rank?_apply]
      exact fun p hp => .inr hp

theorem ranked_add {x : Reading} (hx : x.infix? = none) (ranked_x : x.Ranked) (op : Infix)
    (h : t.Ranked) : (add op x t).Ranked := by
  have none : ∀ {p : Precedence → Prop}, ∀ q ∈ x.rank?, p q := by
    intro p q hq
    rw [rank?, hx] at hq
    cases hq
  induction t using infix_induct with
  | operand t ht =>
    rw [add_of_none ht]
    refine ranked_apply.2 ⟨ranks_iff.2 ⟨fun p hp => ?_, none⟩, h, ranked_x⟩
    rw [rank?, ht] at hp
    cases hp
  | joined other lhs rhs _ ih =>
    obtain ⟨ranks, left, right⟩ := ranked_apply.1 h
    rw [add_apply]
    split
    · rename_i hlt
      refine ranked_apply.2 ⟨ranks_iff.2 ⟨fun p hp => ?_, none⟩, h, ranked_x⟩
      rw [rank?_apply] at hp
      obtain rfl := Option.some.inj hp
      exact (op.precedence_lt_rightLevel_iff other).1 hlt
    · rename_i hle
      obtain ⟨hl, hr⟩ := ranks_iff.1 ranks
      refine ranked_apply.2 ⟨ranks_iff.2 ⟨hl, fun p hp => ?_⟩, left, ih right⟩
      rcases rank?_add op x rhs p hp with rfl | hp
      · exact Nat.le_of_not_lt hle
      · exact hr p hp

end Reading

/-! ## Ranked trees are read -/

/-- How an operand or an operator shows: an operand that is a name, as that word. -/
def Constituent.Marked : Constituent → Mark → Prop
  | .operand t, m => ∃ name, isReserved name = false ∧ t = of (.ident name) ∧ m.1 = .word name
  | .operator op, m => m.1 = op.lexeme

/-- Whether no member, call or update operator follows. -/
def OperandEnds (rest : List Mark) : Prop :=
  ∀ m ∈ rest.head?, m.1 ∉ [.punct ".", .punct "[", .punct "("] ∧
    (m.1 ∈ [.punct "++", .punct "--"] → m.2 = true)

variable {t : Reading} {op : Infix} {d level : Nat} {before rest : List Mark} {inner : Rules}

theorem operandEnds_operator (op : Infix) (fresh : Bool) (rest : List Mark) :
    OperandEnds ((op.lexeme, fresh) :: rest) := by
  have apart : op.lexeme ∉ [.punct ".", .punct "[", .punct "("] ∧
      op.lexeme ∉ [.punct "++", .punct "--"] := by
    rcases op with op | op <;> cases op <;> decide
  intro m hm
  obtain rfl := Option.some.inj hm
  exact ⟨apart.1, fun h => absurd h apart.2⟩

namespace OperandEnds

theorem front_ne (h : OperandEnds rest) {l : Lexeme}
    (hl : l ∈ [.punct ".", .punct "[", .punct "("]) : front? rest ≠ some l := by
  intro hf
  obtain ⟨m, hm, rfl⟩ := Option.map_eq_some_iff.1 hf
  exact (h m hm).1 hl

theorem takes_accessSuffix (h : OperandEnds rest) (base : Reading) :
    Takes (accessSuffix inner base) rest none rest := by
  have point := takes_eatPunct_of_ne "." (h.front_ne (by decide))
  have bracket := takes_eatPunct_of_ne "[" (h.front_ne (by decide))
  have member : Takes (memberSuffix inner base) rest none rest :=
    point.bind (.neg nofun (bracket.bind (.neg nofun (.pure _ _))))
  exact member.bind (.not_punct (h.front_ne (by decide)) (.pure _ _))

/-- An update operator that follows stands on a new line. -/
theorem exists_fresh (h : OperandEnds rest) {op : UpdateOp}
    (hop : (front? rest).bind updateOp? = some op) :
    ∃ m ms, rest = m :: ms ∧ m.2 = true := by
  obtain ⟨l, hf, hl⟩ := Option.bind_eq_some_iff.1 hop
  obtain ⟨m, hm, rfl⟩ := Option.map_eq_some_iff.1 hf
  obtain ⟨ms, rfl⟩ := List.head?_eq_some_iff.1 hm
  refine ⟨m, ms, rfl, (h m rfl).2 ?_⟩
  cases he : m.1 with
  | punct p =>
    rw [he] at hl
    have hp := List.find?_some hl
    obtain rfl : op.text = p := by simpa using hp
    cases op <;> decide
  | _ => rw [he] at hl; cases hl

end OperandEnds

/-- A name is read as an operand. -/
theorem takes_ident {name : String} {fresh : Bool} (free : isReserved name = false)
    (ends : OperandEnds rest) :
    Takes (unary inner) ((.word name, fresh) :: rest) (of (.ident name)) rest := by
  have no_new : front? ((.word name, fresh) :: rest) ≠ some (.word "new") := by
    rintro ⟨⟩
    exact absurd free (by decide)
  have operand : Takes (access inner) ((.word name, fresh) :: rest) (of (.ident name)) rest := by
    refine (takes_isWord "new" _).bind (.neg (by simpa using no_new) ?_)
    refine Takes.bind (takes_next _ _ fun place => takes_wordOperand free) ?_
    exact takes_grow (.refl _ _) (ends.takes_accessSuffix _)
  have no_sign : (front? ((.word name, fresh) :: rest)).bind unaryOp? = none :=
    unaryOp?_of_free free
  have no_update : (front? ((.word name, fresh) :: rest)).bind updateOp? = none := rfl
  refine (takes_lexeme? _).bind ?_
  rw [no_sign, no_update]
  refine operand.bind ((takes_lexeme? rest).bind ?_)
  cases hop : (front? rest).bind updateOp? with
  | none => exact .pure _ _
  | some op =>
    -- An update operator on a new line belongs to what follows.
    obtain ⟨m, ms, rfl, fresh⟩ := ends.exists_fresh hop
    exact (takes_newlineAhead m ms).bind (.neg (by simp [fresh]) (.pure _ _))

/-- What a sequence is shown by falls apart where the sequence does. -/
theorem exists_marks_append {cs cs' : List Constituent} {ms : List Mark}
    (h : List.Forall₂ Constituent.Marked (cs ++ cs') ms) : ∃ before after, ms = before ++ after ∧
      List.Forall₂ Constituent.Marked cs before ∧ List.Forall₂ Constituent.Marked cs' after := by
  induction cs generalizing ms with
  | nil => exact ⟨[], ms, rfl, .nil, h⟩
  | cons c cs ih =>
    obtain ⟨m, ms, hm, hms, rfl⟩ := List.forall₂_cons_left_iff.1 h
    obtain ⟨before, after, rfl, hb, ha⟩ := ih hms
    exact ⟨m :: before, after, rfl, .cons hm hb, ha⟩

/-- Whether an operator in front ends all operands of a tree. -/
def InfixEnds (t : Reading) (rest : List Mark) : Prop :=
  ∀ op ∈ (front? rest).bind (Infix.ofLexeme? false), ∀ p ∈ t.rank?, op.leftLevel ≤ p

/-- A ranked tree stops where an operator follows that asks for less than its root. -/
theorem takes_infixSuffix_none_of_rank (h : ∀ op ∈ (front? rest).bind (Infix.ofLexeme? false),
    op.precedence < level) (lhs : Reading) :
    Takes (infixSuffix inner false level lhs) rest none rest := by
  refine (takes_lexeme? rest).bind ?_
  cases hop : (front? rest).bind (Infix.ofLexeme? false) with
  | none => exact .pure _ _
  | some op => exact .pos (h op hop) (.pure _ _)

/-- A tree in which every operator binds as tightly as a level asks grows from its first operand,
operator by operator. -/
theorem joined_of_ranked (ranked : t.Ranked)
    (shown : List.Forall₂ Constituent.Marked t.inOrder before)
    (tight : ∀ p ∈ t.rank?, level ≤ p) (ends : OperandEnds rest) (stops : InfixEnds t rest)
    (deep : (before ++ rest).length ≤ d) :
    Joined (Takes (unary (rules d))) (infixSuffix (rules d) false level) (before ++ rest) t
      rest := by
  induction t using Reading.infix_induct generalizing level before rest d with
  | operand t h =>
    rw [Reading.inOrder_of_none h] at shown
    obtain ⟨⟨l, fresh⟩, ms, ⟨name, free, rfl, hl⟩, hms, rfl⟩ := List.forall₂_cons_left_iff.1 shown
    obtain rfl : l = .word name := hl
    obtain rfl := List.forall₂_nil_left_iff.1 hms
    exact ⟨_, rest, takes_ident free ends, .refl _ rest⟩
  | joined op lhs rhs left right =>
    obtain ⟨ranks, ranked_lhs, ranked_rhs⟩ := Reading.ranked_apply.1 ranked
    obtain ⟨tight_lhs, tight_rhs⟩ := Reading.ranks_iff.1 ranks
    have level_le : level ≤ op.precedence := tight _ (by rw [Reading.rank?_apply]; rfl)
    have ends_op : ∀ other ∈ (front? rest).bind (Infix.ofLexeme? false),
        other.leftLevel ≤ op.precedence :=
      fun other ho => stops other ho _ (by rw [Reading.rank?_apply]; rfl)
    rw [Reading.inOrder_apply] at shown
    obtain ⟨first, behind, rfl, shown_lhs, shown_behind⟩ := exists_marks_append shown
    obtain ⟨⟨l, fresh⟩, second, hl, shown_rhs, rfl⟩ := List.forall₂_cons_left_iff.1 shown_behind
    obtain rfl : l = op.lexeme := hl
    rw [List.append_assoc, List.cons_append] at deep ⊢
    have level_le_left : op.precedence ≤ op.leftLevel := by
      unfold Infix.leftLevel
      split
      · exact Nat.le_succ _
      · exact Nat.le_refl _
    obtain ⟨start, between, hstart, grown⟩ := left ranked_lhs shown_lhs
      (fun p hp => (level_le.trans level_le_left).trans (tight_lhs p hp))
      (operandEnds_operator op fresh (second ++ rest))
      (fun other ho p hp => by
        obtain rfl : op = other := by
          have found : Infix.ofLexeme? false op.lexeme = some other := ho
          rw [Infix.ofLexeme?_lexeme] at found
          exact Option.some.inj found
        exact tight_lhs p hp) deep
    refine ⟨start, between, hstart, grown.concat ?_ ?_⟩
    · obtain ⟨e, rfl, he⟩ := exists_depth_behind deep
      have operand : Takes (Grammar.binary (rules e) false op.rightLevel) (second ++ rest) rhs
          rest := by
        have joined := right ranked_rhs shown_rhs tight_rhs ends (fun other ho p hp =>
          ((ends_op other ho).trans op.precedence_le_rightLevel).trans (tight_rhs p hp)) he
        obtain ⟨start, between, hstart, grown⟩ := joined
        refine hstart.bind (takes_grow grown (takes_infixSuffix_none_of_rank ?_ _))
        exact fun other ho => (other.precedence_lt_rightLevel_iff op).2 (ends_op other ho)
      refine (takes_lexeme? _).bind ?_
      have found : (front? ((op.lexeme, fresh) :: (second ++ rest))).bind
          (Infix.ofLexeme? false) = some op := op.ofLexeme?_lexeme
      rw [found]
      refine .neg (Nat.not_lt.2 level_le) ((takes_discard_next _ _).bind ?_)
      exact operand.bind (.pure _ _)
    · rw [List.length_cons, List.length_append]
      omega

/-- A reader finds every ranked tree in what it shows, up to what does not go on with it. -/
theorem takes_binary_of_ranked (ranked : t.Ranked)
    (shown : List.Forall₂ Constituent.Marked t.inOrder before) (ends : OperandEnds rest)
    (stops : (front? rest).bind (Infix.ofLexeme? false) = none)
    (deep : (before ++ rest).length ≤ d) :
    Takes (Grammar.binary (rules d) false LogicalOp.or.precedence) (before ++ rest) t rest := by
  have loosest : ∀ p ∈ t.rank?, LogicalOp.or.precedence ≤ p := by
    intro p hp
    obtain ⟨⟨op, lhs, rhs⟩, -, rfl⟩ := Option.map_eq_some_iff.1 hp
    exact op.or_le_precedence
  have nothing : ∀ op ∈ (front? rest).bind (Infix.ofLexeme? false), False := by
    rw [stops]
    nofun
  obtain ⟨first, between, hfirst, grown⟩ := joined_of_ranked ranked shown loosest ends
    (fun op ho => (nothing op ho).elim) deep
  refine hfirst.bind (takes_grow grown (takes_infixSuffix_none_of_rank ?_ t))
  exact fun op ho => (nothing op ho).elim

/-! ## Names joined by operators -/

/-- Names with operators between them. -/
structure NameChain where
  first : String
  further : List (Infix × String)
  free : isReserved first = false ∧ ∀ link ∈ further, isReserved link.2 = false

namespace NameChain

/-- Names and operators, as they are in a tree. -/
def constituents (chain : NameChain) : List Constituent :=
  .operand (of (.ident chain.first)) ::
    chain.further.flatMap fun link => [.operator link.1, .operand (of (.ident link.2))]

/-- Names and operators, as they are spelled. -/
def lexemes (chain : NameChain) : List Lexeme :=
  .word chain.first :: chain.further.flatMap fun link => [link.1.lexeme, .word link.2]

/-- The tree that every operator with its name enters at the right end. -/
def tree (chain : NameChain) : Reading :=
  chain.further.foldl (fun t link => Reading.add link.1 (of (.ident link.2)) t)
    (of (.ident chain.first))

theorem tree_spec (chain : NameChain) :
    chain.tree.inOrder = chain.constituents ∧ chain.tree.Ranked := by
  have grown : ∀ (further : List (Infix × String)) (t : Reading), t.Ranked →
      let u := further.foldl (fun t link => Reading.add link.1 (of (.ident link.2)) t) t
      u.inOrder = t.inOrder ++ further.flatMap
        (fun link => [.operator link.1, .operand (of (.ident link.2))]) ∧ u.Ranked := by
    intro further
    induction further with
    | nil => exact fun t h => ⟨(List.append_nil _).symm, h⟩
    | cons link further ih =>
      intro t h
      obtain ⟨order, ranked⟩ := ih _ (Reading.ranked_add rfl (Reading.ranked_ident link.2) link.1 h)
      refine ⟨order.trans ?_, ranked⟩
      rw [Reading.inOrder_add rfl, List.append_assoc, List.flatMap_cons]
  obtain ⟨order, ranked⟩ := grown chain.further _ (Reading.ranked_ident chain.first)
  exact ⟨order.trans rfl, ranked⟩

theorem shown (chain : NameChain) {ms : List Mark} (h : ms.map Prod.fst = chain.lexemes) :
    List.Forall₂ Constituent.Marked chain.constituents ms := by
  have links : ∀ (further : List (Infix × String)) (ms : List Mark),
      (∀ link ∈ further, isReserved link.2 = false) →
      ms.map Prod.fst = further.flatMap (fun link => [link.1.lexeme, .word link.2]) →
      List.Forall₂ Constituent.Marked (further.flatMap fun link =>
        [.operator link.1, .operand (of (.ident link.2))]) ms := by
    intro further
    induction further with
    | nil =>
      intro ms _ h
      obtain rfl := List.map_eq_nil_iff.1 h
      exact .nil
    | cons link further ih =>
      intro ms free h
      obtain ⟨op, ms, rfl, hop, h⟩ := List.map_eq_cons_iff.1 h
      obtain ⟨name, ms, rfl, hname, h⟩ := List.map_eq_cons_iff.1 h
      obtain ⟨free_link, free⟩ := List.forall_mem_cons.1 free
      exact .cons hop (.cons ⟨link.2, free_link, rfl, hname⟩ (ih ms free h))
  obtain ⟨name, ms, rfl, hname, h⟩ := List.map_eq_cons_iff.1 h
  exact .cons ⟨chain.first, chain.free.1, rfl, hname⟩ (links chain.further ms chain.free.2 h)

/-- Two ranked trees of the same names and operators are read from the same tokens. -/
theorem eq_of_ranked (chain : NameChain) {u : Reading} (ht : t.inOrder = chain.constituents)
    (hu : u.inOrder = chain.constituents) (ranked_t : t.Ranked) (ranked_u : u.Ranked) : u = t := by
  have spelled : (chain.lexemes.map fun l => ((l, false) : Mark)).map Prod.fst = chain.lexemes := by
    rw [List.map_map]
    exact List.map_id _
  have shown := chain.shown spelled
  have read : ∀ {v : Reading}, v.inOrder = chain.constituents → v.Ranked → Takes
      (Grammar.binary (rules _) false LogicalOp.or.precedence) (_ ++ []) v [] :=
    fun hv ranked => takes_binary_of_ranked ranked (hv ▸ shown) nofun rfl (Nat.le_refl _)
  exact (read hu ranked_u).unique (read ht ranked_t)

end NameChain

/-- Names joined by operators are read, as the one tree of them in which every operator binds more
loosely than those below it, or as tightly where it groups. What follows is no operator and does not
go on with the last name. -/
theorem ranked_binary (chain : NameChain) {c : Cursor} {joined behind : List Token} {depth : Nat}
    (ahead : c.ahead = joined ++ behind) (spelled : joined.map (·.lexeme) = chain.lexemes)
    (stops : ∀ token ∈ behind.head?, Infix.ofLexeme? false token.lexeme = none)
    (ends : OperandEnds (behind.map Token.mark)) (deep : c.ahead.length ≤ depth) :
    ∃ t c', Grammar.binary (rules depth) false LogicalOp.or.precedence c = .ok t c' ∧
      c'.ahead = behind ∧ t.inOrder = chain.constituents ∧ t.Ranked ∧
      ∀ u : Reading, u.inOrder = chain.constituents → u.Ranked → u = t := by
  obtain ⟨order, ranked⟩ := chain.tree_spec
  have marks : c.marks = joined.map Token.mark ++ behind.map Token.mark := by
    rw [Cursor.marks, ahead, List.map_append]
  have shown : List.Forall₂ Constituent.Marked chain.tree.inOrder (joined.map Token.mark) := by
    rw [order]
    exact chain.shown (by rw [List.map_map]; exact spelled)
  have front : (front? (behind.map Token.mark)).bind (Infix.ofLexeme? false) = none := by
    cases behind with
    | nil => rfl
    | cons token _ => exact stops token rfl
  have taken := takes_binary_of_ranked ranked shown ends front (d := depth) (by
    rwa [← marks, Cursor.marks, List.length_map])
  obtain ⟨c', run, left⟩ := taken c marks
  have left : c'.ahead = behind := by
    have suffix := Building.suffix_of_read (.binary LogicalOp.or.precedence) (by rintro ⟨⟩) deep run
    have same : c'.ahead.length = behind.length := by
      simpa [Cursor.marks] using congrArg List.length left
    rw [ahead] at suffix
    exact (List.suffix_of_suffix_length_le suffix (List.suffix_append _ _)
      same.le).eq_of_length same
  exact ⟨chain.tree, c', run, left, order, ranked, fun u hu ranked_u =>
    chain.eq_of_ranked order hu ranked ranked_u⟩

/-- The chain `a ** b ** c - d in e && f`. -/
def mixedChain : NameChain where
  first := "a"
  further := [(.binary .exp, "b"), (.binary .exp, "c"), (.binary .sub, "d"), (.binary .isIn, "e"),
    (.logical .and, "f")]
  free := by decide

/-- Tokens that are spelled as given, on one line. -/
def tokensOf (lexemes : List Lexeme) : List Token :=
  lexemes.map fun l => ⟨l, false, .start⟩

theorem ranked_binary_mixed :
    let c : Cursor := ⟨tokensOf (mixedChain.lexemes ++ [.punct ";"]), .start, .empty⟩
    c.ahead = tokensOf mixedChain.lexemes ++ tokensOf [.punct ";"] ∧
    ∃ t c', Grammar.binary (rules 12) false LogicalOp.or.precedence c = .ok t c' ∧
      c'.ahead = tokensOf [.punct ";"] ∧ t.inOrder = mixedChain.constituents ∧ t.Ranked ∧
      ∀ u : Reading, u.inOrder = mixedChain.constituents → u.Ranked → u = t := by
  intro c
  have ends : OperandEnds ((tokensOf [.punct ";"]).map Token.mark) := by
    rintro m ⟨⟩
    decide
  have ahead : c.ahead = tokensOf mixedChain.lexemes ++ tokensOf [.punct ";"] := rfl
  exact ⟨ahead, ranked_binary mixedChain ahead rfl (by rintro token ⟨⟩; rfl) ends (by decide)⟩

/-- The chain `a + b`. -/
def sumChain : NameChain :=
  ⟨"a", [(.binary .add, "b")], by decide⟩

/-- A bracket is no operator, but goes on with the last name: `a + b(c)`. -/
theorem binary_goes_on_with_call :
    let behind := tokensOf [.punct "(", .word "c", .punct ")"]
    (∀ token ∈ behind.head?, Infix.ofLexeme? false token.lexeme = none) ∧
    ¬ ∃ t c', Grammar.binary (rules 6) false LogicalOp.or.precedence
      ⟨tokensOf sumChain.lexemes ++ behind, .start, .empty⟩ = .ok t c' ∧
        (c'.ahead = behind ∨ t.inOrder = sumChain.constituents) := by
  refine ⟨by rintro token ⟨⟩; rfl, ?_⟩
  rintro ⟨t, c', run, claimed⟩
  let call : Reading := of (.call (of (.ident "b")) [of (.ident "c")])
  have all : ∃ c', Grammar.binary (rules 6) false LogicalOp.or.precedence
      ⟨tokensOf sumChain.lexemes ++ tokensOf [.punct "(", .word "c", .punct ")"], .start,
        .empty⟩ = .ok (of (.binary .add (of (.ident "a")) call)) c' ∧ c'.ahead = [] := ⟨_, rfl, rfl⟩
  obtain ⟨c'', run', none⟩ := all
  obtain ⟨rfl, rfl⟩ := EStateM.Result.ok.inj (run.symm.trans run')
  rcases claimed with left | order
  · rw [none] at left
    cases left
  · cases order

end Graft
