import Graft.Proofs.Printing.Strip
import Graft.Proofs.Roundtrip.Takes

/-!
# Levels of reading

An expression is read at one of the levels of the grammar. What is read at one level is read at all
looser ones too, unless what follows goes on with it there. How tightly a lexeme joins what stands
in front of it decides this.

* `joint`, `Halts` - how tightly the next lexeme joins
* `Plain` - no arrow function begins
* `ReadsAt` - reading at a level
* `ReadsAt.loosen` - from one level to all looser ones
-/

namespace Graft

open Read Grammar

/-! ## What follows -/

/-- One more than the loosest level at which a lexeme goes on with the expression in front of it;
zero if it does so at none. An arrow goes on with nothing that is an expression. -/
def joint (noIn : Bool) (l : Lexeme) : Nat :=
  match Infix.ofLexeme? noIn l with
  | some op => op.precedence + 1
  | none =>
    match l with
    | .punct p =>
      if p = "=>" then 18
      else if [".", "[", "("].contains p then 17
      else if ["++", "--"].contains p then 16
      else if p = "?" then 3
      else if (AssignOp.ofText? p).isSome then 2
      else if p = "," then 1
      else 0
    | _ => 0

/-- Whether what follows does not go on with an expression at a level. -/
def Halts (noIn : Bool) (level : Nat) (rest : List Mark) : Prop :=
  ∀ l ∈ front? rest, joint noIn l ≤ level

variable {noIn : Bool} {level level' : Nat} {rest : List Mark}

theorem Halts.mono (h : Halts noIn level rest) (hl : level ≤ level') : Halts noIn level' rest :=
  fun l hf => Nat.le_trans (h l hf) hl

/-- Marks that begin with a lexeme whose joint is known. -/
theorem halts_cons {m : Mark} (h : joint noIn m.1 ≤ level) : Halts noIn level (m :: rest) := by
  intro l hl
  obtain rfl := Option.some.inj hl
  exact h

theorem Halts.front_ne (h : Halts noIn level rest) {l : Lexeme} (hl : level < joint noIn l) :
    front? rest ≠ some l :=
  fun hf => absurd (h l hf) (Nat.not_le.2 hl)

/-- Only an arrow joins more tightly than members and calls. -/
theorem halts_of_ne_arrow (h : front? rest ≠ some (.punct "=>")) : Halts noIn 17 rest := by
  intro l hl
  unfold joint
  split
  · rename_i op _
    have tight : op.precedence ≤ 13 := by
      rcases op with op | op <;> cases op <;> decide
    exact Nat.le_trans (Nat.succ_le_succ tight) (by decide)
  · split
    · rename_i p _
      have hp : p ≠ "=>" := fun hp => h (hp ▸ hl)
      repeat' split
      all_goals first | exact absurd ‹_› hp | decide
    · exact Nat.zero_le _

theorem Halts.updateOp (h : Halts noIn 15 rest) : (front? rest).bind updateOp? = none := by
  cases hf : front? rest with
  | none => rfl
  | some l =>
    have hl := h l hf
    cases l with
    | punct p =>
      refine Option.eq_none_iff_forall_ne_some.2 fun op hop => ?_
      have hp := List.find?_some hop
      obtain rfl : op.text = p := by simpa using hp
      cases op <;> cases noIn <;> exact absurd hl (by decide)
    | _ => rfl

theorem Halts.operator (h : Halts noIn level rest) {op : Infix}
    (hop : (front? rest).bind (Infix.ofLexeme? noIn) = some op) : op.precedence < level := by
  obtain ⟨l, hf, hl⟩ := Option.bind_eq_some_iff.1 hop
  have := h l hf
  simp only [joint, hl] at this
  exact this

theorem Halts.assignOp (h : Halts noIn 1 rest) : (front? rest).bind assignOp? = none := by
  cases hf : front? rest with
  | none => rfl
  | some l =>
    have hl := h l hf
    cases l with
    | punct p =>
      refine Option.eq_none_iff_forall_ne_some.2 fun op hop => ?_
      have hp := List.find?_some hop
      obtain rfl : op.text = p := by simpa using hp
      cases op <;> cases noIn <;> exact absurd hl (by decide)
    | _ => rfl

/-! ## Arrow functions -/

/-- Whether no arrow function begins. -/
structure Plain (marks : List Mark) : Prop where
  word : ∀ w fresh more, marks = (.word w, fresh) :: more → isReserved w = false →
    front? more ≠ some (.punct "=>")
  group : ∀ fresh more, marks = (.punct "(", fresh) :: more →
    ∀ behind ∈ behindGroup 1 (more.map Prod.fst), behind.head? ≠ some (.punct "=>")

theorem map_afterGroup (depth : Nat) (tokens : List Token) :
    (afterGroup depth tokens).map (List.map (·.lexeme)) =
      behindGroup depth (tokens.map (·.lexeme)) := by
  induction tokens generalizing depth with
  | nil => rfl
  | cons token tokens ih =>
    obtain ⟨l, fresh, place⟩ := token
    cases l with
    | punct p =>
      have opening : ["(", "[", "\x7b"].contains p = (Lexeme.punct p).isOpening := rfl
      have closing : [")", "]", "\x7d"].contains p = (Lexeme.punct p).isClosing := rfl
      rw [List.map_cons, afterGroup.eq_def, behindGroup.eq_def]
      simp only [opening, closing]
      by_cases ho : (Lexeme.punct p).isOpening = true
      · simp [ho, ih]
      · by_cases hc : (Lexeme.punct p).isClosing = true
        · rcases depth with _ | _ | depth <;> simp [ho, hc, ih]
        · simp [ho, hc, ih]
    | _ => exact ih depth

/-- What a reader sees behind a group. -/
theorem arrowBehindGroup_iff (tokens : List Token) :
    arrowBehindGroup tokens = true ↔
      ∃ behind ∈ behindGroup 0 (tokens.map (·.lexeme)), behind.head? = some (.punct "=>") := by
  rw [← map_afterGroup, arrowBehindGroup]
  rcases afterGroup 0 tokens with _ | _ | ⟨token, tokens⟩ <;> simp

/-- The lexemes of what a reader sees. -/
theorem Cursor.map_fst_marks (c : Cursor) : c.marks.map Prod.fst = c.ahead.map (·.lexeme) := by
  rw [Cursor.marks, List.map_map]
  rfl

/-- Nothing is taken where no arrow function begins. -/
theorem takes_arrowParameters_of_plain {stream : List Mark} (h : Plain stream) :
    Takes arrowParameters stream none stream := by
  refine (takes_lexeme? stream).bind ?_
  rcases stream with _ | ⟨⟨l, fresh⟩, more⟩
  · exact .pure _ _
  · cases l with
    | word w =>
      refine (takes_second? _).bind (.neg ?_ (.pure _ _))
      intro hc
      obtain ⟨hr, hs⟩ := Bool.and_eq_true_iff.1 hc
      exact h.word w fresh more rfl (by simpa using hr) (by simpa using hs)
    | punct p =>
      by_cases hp : p = "("
      · subst hp
        refine takes_get fun c hc => .neg (fun ha => ?_) (.pure _ _)
        obtain ⟨behind, hb, harrow⟩ := (arrowBehindGroup_iff _).1 ha
        rw [← Cursor.map_fst_marks, hc, List.map_cons, behindGroup_of_isOpening _ _ rfl] at hb
        exact h.group fresh more rfl behind hb harrow
      · split
        · rename_i heq; cases heq
        · rename_i heq; exact absurd (Lexeme.punct.inj (Option.some.inj heq)) hp
        · exact .pure _ _
    | _ => exact .pure _ _

/-! ## Levels -/

variable {inner : Rules} {stream : List Mark} {t : Reading}

/-- A reader and rounds behind it in which its result grows. -/
def Joined (Q : List Mark → Reading → List Mark → Prop) (round : Reading → Read (Option Reading))
    (stream : List Mark) (t : Reading) (rest : List Mark) : Prop :=
  ∃ first between, Q stream first between ∧ Grown round first between t rest

theorem Joined.mono {Q : List Mark → Reading → List Mark → Prop}
    {round round' : Reading → Read (Option Reading)}
    (himp : ∀ a before b after, Takes (round a) before (some b) after →
      Takes (round' a) before (some b) after) (h : Joined Q round stream t rest) :
    Joined Q round' stream t rest := by
  obtain ⟨first, between, hq, hg⟩ := h
  exact ⟨first, between, hq, hg.mono himp⟩

/-- What stands in front of members and calls: an operand, or a construction where one begins. -/
def TakesOperand (construct : Read Reading) (inner : Rules) (stream : List Mark) (t : Reading)
    (rest : List Mark) : Prop :=
  (front? stream = some (.word "new") ∧ Takes construct stream t rest) ∨
    (front? stream ≠ some (.word "new") ∧ Takes (primary inner) stream t rest)

/-- Whether no unary operator is in front. -/
def Bare (stream : List Mark) : Prop :=
  ∀ l ∈ front? stream, unaryOp? l = none ∧ updateOp? l = none

/-- What it takes for an expression to be read where the grammar asks for a level. -/
inductive ReadsAt (inner : Rules) (noIn : Bool) (level : Nat) (stream : List Mark)
    (t : Reading) (rest : List Mark) : Prop
  | sequence (hl : level = 0) (h : Takes (expression inner noIn) stream t rest)
  | assignment (hl : level = 1) (h : Takes (assignment inner noIn) stream t rest)
  | conditional (hl : level = 2) (hp : Plain stream)
    (h : Takes (conditional inner noIn) stream t rest)
  | operator (hl : 3 ≤ level ∧ level ≤ 13) (hp : Plain stream)
    (h : Joined (Takes (unary inner)) (infixSuffix inner noIn level) stream t rest)
  | unary (hl : level = 14 ∨ level = 15) (hp : Plain stream)
    (h : Takes (unary inner) stream t rest)
  | access (hl : level = 16) (hp : Plain stream) (hb : Bare stream)
    (h : Joined (TakesOperand (construction inner) inner) (accessSuffix inner) stream t rest)
  | primary (hl : 17 ≤ level) (hp : Plain stream) (hb : Bare stream)
    (hn : front? stream ≠ some (.word "new")) (h : Takes (primary inner) stream t rest)

/-- The tightest joint that may follow an expression which is read at a level. -/
def slack (level : Nat) : Nat :=
  if level ≤ 1 then level
  else if level = 2 then 1
  else if level ≤ 12 then level + 1
  else if level ≤ 15 then level
  else 17

theorem slack_of_operator {l : Nat} (h : 3 ≤ l) (h' : l ≤ 12) : slack l = l + 1 := by
  unfold slack
  repeat' split
  all_goals omega

theorem slack_mono {l l' : Nat} (h : l ≤ l') : slack l ≤ slack l' := by
  unfold slack
  repeat' split
  all_goals omega

/-! ## Where a level ends -/

theorem takes_memberSuffix_none (h : Halts noIn 16 rest) (base : Reading) :
    Takes (memberSuffix inner base) rest none rest := by
  have point := takes_eatPunct_of_ne "." (h.front_ne (by cases noIn <;> decide))
  have bracket := takes_eatPunct_of_ne "[" (h.front_ne (by cases noIn <;> decide))
  exact point.bind (.neg nofun (bracket.bind (.neg nofun (.pure _ _))))

theorem takes_accessSuffix_none (h : Halts noIn 16 rest) (base : Reading) :
    Takes (accessSuffix inner base) rest none rest :=
  (takes_memberSuffix_none h base).bind
    (.not_punct (h.front_ne (by cases noIn <;> decide)) (.pure _ _))

theorem takes_infixSuffix_none (h : Halts noIn level rest) (lhs : Reading) :
    Takes (infixSuffix inner noIn level lhs) rest none rest := by
  refine (takes_lexeme? rest).bind ?_
  cases hop : (front? rest).bind (Infix.ofLexeme? noIn) with
  | none => exact .pure _ _
  | some op => exact .pos (h.operator hop) (.pure _ _)

/-- Operators of a tighter level are operators of a looser one. -/
theorem takes_infixSuffix_of_le {before after : List Mark} {lhs : Reading} (hl : level' ≤ level)
    (h : Takes (infixSuffix inner noIn level lhs) before (some t) after) :
    Takes (infixSuffix inner noIn level' lhs) before (some t) after := by
  have hfound := h.look
  refine (takes_lexeme? before).bind ?_
  cases hop : (front? before).bind (Infix.ofLexeme? noIn) with
  | none =>
    rw [hop] at hfound
    exact absurd hfound (not_takes_pure nofun)
  | some op =>
    rw [hop] at hfound
    by_cases hlt : op.precedence < level
    · exact absurd (hfound.of_pos hlt) (not_takes_pure nofun)
    · exact .neg (fun h => hlt (Nat.lt_of_lt_of_le h hl)) (hfound.of_neg hlt)

theorem takes_access
    (h : Joined (TakesOperand (construction inner) inner) (accessSuffix inner) stream t rest)
    (hs : Halts noIn 16 rest) : Takes (access inner) stream t rest := by
  obtain ⟨first, between, ⟨hn, hq⟩ | ⟨hn, hq⟩, hg⟩ := h
  · refine (takes_isWord "new" stream).bind (.pos (by simp [hn]) (hq.bind ?_))
    exact takes_grow hg (takes_accessSuffix_none hs t)
  · refine (takes_isWord "new" stream).bind (.neg (by simpa using hn) (hq.bind ?_))
    exact takes_grow hg (takes_accessSuffix_none hs t)

theorem takes_unary (hb : Bare stream) (h : Takes (access inner) stream t rest)
    (hs : Halts noIn 15 rest) : Takes (unary inner) stream t rest := by
  have hu : (front? stream).bind unaryOp? = none :=
    Option.bind_eq_none_iff.2 fun l hl => (hb l hl).1
  have hw : (front? stream).bind updateOp? = none :=
    Option.bind_eq_none_iff.2 fun l hl => (hb l hl).2
  refine (takes_lexeme? stream).bind ?_
  rw [hu, hw]
  refine h.bind ((takes_lexeme? rest).bind ?_)
  rw [hs.updateOp]
  exact .pure _ _

theorem takes_binary (h : Joined (Takes (unary inner)) (infixSuffix inner noIn level) stream t rest)
    (hs : Halts noIn level rest) : Takes (binary inner noIn level) stream t rest := by
  obtain ⟨first, between, hq, hg⟩ := h
  exact hq.bind (takes_grow hg (takes_infixSuffix_none hs t))

theorem takes_conditional (h : Takes (binary inner noIn LogicalOp.or.precedence) stream t rest)
    (hs : Halts noIn 2 rest) : Takes (conditional inner noIn) stream t rest :=
  h.bind ((takes_eatPunct_of_ne "?" (hs.front_ne (by cases noIn <;> decide))).bind
    (.neg nofun (.pure _ _)))

theorem takes_assignment (hp : Plain stream) (h : Takes (conditional inner noIn) stream t rest)
    (hs : Halts noIn 1 rest) : Takes (assignment inner noIn) stream t rest := by
  refine (takes_arrowParameters_of_plain hp).bind (h.bind ((takes_lexeme? rest).bind ?_))
  rw [hs.assignOp]
  exact .pure _ _

theorem takes_expression (h : Takes (assignment inner noIn) stream t rest)
    (hs : Halts noIn 0 rest) : Takes (expression inner noIn) stream t rest := by
  have comma := takes_eatPunct_of_ne "," (hs.front_ne (by cases noIn <;> decide))
  have stop : Takes (sequenceItem inner noIn) rest none rest :=
    comma.bind (.neg nofun (.pure _ _))
  exact h.bind ((takes_many (.stop stop)).bind (.pure _ _))

/-! ## Looser levels -/

namespace ReadsAt

/-- What is read at one level is read at the next looser one. -/
theorem step (h : ReadsAt inner noIn (level + 1) stream t rest)
    (hs : Halts noIn (slack level) rest) : ReadsAt inner noIn level stream t rest := by
  cases h with
  | sequence hl => omega
  | assignment hl h =>
    obtain rfl : level = 0 := by omega
    exact .sequence rfl (takes_expression h hs)
  | conditional hl hp h =>
    obtain rfl : level = 1 := by omega
    exact .assignment rfl (takes_assignment hp h hs)
  | operator hl hp h =>
    by_cases h2 : level = 2
    · subst h2
      exact .conditional rfl hp (takes_conditional (takes_binary h (hs.mono (by decide)))
        (hs.mono (by decide)))
    · refine .operator (by omega) hp (h.mono fun lhs before b after hround => ?_)
      exact takes_infixSuffix_of_le (Nat.le_succ level) hround
  | unary hl hp h =>
    by_cases h13 : level = 13
    · exact .operator (by omega) hp ⟨t, rest, h, .refl t rest⟩
    · exact .unary (by omega) hp h
  | access hl hp hb h =>
    obtain rfl : level = 15 := by omega
    exact .unary (by decide) hp (takes_unary hb (takes_access h (hs.mono (by decide))) hs)
  | primary hl hp hb hn h =>
    by_cases h16 : level = 16
    · exact .access h16 hp hb ⟨t, rest, .inr ⟨hn, h⟩, .refl t rest⟩
    · exact .primary (by omega) hp hb hn h

/-- What is read at one level is read at all looser ones. -/
theorem loosen {tight : Nat} (h : ReadsAt inner noIn tight stream t rest) (hl : level ≤ tight)
    (hs : Halts noIn (slack level) rest) : ReadsAt inner noIn level stream t rest := by
  induction hl with
  | refl => exact h
  | step hl ih => exact ih (h.step (hs.mono (slack_mono hl)))

end ReadsAt

end Graft
