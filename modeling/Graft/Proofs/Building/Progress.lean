import Graft.Proofs.Building.Parse
import Graft.Reading.Program

/-!
# Building comes to an end

A program is built statement by statement, each behind tokens that it takes, so that there are as
many rounds as it needs. It ends behind the last token or at one that is refused, with the script
that a reader of the same tokens would have.

* `Completes`, `Concludes` - a program as the statements that are completed and what stops it
* `program_outcome` - a program beside a reader of the same tokens
* `building_ends` - rules and programs come to an end among the tokens
-/

namespace Graft

open Builder (Beside)
open Building

/-! ## Programs, statement by statement -/

/-- The builder behind a statement that enters the program. -/
def Builder.entered (b : Builder) (id : NodeId) : Builder :=
  { b with script := b.script.push id }

/-- A builder comes to a later state by completing statements, one behind the other. -/
inductive Completes (inner' : BuildRules) : Builder → List NodeId → Builder → Prop
  | none (b : Builder) : Completes inner' b [] b
  | more {b b₁ b₂ : Builder} {id : NodeId} {ids : List NodeId} : (b.peek? 0).isSome →
      inner'.statement b = .ok id b₁ → Completes inner' (b₁.entered id) ids b₂ →
      Completes inner' b (id :: ids) b₂

/-- How a program ends: there is nothing ahead, or the next statement is not completed. -/
inductive Concludes {α : Type} (inner' : BuildRules) (b : Builder) :
    EStateM.Result SourceError Builder α → Prop
  | finished {a : α} : (b.peek? 0).isNone → Concludes inner' b (.ok a b)
  | refused {e : SourceError} {b' : Builder} : (b.peek? 0).isSome →
      inner'.statement b = .error e b' → Concludes inner' b (.error e b')

theorem Concludes.map {α β : Type} {p : Build α} {f : α → β} {b b' : Builder}
    {inner' : BuildRules} (h : Concludes inner' b (p b')) : Concludes inner' b ((f <$> p) b') := by
  change Concludes inner' b (EStateM.map f p b')
  unfold EStateM.map
  generalize p b' = out at h
  cases h with
  | finished hend => exact .finished hend
  | refused hmore hs => exact .refused hmore hs

variable {ts : Tokens} {most : Nat} {inner' : BuildRules} {inner : Rules} {b : Builder} {c : Cursor}

/-- A builder and a reader of the same program: both come to the end with the same script, or both
refuse the same token, and the builder then has nodes that the reader has not. -/
def Agree {α β : Type} (ts : Tokens) : EStateM.Result SourceError Builder β →
    EStateM.Result SourceError Cursor α → Prop
  | .ok _ b, .ok _ c => Beside ts b c ∧ c.script = b.script
  | .error e b, .error e' c => e = e' ∧ e.PointsAt ts ∧ Beside ts b c ∧
    c.script.nodes.toList <+: b.script.nodes.toList
  | _, _ => False

theorem Agree.map {α β α' β' : Type} {p : Build α} {q : Read β} {f : α → α'} {g : β → β'}
    {b' : Builder} {c' : Cursor} (h : Agree ts (p b') (q c')) :
    Agree ts ((f <$> p) b') ((g <$> q) c') := by
  change Agree ts (EStateM.map f p b') (EStateM.map g q c')
  unfold EStateM.map
  cases hp : p b' <;> cases hq : q c' <;> rw [hp, hq] at h <;> exact h

section Runs

variable {σ α β : Type} {p : EStateM SourceError σ α} {f : α → EStateM SourceError σ β}
  {s s' : σ} {a : α} {e : SourceError}

theorem bind_of_ok (h : p s = .ok a s') : (p >>= f) s = f a s' := by
  change EStateM.bind p f s = _
  rw [EStateM.bind, h]

theorem bind_of_error (h : p s = .error e s') : (p >>= f) s = .error e s' := by
  change EStateM.bind p f s = _
  rw [EStateM.bind, h]

end Runs

/-- A round of a program ends it, or a statement enters the script. -/
theorem build_round (inner' : BuildRules) (rounds : Nat) (b : Builder) :
    Build.manyWithin (Build.programItem inner') (rounds + 1) b =
      if (b.peek? 0).isNone then .ok [] b
      else match inner'.statement b with
        | .ok id b₁ =>
          (List.cons () <$> Build.manyWithin (Build.programItem inner') rounds) (b₁.entered id)
        | .error e b₁ => .error e b₁ := by
  have item : Build.programItem inner' b = (if (b.peek? 0).isNone then pure none
      else inner'.statement >>= fun id => Build.push id >>= fun u => pure (some u) : Build _) b :=
    rfl
  rw [Build.manyWithin]
  by_cases hend : (b.peek? 0).isNone
  · rw [if_pos hend] at item ⊢
    rw [bind_of_ok item]
    rfl
  rw [if_neg hend] at item ⊢
  cases hs : inner'.statement b with
  | ok id b₁ =>
    rw [bind_of_ok hs] at item
    rw [bind_of_ok item, map_eq_pure_bind]
    rfl
  | error e b₁ =>
    rw [bind_of_error hs] at item
    rw [bind_of_error item]

/-- The reader behind a statement that enters the program. -/
def enteredBy (t : Reading) (c : Cursor) : Cursor :=
  { c with script := (Script.plant t c.script).2.push (Script.plant t c.script).1 }

theorem read_round (inner : Rules) (rounds : Nat) (c : Cursor) :
    Read.manyWithin (Read.programItem inner) (rounds + 1) c =
      if c.ahead.isEmpty then .ok [] c
      else match inner.statement c with
        | .ok t c₁ =>
          (List.cons () <$> Read.manyWithin (Read.programItem inner) rounds) (enteredBy t c₁)
        | .error e c₁ => .error e c₁ := by
  have item : Read.programItem inner c = (if c.ahead.isEmpty then pure none
      else inner.statement >>= fun t => Read.plantStatement t >>= fun u => pure (some u) : Read _)
        c :=
    rfl
  rw [Read.manyWithin]
  by_cases hend : c.ahead.isEmpty
  · rw [if_pos hend] at item ⊢
    rw [bind_of_ok item]
    rfl
  rw [if_neg hend] at item ⊢
  cases hs : inner.statement c with
  | ok t c₁ =>
    rw [bind_of_ok hs] at item
    rw [bind_of_ok item, map_eq_pure_bind]
    rfl
  | error e c₁ =>
    rw [bind_of_error hs] at item
    rw [bind_of_error item]

/-- A statement enters the program on both sides. -/
theorem beside_entered {b₁ : Builder} {c₁ : Cursor} {t : Reading} {id : NodeId}
    (hm : Moved ts b b₁ c c₁) (hs : c.script = b.script)
    (hp : Plants t id ⟨b.script.nodes, b₁.script.names⟩ b₁.script) :
    Beside ts (b₁.entered id) (enteredBy t c₁) ∧
      (enteredBy t c₁).script = (b₁.entered id).script := by
  have before : c₁.script = ⟨b.script.nodes, b₁.script.names⟩ := by
    rw [← hm.beside.names, ← hs, ← hm.nodes]
  have same : (enteredBy t c₁).script = (b₁.entered id).script := by
    rw [enteredBy, before, show Script.plant t _ = (id, b₁.script) from hp]
    rfl
  exact ⟨⟨hm.beside.tokens, hm.beside.position_le, hm.beside.ahead, hm.beside.finish,
    congrArg Script.names same⟩, same⟩

/-- A program, statement by statement, beside a reader of the same tokens. -/
theorem program_outcome (h : Mirrored ts most inner' inner) (hb : Beside ts b c)
    (hs : c.script = b.script) (hn : b.noIn = false) (hl : b.ahead.length < most) {rounds : Nat}
    (hr : b.ahead.length < rounds) :
    (∃ ids b₁, Completes inner' b ids b₁ ∧
      Concludes inner' b₁ (Build.manyWithin (Build.programItem inner') rounds b)) ∧
    Agree ts (Build.manyWithin (Build.programItem inner') rounds b)
      (Read.manyWithin (Read.programItem inner) rounds c) := by
  induction rounds generalizing b c with
  | zero => cases hr
  | succ rounds ih =>
    rw [build_round, read_round, hb.isEmpty]
    split
    · exact ⟨⟨[], b, .none b, .finished ‹_›⟩, hb, hs⟩
    rename_i more
    have front : (b.peek? 0).isSome := Option.isSome_iff_ne_none.2 (by simpa using more)
    have run := h.statement b c hb trivial hn hl
    cases hp : inner'.statement b <;> cases hq : inner.statement c <;> rw [hp, hq] at run
    case error.error e b₁ e' c₁ =>
      refine ⟨⟨[], b, .none b, .refused front hp⟩, run.1, run.2.1, run.2.2.beside, ?_⟩
      rw [run.2.2.nodes, hs]
      exact run.2.2.leads.nodes
    case ok.ok id b₁ t c₁ =>
      obtain ⟨hm, taken, planted⟩ := run
      obtain ⟨hb₁, hs₁⟩ := beside_entered hm hs (planted _ (.refl _))
      have less : (b₁.entered id).ahead.length < b.ahead.length := by
        have := hb.length_ahead
        have := hb₁.length_ahead
        have : b.position + 1 ≤ (b₁.entered id).position := taken
        omega
      obtain ⟨⟨ids, b₂, hc, he⟩, ha⟩ := ih hb₁ hs₁ (hm.leads.noIn.trans hn)
        (Nat.lt_trans less hl) (Nat.lt_of_lt_of_le less (Nat.le_of_lt_succ hr))
      exact ⟨⟨id :: ids, b₂, .more front hp hc, he.map⟩, ha.map⟩
    all_goals exact run.elim

/-- What a statement makes of a state, under rules deep enough. -/
theorem builds_statement (h : Mirrored b.tokens most inner' inner) (hb : b.InBounds)
    (hn : b.noIn = false) (hl : b.ahead.length < most) : Builds b (inner'.statement b) :=
  builds_of_outcome rfl (h.statement b b.cursor hb.beside trivial hn hl)

theorem Completes.stays {ids : List NodeId} {b' : Builder} (hc : Completes inner' b ids b')
    (h : Mirrored b.tokens most inner' inner) (hb : b.InBounds) (hn : b.noIn = false)
    (hl : b.ahead.length < most) : b.Stays b' ∧ b'.noIn = false := by
  induction hc with
  | none b => exact ⟨⟨rfl, Nat.le_refl _, hb⟩, hn⟩
  | @more b b₁ b₂ id ids _ hs _ ih =>
    have run := builds_statement h hb hn hl
    rw [hs] at run
    obtain ⟨stays, leads, -, -⟩ := run
    -- a statement that enters the program changes the script alone
    have entered : b.Stays (b₁.entered id) := ⟨stays.tokens, stays.position_le, stays.inBounds⟩
    obtain ⟨stays', hn'⟩ := ih (stays.tokens ▸ h) stays.inBounds (leads.noIn.trans hn)
      (Nat.lt_of_le_of_lt stays.length_ahead_le hl)
    exact ⟨entered.trans stays', hn'⟩

/-- Rules deep enough for the tokens ahead. -/
theorem mirrored_ahead (b : Builder) : Mirrored b.tokens (b.ahead.length + 1)
    (rules (b.ahead.length + 1)) (Grammar.rules (b.ahead.length + 1)) :=
  mirrored_rules (Nat.le_refl _) (Nat.le_refl _)

/-- A program is built with rules deep enough for all tokens ahead. -/
theorem program_apply (b : Builder) : Build.program b =
    ((fun _ => ()) <$> Build.manyWithin
      (Build.programItem (rules (b.ahead.length + 1))) (b.ahead.length + 1)) b :=
  rfl

/-- A program completes statements until nothing is ahead, or a statement is not completed. -/
theorem exists_completes (hb : b.InBounds) (hn : b.noIn = false) :
    ∃ ids b₁, Completes (rules (b.ahead.length + 1)) b ids b₁ ∧
      Concludes (rules (b.ahead.length + 1)) b₁ (Build.program b) := by
  have h := mirrored_ahead b
  obtain ⟨⟨ids, b₁, hc, he⟩, -⟩ := program_outcome h hb.beside rfl hn (Nat.lt_succ_self _)
    (Nat.lt_succ_self _)
  exact ⟨ids, b₁, hc, program_apply b ▸ he.map⟩

/-- A program from anywhere among the tokens. -/
theorem finishes_program (hb : b.InBounds) (hn : b.noIn = false) :
    b.Finishes (Build.program b) := by
  obtain ⟨ids, b₁, hc, he⟩ := exists_completes hb hn
  have h := mirrored_ahead b
  obtain ⟨stays, hn₁⟩ := hc.stays h hb hn (Nat.lt_succ_self _)
  generalize Build.program b = out at he
  cases he with
  | finished hend =>
    refine ⟨stays, Nat.le_antisymm ?_ ?_⟩
    · rw [← stays.tokens]
      exact stays.inBounds
    · rw [← stays.tokens]
      rw [Option.isNone_iff_eq_none, Builder.peek?, List.getElem?_eq_none_iff] at hend
      exact hend
  | refused _ hs =>
    have run := builds_statement (stays.tokens ▸ h) stays.inBounds hn₁
      (Nat.lt_of_le_of_lt stays.length_ahead_le (Nat.lt_succ_self _))
    rw [hs] at run
    exact ⟨stays.trans run.1, stays.tokens ▸ run.2.2⟩

/-- A builder and a reader of the same tokens come to the same script or the same refusal. -/
theorem program_agrees (tokens : Tokens) :
    Agree tokens (Build.program (.ofTokens tokens)) (Read.program (.ofTokens tokens)) := by
  have hb : Beside tokens (.ofTokens tokens) (.ofTokens tokens) :=
    ⟨rfl, Nat.zero_le _, rfl, rfl, rfl⟩
  have h := mirrored_ahead (.ofTokens tokens)
  exact (program_outcome h hb rfl rfl (Nat.lt_succ_self _) (Nat.lt_succ_self _)).2.map

/-- Building comes to an end. Wherever a builder stands among the tokens, every rule for a statement
or an expression takes a token or ends at one that it refuses, and gives the same answer in all
depths that are enough for the tokens ahead; and a program ends behind the last token or at one
that it refuses. No error speaks of depth, and nobody leaves the tokens. -/
theorem building_ends (b : Builder) (hb : b.InBounds) :
    (∀ parse : Parse, (parse.isForStatements → b.noIn = false) → ∀ depth depth',
      b.ahead.length ≤ depth → b.ahead.length ≤ depth' →
        b.Advances (parse.build (rules depth) b) ∧
        Builder.SameAnswer (parse.build (rules depth) b) (parse.build (rules depth') b)) ∧
    (b.noIn = false → b.Finishes (Build.program b)) :=
  ⟨fun parse hn _ _ hd hd' =>
    ⟨advances_of_builds (builds_parse parse hb hn hd), parse_sameAnswer parse hb hn hd hd'⟩,
    finishes_program hb⟩

/-- A call that breaks off before its closing bracket: `f(x`. -/
def brokenCall : Builder :=
  .ofTokens ⟨[⟨.word "f", false, ⟨1, 1⟩⟩, ⟨.punct "(", false, ⟨1, 2⟩⟩, ⟨.word "x", false, ⟨1, 3⟩⟩],
    ⟨1, 4⟩⟩

theorem building_ends_brokenCall : brokenCall.InBounds ∧
    brokenCall.Advances (Parse.unary.build (rules 3) brokenCall) ∧
    Builder.SameAnswer (Parse.unary.build (rules 3) brokenCall)
      (Parse.unary.build (rules 4) brokenCall) ∧
    brokenCall.Finishes (Build.program brokenCall) := by
  have h : brokenCall.InBounds := Nat.zero_le 3
  obtain ⟨parses, program⟩ := building_ends brokenCall h
  obtain ⟨advances, same⟩ := parses .unary nofun 3 4 (by decide) (by decide)
  exact ⟨h, advances, same, program rfl⟩

end Graft
