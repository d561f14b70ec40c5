import Graft.Proofs.Printing.Legible
import Graft.Proofs.Reading.Trace

/-!
# What a reader takes

A reader sees of its tokens no more than the marks, and what it gives and leaves depends on these
alone. So a rule of the grammar is run on marks: each of its steps takes some of them from the
front.

* `Read.Takes` - a reader succeeds on the given marks, with its result and what it leaves
* `Rounds`, `takes_many` - repetitions, round by round
* `Grown`, `takes_grow` - what a result grows to
* `takes_commaList` - lists in brackets
-/

namespace Graft

variable {α β : Type}

namespace Cursor

/-- What a reader sees of the tokens ahead. -/
def marks (c : Cursor) : List Mark :=
  c.ahead.map Token.mark

end Cursor

namespace Read

/-- On tokens with the marks `before`, a reader succeeds with the result `a` and leaves tokens with
the marks `after`. -/
def Takes (p : Read α) (before : List Mark) (a : α) (after : List Mark) : Prop :=
  ∀ c : Cursor, c.marks = before → ∃ c', p c = .ok a c' ∧ c'.marks = after

variable {p : Read α} {a a' : α} {b : β} {m : Mark} {before between after rest : List Mark}

/-! ## Steps -/

namespace Takes

theorem pure (a : α) (rest : List Mark) : Takes (Pure.pure a) rest a rest :=
  fun c hc => ⟨c, rfl, hc⟩

theorem bind {f : α → Read β} (h : Takes p before a between) (h' : Takes (f a) between b after) :
    Takes (p >>= f) before b after := by
  intro c hc
  obtain ⟨c₁, h₁, hc₁⟩ := h c hc
  obtain ⟨c₂, h₂, hc₂⟩ := h' c₁ hc₁
  refine ⟨c₂, ?_, hc₂⟩
  change EStateM.bind p f c = _
  rw [EStateM.bind, h₁]
  exact h₂

theorem map {f : α → β} (h : Takes p before a after) : Takes (f <$> p) before (f a) after := by
  rw [← bind_pure_comp]
  exact h.bind (.pure _ _)

theorem discard (h : Takes p before a after) : Takes (discard p) before () after :=
  h.map

theorem pos {c : Prop} [Decidable c] {q : Read α} (hc : c) (h : Takes p before a after) :
    Takes (if c then p else q) before a after := by
  rwa [if_pos hc]

theorem neg {c : Prop} [Decidable c] {q : Read α} (hc : ¬ c) (h : Takes q before a after) :
    Takes (if c then p else q) before a after := by
  rwa [if_neg hc]

theorem of_pos {c : Prop} [Decidable c] {q : Read α} (hc : c)
    (h : Takes (if c then p else q) before a after) : Takes p before a after := by
  rwa [if_pos hc] at h

theorem of_neg {c : Prop} [Decidable c] {q : Read α} (hc : ¬ c)
    (h : Takes (if c then p else q) before a after) : Takes q before a after := by
  rwa [if_neg hc] at h

/-- There are tokens with any marks. -/
theorem exists_cursor (marks : List Mark) : ∃ c : Cursor, c.marks = marks := by
  refine ⟨⟨marks.map fun m => ⟨m.1, m.2, .start⟩, .start, .empty⟩, ?_⟩
  rw [Cursor.marks, List.map_map]
  exact List.map_id marks

/-- What is taken depends on the marks alone. -/
theorem unique {after' : List Mark} (h : Takes p before a after) (h' : Takes p before a' after') :
    a = a' := by
  obtain ⟨c, hc⟩ := exists_cursor before
  obtain ⟨c₁, run, -⟩ := h c hc
  obtain ⟨c₂, run', -⟩ := h' c hc
  exact (EStateM.Result.ok.inj (run.symm.trans run')).1

end Takes

theorem not_takes_pure (h : a' ≠ a) : ¬ Takes (Pure.pure a') before a after := by
  intro ht
  obtain ⟨c, hc⟩ := Takes.exists_cursor before
  obtain ⟨c', hp, -⟩ := ht c hc
  exact h (EStateM.Result.ok.inj hp).1

/-! ## Looking and taking -/

/-- The lexeme in front of marks. -/
def front? (marks : List Mark) : Option Lexeme :=
  marks.head?.map Prod.fst

theorem takes_get {f : Cursor → Read β}
    (h : ∀ c : Cursor, c.marks = before → Takes (f c) before b after) :
    Takes (get >>= f) before b after :=
  fun c hc => h c hc c hc

theorem lexeme?_eq_front? (c : Cursor) : c.lexeme? = front? c.marks := by
  rw [front?, Cursor.marks, List.head?_map, Option.map_map]
  rfl

theorem takes_lexeme? (marks : List Mark) : Takes lexeme? marks (front? marks) marks := by
  intro c hc
  refine ⟨c, ?_, hc⟩
  exact congrArg (fun l => EStateM.Result.ok l c) (hc ▸ lexeme?_eq_front? c)

/-- What is taken behind a look at the lexeme in front. -/
theorem Takes.look {f : Option Lexeme → Read β} (h : Takes (lexeme? >>= f) before b after) :
    Takes (f (front? before)) before b after := by
  intro c hc
  obtain ⟨c', hp, hc'⟩ := h c hc
  refine ⟨c', ?_, hc'⟩
  rw [← hp, ← hc, ← lexeme?_eq_front?]
  rfl

theorem takes_second? (marks : List Mark) :
    Takes second? marks (front? marks.tail) marks := by
  intro c hc
  refine ⟨c, ?_, hc⟩
  have : c.ahead[1]?.map (·.lexeme) = front? marks.tail := by
    rw [← hc, front?, Cursor.marks, ← List.map_tail, List.head?_map, Option.map_map,
      List.head?_tail]
    rfl
  exact congrArg (fun l => EStateM.Result.ok l c) this

theorem takes_atEnd (marks : List Mark) : Takes atEnd marks marks.isEmpty marks := by
  intro c hc
  refine ⟨c, ?_, hc⟩
  have : c.ahead.isEmpty = marks.isEmpty := by
    rw [← hc, Cursor.marks, List.isEmpty_map]
  exact congrArg (fun l => EStateM.Result.ok l c) this

theorem takes_isPunct (text : String) (marks : List Mark) :
    Takes (isPunct text) marks (front? marks == some (.punct text)) marks :=
  (takes_lexeme? marks).bind (.pure _ _)

theorem takes_isWord (text : String) (marks : List Mark) :
    Takes (isWord text) marks (front? marks == some (.word text)) marks :=
  (takes_lexeme? marks).bind (.pure _ _)

theorem takes_newlineAhead (m : Mark) (rest : List Mark) :
    Takes newlineAhead (m :: rest) m.2 (m :: rest) := by
  intro c hc
  refine ⟨c, ?_, hc⟩
  have : c.newlineAhead = m.2 := by
    unfold Cursor.newlineAhead
    split
    · rename_i token tokens ht
      rw [Cursor.marks, ht, List.map_cons] at hc
      rw [← (List.cons.inj hc).1]
      rfl
    · rename_i ht
      rw [Cursor.marks, ht] at hc
      cases hc
  exact congrArg (fun l => EStateM.Result.ok l c) this

theorem takes_next (m : Mark) (rest : List Mark) {f : Spot → Read β}
    (h : ∀ place, Takes (f ⟨some m.1, place⟩) rest b after) :
    Takes (next >>= f) (m :: rest) b after := by
  intro c hc
  obtain ⟨token, tokens, hahead⟩ : ∃ token tokens, c.ahead = token :: tokens :=
    List.exists_cons_of_ne_nil fun hnil => by rw [Cursor.marks, hnil] at hc; cases hc
  rw [Cursor.marks, hahead, List.map_cons] at hc
  obtain ⟨rfl, hrest⟩ := List.cons.inj hc
  have hspot : c.spot = ⟨some token.mark.1, token.place⟩ := by
    rw [Cursor.spot, hahead]
    rfl
  obtain ⟨c', h₁, h₂⟩ := h token.place { c with ahead := c.ahead.tail }
    (by rw [Cursor.marks, hahead]; exact hrest)
  refine ⟨c', ?_, h₂⟩
  rw [← h₁, ← hspot]
  rfl

theorem takes_discard_next (m : Mark) (rest : List Mark) :
    Takes (discard next) (m :: rest) () rest := by
  have := takes_next m rest (f := fun _ => (Pure.pure () : Read Unit)) fun _ => .pure () rest
  rwa [bind_pure_comp] at this

/-! ## Choosing by what is in front -/

namespace Takes

variable {text : String} {fresh : Bool} {yes no : Read β}

theorem at_punct (h : Takes yes ((.punct text, fresh) :: rest) b after) :
    Takes (isPunct text >>= fun found => if found = true then yes else no)
      ((.punct text, fresh) :: rest) b after :=
  (takes_isPunct text _).bind (.pos (by simp [front?]) h)

theorem not_punct (hne : front? before ≠ some (.punct text)) (h : Takes no before b after) :
    Takes (isPunct text >>= fun found => if found = true then yes else no) before b after :=
  (takes_isPunct text _).bind (.neg (by simpa using hne) h)

end Takes

section Eating

variable (text : String) (fresh : Bool) (rest : List Mark)

theorem takes_eatPunct : Takes (eatPunct text) ((.punct text, fresh) :: rest) true rest := by
  have found : (front? ((.punct text, fresh) :: rest) == some (.punct text)) = true := by
    simp [front?]
  refine (takes_isPunct text _).bind ?_
  rw [found]
  exact (takes_discard_next _ _).bind (.pure true rest)

theorem takes_eatPunct_of_ne (hne : front? before ≠ some (.punct text)) :
    Takes (eatPunct text) before false before := by
  have found : (front? before == some (.punct text)) = false := by simpa using hne
  refine (takes_isPunct text _).bind ?_
  rw [found]
  exact .pure false before

theorem takes_eatPunct_other {p : String} (hne : p ≠ text) :
    Takes (eatPunct text) ((.punct p, fresh) :: rest) false ((.punct p, fresh) :: rest) := by
  refine takes_eatPunct_of_ne text fun h => hne ?_
  exact Lexeme.punct.inj (Option.some.inj h)

theorem takes_eatWord : Takes (eatWord text) ((.word text, fresh) :: rest) true rest := by
  have found : (front? ((.word text, fresh) :: rest) == some (.word text)) = true := by
    simp [front?]
  refine (takes_isWord text _).bind ?_
  rw [found]
  exact (takes_discard_next _ _).bind (.pure true rest)

theorem takes_eatWord_of_ne (hne : front? before ≠ some (.word text)) :
    Takes (eatWord text) before false before := by
  have found : (front? before == some (.word text)) = false := by simpa using hne
  refine (takes_isWord text _).bind ?_
  rw [found]
  exact .pure false before

theorem takes_expectPunct : Takes (expectPunct text) ((.punct text, fresh) :: rest) () rest :=
  (takes_eatPunct text fresh rest).bind (.pure () rest)

theorem takes_expectWord : Takes (expectWord text) ((.word text, fresh) :: rest) () rest :=
  (takes_eatWord text fresh rest).bind (.pure () rest)

end Eating

/-! ## Repeating -/

/-- The marks that repeated rounds take, each with a result, and the last with none. -/
inductive Rounds (round : Read (Option α)) : List Mark → List α → List Mark → Prop where
  | stop {before after : List Mark} : Takes round before none after → Rounds round before [] after
  | more {before between after : List Mark} {a : α} {as : List α} :
    Takes round before (some a) between → between.length < before.length →
      Rounds round between as after → Rounds round before (a :: as) after

theorem takes_many {round : Read (Option α)} {as : List α} (h : Rounds round before as after) :
    Takes (many round) before as after := by
  have within : ∀ rounds, before.length < rounds →
      Takes (manyWithin round rounds) before as after := by
    intro rounds hr
    induction h generalizing rounds with
    | stop h =>
      obtain ⟨rounds, rfl⟩ := Nat.exists_eq_succ_of_ne_zero (Nat.ne_of_gt (Nat.zero_lt_of_lt hr))
      exact h.bind (.pure [] _)
    | more h hlen _ ih =>
      obtain ⟨rounds, rfl⟩ := Nat.exists_eq_succ_of_ne_zero (Nat.ne_of_gt (Nat.zero_lt_of_lt hr))
      exact h.bind ((ih rounds (by omega)).bind (.pure _ _))
  refine takes_get fun c hc => within _ ?_
  rw [← hc, Cursor.marks, List.length_map]
  exact Nat.lt_succ_self _

/-- The marks that a result takes, round by round, to grow to another one. -/
inductive Grown (round : α → Read (Option α)) : α → List Mark → α → List Mark → Prop where
  | refl (a : α) (rest : List Mark) : Grown round a rest a rest
  | step {a b d : α} {before between after : List Mark} :
    Takes (round a) before (some b) between → between.length < before.length →
      Grown round b between d after → Grown round a before d after

namespace Grown

variable {round round' : α → Read (Option α)} {a b d : α}

theorem trans (h : Grown round a before b between) (h' : Grown round b between d after) :
    Grown round a before d after := by
  induction h with
  | refl => exact h'
  | step h hlen _ ih => exact .step h hlen (ih h')

/-- One more round. -/
theorem concat (h : Grown round a before b between) (h' : Takes (round b) between (some d) after)
    (hlen : after.length < between.length) : Grown round a before d after :=
  h.trans (.step h' hlen (.refl d after))

/-- Rounds that do the same wherever they succeed. -/
theorem mono (himp : ∀ a before b after, Takes (round a) before (some b) after →
    Takes (round' a) before (some b) after) (h : Grown round a before b after) :
    Grown round' a before b after := by
  induction h with
  | refl => exact .refl _ _
  | step h hlen _ ih => exact .step (himp _ _ _ _ h) hlen ih

end Grown

theorem takes_grow {round : α → Read (Option α)} {a b : α} (h : Grown round a before b after)
    (stop : Takes (round b) after none after) : Takes (grow round a) before b after := by
  have within : ∀ rounds, before.length < rounds →
      Takes (growWithin round rounds a) before b after := by
    intro rounds hr
    induction h generalizing rounds with
    | refl =>
      obtain ⟨rounds, rfl⟩ := Nat.exists_eq_succ_of_ne_zero (Nat.ne_of_gt (Nat.zero_lt_of_lt hr))
      exact stop.bind (.pure _ _)
    | step h hlen _ ih =>
      obtain ⟨rounds, rfl⟩ := Nat.exists_eq_succ_of_ne_zero (Nat.ne_of_gt (Nat.zero_lt_of_lt hr))
      exact h.bind (ih stop rounds (by omega))
  refine takes_get fun c hc => within _ ?_
  rw [← hc, Cursor.marks, List.length_map]
  exact Nat.lt_succ_self _

/-- The marks that items in brackets take, separated by commas. -/
inductive Listed (close : String) (item : Read α) : List Mark → List α → List Mark → Prop where
  | nil {rest : List Mark} : front? rest = some (.punct close) → Listed close item rest [] rest
  | last {before after : List Mark} {a : α} : front? before ≠ some (.punct close) →
    Takes item before a after → front? after ≠ some (.punct ",") →
      Listed close item before [a] after
  | more {before between after : List Mark} {a : α} {as : List α} {fresh : Bool} :
    front? before ≠ some (.punct close) → Takes item before a ((.punct ",", fresh) :: between) →
      between.length < before.length → Listed close item between as after →
        Listed close item before (a :: as) after

theorem takes_commaList {close : String} {item : Read α} {as : List α}
    (h : Listed close item before as after) : Takes (commaList close item) before as after := by
  have within : ∀ rounds, before.length < rounds →
      Takes (commaListWithin close item rounds) before as after := by
    intro rounds hr
    induction h generalizing rounds with
    | nil hclose =>
      obtain ⟨rounds, rfl⟩ := Nat.exists_eq_succ_of_ne_zero (Nat.ne_of_gt (Nat.zero_lt_of_lt hr))
      exact (takes_isPunct close _).bind (.pos (by simp [hclose]) (.pure _ _))
    | last hne h hcomma =>
      obtain ⟨rounds, rfl⟩ := Nat.exists_eq_succ_of_ne_zero (Nat.ne_of_gt (Nat.zero_lt_of_lt hr))
      exact .not_punct hne (h.bind ((takes_eatPunct_of_ne "," hcomma).bind (.pure _ _)))
    | more hne h hlen _ ih =>
      obtain ⟨rounds, rfl⟩ := Nat.exists_eq_succ_of_ne_zero (Nat.ne_of_gt (Nat.zero_lt_of_lt hr))
      exact .not_punct hne (h.bind ((takes_eatPunct "," _ _).bind
        ((ih rounds (by omega)).bind (.pure _ _))))
  refine takes_get fun c hc => within _ ?_
  rw [← hc, Cursor.marks, List.length_map]
  exact Nat.lt_succ_self _

end Read

end Graft
