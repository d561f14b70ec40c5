import Graft.Proofs.Building.Progress
import Graft.Proofs.Printing.Strip
import Graft.Proofs.Reading.Trace

/-!
# Readers in front of one more bracket

A reader that comes to the end of its tokens gives the same when one more bracket closes behind
them: no expression goes on with a closing bracket, and within a statement no rule comes to the end.
What a reader has taken leaves as many brackets open as its rule says, so that the group of what
stands between two brackets ends where the second of them is.

* `Carries` - a reader that does the same in front of one more bracket
* `Carries.bind`, `Carries.look`, `Carries.eaten` - steps of a rule
* `carries_many`, `carries_commaList`, `carries_grow` - repetitions
-/

namespace Graft

open Grammar
open Text (Place)

variable {α β : Type}

/-! ## Open brackets -/

/-- How a lexeme changes the number of open brackets; the outermost bracket is not closed. -/
inductive Lexeme.Turns (l : Lexeme) : Nat → Nat → Prop where
  | opening (d : Nat) : l.isOpening = true → Turns l d (d + 1)
  | closing (d : Nat) : l.isClosing = true → Turns l (d + 2) (d + 1)
  | neutral (d : Nat) : l.isOpening = false → l.isClosing = false → Turns l d d

/-- A lexeme changes the number of open brackets, or closes the outermost. -/
theorem Lexeme.turns_or_ends (l : Lexeme) (d : Nat) :
    (∃ d', l.Turns d d') ∨ l.isClosing = true ∧ d = 0 ∨ l.isClosing = true ∧ d = 1 := by
  by_cases hc : l.isClosing = true
  · rcases d with _ | _ | d
    · exact .inr (.inl ⟨hc, rfl⟩)
    · exact .inr (.inr ⟨hc, rfl⟩)
    · exact .inl ⟨d + 1, .closing d hc⟩
  by_cases ho : l.isOpening = true
  · exact .inl ⟨d + 1, .opening d ho⟩
  · exact .inl ⟨d, .neutral d (by simpa using ho) (by simpa using hc)⟩

section Group

variable {token : Token} {rest : List Token}

/-- The search for the end of a group, by the brackets alone. -/
theorem afterGroup_cons (d : Nat) (token : Token) (rest : List Token) :
    afterGroup d (token :: rest) =
      if token.lexeme.isOpening then afterGroup (d + 1) rest
      else if token.lexeme.isClosing then
        match d with
        | 0 => none
        | 1 => some rest
        | d + 1 => afterGroup d rest
      else afterGroup d rest := by
  obtain ⟨l, newlineBefore, place⟩ := token
  cases l <;> rw [afterGroup.eq_def] <;> rfl

theorem afterGroup_turns {d d' : Nat} (h : token.lexeme.Turns d d') (rest : List Token) :
    afterGroup d (token :: rest) = afterGroup d' rest := by
  rw [afterGroup_cons]
  cases h with
  | opening _ ho => rw [if_pos ho]
  | closing _ hc =>
    rw [if_neg (by simp [Lexeme.isOpening_of_isClosing hc]), if_pos hc]
    rfl
  | neutral _ ho hc => rw [if_neg (by simp [ho]), if_neg (by simp [hc])]

theorem afterGroup_zero (h : token.lexeme.isClosing = true) :
    afterGroup 0 (token :: rest) = none := by
  rw [afterGroup_cons, if_neg (by simp [Lexeme.isOpening_of_isClosing h]), if_pos h]

theorem afterGroup_one (h : token.lexeme.isClosing = true) :
    afterGroup 1 (token :: rest) = some rest := by
  rw [afterGroup_cons, if_neg (by simp [Lexeme.isOpening_of_isClosing h]), if_pos h]
  rfl

end Group

/-- The later reader is behind tokens that change the number of open brackets. -/
def Cursor.Passes (c : Cursor) (d : Nat) (c' : Cursor) (d' : Nat) : Prop :=
  ∃ taken, c.ahead = taken ++ c'.ahead ∧
    ∀ rest, afterGroup d (taken ++ rest) = afterGroup d' rest

namespace Cursor.Passes

variable {c c' c'' : Cursor} {d d' d'' : Nat}

theorem refl (c : Cursor) (d : Nat) : c.Passes d c d :=
  ⟨[], rfl, fun _ => rfl⟩

theorem trans (h : c.Passes d c' d') (h' : c'.Passes d' c'' d'') : c.Passes d c'' d'' := by
  obtain ⟨taken, ht, hd⟩ := h
  obtain ⟨more, hm, hd'⟩ := h'
  refine ⟨taken ++ more, by rw [ht, hm, List.append_assoc], fun rest => ?_⟩
  rw [List.append_assoc, hd, hd']

theorem of_tail {token : Token} {tokens : List Token} (hc : c.ahead = token :: tokens)
    (h : token.lexeme.Turns d d') (hc' : c'.ahead = tokens) : c.Passes d c' d' :=
  ⟨[token], by rw [hc, hc']; rfl, fun rest => afterGroup_turns h rest⟩

theorem ne_nil (h : c.Passes d c' d') (hc' : c'.ahead ≠ []) : c.ahead ≠ [] := by
  obtain ⟨taken, ht, -⟩ := h
  rw [ht]
  exact List.append_ne_nil_of_right_ne_nil _ hc'

end Cursor.Passes

/-! ## One more bracket -/

/-- A bracket that closes behind the last token, and the end behind it. -/
structure Closing where
  newlineBefore : Bool
  place : Place
  finish : Place

def Closing.token (k : Closing) : Token :=
  ⟨.punct ")", k.newlineBefore, k.place⟩

/-- The same reader with one more bracket behind its tokens. -/
def Cursor.closed (k : Closing) (c : Cursor) : Cursor :=
  { c with ahead := c.ahead ++ [k.token], finish := k.finish }

namespace Cursor

variable {k : Closing} {c : Cursor}

theorem exists_cons {l : Lexeme} (h : c.lexeme? = some l) :
    ∃ token tokens, c.ahead = token :: tokens ∧ token.lexeme = l := by
  obtain ⟨token, ht, hl⟩ := Option.map_eq_some_iff.1 h
  obtain ⟨tokens, hc⟩ := List.head?_eq_some_iff.1 ht
  exact ⟨token, tokens, hc, hl⟩

theorem ne_nil_of_lexeme {l : Lexeme} (h : c.lexeme? = some l) : c.ahead ≠ [] := by
  obtain ⟨token, tokens, hc, -⟩ := exists_cons h
  rw [hc]
  exact List.cons_ne_nil _ _

theorem lexeme?_closed (h : c.ahead ≠ []) : (c.closed k).lexeme? = c.lexeme? := by
  rw [lexeme?, lexeme?, closed, List.head?_append_of_ne_nil _ h]

theorem lexeme?_nil (h : c.ahead = []) : c.lexeme? = none := by
  rw [lexeme?, h]
  rfl

theorem lexeme?_closed_nil (h : c.ahead = []) : (c.closed k).lexeme? = some (.punct ")") := by
  rw [lexeme?, closed, h]
  rfl

theorem spot_closed (h : c.ahead ≠ []) : (c.closed k).spot = c.spot := by
  obtain ⟨ahead, finish, script⟩ := c
  cases ahead with
  | nil => exact absurd rfl h
  | cons => rfl

theorem newlineAhead_closed (h : c.ahead ≠ []) : (c.closed k).newlineAhead = c.newlineAhead := by
  obtain ⟨ahead, finish, script⟩ := c
  cases ahead with
  | nil => exact absurd rfl h
  | cons => rfl

theorem tail_closed (h : c.ahead ≠ []) :
    { c.closed k with ahead := (c.closed k).ahead.tail } =
      ({ c with ahead := c.ahead.tail } : Cursor).closed k := by
  rw [closed, closed, List.tail_append_of_ne_nil h]

end Cursor

/-- A group ends where it did, or at the bracket behind all tokens. -/
theorem afterGroup_closed (k : Closing) (d : Nat) (tokens : List Token) :
    afterGroup d (tokens ++ [k.token]) = (afterGroup d tokens).map (· ++ [k.token]) ∨
      afterGroup d tokens = none ∧ afterGroup d (tokens ++ [k.token]) = some [] := by
  induction tokens generalizing d with
  | nil =>
    -- only where one bracket is open, the last one ends a group
    rcases d with _ | _ | d
    · exact .inl rfl
    · exact .inr ⟨rfl, rfl⟩
    · exact .inl rfl
  | cons token tokens ih =>
    rw [List.cons_append]
    rcases token.lexeme.turns_or_ends d with ⟨d', hturn⟩ | ⟨hc, rfl⟩ | ⟨hc, rfl⟩
    · rw [afterGroup_turns hturn, afterGroup_turns hturn]
      exact ih d'
    · exact .inl (by rw [afterGroup_zero hc, afterGroup_zero hc]; rfl)
    · exact .inl (by rw [afterGroup_one hc, afterGroup_one hc]; rfl)

/-- One more bracket at the end makes no group that is followed by an arrow. -/
theorem arrowBehindGroup_closed (k : Closing) (tokens : List Token) :
    arrowBehindGroup (tokens ++ [k.token]) = arrowBehindGroup tokens := by
  unfold arrowBehindGroup
  rcases afterGroup_closed k 0 tokens with h | ⟨h, h'⟩
  · rw [h]
    rcases afterGroup 0 tokens with _ | _ | ⟨token, rest⟩ <;> rfl
  · rw [h, h']

/-! ## What a reader carries over -/

/-- What may be said of a reader's state: of the lexeme in front and of the brackets that are
open. -/
abbrev Stand := Option Lexeme → Nat → Prop

/-- So many brackets are open. -/
def Open (d : Nat) : Stand :=
  fun _ e => e = d

/-- A lexeme stands in front, or nothing, and so many brackets are open. -/
def Facing (found : Option Lexeme) (d : Nat) : Stand :=
  fun f e => f = found ∧ e = d

namespace Read

/-- A reader that never succeeds. -/
def Refuses (p : Read α) : Prop :=
  ∀ c a c', p c ≠ .ok a c'

/-- A reader that succeeds has left brackets open as stated, and does the same with one more bracket
behind its tokens. Inside a construct this is said only of a reader that ends in front of a
token. -/
def Carries (k : Closing) (inside : Bool) (P : Stand) (p : Read α) (Q : α → Stand) : Prop :=
  ∀ c d a c', P c.lexeme? d → p c = .ok a c' → ∃ d', c.Passes d c' d' ∧ Q a c'.lexeme? d' ∧
    ((inside = true → c'.ahead ≠ []) → p (c.closed k) = .ok a (c'.closed k))

variable {k : Closing} {inside : Bool} {P P' : Stand} {p q : Read α} {Q Q' : α → Stand}
  {f : α → Read β} {R : β → Stand} {d d' : Nat} {l : Lexeme}

/-! ### Refusing -/

theorem refuses_throw (e : SourceError) : Refuses (throw e : Read α) :=
  nofun

theorem refuses_refuseAt (spot : Spot) (expected : Expectation) :
    Refuses (refuseAt spot expected : Read α) :=
  nofun

theorem refuses_refuse (expected : Expectation) : Refuses (refuse expected : Read α) :=
  nofun

theorem refuses_unsupported (what : Feature) : Refuses (unsupported what : Read α) :=
  nofun

theorem refuses_tooDeep : Refuses (tooDeep : Read α) :=
  nofun

theorem Refuses.bind (h : Refuses p) : Refuses (p >>= f) := by
  intro c b c' hb
  obtain ⟨a, c₁, ha, -⟩ := bind_eq_ok hb
  exact h c a c₁ ha

/-! ### Steps -/

namespace Carries

theorem of_refuses (h : Refuses p) : Carries k inside P p Q :=
  fun c _ a c' _ hc => absurd hc (h c a c')

theorem imp (h : Carries k inside P p Q) (hQ : ∀ a found e, Q a found e → Q' a found e) :
    Carries k inside P p Q' := by
  intro c d a c' hP hc
  obtain ⟨d', hd, hq, he⟩ := h c d a c' hP hc
  exact ⟨d', hd, hQ _ _ _ hq, he⟩

theorem of_imp (h : Carries k inside P p Q) (hP : ∀ found e, P' found e → P found e) :
    Carries k inside P' p Q :=
  fun c d a c' hp hc => h c d a c' (hP _ _ hp) hc

/-- A reader that ends in front of a token does so everywhere. -/
theorem of_inside (h : Carries k true P p Q) (hQ : ∀ a e, ¬ Q a none e) :
    Carries k inside P p Q := by
  intro c d a c' hP hc
  obtain ⟨d', hd, hq, he⟩ := h c d a c' hP hc
  refine ⟨d', hd, hq, fun _ => he fun _ hnil => hQ a d' ?_⟩
  rwa [Cursor.lexeme?_nil hnil] at hq

theorem facing {found : Option Lexeme} (h : Carries k inside P p Q) (hP : P found d) :
    Carries k inside (Facing found d) p Q :=
  h.of_imp fun _ _ ⟨hf, he⟩ => hf ▸ he ▸ hP

theorem pure {a : α} (h : ∀ found e, P found e → Q a found e) :
    Carries k inside P (pure a) Q := by
  intro c d a' c' hP hc
  obtain ⟨rfl, rfl⟩ := EStateM.Result.ok.inj hc
  exact ⟨d, .refl c d, h _ _ hP, fun _ => rfl⟩

theorem done {a : α} : Carries k inside P (Pure.pure a) fun _ => P :=
  .pure fun _ _ h => h

theorem bind (h : Carries k inside P p Q) (hf : ∀ a, Carries k inside (Q a) (f a) R) :
    Carries k inside P (p >>= f) R := by
  intro c d b c'' hP hc
  obtain ⟨a, c', ha, hb⟩ := bind_eq_ok hc
  obtain ⟨d', hd, hq, he⟩ := h c d a c' hP ha
  obtain ⟨d'', hd', hr, he'⟩ := hf a c' d' b c'' hq hb
  refine ⟨d'', hd.trans hd', hr, fun hs => ?_⟩
  -- a token in front of the end is a token in front of where the second step begins
  rw [bind_of_ok (he fun hi => hd'.ne_nil (hs hi)), he' hs]

/-- What is made of a result. -/
theorem returns {E : Stand} {g : α → β} (h : Carries k inside P p fun _ => E) :
    Carries k inside P (p >>= fun a => Pure.pure (g a)) fun _ => E :=
  h.bind fun _ => .done

theorem map {E : Stand} {g : α → β} (h : Carries k inside P p fun _ => E) :
    Carries k inside P (g <$> p) fun _ => E := by
  rw [← bind_pure_comp]
  exact h.returns

theorem discarded {E : Stand} (h : Carries k inside P p fun _ => E) :
    Carries k inside P (discard p) fun _ => E :=
  h.map (g := fun _ => ())

theorem ite {b : Prop} [Decidable b] (h : b → Carries k inside P p Q)
    (h' : ¬ b → Carries k inside P q Q) : Carries k inside P (if b then p else q) Q := by
  split
  · exact h ‹_›
  · exact h' ‹_›

/-- A construct that is refused where a test holds. -/
theorem guard {b : Prop} [Decidable b] {what : Feature} {f : Unit → Read α}
    (h : Carries k inside P (f ()) Q) :
    Carries k inside P (if b then unsupported what >>= f else f ()) Q :=
  .ite (fun _ => .of_refuses (refuses_unsupported what).bind) fun _ => h

/-- A state that is refused where a test holds. -/
theorem check {b : Prop} [Decidable b] {expected : Expectation} {f : Unit → Read α}
    (h : Carries k inside P (f ()) Q) :
    Carries k inside P (if b then refuse expected >>= f else f ()) Q :=
  .ite (fun _ => .of_refuses (refuses_refuse expected).bind) fun _ => h

/-! ### Looking -/

/-- A look at a state, which sees the same with one more bracket behind the tokens. -/
theorem sees {x : Cursor → β} {f : β → Read α}
    (same : ∀ c d, P c.lexeme? d → (inside = true → c.ahead ≠ []) → f (x (c.closed k)) = f (x c))
    (h : ∀ c d, P c.lexeme? d → Carries k inside (Facing c.lexeme? d) (f (x c)) Q) :
    Carries k inside P (do f (x (← get))) Q := by
  intro c d a c' hP hc
  obtain ⟨d', hd, hq, he⟩ := h c d hP c d a c' ⟨rfl, rfl⟩ hc
  refine ⟨d', hd, hq, fun hs => ?_⟩
  change f (x (c.closed k)) (c.closed k) = _
  rw [same c d hP fun hi => hd.ne_nil (hs hi)]
  exact he hs

/-- The lexeme in front, where a closing bracket is as good as nothing. -/
theorem look {f : Option Lexeme → Read α} (hend : inside = false → f (some (.punct ")")) = f none)
    (h : ∀ found, Carries k inside (Facing found d) (f found) Q) :
    Carries k inside (Open d) (lexeme? >>= f) Q := by
  refine sees (x := Cursor.lexeme?) (fun c _ _ hs => ?_) fun c _ hd => hd ▸ h _
  by_cases hc : c.ahead = []
  · rw [Cursor.lexeme?_closed_nil hc, Cursor.lexeme?_nil hc]
    exact hend (Bool.eq_false_iff.2 fun hi => hs hi hc)
  · rw [Cursor.lexeme?_closed hc]

/-- A lexeme in front that is not the bracket is seen where it was. -/
theorem beq_lexeme?_closed {c : Cursor} (hl : inside = false → l ≠ .punct ")")
    (hs : inside = true → c.ahead ≠ []) :
    ((c.closed k).lexeme? == some l) = (c.lexeme? == some l) := by
  by_cases hc : c.ahead = []
  · have hl : l ≠ .punct ")" := hl (Bool.eq_false_iff.2 fun hi => hs hi hc)
    rw [Cursor.lexeme?_closed_nil hc, Cursor.lexeme?_nil hc,
      show (some (Lexeme.punct ")") == some l) = false by simpa using hl.symm]
    rfl
  · rw [Cursor.lexeme?_closed hc]

/-- Whether a lexeme stands in front, which is known afterwards. -/
theorem test {f : Bool → Read α} (hl : inside = false → l ≠ .punct ")")
    (h : ∀ b, Carries k inside (fun found e => (b = true → found = some l) ∧ P found e) (f b) Q) :
    Carries k inside P (do f ((← get).lexeme? == some l)) Q := by
  refine sees (x := fun c => c.lexeme? == some l) (fun c _ _ hs => ?_) fun c d hP => ?_
  · rw [beq_lexeme?_closed hl hs]
  · exact (h _).facing ⟨fun hb => by simpa using hb, hP⟩

/-- Only inside a construct a reader may look for the bracket itself. -/
theorem ne_closing {text : String} (ht : (text != ")" || inside) = true) (hi : inside = false) :
    Lexeme.punct text ≠ .punct ")" := by
  rintro ⟨⟩
  rw [hi] at ht
  cases ht

/-- Whether a sign stands in front, which is known afterwards. -/
theorem seesPunct {text : String} {f : Bool → Read α} (ht : (text != ")" || inside) = true)
    (h : ∀ b, Carries k inside
      (fun found e => (b = true → found = some (.punct text)) ∧ P found e) (f b) Q) :
    Carries k inside P (Read.isPunct text >>= f) Q :=
  test (ne_closing ht) h

/-- Whether a word stands in front, which is known afterwards. -/
theorem seesWord {text : String} {f : Bool → Read α}
    (h : ∀ b, Carries k inside
      (fun found e => (b = true → found = some (.word text)) ∧ P found e) (f b) Q) :
    Carries k inside P (Read.isWord text >>= f) Q :=
  test nofun h

theorem isPunct {text : String} {f : Bool → Read α} (ht : (text != ")" || inside) = true)
    (h : ∀ b, Carries k inside P (f b) Q) : Carries k inside P (Read.isPunct text >>= f) Q :=
  seesPunct ht fun b => (h b).of_imp fun _ _ hp => hp.2

theorem isWord {text : String} {f : Bool → Read α} (h : ∀ b, Carries k inside P (f b) Q) :
    Carries k inside P (Read.isWord text >>= f) Q :=
  seesWord fun b => (h b).of_imp fun _ _ hp => hp.2

/-- The lexeme behind the one in front, where a closing bracket is as good as nothing. -/
theorem second? {f : Option Lexeme → Read α} (hend : f (some (.punct ")")) = f none)
    (h : ∀ found, Carries k inside P (f found) Q) : Carries k inside P (Read.second? >>= f) Q := by
  refine sees (x := fun c => c.ahead[1]?.map (·.lexeme)) (fun c _ _ hs => ?_) fun c d hP =>
    (h _).facing hP
  obtain ⟨ahead, finish, script⟩ := c
  rcases ahead with _ | ⟨first, _ | ⟨second, rest⟩⟩
  · rfl
  · exact hend
  · rfl

theorem atEnd {f : Bool → Read α} (h : ∀ b, Carries k true P (f b) Q) :
    Carries k true P (Read.atEnd >>= f) Q := by
  refine sees (x := fun c => c.ahead.isEmpty) (fun c _ _ hs => ?_) fun c d hP => (h _).facing hP
  have more : (c.closed k).ahead ≠ [] := List.append_ne_nil_of_left_ne_nil (hs rfl) _
  rw [List.isEmpty_eq_false_iff.2 (hs rfl), List.isEmpty_eq_false_iff.2 more]

/-- Whether a line ended in front of a token. -/
theorem newlineAhead {f : Bool → Read α} (hP : ∀ found e, P found e → inside = true ∨ found ≠ none)
    (h : ∀ b, Carries k inside P (f b) Q) : Carries k inside P (Read.newlineAhead >>= f) Q := by
  refine sees (x := Cursor.newlineAhead) (fun c _ hp hs => ?_) fun c d hp => (h _).facing hp
  have more : c.ahead ≠ [] := (hP _ _ hp).elim hs fun hf hnil => hf (Cursor.lexeme?_nil hnil)
  rw [Cursor.newlineAhead_closed more]

/-- A choice by whether an arrow stands behind the group in front. -/
theorem ifArrow (h : Carries k inside P p Q) (h' : Carries k inside P q Q) :
    Carries k inside P (do if arrowBehindGroup (← get).ahead then p else q) Q := by
  refine sees (x := fun c => arrowBehindGroup c.ahead) (f := fun b => if b = true then p else q)
    (fun c _ _ _ => ?_) fun c d hP => .ite (fun _ => h.facing hP) fun _ => h'.facing hP
  rw [Cursor.closed, arrowBehindGroup_closed]

end Carries

/-! ### Taking -/

section Taking

variable {c : Cursor}

/-- A token is taken that changes the number of open brackets. -/
theorem passes_tail (hc : c.lexeme? = some l) (ht : l.Turns d d') :
    c.Passes d { c with ahead := c.ahead.tail } d' := by
  obtain ⟨token, tokens, ha, rfl⟩ := Cursor.exists_cons hc
  exact .of_tail ha ht (by rw [ha, List.tail_cons])

/-- What is in front is taken. -/
theorem carries_drop (ht : l.Turns d d') :
    Carries k inside (Facing (some l) d) (discard next) fun _ => Open d' := by
  rintro c _ a c' ⟨hc, rfl⟩ h
  obtain ⟨-, rfl⟩ := EStateM.Result.ok.inj h
  refine ⟨d', passes_tail hc ht, rfl, fun _ => ?_⟩
  change EStateM.Result.ok _ { c.closed k with ahead := (c.closed k).ahead.tail } = _
  rw [Cursor.tail_closed (Cursor.ne_nil_of_lexeme hc)]

/-- A reader that takes a lexeme if it is in front, and says whether it did. -/
def Eats (l : Lexeme) (p : Read Bool) : Prop :=
  ∀ c, p c = .ok (c.lexeme? == some l)
    (if c.lexeme? == some l then { c with ahead := c.ahead.tail } else c)

theorem eats_eatPunct (text : String) : Eats (.punct text) (eatPunct text) :=
  fun _ => eat_apply rfl rfl

theorem eats_eatWord (text : String) : Eats (.word text) (eatWord text) :=
  fun _ => eat_apply rfl rfl

theorem Eats.front {p : Read Bool} (hp : Eats l p) (hc : c.lexeme? = some l) :
    p c = .ok true { c with ahead := c.ahead.tail } := by
  rw [hp, hc, beq_self_eq_true, if_pos rfl]

theorem Eats.front_closed {p : Read Bool} (hp : Eats l p) (hc : c.lexeme? = some l) :
    p (c.closed k) = .ok true (({ c with ahead := c.ahead.tail } : Cursor).closed k) := by
  have more : c.ahead ≠ [] := Cursor.ne_nil_of_lexeme hc
  rw [hp.front ((Cursor.lexeme?_closed more).trans hc), Cursor.tail_closed more]

theorem carries_eat {p : Read Bool} (hp : Eats l p) (hl : inside = false → l ≠ .punct ")")
    (ht : l.Turns d d') :
    Carries k inside (Open d) p fun b => Open (if b = true then d' else d) := by
  rintro c _ b c' rfl h
  by_cases hc : c.lexeme? = some l
  · rw [hp.front hc] at h
    obtain ⟨rfl, rfl⟩ := EStateM.Result.ok.inj h
    exact ⟨d', passes_tail hc ht, rfl, fun _ => hp.front_closed hc⟩
  · have other : (c.lexeme? == some l) = false := by simpa using hc
    rw [hp, other, if_neg Bool.false_ne_true] at h
    obtain ⟨rfl, rfl⟩ := EStateM.Result.ok.inj h
    refine ⟨_, .refl c _, rfl, fun hs => ?_⟩
    rw [hp, Carries.beq_lexeme?_closed hl hs, other, if_neg Bool.false_ne_true]

/-- A lexeme that is no bracket is taken if it is in front. -/
theorem carries_eat_plain {p : Read Bool} (hp : Eats l p) (hl : l ≠ .punct ")")
    (ht : l.Turns d d) : Carries k inside (Open d) p fun _ => Open d :=
  (carries_eat hp (fun _ => hl) ht).imp fun b _ _ hd => by cases b <;> exact hd

/-- What is expected has to stand in front. -/
theorem Eats.expected {p : Read Bool} {expected : Expectation} {u : Unit} {c' : Cursor}
    (hp : Eats l p) (h : (do unless ← p do refuse expected) c = .ok u c') :
    c.lexeme? = some l := by
  obtain ⟨b, c₁, hb, h⟩ := bind_eq_ok h
  by_contra hc
  rw [hp, show (c.lexeme? == some l) = false by simpa using hc] at hb
  obtain ⟨rfl, rfl⟩ := EStateM.Result.ok.inj hb
  exact refuses_refuse expected _ _ _ h

theorem Eats.expect_front {p : Read Bool} {expected : Expectation} (hp : Eats l p)
    (hc : c.lexeme? = some l) :
    (do unless ← p do refuse expected) c = .ok () { c with ahead := c.ahead.tail } := by
  rw [bind_of_ok (hp.front hc)]
  rfl

/-- What is expected stands in front of the bracket, wherever it is found. -/
theorem carries_expect {p : Read Bool} {expected : Expectation} (hp : Eats l p)
    (ht : l.Turns d d') :
    Carries k inside (Open d) (do unless ← p do refuse expected) fun _ => Open d' := by
  rintro c _ u c' rfl h
  have hc : c.lexeme? = some l := hp.expected h
  rw [hp.expect_front hc] at h
  obtain ⟨-, rfl⟩ := EStateM.Result.ok.inj h
  refine ⟨d', passes_tail hc ht, rfl, fun _ => ?_⟩
  rw [bind_of_ok (hp.front_closed hc)]
  rfl

theorem carries_expectPunct (text : String) (ht : (Lexeme.punct text).Turns d d') :
    Carries k inside (Open d) (expectPunct text) fun _ => Open d' :=
  carries_expect (eats_eatPunct text) ht

theorem carries_expectWord (text : String) :
    Carries k inside (Open d) (expectWord text) fun _ => Open d :=
  carries_expect (eats_eatWord text) (.neutral d rfl rfl)

theorem carries_mention (name : String) : Carries k inside P (mention name) fun _ => P := by
  intro c d a c' hP h
  obtain ⟨-, rfl⟩ := EStateM.Result.ok.inj h
  exact ⟨d, ⟨[], rfl, fun _ => rfl⟩, hP, fun _ => rfl⟩

namespace Carries

/-- A choice by whether a lexeme was taken. -/
theorem eaten {p : Read Bool} {g g' : Read β} (hp : Eats l p)
    (hl : inside = false → l ≠ .punct ")") (ht : l.Turns d d')
    (yes : Carries k inside (Open d') g R) (no : Carries k inside (Open d) g' R) :
    Carries k inside (Open d) (p >>= fun b => if b = true then g else g') R :=
  (carries_eat hp hl ht).bind fun b => by
    cases b
    · exact no
    · exact yes

theorem eatPunct {text : String} {g g' : Read β} (hl : (text != ")" || inside) = true)
    (ht : (Lexeme.punct text).Turns d d') (yes : Carries k inside (Open d') g R)
    (no : Carries k inside (Open d) g' R) :
    Carries k inside (Open d) (Read.eatPunct text >>= fun b => if b = true then g else g') R :=
  eaten (eats_eatPunct text) (ne_closing hl) ht yes no

theorem eatWord {text : String} {g g' : Read β} (yes : Carries k inside (Open d) g R)
    (no : Carries k inside (Open d) g' R) :
    Carries k inside (Open d) (Read.eatWord text >>= fun b => if b = true then g else g') R :=
  eaten (eats_eatWord text) nofun (.neutral d rfl rfl) yes no

theorem expectPunct {text : String} {g : Unit → Read β} (ht : (Lexeme.punct text).Turns d d')
    (h : Carries k inside (Open d') (g ()) R) :
    Carries k inside (Open d) (Read.expectPunct text >>= g) R :=
  (carries_expectPunct text ht).bind fun _ => h

theorem expectWord {text : String} {g : Unit → Read β} (h : Carries k inside (Open d) (g ()) R) :
    Carries k inside (Open d) (Read.expectWord text >>= g) R :=
  (carries_expectWord text).bind fun _ => h

theorem drop {g : Unit → Read β} (ht : l.Turns d d') (h : Carries k inside (Open d') (g ()) R) :
    Carries k inside (Facing (some l) d) (discard next >>= g) R :=
  (carries_drop ht).bind fun _ => h

theorem named {name : String} {g : Unit → Read β} (h : Carries k inside P (g ()) R) :
    Carries k inside P (mention name >>= g) R :=
  (carries_mention name).bind fun _ => h

/-- What is read behind a lexeme that was taken, unless the lexeme is refused. -/
inductive Behind (k : Closing) (inside : Bool) (d : Nat) (l : Lexeme) (p : Read α) (Q : α → Stand) :
    Prop
  | refused : Refuses p → Behind k inside d l p Q
  | taken {d' : Nat} : l.Turns d d' → Carries k inside (Open d') p Q → Behind k inside d l p Q

/-- What stands in front is taken, unless it is the end. -/
theorem take {f : Spot → Read β} (hend : ∀ place, Refuses (f ⟨none, place⟩))
    (h : ∀ l place, Behind k inside d l (f ⟨some l, place⟩) R) :
    Carries k inside (Open d) (next >>= f) R := by
  rintro c _ b c'' rfl hc
  obtain ⟨spot, c', hn, hb⟩ := bind_eq_ok hc
  obtain ⟨rfl, rfl⟩ := EStateM.Result.ok.inj hn
  cases ha : c.ahead with
  | nil =>
    rw [Cursor.spot, ha] at hb
    exact absurd hb (hend _ _ _ _)
  | cons token tokens =>
    have front : c.lexeme? = some token.lexeme := by
      rw [Cursor.lexeme?, ha]
      rfl
    have more : c.ahead ≠ [] := Cursor.ne_nil_of_lexeme front
    have spot : c.spot = ⟨some token.lexeme, token.place⟩ := by rw [Cursor.spot, ha]
    rw [spot] at hb
    cases h token.lexeme token.place with
    | refused hr => exact absurd hb (hr _ _ _)
    | @taken d' ht h =>
      obtain ⟨d'', hd, hr, he⟩ := h _ d' b c'' rfl hb
      refine ⟨d'', (passes_tail front ht).trans hd, hr, fun hs => ?_⟩
      change f (c.closed k).spot { c.closed k with ahead := (c.closed k).ahead.tail } = _
      rw [Cursor.spot_closed more, Cursor.tail_closed more, spot]
      exact he hs

/-- A reader that ends in front of a token, where one is expected behind it. -/
theorem before {text : String} {g : α → Unit → Read β} (h : Carries k true P p Q)
    (hg : ∀ a, Carries k inside (Q a) (Read.expectPunct text >>= g a) R) :
    Carries k inside P (p >>= fun a => Read.expectPunct text >>= g a) R := by
  intro c d b c'' hP hc
  obtain ⟨a, c', ha, hb⟩ := bind_eq_ok hc
  obtain ⟨d', hd, hq, he⟩ := h c d a c' hP ha
  obtain ⟨d'', hd', hr, he'⟩ := hg a c' d' b c'' hq hb
  -- what is expected is a token, wherever the whole ends
  obtain ⟨u, c₁, hu, -⟩ := bind_eq_ok hb
  have more : c'.ahead ≠ [] := Cursor.ne_nil_of_lexeme ((eats_eatPunct text).expected hu)
  refine ⟨d'', hd.trans hd', hr, fun hs => ?_⟩
  rw [bind_of_ok (he fun _ => more), he' hs]

end Carries

end Taking

/-! ### Repeating -/

/-- A reader that succeeds wherever another one does, and gives the same. -/
def Below (p q : Read α) : Prop :=
  ∀ c a c', p c = .ok a c' → q c = .ok a c'

section Repeating

theorem Below.refl (p : Read α) : Below p p :=
  fun _ _ _ h => h

theorem below_of_refuses (h : Refuses p) : Below p q :=
  fun c a c' hc => absurd hc (h c a c')

theorem Below.bind {f g : α → Read β} (h : Below p q) (hf : ∀ a, Below (f a) (g a)) :
    Below (p >>= f) (q >>= g) := by
  intro c b c'' hc
  obtain ⟨a, c', ha, hb⟩ := bind_eq_ok hc
  rw [bind_of_ok (h c a c' ha), hf a c' b c'' hb]

theorem Below.ite {b : Prop} [Decidable b] {p' q' : Read α} (h : Below p q) (h' : Below p' q') :
    Below (if b then p else p') (if b then q else q') := by
  split
  · exact h
  · exact h'

theorem below_manyWithin (round : Read (Option α)) (n : Nat) :
    Below (manyWithin round n) (manyWithin round (n + 1)) := by
  induction n with
  | zero => exact below_of_refuses refuses_tooDeep
  | succ n ih =>
    refine (Below.refl round).bind fun found => ?_
    cases found with
    | none => exact .refl _
    | some a => exact ih.bind fun _ => .refl _

theorem below_commaListWithin (close : String) (item : Read α) (n : Nat) :
    Below (commaListWithin close item n) (commaListWithin close item (n + 1)) := by
  induction n with
  | zero => exact below_of_refuses refuses_tooDeep
  | succ n ih =>
    refine (Below.refl _).bind fun _ => .ite (.refl _) ?_
    refine (Below.refl item).bind fun a => (Below.refl _).bind fun _ => .ite ?_ (.refl _)
    exact ih.bind fun _ => .refl _

theorem below_growWithin (round : α → Read (Option α)) (n : Nat) (a : α) :
    Below (growWithin round n a) (growWithin round (n + 1) a) := by
  induction n generalizing a with
  | zero => exact below_of_refuses refuses_tooDeep
  | succ n ih =>
    refine (Below.refl (round a)).bind fun found => ?_
    cases found with
    | none => exact .refl _
    | some b => exact ih b

/-- Rounds as many as there are tokens, which are more with one more bracket behind them. -/
theorem Carries.rounds {f : Nat → Read α} (below : ∀ n, Below (f n) (f (n + 1)))
    (h : ∀ n, Carries k inside P (f n) Q) :
    Carries k inside P (do f ((← get).ahead.length + 1)) Q := by
  intro c d a c' hP hc
  obtain ⟨d', hd, hq, he⟩ := h _ c d a c' hP hc
  refine ⟨d', hd, hq, fun hs => ?_⟩
  -- the bracket allows a round more than is needed
  change f ((c.ahead ++ [k.token]).length + 1) (c.closed k) = _
  rw [List.length_append]
  exact below _ _ _ _ (he hs)

/-- What holds behind a round: it goes on, or it was the last. -/
def Going (P E : Stand) : Option α → Stand
  | some _ => P
  | none => E

theorem carries_many {round : Read (Option α)} {E : Stand}
    (h : Carries k inside P round (Going P E)) : Carries k inside P (many round) fun _ => E := by
  refine .rounds (below_manyWithin round) fun n => ?_
  induction n with
  | zero => exact .of_refuses refuses_tooDeep
  | succ n ih =>
    refine h.bind fun found => ?_
    cases found with
    | none => exact .done
    | some a => exact ih.returns

theorem carries_grow {round : α → Read (Option α)} {E : Stand}
    (h : ∀ a, Carries k inside P (round a) (Going P E)) (a : α) :
    Carries k inside P (grow round a) fun _ => E := by
  refine .rounds (f := fun n => growWithin round n a) (below_growWithin round · a) fun n => ?_
  induction n generalizing a with
  | zero => exact .of_refuses refuses_tooDeep
  | succ n ih =>
    refine (h a).bind fun found => ?_
    cases found with
    | none => exact .done
    | some b => exact ih b

/-- Items up to a closing bracket, which is in front of the end. -/
theorem carries_commaList {close : String} {item : Read α}
    (h : Carries k true (Open d) item fun _ => Open d) :
    Carries k true (Open d) (commaList close item) fun _ => Open d := by
  refine .rounds (below_commaListWithin close item) fun n => ?_
  induction n with
  | zero => exact .of_refuses refuses_tooDeep
  | succ n ih =>
    refine .isPunct (Bool.or_true _) fun _ => .ite (fun _ => .done) fun _ => ?_
    refine h.bind fun a => .eatPunct rfl (.neutral d rfl rfl) ?_ .done
    exact ih.returns

end Repeating

end Read

end Graft
