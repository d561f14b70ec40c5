import Graft.Proofs.Reading.Shape
import Graft.Reading.Program

/-!
# What a reader leaves behind

A reader that succeeds has taken tokens from the front and mentioned names, and done nothing else
to its state. What it has mentioned and what it gives are stated together, so that a rule of the
grammar is followed step by step without a look at the state.

* `Read.Ensures` - what holds of the names that a reader mentions and of its result
* `Ensures.bind`, `Ensures.skip`, `Ensures.guard` - the steps of a rule
* `ensures_many`, `ensures_commaList`, `ensures_grow` - repetitions
-/

namespace Graft

variable {α β : Type}

namespace Cursor

/-- The later state has the tokens behind some that were taken, and has mentioned names. -/
structure Reaches (names : List String) (c c' : Cursor) : Prop where
  ahead : c'.ahead <:+ c.ahead
  finish : c'.finish = c.finish
  script : c'.script = { c.script with names := c.script.names.mentionAll names }

/-- The tokens ahead come from a scanner. -/
def Spelled (c : Cursor) : Prop :=
  ∀ token ∈ c.ahead, token.lexeme.Spelled

variable {names more : List String} {c c' c'' : Cursor}

theorem Reaches.refl (c : Cursor) : c.Reaches [] c :=
  ⟨List.suffix_refl _, rfl, rfl⟩

theorem Reaches.trans (h : c.Reaches names c') (h' : c'.Reaches more c'') :
    c.Reaches (names ++ more) c'' := by
  refine ⟨h'.ahead.trans h.ahead, h'.finish.trans h.finish, ?_⟩
  rw [h'.script, h.script, Names.mentionAll_append]

theorem Reaches.spelled (h : c.Reaches names c') (hs : c.Spelled) : c'.Spelled :=
  fun token ht => hs token (h.ahead.subset ht)

end Cursor

namespace Read

/-- Two steps succeed one after the other. -/
theorem bind_eq_ok {p : Read α} {f : α → Read β} {c c'' : Cursor} {b : β}
    (h : (p >>= f) c = .ok b c'') : ∃ a c', p c = .ok a c' ∧ f a c' = .ok b c'' := by
  change EStateM.bind p f c = _ at h
  unfold EStateM.bind at h
  split at h
  · exact ⟨_, _, ‹_›, h⟩
  · cases h

theorem discard_eq_ok {p : Read α} {c c' : Cursor} {u : Unit} (h : (discard p) c = .ok u c') :
    ∃ a, p c = .ok a c' := by
  change EStateM.map _ p c = _ at h
  unfold EStateM.map at h
  split at h
  · obtain ⟨-, rfl⟩ := EStateM.Result.ok.inj h
    exact ⟨_, ‹_›⟩
  · cases h

/-- Whenever a reader succeeds on tokens of a scanner, it has taken some of them and mentioned
names, and the names and its result are as stated. -/
def Ensures (p : Read α) (P : List String → α → Prop) : Prop :=
  ∀ c a c', p c = .ok a c' → c.Spelled → ∃ names, c.Reaches names c' ∧ P names a

/-- A reader that mentions nothing. -/
def Silent (p : Read α) : Prop :=
  Ensures p fun names _ => names = []

variable {p : Read α} {P : List String → α → Prop}

/-! ## Steps -/

namespace Ensures

theorem mono {Q : List String → α → Prop} (h : Ensures p P)
    (himp : ∀ names a, P names a → Q names a) : Ensures p Q := by
  intro c a c' hc hs
  obtain ⟨names, hr, hp⟩ := h c a c' hc hs
  exact ⟨names, hr, himp names a hp⟩

theorem pure {a : α} (h : P [] a) : Ensures (pure a) P := by
  intro c a' c' hc _
  obtain ⟨rfl, rfl⟩ := EStateM.Result.ok.inj hc
  exact ⟨[], .refl c, h⟩

theorem throw {e : SourceError} : Ensures (throw e) P :=
  fun c a c' hc => by cases hc

theorem bind {f : α → Read β} {Q : List String → β → Prop} (h : Ensures p P)
    (hf : ∀ names a, P names a → Ensures (f a) fun more b => Q (names ++ more) b) :
    Ensures (p >>= f) Q := by
  intro c b c'' hc hs
  obtain ⟨a, c', hp, hc⟩ := bind_eq_ok hc
  obtain ⟨names, hr, ha⟩ := h c a c' hp hs
  obtain ⟨more, hr', hb⟩ := hf names a ha c' b c'' hc (hr.spelled hs)
  exact ⟨names ++ more, hr.trans hr', hb⟩

/-- A step that mentions nothing. -/
theorem skip {f : α → Read β} {Q : List String → β → Prop} (h : Silent p)
    (hf : ∀ a, Ensures (f a) Q) : Ensures (p >>= f) Q :=
  h.bind fun _ a hn => hn ▸ hf a

theorem map {f : α → β} {Q : List String → β → Prop} (h : Ensures p P)
    (himp : ∀ names a, P names a → Q names (f a)) : Ensures (f <$> p) Q := by
  rw [← bind_pure_comp]
  exact h.bind fun names a ha => .pure ((List.append_nil names).symm ▸ himp names a ha)

/-- Names count only for the table that they lead to. -/
theorem same {Q : List String → α → Prop} (h : Ensures p P)
    (himp : ∀ names a, P names a → ∃ names',
      (∀ known : Names, known.mentionAll names = known.mentionAll names') ∧ Q names' a) :
    Ensures p Q := by
  intro c a c' hc hs
  obtain ⟨names, hr, hp⟩ := h c a c' hc hs
  obtain ⟨names', he, hp'⟩ := himp names a hp
  exact ⟨names', ⟨hr.ahead, hr.finish, by rw [hr.script, he]⟩, hp'⟩

theorem ite {b : Prop} [Decidable b] {q : Read α} (h : b → Ensures p P)
    (h' : ¬ b → Ensures q P) : Ensures (if b then p else q) P := by
  split
  · exact h ‹_›
  · exact h' ‹_›

end Ensures

/-! ## Refusing -/

theorem silent_get : Silent (get : Read Cursor) :=
  fun c _ _ hc _ => ⟨[], by cases hc; exact .refl c, rfl⟩

theorem ensures_unsupported {what : Feature} : Ensures (unsupported (α := α) what) P :=
  .skip silent_get fun _ => .throw

theorem ensures_refuseAt {spot : Spot} {expected : Expectation} :
    Ensures (refuseAt (α := α) spot expected) P :=
  .throw

theorem ensures_refuse {expected : Expectation} : Ensures (refuse (α := α) expected) P :=
  .skip silent_get fun _ => ensures_refuseAt

theorem ensures_tooDeep : Ensures (tooDeep (α := α)) P :=
  .skip silent_get fun _ => .throw

/-- A construct that is refused where a test holds. -/
theorem Ensures.guard {b : Prop} [Decidable b] {what : Feature} {f : Unit → Read α}
    (h : Ensures (f ()) P) : Ensures (if b then unsupported what >>= f else f ()) P :=
  .ite (fun _ => ensures_unsupported.bind (P := fun _ _ => False) fun _ _ => False.elim)
    fun _ => h

/-! ## Looking and taking -/

theorem ensures_lexeme? :
    Ensures lexeme? fun names found => names = [] ∧ ∀ l ∈ found, l.Spelled := by
  rintro c _ _ ⟨⟩ hs
  refine ⟨[], .refl c, rfl, fun l hl => ?_⟩
  obtain ⟨token, ht, rfl⟩ := Option.map_eq_some_iff.1 hl
  exact hs token (List.mem_of_mem_head? ht)

theorem silent_lexeme? : Silent lexeme? :=
  ensures_lexeme?.mono fun _ _ h => h.1

theorem silent_second? : Silent second? :=
  .skip silent_get fun _ => .pure rfl

theorem silent_atEnd : Silent atEnd :=
  .skip silent_get fun _ => .pure rfl

theorem silent_newlineAhead : Silent newlineAhead :=
  .skip silent_get fun _ => .pure rfl

theorem silent_isPunct (text : String) : Silent (isPunct text) :=
  .skip silent_lexeme? fun _ => .pure rfl

theorem silent_isWord (text : String) : Silent (isWord text) :=
  .skip silent_lexeme? fun _ => .pure rfl

theorem ensures_next :
    Ensures next fun names spot => names = [] ∧ ∀ l ∈ spot.found, l.Spelled := by
  rintro c _ _ ⟨⟩ hs
  refine ⟨[], ⟨List.tail_suffix _, rfl, rfl⟩, rfl, fun l hl => ?_⟩
  unfold Cursor.spot at hl
  split at hl
  · rename_i token tokens ht
    obtain rfl := Option.some.inj hl
    exact hs token (ht ▸ List.mem_cons_self ..)
  · cases hl

theorem silent_next : Silent next :=
  ensures_next.mono fun _ _ h => h.1

theorem silent_discard_next : Silent (discard next) :=
  silent_next.map fun _ _ h => h

theorem silent_eatPunct (text : String) : Silent (eatPunct text) :=
  .skip (silent_isPunct text) fun _ =>
    .ite (fun _ => .skip silent_discard_next fun _ => .pure rfl) fun _ => .pure rfl

theorem silent_eatWord (text : String) : Silent (eatWord text) :=
  .skip (silent_isWord text) fun _ =>
    .ite (fun _ => .skip silent_discard_next fun _ => .pure rfl) fun _ => .pure rfl

theorem silent_expectPunct (text : String) : Silent (expectPunct text) :=
  .skip (silent_eatPunct text) fun _ => .ite (fun _ => .pure rfl) fun _ => ensures_refuse

theorem silent_expectWord (text : String) : Silent (expectWord text) :=
  .skip (silent_eatWord text) fun _ => .ite (fun _ => .pure rfl) fun _ => ensures_refuse

theorem ensures_mention (name : String) : Ensures (mention name) fun names _ => names = [name] := by
  rintro c _ _ ⟨⟩ _
  exact ⟨[name], ⟨List.suffix_refl _, rfl, rfl⟩, rfl⟩

namespace Ensures

variable {Q : List String → β → Prop}

theorem look {f : Option Lexeme → Read β}
    (h : ∀ found, (∀ l ∈ found, l.Spelled) → Ensures (f found) Q) :
    Ensures (lexeme? >>= f) Q :=
  ensures_lexeme?.bind fun _ found ⟨hn, hf⟩ => hn ▸ h found hf

theorem take {f : Spot → Read β}
    (h : ∀ spot : Spot, (∀ l ∈ spot.found, l.Spelled) → Ensures (f spot) Q) :
    Ensures (next >>= f) Q :=
  ensures_next.bind fun _ spot ⟨hn, hf⟩ => hn ▸ h spot hf

theorem named {name : String} {f : Unit → Read β}
    (h : Ensures (f ()) fun more b => Q (name :: more) b) :
    Ensures (mention name >>= f) Q :=
  (ensures_mention name).bind fun _ _ hn => hn ▸ h

/-- A state that is refused where a test holds. -/
theorem check {b : Prop} [Decidable b] {expected : Expectation} {f : Unit → Read β}
    (h : ¬ b → Ensures (f ()) Q) :
    Ensures (if b then refuse expected >>= f else f ()) Q :=
  .ite (fun _ => ensures_refuse.bind (P := fun _ _ => False) fun _ _ => False.elim) h

end Ensures

/-! ## Repeating -/

section Repeating

variable {N : α → List String} {G : α → Prop}

/-- What holds of each result of a round holds of the list of all. -/
theorem ensures_many {round : Read (Option α)}
    (h : Ensures round fun new found => new = found.toList.flatMap N ∧ ∀ a ∈ found, G a) :
    Ensures (many round) fun new found => new = found.flatMap N ∧ ∀ a ∈ found, G a := by
  have within : ∀ rounds, Ensures (manyWithin round rounds) fun new found =>
      new = found.flatMap N ∧ ∀ a ∈ found, G a := by
    intro rounds
    induction rounds with
    | zero => exact ensures_tooDeep
    | succ rounds ih =>
      refine h.bind fun new found hf => ?_
      rcases found with _ | a
      · exact .pure (by simp [hf.1])
      · refine ih.bind fun more as has => .pure ?_
        simpa [hf.1, has.1] using ⟨hf.2 a rfl, has.2⟩
  exact .skip silent_get fun c => within _

/-- What holds of each item holds of the list of all. -/
theorem ensures_commaList {close : String} {item : Read α}
    (h : Ensures item fun new a => new = N a ∧ G a) :
    Ensures (commaList close item) fun new found =>
      new = found.flatMap N ∧ ∀ a ∈ found, G a := by
  have within : ∀ rounds, Ensures (commaListWithin close item rounds) fun new found =>
      new = found.flatMap N ∧ ∀ a ∈ found, G a := by
    intro rounds
    induction rounds with
    | zero => exact ensures_tooDeep
    | succ rounds ih =>
      refine .skip (silent_isPunct close) fun _ => .ite (fun _ => .pure (by simp)) fun _ => ?_
      refine h.bind fun new a ha => .skip (silent_eatPunct ",") fun _ => ?_
      refine .ite (fun _ => ?_) fun _ => ?_
      · refine ih.bind fun more as has => .pure ?_
        simpa [ha.1, has.1] using ⟨ha.2, has.2⟩
      · exact .pure (by simpa [ha.1] using ha.2)
  exact .skip silent_get fun c => within _

/-- A result keeps what holds of it while it grows, the N that it mentions at the end. -/
theorem ensures_grow {round : α → Read (Option α)}
    (h : ∀ a, G a → Ensures (round a) fun new found =>
      (found = none → new = []) ∧ ∀ b ∈ found, N a ++ new = N b ∧ G b)
    {a : α} (ha : G a) :
    Ensures (grow round a) fun new b => N a ++ new = N b ∧ G b := by
  have within : ∀ rounds a, G a → Ensures (growWithin round rounds a) fun new b =>
      N a ++ new = N b ∧ G b := by
    intro rounds
    induction rounds with
    | zero => exact fun _ _ => ensures_tooDeep
    | succ rounds ih =>
      intro a ha
      refine (h a ha).bind fun new found hf => ?_
      rcases found with _ | b
      · exact .pure (by simpa [hf.1 rfl] using ha)
      · obtain ⟨hb, hg⟩ := hf.2 b rfl
        refine (ih b hg).mono fun more b' hb' => ?_
        rw [← List.append_assoc, hb]
        exact hb'
  exact .skip silent_get fun c => within _ a ha

end Repeating

end Read

end Graft
