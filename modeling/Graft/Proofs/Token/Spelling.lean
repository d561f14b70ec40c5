import Graft.Token.Scan

/-!
# Spellings that scan back

A lexeme that a scanner made is spelled in such a way that the whole spelling is taken for it again
wherever it is followed by something that does not go on with it.

* `Lexeme.Spelled` - the spellings of each class
* `splitNumber_append_of_stop`, `splitQuoted_of_append` - numbers and strings are taken again
* `spelled_of_scan` - the tokens of a text are spelled so
-/

namespace Graft

open Text (Place)

/-! ## Runs -/

/-- Whether a run that goes on with a test ends in front of the characters. -/
def Stops (test : Char → Bool) (cs : List Char) : Prop :=
  ∀ c ∈ cs.head?, test c = false

theorem stops_nil (test : Char → Bool) : Stops test [] := by
  simp [Stops]

theorem stops_cons {test : Char → Bool} {c : Char} {cs : List Char} :
    Stops test (c :: cs) ↔ test c = false := by
  simp [Stops]

theorem splitRun_append_of_stops {test : Char → Bool} {run rest : List Char}
    (hr : ∀ c ∈ run, test c) (hs : Stops test rest) :
    splitRun test (run ++ rest) = (run, rest) := by
  induction run with
  | nil =>
    cases rest with
    | nil => rfl
    | cons c cs => simp [splitRun, stops_cons.1 hs]
  | cons c cs ih =>
    obtain ⟨hc, hcs⟩ := List.forall_mem_cons.1 hr
    have := ih hcs
    simp only [splitRun, Prod.mk.injEq] at this
    simp [splitRun, hc, this]

theorem all_splitRun (test : Char → Bool) (cs : List Char) :
    ∀ c ∈ (splitRun test cs).1, test c :=
  List.all_eq_true.1 List.all_takeWhile

/-! ## Numbers -/

/-- Whether a number may go on with a character: with a part of a name or a point. -/
def goesOnNumber (c : Char) : Bool :=
  isNamePart c || c == '.'

theorem Stops.mono {test test' : Char → Bool} {cs : List Char} (h : Stops test cs)
    (himp : ∀ c, test c = false → test' c = false) : Stops test' cs :=
  fun c hc => himp c (h c hc)

theorem isDigitPart_eq_false {c : Char} (h : goesOnNumber c = false) : isDigitPart c = false := by
  simp only [goesOnNumber, isNamePart, isNameStart, Bool.or_eq_false_iff] at h
  simp only [isDigitPart, Bool.or_eq_false_iff]
  exact ⟨h.1.2, h.1.1.1.1⟩

theorem isAlpha_eq_false {c : Char} (h : goesOnNumber c = false) : c.isAlpha = false := by
  simp only [goesOnNumber, isNamePart, isNameStart, Bool.or_eq_false_iff] at h
  rcases hc : c.isAlpha with _ | _
  · rfl
  · rw [← h.1.1.2, Text.isAlphabetic_of_isAlpha hc]

theorem isRadixDigit_eq_false {c : Char} (h : goesOnNumber c = false) :
    (c.isAlphanum || c == '_') = false := by
  have ha := isAlpha_eq_false h
  simp only [goesOnNumber, isNamePart, isNameStart, Bool.or_eq_false_iff] at h
  simp only [Char.isAlphanum, Bool.or_eq_false_iff]
  exact ⟨⟨ha, h.1.2⟩, h.1.1.1.1⟩

theorem splitFraction_of_stops {cs : List Char} (h : Stops (· == '.') cs) :
    splitFraction cs = ([], cs) := by
  unfold splitFraction
  split
  · simp [stops_cons] at h
  · rfl

/-- The parts of a fraction are taken again where nothing follows that goes on with them. -/
theorem splitFraction_append_of_stops (cs : List Char) {rest : List Char}
    (hd : Stops isDigitPart rest) (hp : (splitFraction cs).1 = [] → Stops (· == '.') rest) :
    splitFraction ((splitFraction cs).1 ++ rest) = ((splitFraction cs).1, rest) := by
  by_cases h : Stops (· == '.') cs
  · rw [splitFraction_of_stops h] at hp ⊢
    exact splitFraction_of_stops (hp rfl)
  · cases cs with
    | nil => exact absurd (stops_nil _) h
    | cons c cs =>
      obtain rfl : c = '.' := by simpa [stops_cons] using h
      simp only [splitFraction, List.cons_append]
      rw [splitRun_append_of_stops (all_splitRun _ _) hd]

theorem splitSign_of_startsDigit {cs : List Char} (h : startsDigit cs) :
    splitSign cs = ([], cs) := by
  unfold splitSign
  split
  · simp [startsDigit, Char.isDigit] at h
  · simp [startsDigit, Char.isDigit] at h
  · rfl

theorem splitSign_append_of_startsDigit {cs rest : List Char} (h : startsDigit rest) :
    splitSign ((splitSign cs).1 ++ rest) = ((splitSign cs).1, rest) := by
  have sign : (splitSign cs).1 = ['+'] ∨ (splitSign cs).1 = ['-'] ∨ (splitSign cs).1 = [] := by
    unfold splitSign
    split <;> simp
  rcases sign with hs | hs | hs <;> rw [hs]
  · rfl
  · rfl
  · exact splitSign_of_startsDigit h

theorem splitExponent_of_stops {cs : List Char} (h : Stops (fun c => c == 'e' || c == 'E') cs) :
    splitExponent cs = ([], cs) := by
  cases cs with
  | nil => rfl
  | cons c cs => simp [splitExponent, stops_cons.1 h]

theorem startsDigit_splitRun_append {cs : List Char} (rest : List Char) (h : startsDigit cs) :
    startsDigit ((splitRun isDigitPart cs).1 ++ rest) := by
  cases cs with
  | nil => simp [startsDigit] at h
  | cons c cs =>
    simp only [startsDigit] at h
    simp [splitRun, isDigitPart, h, startsDigit]

/-- An exponent is taken again where nothing follows that goes on with a number. -/
theorem splitExponent_append_of_stops (cs : List Char) {rest : List Char}
    (h : Stops goesOnNumber rest) :
    splitExponent ((splitExponent cs).1 ++ rest) = ((splitExponent cs).1, rest) := by
  have stop : splitExponent rest = ([], rest) := splitExponent_of_stops (h.mono fun c hc => by
    have ha := isAlpha_eq_false hc
    simp only [Bool.or_eq_false_iff, beq_eq_false_iff_ne]
    constructor <;> rintro rfl <;> exact absurd ha (by decide))
  cases cs with
  | nil => exact stop
  | cons e cs =>
    rw [splitExponent]
    split
    · rename_i he
      simp only [Bool.and_eq_true] at he
      obtain ⟨he, hd⟩ := he
      have hs := startsDigit_splitRun_append rest hd
      rw [List.append_assoc, List.cons_append, splitExponent,
        splitSign_append_of_startsDigit hs]
      simp only [he, hs, Bool.and_self, if_true]
      rw [splitRun_append_of_stops (all_splitRun _ _) (h.mono fun _ => isDigitPart_eq_false)]
    · exact stop

theorem stops_exponent_append (cs : List Char) {rest : List Char} {test : Char → Bool}
    (he : test 'e' = false ∧ test 'E' = false) (h : Stops test rest) :
    Stops test ((splitExponent cs).1 ++ rest) := by
  cases cs with
  | nil => exact h
  | cons e cs =>
    rw [splitExponent]
    split
    · rename_i hc
      simp only [Bool.and_eq_true, Bool.or_eq_true, beq_iff_eq] at hc
      rcases hc.1 with rfl | rfl
      · exact stops_cons.2 he.1
      · exact stops_cons.2 he.2
    · exact h

theorem stops_fraction_append (cs : List Char) {rest : List Char} {test : Char → Bool}
    (hp : test '.' = false) (h : Stops test rest) :
    Stops test ((splitFraction cs).1 ++ rest) := by
  unfold splitFraction
  split
  · exact stops_cons.2 hp
  · exact h

/-- A decimal number is taken again where nothing follows that goes on with it. -/
theorem splitDecimal_append_of_stops {cs rest : List Char} (h : Stops goesOnNumber rest) :
    splitDecimal ((splitDecimal cs).1 ++ rest) = ((splitDecimal cs).1, rest) := by
  have hd : Stops isDigitPart rest := h.mono fun _ => isDigitPart_eq_false
  have hp : Stops (· == '.') rest := h.mono fun c hc => by
    simp only [goesOnNumber, Bool.or_eq_false_iff] at hc
    exact hc.2
  simp only [splitDecimal]
  generalize hw : (splitRun isDigitPart cs).1 = whole
  generalize (splitRun isDigitPart cs).2 = cs₁
  have hall : ∀ c ∈ whole, isDigitPart c := hw ▸ all_splitRun _ _
  have h₁ : Stops isDigitPart ((splitExponent (splitFraction cs₁).2).1 ++ rest) :=
    stops_exponent_append _ (by decide) hd
  have h₂ : Stops (· == '.') ((splitExponent (splitFraction cs₁).2).1 ++ rest) :=
    stops_exponent_append _ (by decide) hp
  have split₁ := splitRun_append_of_stops hall
    (stops_fraction_append cs₁ (by decide) h₁)
  have split₂ := splitFraction_append_of_stops cs₁ h₁ fun _ => h₂
  have split₃ := splitExponent_append_of_stops (splitFraction cs₁).2 h
  simp only [List.append_assoc, split₁, split₂, split₃]

theorem splitNumber_of_no_radix {cs : List Char}
    (h : ∀ x tail, cs = '0' :: x :: tail → isRadixLetter x = false) :
    splitNumber cs = splitDecimal cs := by
  unfold splitNumber
  split
  · rename_i x tail
    rw [h x tail rfl]
    rfl
  · rfl

theorem goesOnNumber_of_isRadixLetter {c : Char} (h : isRadixLetter c) : goesOnNumber c := by
  simp only [isRadixLetter, List.contains_eq_mem, List.mem_cons, List.not_mem_nil, or_false,
    decide_eq_true_eq] at h
  rcases h with rfl | rfl | rfl | rfl | rfl | rfl <;> decide

/-- A number is taken again where nothing follows that goes on with it. -/
theorem splitNumber_append_of_stops (cs : List Char) {rest : List Char}
    (h : Stops goesOnNumber rest) :
    splitNumber ((splitNumber cs).1 ++ rest) = ((splitNumber cs).1, rest) := by
  by_cases hr : ∃ x tail, cs = '0' :: x :: tail ∧ isRadixLetter x
  · obtain ⟨x, tail, rfl, hx⟩ := hr
    simp only [splitNumber, hx, if_true, List.cons_append]
    rw [splitRun_append_of_stops (all_splitRun _ _) (h.mono fun _ => isRadixDigit_eq_false)]
  · have hn : ∀ x tail, cs = '0' :: x :: tail → isRadixLetter x = false := fun x tail he => by
      simpa using fun hx => hr ⟨x, tail, he, hx⟩
    rw [splitNumber_of_no_radix hn, splitNumber_of_no_radix, splitDecimal_append_of_stops h]
    intro x tail he
    -- The letter would be the second character of the number or the first one behind it.
    have hcs := splitDecimal_append cs
    generalize (splitDecimal cs).1 = text at he hcs
    rcases text with _ | ⟨c, _ | ⟨d, text⟩⟩
    · have := h '0' (by simp_all)
      exact absurd this (by decide)
    · have hx : goesOnNumber x = false := h x (by simp_all)
      rcases hl : isRadixLetter x with _ | _
      · rfl
      · rw [goesOnNumber_of_isRadixLetter hl] at hx
        exact absurd hx (by decide)
    · simp only [List.cons_append, List.cons.injEq] at he
      obtain ⟨rfl, rfl, -⟩ := he
      exact hn _ _ hcs.symm

/-! ## String literals -/

theorem splitQuoted_cons {quote c : Char} {cs : List Char} (h : c ≠ '\\') :
    splitQuoted quote (c :: cs) =
      if c = quote then some ([c], cs)
      else if Text.isLineBreak c then none
      else (splitQuoted quote cs).map fun (inside, rest) => (c :: inside, rest) := by
  rw [splitQuoted]
  · rintro rfl
    exact absurd rfl h
  · rintro _ _ rfl
    exact absurd rfl h

/-- A string literal is taken again whatever follows. -/
theorem splitQuoted_of_append {quote : Char} {cs inside rest : List Char}
    (h : splitQuoted quote cs = some (inside, rest)) (more : List Char) :
    splitQuoted quote (inside ++ more) = some (inside, more) := by
  fun_induction splitQuoted quote cs generalizing inside with
  | case1 | case2 | case5 => simp at h
  | case3 c cs ih =>
    obtain ⟨⟨i, r⟩, hs, he⟩ := Option.map_eq_some_iff.1 h
    simp only [Prod.mk.injEq] at he
    obtain ⟨rfl, rfl⟩ := he
    simp [splitQuoted, ih hs]
  | case4 cs h₁ h₂ =>
    simp only [Option.some.injEq, Prod.mk.injEq] at h
    obtain ⟨rfl, rfl⟩ := h
    have hc : quote ≠ '\\' := by
      rintro rfl
      cases cs with
      | nil => exact h₁ rfl rfl
      | cons c cs => exact h₂ _ _ rfl rfl
    rw [List.cons_append, List.nil_append, splitQuoted_cons hc, if_pos rfl]
  | case6 c cs h₁ h₂ hq hl ih =>
    obtain ⟨⟨i, r⟩, hs, he⟩ := Option.map_eq_some_iff.1 h
    simp only [Prod.mk.injEq] at he
    obtain ⟨rfl, rfl⟩ := he
    have hc : c ≠ '\\' := by
      rintro rfl
      cases cs with
      | nil => exact h₁ rfl rfl
      | cons c cs => exact h₂ _ _ rfl rfl
    rw [List.cons_append, splitQuoted_cons hc, if_neg hq, if_neg hl, ih hs]
    rfl

/-! ## Lexemes -/

namespace Lexeme

/-- The spellings that a scanner gives to the lexemes of each class. -/
def Spelled : Lexeme → Prop
  | word text => ∃ c cs, text.toList = c :: cs ∧ isNameStart c ∧ ∀ x ∈ cs, isNamePart x
  | number text => startsNumber text.toList ∧ splitNumber text.toList = (text.toList, [])
  | quoted text => ∃ quote inside, text.toList = quote :: inside ∧ (quote = '"' ∨ quote = '\'') ∧
      splitQuoted quote inside = some (inside, [])
  | punct text => text ∈ punctuators

end Lexeme

theorem startsNumber_splitNumber {cs : List Char} (h : startsNumber cs) :
    startsNumber (splitNumber cs).1 := by
  by_cases hp : Stops (· == '.') cs
  · have hne := splitNumber_ne_nil h
    have hcs := splitNumber_append cs
    generalize (splitNumber cs).1 = text at *
    generalize (splitNumber cs).2 = rest at *
    rcases text with _ | ⟨c, text⟩
    · exact absurd rfl hne
    · subst hcs
      have hc : c ≠ '.' := by simpa [stops_cons] using hp
      have unfoldAt : ∀ tail, startsNumber (c :: tail) = c.isDigit := fun tail => by
        unfold startsNumber
        split
        · simp_all
        · rfl
      rw [List.cons_append, unfoldAt] at h
      rwa [unfoldAt]
  · rcases cs with _ | ⟨c, cs⟩
    · exact absurd (stops_nil _) hp
    · obtain rfl : c = '.' := by simpa [stops_cons] using hp
      rw [splitNumber_of_no_radix fun x tail he => absurd he (by simp)]
      exact startsDigit_splitRun_append _ h

theorem spelled_of_splitLexeme {previous : Option Lexeme} {place : Place} {c : Char}
    {cs rest : List Char} {lexeme : Lexeme}
    (h : splitLexeme previous place c cs = .ok (lexeme, rest)) : lexeme.Spelled := by
  unfold splitLexeme at h
  split at h
  · rename_i hn
    simp only [Except.ok.injEq, Prod.mk.injEq] at h
    obtain ⟨rfl, rfl⟩ := h
    simp only [Lexeme.Spelled, String.toList_ofList]
    refine ⟨startsNumber_splitNumber hn, ?_⟩
    simpa using splitNumber_append_of_stops (c :: cs) (stops_nil _)
  split at h
  · rename_i hq
    split at h
    · rename_i hs
      simp only [Except.ok.injEq, Prod.mk.injEq] at h
      obtain ⟨rfl, rfl⟩ := h
      refine ⟨c, _, String.toList_ofList, by simpa using hq, ?_⟩
      simpa using splitQuoted_of_append hs []
    · simp at h
  split at h
  · simp at h
  split at h
  · simp at h
  split at h
  · rename_i hc
    simp only [Except.ok.injEq, Prod.mk.injEq] at h
    obtain ⟨rfl, rfl⟩ := h
    exact ⟨c, _, String.toList_ofList, hc, all_splitRun _ _⟩
  split at h
  · rename_i hp
    simp only [Except.ok.injEq, Prod.mk.injEq] at h
    obtain ⟨rfl, rfl⟩ := h
    obtain ⟨q, hq, he⟩ := Option.map_eq_some_iff.1 hp
    simp only [Prod.mk.injEq] at he
    exact he.1 ▸ List.mem_of_find?_eq_some hq
  · simp at h

/-- The tokens of a text are spelled as a scanner spells them. -/
theorem spelled_of_scanFrom {previous : Option Lexeme} {place : Place} {cs : List Char}
    {tokens : Tokens} (h : scanFrom previous place cs = .ok tokens) :
    ∀ token ∈ tokens.list, token.lexeme.Spelled := by
  fun_induction scanFrom previous place cs generalizing tokens with
  | case1 =>
    obtain rfl := Except.ok.inj h
    simp
  | case4 previous place cs s here hclosed c rest hs lexeme after hl tokens' ht =>
    rename_i ih
    obtain rfl := Except.ok.inj h
    exact List.forall_mem_cons.2 ⟨spelled_of_splitLexeme hl, ih ht⟩
  | _ => simp_all

theorem spelled_of_scan {source : String} {tokens : Tokens} (h : scan source = .ok tokens) :
    ∀ token ∈ tokens.list, token.lexeme.Spelled :=
  spelled_of_scanFrom h

end Graft
