import Graft.Proofs.Token.Spelling

/-!
# Taking a lexeme again

A lexeme that is spelled as a scanner spells it is taken again, whole and alone, from every text
that begins with it and goes on with a character where it ends. Only a slash also depends on what
stands in front of it.

* `Lexeme.endsAt` - where each class of lexemes ends
* `splitLexeme_of_spelled` - a lexeme that may stand there is taken
* `splitLexeme_of_slash` - a slash where an operand is expected is refused
* `splitGap_of_blank`, `splitGap_of_spelled` - gaps end in front of lexemes
-/

namespace Graft

open Text

/-! ## Characters that begin lexemes -/

/-- The blanks outside of ASCII. -/
def wideBlanks : List Nat :=
  [0x85, 0xA0, 0x1680, 0x2000, 0x2001, 0x2002, 0x2003, 0x2004, 0x2005, 0x2006, 0x2007, 0x2008,
   0x2009, 0x200A, 0x2028, 0x2029, 0x202F, 0x205F, 0x3000]

theorem le_of_mem_wideBlanks : ∀ n ∈ wideBlanks, 0x80 ≤ n := by
  decide

theorem toNat_of_isBlank {c : Char} (h : isBlank c) :
    9 ≤ c.toNat ∧ c.toNat ≤ 13 ∨ c.toNat = 0x20 ∨ c.toNat ∈ wideBlanks := by
  simp only [isBlank, Bool.or_eq_true, Bool.and_eq_true, decide_eq_true_eq, beq_iff_eq] at h
  simp only [wideBlanks, List.mem_cons, List.not_mem_nil, or_false]
  omega

theorem isAlpha_eq_false_of_toNat {c : Char} (h : c.toNat < 0x41) : c.isAlpha = false := by
  change (decide (c.val ≥ 'A'.val ∧ c.val ≤ 'Z'.val) ||
    (c.val ≥ 'a'.val && c.val ≤ 'z'.val)) = false
  simp [UInt32.le_iff_toNat_le, ← Char.toNat_val] at h ⊢
  omega

/-- No letter is a blank. -/
theorem isAlphabetic_of_isBlank {c : Char} (h : isBlank c) : isAlphabetic c = false := by
  have apart : (alphabeticRanges.all fun range =>
      wideBlanks.all fun n => decide (n < range.1) || decide (range.2 < n)) = true := by
    decide +kernel
  rcases toNat_of_isBlank h with hc | hc | hc
  · rw [isAlphabetic, if_pos (by omega), isAlpha_eq_false_of_toNat (by omega)]
  · rw [isAlphabetic, if_pos (by omega), isAlpha_eq_false_of_toNat (by omega)]
  · rw [isAlphabetic, if_neg (Nat.not_lt.2 (le_of_mem_wideBlanks _ hc)), List.any_eq_false]
    intro range hr
    have := List.all_eq_true.1 (List.all_eq_true.1 apart range hr) _ hc
    simp only [Bool.or_eq_true, decide_eq_true_eq] at this
    simp only [Bool.and_eq_true, decide_eq_true_eq]
    omega

/-- A letter of a name is none of the characters that begin something else. -/
theorem isNameStart_of_toNat {c : Char} (h : c.toNat < 0x41) (hd : c ≠ '$') :
    isNameStart c = false := by
  have ha : isAlphabetic c = false := by
    rw [isAlphabetic, if_pos (by omega), isAlpha_eq_false_of_toNat h]
  have hu : c ≠ '_' := by rintro rfl; exact absurd h (by decide)
  simp [isNameStart, ha, hu, hd]

theorem isBlank_of_isNameStart {c : Char} (h : isNameStart c) : isBlank c = false := by
  rcases hb : isBlank c with _ | _
  · rfl
  · have ha := isAlphabetic_of_isBlank hb
    simp only [isNameStart, ha, Bool.or_false, Bool.or_eq_true, beq_iff_eq] at h
    rcases h with rfl | rfl <;> exact absurd hb (by decide)

theorem toNat_of_isDigit {c : Char} (h : c.isDigit) : 0x30 ≤ c.toNat ∧ c.toNat ≤ 0x39 := by
  simpa [Char.isDigit, UInt32.le_iff_toNat_le, ← Char.toNat_val] using h

/-! ## Where lexemes end -/

namespace Lexeme

/-- Whether a lexeme ends in front of a character. -/
def endsAt (c : Char) : Lexeme → Bool
  | word _ => !isNamePart c
  | number _ => !goesOnNumber c
  | quoted _ => true
  | punct p =>
    !(punctuators.any fun q => (p.toList ++ [c]).isPrefixOf q.toList) &&
      !(p == "." && c.isDigit) && !(p == "/" && (c == '/' || c == '*'))

/-- Whether a lexeme ends in front of a text. -/
def Ends (l : Lexeme) (rest : List Char) : Prop :=
  ∀ c ∈ rest.head?, l.endsAt c

/-- The two signs that begin with a slash. -/
def isSlash : Lexeme → Bool
  | punct p => p == "/" || p == "/="
  | _ => false

end Lexeme

open Lexeme (Ends)

theorem stops_of_ends {l : Lexeme} {test : Char → Bool} {rest : List Char} (h : l.Ends rest)
    (himp : ∀ c, l.endsAt c → test c = false) : Stops test rest :=
  fun c hc => himp c (h c hc)

/-- A sign is the first of the list that begins a text in which nothing longer does. -/
theorem splitPunct_append_of_ends {p : String} (hp : p ∈ punctuators) {rest : List Char}
    (h : (Lexeme.punct p).Ends rest) : splitPunct (p.toList ++ rest) = some (p, rest) := by
  have order : ∀ p ∈ punctuators, ∃ as bs, punctuators = as ++ p :: bs ∧
      ∀ q ∈ as, ¬ q.toList <+: p.toList := by
    intro p hp
    have shorter : ∀ p ∈ punctuators, ∀ q ∈ punctuators.takeWhile (· != p),
        ¬ q.toList <+: p.toList := by decide +kernel
    refine ⟨_, (punctuators.dropWhile (· != p)).tail, ?_, shorter p hp⟩
    have found : ∀ p ∈ punctuators, punctuators =
        punctuators.takeWhile (· != p) ++ p :: (punctuators.dropWhile (· != p)).tail := by
      decide +kernel
    exact found p hp
  obtain ⟨as, bs, hl, hfirst⟩ := order p hp
  have find : (punctuators.find? fun q => q.toList.isPrefixOf (p.toList ++ rest)) = some p := by
    rw [List.find?_eq_some_iff_append]
    refine ⟨List.isPrefixOf_iff_prefix.2 (List.prefix_append _ _), as, bs, hl, fun q hq => ?_⟩
    rw [Bool.not_eq_true', ← Bool.not_eq_true, List.isPrefixOf_iff_prefix]
    intro hpre
    -- what is longer than the sign would go on with the next character
    rcases List.prefix_or_prefix_of_prefix hpre (List.prefix_append p.toList rest) with hle | hle
    · exact hfirst q hq hle
    · obtain ⟨tail, ht⟩ := hle
      cases tail with
      | nil => exact hfirst q hq (by simp [← ht])
      | cons c tail =>
        rw [← ht, List.prefix_append_right_inj] at hpre
        obtain ⟨more, rfl⟩ := hpre
        have he := h c rfl
        simp only [Lexeme.endsAt, Bool.and_eq_true, Bool.not_eq_true', List.any_eq_false] at he
        refine he.1.1 q (hl ▸ List.mem_append_left _ hq) ?_
        rw [List.isPrefixOf_iff_prefix, ← ht]
        exact ⟨tail, by simp⟩
  rw [splitPunct, find, Option.map_some, List.drop_left' (String.length_toList)]

/-- The first character of a sign begins nothing but signs. -/
theorem head_of_punct {p : String} (hp : p ∈ punctuators) : ∃ c cs, p.toList = c :: cs ∧
    c.isDigit = false ∧ isBlank c = false ∧ isNameStart c = false ∧ c ≠ '"' ∧ c ≠ '\'' ∧
    c ≠ '\x60' ∧ (c = '.' → cs = [] ∨ cs = ['.', '.']) ∧
    (c = '/' ↔ (Lexeme.punct p).isSlash = true) ∧ (c = '/' → cs = [] ∨ cs = ['=']) := by
  have all : ∀ p ∈ punctuators, (p.toList.head?.any fun c => let cs := p.toList.tail
      decide (c.isDigit = false ∧ isBlank c = false ∧ isNameStart c = false ∧ c ≠ '"' ∧ c ≠ '\'' ∧
      c ≠ '\x60' ∧ (c = '.' → cs = [] ∨ cs = ['.', '.']) ∧
      (c = '/' ↔ (Lexeme.punct p).isSlash = true) ∧ (c = '/' → cs = [] ∨ cs = ['=']))) = true := by
    decide +kernel
  obtain ⟨c, hc, rest⟩ := (Option.any_eq_true ..).1 (all p hp)
  obtain ⟨cs, hcs⟩ := List.head?_eq_some_iff.1 hc
  rw [hcs] at rest
  exact ⟨c, cs, hcs, of_decide_eq_true rest⟩

theorem startsNumber_cons (c : Char) (cs : List Char) :
    startsNumber (c :: cs) = if c = '.' then startsDigit cs else c.isDigit := by
  by_cases h : c = '.'
  · subst h
    rfl
  · rw [if_neg h, startsNumber]
    · rfl
    · rintro tail heq
      exact h (List.cons.inj heq).1

theorem startsNumber_append {cs : List Char} (h : startsNumber cs) (rest : List Char) :
    startsNumber (cs ++ rest) := by
  rcases cs with _ | ⟨c, cs⟩
  · cases h
  · rw [startsNumber_cons] at h
    rw [List.cons_append, startsNumber_cons]
    by_cases hc : c = '.'
    · rw [if_pos hc] at h ⊢
      cases cs with
      | nil => cases h
      | cons d cs => exact h
    · rwa [if_neg hc] at h ⊢

/-- The first character of a name begins neither a number nor a string nor a sign. -/
theorem head_of_name {c : Char} (h : isNameStart c) :
    c.isDigit = false ∧ c ≠ '.' ∧ c ≠ '"' ∧ c ≠ '\'' ∧ c ≠ '\x60' ∧ c ≠ '/' := by
  refine ⟨?_, ?_, ?_, ?_, ?_, ?_⟩
  · rcases hd : c.isDigit with _ | _
    · rfl
    · have := toNat_of_isDigit hd
      rw [isNameStart_of_toNat (by omega) (by rintro rfl; exact absurd hd (by decide))] at h
      cases h
  all_goals
    rintro rfl
    exact absurd h (by decide +kernel)

variable {previous : Option Lexeme} {place : Place} {c : Char} {cs rest : List Char}

/-- A sign begins no number: behind a point there is no digit, which would make a number of it. -/
theorem startsNumber_of_punct {p : String} (hp : p ∈ punctuators)
    (he : (Lexeme.punct p).Ends rest) : startsNumber (p.toList ++ rest) = false := by
  obtain ⟨first, tail, ht, hdigit, -, -, -, -, -, hpoint, -⟩ := head_of_punct hp
  rw [ht, List.cons_append, startsNumber_cons]
  split
  · rename_i hf
    rcases hpoint hf with rfl | rfl
    · obtain rfl : p = "." := by
        rw [← String.toList_inj, ht, hf]
        rfl
      cases rest with
      | nil => rfl
      | cons d rest =>
        have hd := he d rfl
        simp only [Lexeme.endsAt, Bool.and_eq_true] at hd
        simpa [startsDigit] using hd.1.2
    · rfl
  · exact hdigit

/-- A lexeme is taken again from a text that begins with it, unless it is a slash where an operand
is expected. -/
theorem splitLexeme_of_spelled {l : Lexeme} (hs : l.Spelled) (he : l.Ends rest)
    (hcs : l.text.toList ++ rest = c :: cs)
    (hslash : l.isSlash = true → expectsOperand previous = false) :
    splitLexeme previous place c cs = .ok (l, rest) := by
  cases l with
  | number text =>
    obtain ⟨hstart, hsplit⟩ := hs
    have taken : splitNumber (text.toList ++ rest) = (text.toList, rest) := by
      have := splitNumber_append_of_stops text.toList
        (stops_of_ends he fun c hc => by simpa [Lexeme.endsAt] using hc)
      rwa [hsplit] at this
    have starts := startsNumber_append hstart rest
    change text.toList ++ rest = c :: cs at hcs
    rw [hcs] at taken starts
    rw [splitLexeme, if_pos starts, taken]
    exact congrArg (fun t => Except.ok (Lexeme.number t, rest)) String.ofList_toList
  | quoted text =>
    obtain ⟨quote, inside, ht, hq, hsplit⟩ := hs
    change text.toList ++ rest = c :: cs at hcs
    rw [ht, List.cons_append] at hcs
    obtain ⟨rfl, rfl⟩ := List.cons.inj hcs
    have no_number : ¬ startsNumber (quote :: (inside ++ rest)) = true := by
      rw [startsNumber_cons]
      rcases hq with rfl | rfl <;> exact nofun
    rw [splitLexeme, if_neg no_number, if_pos (by simpa using hq),
      splitQuoted_of_append hsplit rest]
    dsimp only
    rw [← ht]
    exact congrArg (fun t => Except.ok (Lexeme.quoted t, rest)) String.ofList_toList
  | word text =>
    obtain ⟨first, tail, ht, hfirst, htail⟩ := hs
    change text.toList ++ rest = c :: cs at hcs
    rw [ht, List.cons_append] at hcs
    obtain ⟨rfl, rfl⟩ := List.cons.inj hcs
    obtain ⟨hd, hpoint, hq, hq', hb, hsl⟩ := head_of_name hfirst
    have no_number : ¬ startsNumber (first :: (tail ++ rest)) = true := by
      rw [startsNumber_cons, if_neg hpoint, hd]
      exact nofun
    rw [splitLexeme, if_neg no_number, if_neg (by simp [hq, hq']), if_neg hb,
      if_neg (by simp [hsl]), if_pos hfirst,
      splitRun_append_of_stops htail (stops_of_ends he fun c hc => by
        simpa [Lexeme.endsAt] using hc)]
    dsimp only
    rw [← ht]
    exact congrArg (fun t => Except.ok (Lexeme.word t, rest)) String.ofList_toList
  | punct p =>
    obtain ⟨first, tail, ht, -, -, hn, hq, hq', hb, -, hsl, -⟩ := head_of_punct hs
    have taken := splitPunct_append_of_ends hs he
    change p.toList ++ rest = c :: cs at hcs
    rw [ht, List.cons_append] at hcs
    obtain ⟨rfl, rfl⟩ := List.cons.inj hcs
    have no_number := startsNumber_of_punct hs he
    rw [ht, List.cons_append] at taken no_number
    have no_slash : ¬ (first = '/' && expectsOperand previous) = true := by
      rw [Bool.and_eq_true, decide_eq_true_eq]
      rintro ⟨hf, hp⟩
      rw [hslash (hsl.1 hf)] at hp
      cases hp
    rw [splitLexeme, if_neg (by simp [no_number]), if_neg (by simp [hq, hq']), if_neg hb,
      if_neg no_slash,
      if_neg (by simp [hn]), taken]

/-- A slash where an operand is expected is refused. -/
theorem splitLexeme_of_slash {l : Lexeme} (hs : l.Spelled) (hl : l.isSlash = true)
    (hcs : l.text.toList ++ rest = c :: cs) (hp : expectsOperand previous = true) :
    splitLexeme previous place c cs = .error (.unsupported .regularExpression place) := by
  cases l with
  | punct p =>
    obtain ⟨first, tail, ht, hd, -, hn, hq, hq', hb, hpoint, hsl, -⟩ := head_of_punct hs
    change p.toList ++ rest = c :: cs at hcs
    rw [ht, List.cons_append] at hcs
    obtain ⟨rfl, rfl⟩ := List.cons.inj hcs
    obtain rfl := hsl.2 hl
    have no_number : ¬ startsNumber ('/' :: (tail ++ rest)) = true := by
      rw [startsNumber_cons]
      exact nofun
    rw [splitLexeme, if_neg no_number, if_neg (by decide), if_neg (by decide),
      if_pos (by simp [hp])]
  | _ => cases hl

/-! ## Gaps -/

/-- Blanks at the front belong to the gap. -/
theorem splitGap_of_blank {gap : List Char} (h : ∀ c ∈ gap, isBlank c) (cs : List Char) :
    splitGap (gap ++ cs) = (splitGap cs).behind gap := by
  induction gap with
  | nil => simp [GapSplit.behind]
  | cons c gap ih =>
    obtain ⟨hc, hgap⟩ := List.forall_mem_cons.1 h
    rw [List.cons_append, splitGap.eq_def]
    simp only [hc, if_true]
    rw [ih hgap]
    simp [GapSplit.behind]

/-- Whether a text begins with a comment. -/
def startsComment : List Char → Bool
  | '/' :: '/' :: _ | '/' :: '*' :: _ => true
  | _ => false

/-- A gap is over where neither a blank nor a comment follows. -/
theorem splitGap_of_head {c : Char} {cs : List Char} (hb : isBlank c = false)
    (hc : startsComment (c :: cs) = false) : splitGap (c :: cs) = ⟨[], c :: cs, true⟩ := by
  rw [splitGap.eq_def]
  simp only [hb, Bool.false_eq_true, if_false]
  split
  · cases hc
  · cases hc
  · rfl

theorem startsComment_of_ne {c : Char} (h : c ≠ '/') (cs : List Char) :
    startsComment (c :: cs) = false := by
  unfold startsComment
  split
  · rename_i heq
    exact absurd (List.cons.inj heq).1 h
  · rename_i heq
    exact absurd (List.cons.inj heq).1 h
  · rfl

theorem isBlank_of_isDigit {c : Char} (h : c.isDigit) : isBlank c = false := by
  have := toNat_of_isDigit h
  rcases hb : isBlank c with _ | _
  · rfl
  · rcases toNat_of_isBlank hb with h | h | h
    · omega
    · omega
    · have := le_of_mem_wideBlanks _ h
      omega

/-- No sign begins a comment: behind a slash there is neither another one nor a star. -/
theorem startsComment_of_punct {p : String} (hp : p ∈ punctuators)
    (he : (Lexeme.punct p).Ends rest) : startsComment (p.toList ++ rest) = false := by
  obtain ⟨first, tail, ht, -, -, -, -, -, -, -, -, htail⟩ := head_of_punct hp
  rw [ht, List.cons_append]
  by_cases hf : first = '/'
  · subst hf
    rcases htail rfl with rfl | rfl
    · obtain rfl : p = "/" := by
        rw [← String.toList_inj, ht]
        rfl
      cases rest with
      | nil => rfl
      | cons d rest =>
        have hd := he d rfl
        simp only [Lexeme.endsAt, Bool.and_eq_true] at hd
        simp at hd
        unfold startsComment
        split <;> simp_all
    · rfl
  · exact startsComment_of_ne hf _

/-- A gap is over in front of a lexeme. -/
theorem splitGap_of_spelled {l : Lexeme} (hs : l.Spelled) (he : l.Ends rest) :
    splitGap (l.text.toList ++ rest) = ⟨[], l.text.toList ++ rest, true⟩ := by
  have plain : ∀ c cs, isBlank c = false → c ≠ '/' → splitGap (c :: cs) = ⟨[], c :: cs, true⟩ :=
    fun c cs hb hc => splitGap_of_head hb (startsComment_of_ne hc cs)
  cases l with
  | number text =>
    have hstart := startsNumber_append hs.1 rest
    change splitGap (text.toList ++ rest) = ⟨[], text.toList ++ rest, true⟩
    generalize text.toList ++ rest = t at hstart
    rcases t with _ | ⟨c, t⟩
    · cases hstart
    · rw [startsNumber_cons] at hstart
      split at hstart
      · rename_i hc
        subst hc
        exact plain _ _ (by decide) (by decide)
      · refine plain _ _ (isBlank_of_isDigit hstart) ?_
        rintro rfl
        exact absurd hstart (by decide)
  | quoted text =>
    obtain ⟨quote, inside, ht, hq, -⟩ := hs
    change splitGap (text.toList ++ rest) = ⟨[], text.toList ++ rest, true⟩
    rw [ht]
    rcases hq with rfl | rfl <;> exact plain _ _ (by decide) (by decide)
  | word text =>
    obtain ⟨first, tail, ht, hfirst, -⟩ := hs
    change splitGap (text.toList ++ rest) = ⟨[], text.toList ++ rest, true⟩
    rw [ht]
    exact plain _ _ (isBlank_of_isNameStart hfirst) (head_of_name hfirst).2.2.2.2.2
  | punct p =>
    obtain ⟨first, tail, ht, -, hblank, -⟩ := head_of_punct hs
    have no_comment := startsComment_of_punct hs he
    change splitGap (p.toList ++ rest) = ⟨[], p.toList ++ rest, true⟩
    rw [ht] at no_comment ⊢
    exact splitGap_of_head hblank no_comment

/-! ## Steps of scanning -/

/-- One step of scanning: a gap, then a lexeme if there is one, then the rest. -/
theorem scanFrom_eq (previous : Option Lexeme) (place : Place) (cs : List Char) :
    scanFrom previous place cs =
      if (splitGap cs).closed then
        match (splitGap cs).rest with
        | [] => .ok ⟨[], place.advance (splitGap cs).gap⟩
        | c :: rest =>
          match splitLexeme previous (place.advance (splitGap cs).gap) c rest with
          | .error e => .error e
          | .ok (lexeme, after) =>
            (scanFrom (some lexeme)
              ((place.advance (splitGap cs).gap).advance lexeme.text.toList) after).map
              fun tokens => { tokens with list :=
                ⟨lexeme, (splitGap cs).gap.any isLineBreak, place.advance (splitGap cs).gap⟩ ::
                  tokens.list }
      else .error (.unterminated .comment (place.advance (splitGap cs).gap)) := by
  rw [scanFrom.eq_def]
  dsimp only
  by_cases hc : (splitGap cs).closed = true
  · rw [if_pos hc, if_pos hc]
    split
    · rename_i heq
      rw [heq]
    · rename_i c rest heq
      rw [heq]
      dsimp only
      split
      · rename_i hl
        rw [hl]
      · rename_i hl
        rw [hl]
        dsimp only
        split <;> rename_i ht <;> rw [ht] <;> rfl
  · rw [if_neg hc, if_neg hc]

end Graft
