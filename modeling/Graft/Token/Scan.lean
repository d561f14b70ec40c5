import Graft.SourceError
import Graft.Text.Alphabetic
import Graft.Text.Blank

/-!
# Scanning a text into tokens

Each scanner splits a list of characters into the part that it takes and the rest, so that
nothing is lost: `splitX cs = (taken, rest)` means `taken ++ rest = cs`. The text between two
tokens is a gap of blanks and comments, and its characters alone tell whether a line ended there.

A slash behind an operand divides; anywhere else it would begin a regular expression, which is
outside the subset. Which of the two it is follows from the previous lexeme.

## Termination

No fuel is used. Every step of a loop leaves a shorter rest.

* `splitGap` - each blank and each comment takes a character
* `scanFrom` - `splitLexeme` takes a character (`splitLexeme_rest_shorter`)
-/

namespace Graft

open Text

/-! ## Names -/

/-- Whether a name may begin with the character. -/
def isNameStart (c : Char) : Bool :=
  c == '_' || c == '$' || isAlphabetic c

/-- Whether a name may go on with the character. -/
def isNamePart (c : Char) : Bool :=
  isNameStart c || c.isDigit

/-- The longest run of leading characters that satisfy a test, and the rest. -/
def splitRun (test : Char → Bool) (cs : List Char) : List Char × List Char :=
  (cs.takeWhile test, cs.dropWhile test)

theorem splitRun_append (test : Char → Bool) (cs : List Char) :
    (splitRun test cs).1 ++ (splitRun test cs).2 = cs :=
  List.takeWhile_append_dropWhile

/-! ## Gaps -/

/-- The inside of a block comment with the closing mark, when there is one. -/
def splitComment : List Char → Option (List Char × List Char)
  | [] => none
  | '*' :: '/' :: rest => some (['*', '/'], rest)
  | c :: cs => (splitComment cs).map fun (inside, rest) => (c :: inside, rest)

theorem splitComment_append {cs inside rest : List Char}
    (h : splitComment cs = some (inside, rest)) : inside ++ rest = cs := by
  fun_induction splitComment cs generalizing inside with
  | case1 => simp at h
  | case2 r =>
    simp only [Option.some.injEq, Prod.mk.injEq] at h
    simp [← h.1, h.2]
  | case3 c cs _ ih =>
    obtain ⟨⟨i, r⟩, hs, he⟩ := Option.map_eq_some_iff.1 h
    simp only [Prod.mk.injEq] at he
    simp [← he.1, ih (hs.trans (by rw [he.2]))]

/-- A gap, what follows it, and whether it ends there rather than in an open comment. -/
structure GapSplit where
  gap : List Char
  rest : List Char
  closed : Bool
deriving Repr, DecidableEq

/-- Put characters in front of a gap. -/
def GapSplit.behind (front : List Char) (s : GapSplit) : GapSplit :=
  { s with gap := front ++ s.gap }

/-- Split off the blanks and comments at the front; an open comment is left in the rest. -/
def splitGap (cs : List Char) : GapSplit :=
  match cs with
  | [] => ⟨[], [], true⟩
  | c :: rest =>
    if isBlank c then (splitGap rest).behind [c]
    else match c, rest with
    | '/', '/' :: line =>
      (splitGap (line.dropWhile (!isLineBreak ·))).behind
        ('/' :: '/' :: line.takeWhile (!isLineBreak ·))
    | '/', '*' :: body =>
      match _h : splitComment body with
      | some (inside, after) => (splitGap after).behind ('/' :: '*' :: inside)
      | none => ⟨[], '/' :: '*' :: body, false⟩
    | c, rest => ⟨[], c :: rest, true⟩
termination_by cs.length
decreasing_by
  · simp
  · have := (List.dropWhile_sublist (p := fun x => !isLineBreak x) (l := line)).length_le
    simp
    omega
  · have := congrArg List.length (splitComment_append ‹_›)
    simp at this ⊢
    omega

theorem splitGap_append (cs : List Char) : (splitGap cs).gap ++ (splitGap cs).rest = cs := by
  fun_induction splitGap cs with
  | case1 => rfl
  | case2 c rest _ ih => simp [GapSplit.behind, ih]
  | case3 line _ ih => simp [GapSplit.behind, ih]
  | case4 body inside after h _ ih => simp [GapSplit.behind, ih, splitComment_append h]
  | case5 => rfl
  | case6 => rfl

/-! ## Numbers -/

/-- Whether a character goes on a run of decimal digits; an underscore may separate them. -/
def isDigitPart (c : Char) : Bool :=
  c.isDigit || c == '_'

/-- A fraction: a point and the digits behind it, which may be missing. -/
def splitFraction : List Char → List Char × List Char
  | '.' :: cs => let (digits, rest) := splitRun isDigitPart cs; ('.' :: digits, rest)
  | cs => ([], cs)

theorem splitFraction_append (cs : List Char) :
    (splitFraction cs).1 ++ (splitFraction cs).2 = cs := by
  unfold splitFraction
  split
  · simp [splitRun_append]
  · rfl

/-- A plus or a minus, if one stands at the front. -/
def splitSign : List Char → List Char × List Char
  | '+' :: cs => (['+'], cs)
  | '-' :: cs => (['-'], cs)
  | cs => ([], cs)

theorem splitSign_append (cs : List Char) : (splitSign cs).1 ++ (splitSign cs).2 = cs := by
  unfold splitSign
  split <;> rfl

/-- Whether a decimal digit stands at the front. -/
def startsDigit : List Char → Bool
  | c :: _ => c.isDigit
  | [] => false

/-- An exponent counts only if a digit follows the letter and its sign. -/
def splitExponent : List Char → List Char × List Char
  | [] => ([], [])
  | e :: cs =>
    if (e == 'e' || e == 'E') && startsDigit (splitSign cs).2 then
      let (digits, rest) := splitRun isDigitPart (splitSign cs).2
      (e :: (splitSign cs).1 ++ digits, rest)
    else ([], e :: cs)

theorem splitExponent_append (cs : List Char) :
    (splitExponent cs).1 ++ (splitExponent cs).2 = cs := by
  unfold splitExponent
  split
  · rfl
  · split
    · simp [splitRun_append, splitSign_append]
    · rfl

/-- Whether the letter behind a leading zero chooses a radix. -/
def isRadixLetter (c : Char) : Bool :=
  ['x', 'X', 'o', 'O', 'b', 'B'].contains c

/-- A decimal number: digits, fraction and exponent. -/
def splitDecimal (cs : List Char) : List Char × List Char :=
  let (whole, cs) := splitRun isDigitPart cs
  let (fraction, cs) := splitFraction cs
  let (exponent, cs) := splitExponent cs
  (whole ++ fraction ++ exponent, cs)

theorem splitDecimal_append (cs : List Char) :
    (splitDecimal cs).1 ++ (splitDecimal cs).2 = cs := by
  simp [splitDecimal, splitExponent_append, splitFraction_append, splitRun_append]

/-- A number in any notation. Behind a radix letter every letter and digit is taken. -/
def splitNumber : List Char → List Char × List Char
  | '0' :: x :: cs =>
    if isRadixLetter x then
      let (digits, rest) := splitRun (fun c => c.isAlphanum || c == '_') cs
      ('0' :: x :: digits, rest)
    else splitDecimal ('0' :: x :: cs)
  | cs => splitDecimal cs

theorem splitNumber_append (cs : List Char) : (splitNumber cs).1 ++ (splitNumber cs).2 = cs := by
  unfold splitNumber
  split
  · split
    · simp [splitRun_append]
    · exact splitDecimal_append _
  · exact splitDecimal_append _

/-! ## String literals -/

/-- The rest of a string literal behind its opening quote. A backslash takes the next character
with it, a line break too; elsewhere a line break leaves the literal open. -/
def splitQuoted (quote : Char) : List Char → Option (List Char × List Char)
  | [] => none
  | ['\\'] => none
  | '\\' :: c :: cs => (splitQuoted quote cs).map fun (inside, rest) => ('\\' :: c :: inside, rest)
  | c :: cs =>
    if c = quote then some ([c], cs)
    else if isLineBreak c then none
    else (splitQuoted quote cs).map fun (inside, rest) => (c :: inside, rest)

theorem splitQuoted_append {quote : Char} {cs inside rest : List Char}
    (h : splitQuoted quote cs = some (inside, rest)) : inside ++ rest = cs := by
  fun_induction splitQuoted quote cs generalizing inside with
  | case1 | case2 | case5 => simp at h
  | case3 c cs ih =>
    obtain ⟨⟨i, r⟩, hs, he⟩ := Option.map_eq_some_iff.1 h
    simp only [Prod.mk.injEq] at he
    simp [← he.1, ih (hs.trans (by rw [he.2]))]
  | case4 cs =>
    simp only [Option.some.injEq, Prod.mk.injEq] at h
    simp [← h.1, h.2]
  | case6 c cs _ _ _ _ ih =>
    obtain ⟨⟨i, r⟩, hs, he⟩ := Option.map_eq_some_iff.1 h
    simp only [Prod.mk.injEq] at he
    simp [← he.1, ih (hs.trans (by rw [he.2]))]

/-! ## Operators and brackets -/

/-- The operators and brackets, each in front of its own beginnings. -/
def punctuators : List String :=
  [">>>=", "...", "===", "!==", "**=", "<<=", ">>=", ">>>", "=>", "==", "!=", "<=", ">=", "&&",
   "||", "++", "--", "+=", "-=", "*=", "/=", "%=", "&=", "|=", "^=", "**", "<<", ">>",
   "\x7b", "\x7d", "(", ")", "[", "]", ";", ",", "<", ">", "+", "-", "*", "/", "%", "&", "|", "^",
   "!", "~", "?", ":", "=", "."]

/-- The longest operator or bracket at the front. -/
def splitPunct (cs : List Char) : Option (String × List Char) :=
  (punctuators.find? fun p => p.toList.isPrefixOf cs).map fun p => (p, cs.drop p.length)

theorem splitPunct_append {cs rest : List Char} {p : String}
    (h : splitPunct cs = some (p, rest)) : p.toList ++ rest = cs := by
  obtain ⟨q, hq, he⟩ := Option.map_eq_some_iff.1 h
  simp only [Prod.mk.injEq] at he
  have hp := List.find?_some hq
  obtain ⟨tail, ht⟩ := List.isPrefixOf_iff_prefix.1 hp
  rw [← he.1, ← he.2, ← ht]
  simp [List.drop_left' String.length_toList]

theorem punct_ne_nil {cs rest : List Char} {p : String}
    (h : splitPunct cs = some (p, rest)) : p.toList ≠ [] := by
  obtain ⟨q, hq, he⟩ := Option.map_eq_some_iff.1 h
  simp only [Prod.mk.injEq] at he
  have all : ∀ p ∈ punctuators, p.toList ≠ [] := by decide
  exact he.1 ▸ all q (List.mem_of_find?_eq_some hq)

/-! ## Slashes -/

/-- The words behind which an operand stands. -/
def operandWords : List String :=
  ["return", "typeof", "instanceof", "in", "of", "new", "delete", "void", "throw", "case", "do",
   "else", "yield", "await"]

/-- The signs behind which an operand is complete. -/
def operandEnds : List String :=
  [")", "]", "\x7d", "++", "--"]

/-- Whether a slash behind this lexeme would begin a regular expression. -/
def expectsOperand : Option Lexeme → Bool
  | none => true
  | some (.punct p) => !operandEnds.contains p
  | some (.word w) => operandWords.contains w
  | some _ => false

/-! ## Tokens -/

/-- Whether a number stands at the front: a digit, or a point and a digit. -/
def startsNumber : List Char → Bool
  | '.' :: cs => startsDigit cs
  | cs => startsDigit cs

theorem splitDecimal_ne_nil {cs : List Char} (h : startsNumber cs) : (splitDecimal cs).1 ≠ [] := by
  unfold startsNumber at h
  split at h
  · simp [splitDecimal, splitRun, splitFraction, isDigitPart]
  · cases cs with
    | nil => simp [startsDigit] at h
    | cons c cs => simp_all [splitDecimal, splitRun, startsDigit, isDigitPart]

theorem splitNumber_ne_nil {cs : List Char} (h : startsNumber cs) : (splitNumber cs).1 ≠ [] := by
  unfold splitNumber
  split
  · split
    · simp
    · exact splitDecimal_ne_nil h
  · exact splitDecimal_ne_nil h

/-- The lexeme at the front of a text that begins with neither blank nor comment. -/
def splitLexeme (previous : Option Lexeme) (place : Place) (c : Char) (cs : List Char) :
    Except SourceError (Lexeme × List Char) :=
  if startsNumber (c :: cs) then
    let (text, rest) := splitNumber (c :: cs)
    .ok (.number (String.ofList text), rest)
  else if c = '"' || c = '\'' then
    match splitQuoted c cs with
    | some (inside, rest) => .ok (.quoted (String.ofList (c :: inside)), rest)
    | none => .error (.unterminated .quoted place)
  else if c = '\x60' then .error (.unsupported .templateLiteral place)
  else if c = '/' && expectsOperand previous then .error (.unsupported .regularExpression place)
  else if isNameStart c then
    let (tail, rest) := splitRun isNamePart cs
    .ok (.word (String.ofList (c :: tail)), rest)
  else
    match splitPunct (c :: cs) with
    | some (p, rest) => .ok (.punct p, rest)
    | none => .error (.strayChar c place)

theorem splitLexeme_append {previous : Option Lexeme} {place : Place} {c : Char}
    {cs rest : List Char} {lexeme : Lexeme}
    (h : splitLexeme previous place c cs = .ok (lexeme, rest)) :
    lexeme.text.toList ++ rest = c :: cs := by
  unfold splitLexeme at h
  split at h
  · simp only [Except.ok.injEq, Prod.mk.injEq] at h
    simp [← h.1, ← h.2, Lexeme.text, splitNumber_append]
  split at h
  · split at h
    · rename_i hq
      simp only [Except.ok.injEq, Prod.mk.injEq] at h
      simp [← h.1, ← h.2, Lexeme.text, splitQuoted_append hq]
    · simp at h
  split at h
  · simp at h
  split at h
  · simp at h
  split at h
  · simp only [Except.ok.injEq, Prod.mk.injEq] at h
    simp [← h.1, ← h.2, Lexeme.text, splitRun_append]
  split at h
  · rename_i hp
    simp only [Except.ok.injEq, Prod.mk.injEq] at h
    simp [← h.1, ← h.2, Lexeme.text, splitPunct_append hp]
  · simp at h

theorem splitLexeme_text_ne_nil {previous : Option Lexeme} {place : Place} {c : Char}
    {cs rest : List Char} {lexeme : Lexeme}
    (h : splitLexeme previous place c cs = .ok (lexeme, rest)) : lexeme.text.toList ≠ [] := by
  unfold splitLexeme at h
  split at h
  · rename_i hn
    simp only [Except.ok.injEq, Prod.mk.injEq] at h
    simpa [← h.1, Lexeme.text] using splitNumber_ne_nil hn
  split at h
  · split at h
    · simp only [Except.ok.injEq, Prod.mk.injEq] at h
      simp [← h.1, Lexeme.text]
    · simp at h
  split at h
  · simp at h
  split at h
  · simp at h
  split at h
  · simp only [Except.ok.injEq, Prod.mk.injEq] at h
    simp [← h.1, Lexeme.text]
  split at h
  · rename_i hp
    simp only [Except.ok.injEq, Prod.mk.injEq] at h
    simpa [← h.1, Lexeme.text] using punct_ne_nil hp
  · simp at h

theorem splitLexeme_rest_shorter {previous : Option Lexeme} {place : Place} {c : Char}
    {cs rest : List Char} {lexeme : Lexeme}
    (h : splitLexeme previous place c cs = .ok (lexeme, rest)) :
    rest.length < (c :: cs).length := by
  rw [← splitLexeme_append h, List.length_append]
  have := List.length_pos_iff.2 (splitLexeme_text_ne_nil h)
  omega

/-- The tokens of a text that goes on at a place behind a lexeme. -/
def scanFrom (previous : Option Lexeme) (place : Place) (cs : List Char) :
    Except SourceError Tokens :=
  let s := splitGap cs
  let here := place.advance s.gap
  if s.closed then
    match _hs : s.rest with
    | [] => .ok ⟨[], here⟩
    | c :: rest =>
      match _h : splitLexeme previous here c rest with
      | .error e => .error e
      | .ok (lexeme, after) =>
        match scanFrom (some lexeme) (here.advance lexeme.text.toList) after with
        | .error e => .error e
        | .ok tokens =>
          .ok { tokens with list := ⟨lexeme, s.gap.any isLineBreak, here⟩ :: tokens.list }
  else .error (.unterminated .comment here)
termination_by cs.length
decreasing_by
  have hlt := splitLexeme_rest_shorter _h
  have hle := congrArg List.length (splitGap_append cs)
  rw [_hs, List.length_append] at hle
  omega

/-- The tokens of a source text. -/
def scan (source : String) : Except SourceError Tokens :=
  scanFrom none .start source.toList

end Graft
