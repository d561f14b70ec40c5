import Graft.Printing.Piece
import Graft.Proofs.Token.Rescan
import Mathlib.Data.List.Chain

/-!
# Scanning printed pieces

Pieces in a row are scanned back, lexeme by lexeme, if every lexeme that another one follows
directly ends there. The one thing that can go wrong is a slash behind a word after which an operand
is expected; where there is none, the tokens are the lexemes of the pieces.

* `Legible` - lexemes that follow each other directly are told apart
* `Divides` - no slash stands where an operand is expected
* `scan_pieces` - legible pieces are scanned back just when their slashes divide
-/

namespace Graft

open Text Piece

/-- What a reader sees of a token: its lexeme and whether a line ended in front of it. -/
abbrev Mark := Lexeme × Bool

def Token.mark (t : Token) : Mark :=
  (t.lexeme, t.newlineBefore)

namespace Piece

/-- The lexeme of a piece. -/
def lexeme? : Piece → Option Lexeme
  | lexeme l => some l
  | _ => none

/-- What a reader sees of pieces; `fresh` tells whether a line ended in front of them. -/
def marks (fresh : Bool) : List Piece → List Mark
  | [] => []
  | lexeme l :: ps => (l, fresh) :: marks false ps
  | space :: ps => marks fresh ps
  | line _ :: ps => marks true ps

/-- The lexemes of pieces. -/
def lexemes (ps : List Piece) : List Lexeme :=
  ps.filterMap lexeme?

/-- Whether two pieces may follow each other directly: a lexeme has to end in front of another. -/
def Meets : Piece → Piece → Prop
  | lexeme l, lexeme next => l.Ends next.text.toList
  | _, _ => True

/-- Whether the lexemes of pieces are spelled as a scanner spells them and told apart. -/
structure Legible (ps : List Piece) : Prop where
  spelled : ∀ l ∈ lexemes ps, l.Spelled
  meets : ps.IsChain Meets

/-- Whether a lexeme may follow another one: a slash divides where no operand is expected. -/
def Follows (l next : Lexeme) : Prop :=
  next.isSlash = true → expectsOperand (some l) = false

/-- Whether the slashes of pieces, which do not begin with one, are those of divisions. -/
def Divides (ps : List Piece) : Prop :=
  (lexemes ps).IsChain Follows

theorem lexemes_append (ps qs : List Piece) : lexemes (ps ++ qs) = lexemes ps ++ lexemes qs :=
  List.filterMap_append

theorem charsOf_cons (p : Piece) (ps : List Piece) : charsOf (p :: ps) = p.chars ++ charsOf ps :=
  rfl

theorem textOf_append (ps qs : List Piece) : textOf (ps ++ qs) = textOf ps ++ textOf qs := by
  rw [textOf, charsOf_append, String.ofList_append]
  rfl

theorem textOf_lexeme (l : Lexeme) : textOf [lexeme l] = l.text := by
  simp [textOf, charsOf, chars]

theorem text_ne_nil {l : Lexeme} (h : l.Spelled) : l.text.toList ≠ [] := by
  cases l with
  | word text =>
    obtain ⟨c, cs, ht, -⟩ := h
    exact ht ▸ List.cons_ne_nil _ _
  | number text =>
    intro hn
    have := h.1
    rw [show text.toList = [] from hn] at this
    cases this
  | quoted text =>
    obtain ⟨c, cs, ht, -⟩ := h
    exact ht ▸ List.cons_ne_nil _ _
  | punct p =>
    obtain ⟨c, cs, ht, -⟩ := head_of_punct h
    exact ht ▸ List.cons_ne_nil _ _

/-- No lexeme goes on with a blank. -/
theorem endsAt_blank {l : Lexeme} (hs : l.Spelled) {c : Char} (hc : isBlank c) :
    l.endsAt c = true := by
  have other : ∀ d, isBlank d = false → c ≠ d := by
    rintro d hd rfl
    rw [hc] at hd
    cases hd
  have digit : c.isDigit = false := by
    by_contra h
    exact other c (isBlank_of_isDigit (by simpa using h)) rfl
  have start : isNameStart c = false := by
    by_contra h
    exact other c (isBlank_of_isNameStart (by simpa using h)) rfl
  have part : isNamePart c = false := by simp [isNamePart, start, digit]
  cases l with
  | word text => simp [Lexeme.endsAt, part]
  | number text => simp [Lexeme.endsAt, goesOnNumber, part, other '.' rfl]
  | quoted text => rfl
  | punct p =>
    -- a longer sign would have a blank in it
    have longer : (punctuators.any fun q => (p.toList ++ [c]).isPrefixOf q.toList) = false := by
      have solid : ∀ q ∈ punctuators, (q.toList.all fun d => !isBlank d) = true := by
        decide
      rw [List.any_eq_false]
      intro q hq hpre
      obtain ⟨more, hmore⟩ := List.isPrefixOf_iff_prefix.1 hpre
      have unblank := List.all_eq_true.1 (solid q hq) c (by simp [← hmore])
      rw [hc] at unblank
      cases unblank
    simp [Lexeme.endsAt, longer, digit, other '/' rfl, other '*' rfl]

/-- A lexeme ends in front of the characters of the pieces that follow it. -/
theorem Legible.ends {l : Lexeme} {ps : List Piece} (h : Legible (lexeme l :: ps)) :
    l.Ends (charsOf ps) := by
  have hs : l.Spelled := h.spelled l (by simp [lexemes, lexeme?])
  cases ps with
  | nil => exact fun c hc => absurd hc (by simp [charsOf])
  | cons p ps =>
    have hm := (List.isChain_cons_cons.1 h.meets).1
    intro c hc
    rw [charsOf_cons] at hc
    cases p with
    | lexeme next =>
      have hn : next.Spelled := h.spelled next (by simp [lexemes, lexeme?])
      refine hm c ?_
      rwa [chars, List.head?_append_of_ne_nil _ (text_ne_nil hn)] at hc
    | space =>
      obtain rfl : ' ' = c := by simpa [chars] using hc
      exact endsAt_blank hs (by decide)
    | line indent =>
      obtain rfl : '\n' = c := by simpa [chars] using hc
      exact endsAt_blank hs (by decide)

theorem Legible.tail {p : Piece} {ps : List Piece} (h : Legible (p :: ps)) : Legible ps := by
  refine ⟨fun l hl => h.spelled l ?_, h.meets.tail⟩
  cases p with
  | lexeme next => exact List.mem_cons_of_mem _ hl
  | _ => exact hl

/-! ## Scanning -/

/-- Whether pieces may follow a lexeme. -/
def DividesBehind (previous : Option Lexeme) (ps : List Piece) : Prop :=
  (∀ l ∈ (lexemes ps).head?, l.isSlash = true → expectsOperand previous = false) ∧ Divides ps

theorem dividesBehind_cons_lexeme {previous : Option Lexeme} {l : Lexeme} {ps : List Piece} :
    DividesBehind previous (lexeme l :: ps) ↔
      (l.isSlash = true → expectsOperand previous = false) ∧ DividesBehind (some l) ps := by
  have hl : lexemes (lexeme l :: ps) = l :: lexemes ps := rfl
  rw [DividesBehind, DividesBehind, Divides, Divides, hl]
  simp only [List.head?_cons, Option.mem_def, Option.some.injEq, forall_eq']
  rw [List.isChain_cons]
  exact and_congr_right fun _ => Iff.rfl

/-- A text of blanks has no tokens. -/
theorem scanFrom_of_blank (previous : Option Lexeme) (place : Place) {gap : List Char}
    (hg : ∀ c ∈ gap, isBlank c) :
    scanFrom previous place gap = .ok ⟨[], place.advance gap⟩ := by
  have split : splitGap gap = ⟨gap, [], true⟩ := by
    have := splitGap_of_blank hg []
    rwa [List.append_nil, splitGap.eq_def [], GapSplit.behind, List.append_nil] at this
  rw [scanFrom_eq, split, if_pos rfl]

section Step

variable {previous : Option Lexeme} {place : Place} {l : Lexeme} {gap rest : List Char}

/-- A gap of blanks and a lexeme behind it, told apart. -/
theorem splitGap_behind_blank (hs : l.Spelled) (he : l.Ends rest) (hg : ∀ c ∈ gap, isBlank c) :
    ∃ c cs, l.text.toList ++ rest = c :: cs ∧
      splitGap (gap ++ (l.text.toList ++ rest)) = ⟨gap, c :: cs, true⟩ := by
  obtain ⟨c, cs, hcs⟩ := List.exists_cons_of_ne_nil
    (List.append_ne_nil_of_left_ne_nil (text_ne_nil hs) rest)
  refine ⟨c, cs, hcs, ?_⟩
  rw [splitGap_of_blank hg, splitGap_of_spelled hs he, ← hcs]
  simp [GapSplit.behind]

/-- A lexeme behind blanks is taken, and what follows it is scanned on. -/
theorem scanFrom_of_spelled (hs : l.Spelled) (he : l.Ends rest) (hg : ∀ c ∈ gap, isBlank c)
    (hslash : l.isSlash = true → expectsOperand previous = false) :
    scanFrom previous place (gap ++ (l.text.toList ++ rest)) =
      (scanFrom (some l) ((place.advance gap).advance l.text.toList) rest).map fun tokens =>
        { tokens with list := ⟨l, gap.any isLineBreak, place.advance gap⟩ :: tokens.list } := by
  obtain ⟨c, cs, hcs, split⟩ := splitGap_behind_blank hs he hg
  rw [scanFrom_eq, split]
  simp only [if_true]
  rw [splitLexeme_of_spelled hs he hcs hslash]

/-- A slash behind blanks is refused where an operand is expected. -/
theorem scanFrom_of_slash (hs : l.Spelled) (he : l.Ends rest) (hg : ∀ c ∈ gap, isBlank c)
    (hl : l.isSlash = true) (hp : expectsOperand previous = true) :
    scanFrom previous place (gap ++ (l.text.toList ++ rest)) =
      .error (.unsupported .regularExpression (place.advance gap)) := by
  obtain ⟨c, cs, hcs, split⟩ := splitGap_behind_blank hs he hg
  rw [scanFrom_eq, split]
  simp only [if_true]
  rw [splitLexeme_of_slash hs hl hcs hp]

end Step

/-- Legible pieces behind a gap are scanned just when their slashes divide; else the scanner takes
one for the start of a regular expression. -/
theorem scanFrom_pieces {ps : List Piece} (h : Legible ps) (previous : Option Lexeme)
    (place : Place) {gap : List Char} (hg : ∀ c ∈ gap, isBlank c) :
    (DividesBehind previous ps → ∃ tokens,
      scanFrom previous place (gap ++ charsOf ps) = .ok tokens ∧
        tokens.list.map Token.mark = marks (gap.any isLineBreak) ps) ∧
      (¬ DividesBehind previous ps → ∃ spot,
        scanFrom previous place (gap ++ charsOf ps) =
          .error (.unsupported .regularExpression spot)) := by
  induction ps generalizing previous place gap with
  | nil =>
    refine ⟨fun _ => ⟨⟨[], place.advance gap⟩, ?_, rfl⟩, fun hn => absurd ?_ hn⟩
    · rw [charsOf, List.flatMap_nil, List.append_nil]
      exact scanFrom_of_blank previous place hg
    · exact ⟨by rintro _ ⟨⟩, .nil⟩
  | cons p ps ih =>
    cases p with
    | space =>
      have hg' : ∀ c ∈ gap ++ [' '], isBlank c :=
        List.forall_mem_append.2 ⟨hg, by simp; decide⟩
      have := ih h.tail previous place hg'
      rwa [List.any_append, List.append_assoc,
        show ([' '].any isLineBreak) = false from by decide, Bool.or_false] at this
    | line indent =>
      have hg' : ∀ c ∈ gap ++ '\n' :: indentation indent, isBlank c := by
        refine List.forall_mem_append.2 ⟨hg, List.forall_mem_cons.2 ⟨by decide, fun c hc => ?_⟩⟩
        obtain rfl := List.eq_of_mem_replicate hc
        decide
      have := ih h.tail previous place hg'
      rwa [List.any_append, List.any_cons, List.append_assoc,
        show isLineBreak '\n' = true from by decide, Bool.true_or, Bool.or_true] at this
    | lexeme l =>
      have hs : l.Spelled := h.spelled l (List.mem_cons_self ..)
      rw [charsOf_cons, chars, dividesBehind_cons_lexeme]
      by_cases hslash : l.isSlash = true → expectsOperand previous = false
      · rw [scanFrom_of_spelled hs h.ends hg hslash]
        have hnil : ∀ c ∈ ([] : List Char), isBlank c := by simp
        have next := ih h.tail (some l) ((place.advance gap).advance l.text.toList) hnil
        rw [List.nil_append] at next
        refine ⟨fun hd => ?_, fun hn => ?_⟩
        · obtain ⟨tokens, ht, hm⟩ := next.1 hd.2
          refine ⟨_, congrArg (Except.map _) ht, ?_⟩
          rw [List.map_cons, hm]
          rfl
        · obtain ⟨spot, he⟩ := next.2 fun hd => hn ⟨hslash, hd⟩
          exact ⟨spot, congrArg (Except.map _) he⟩
      · obtain ⟨hl, hp⟩ := Classical.not_imp.1 hslash
        rw [scanFrom_of_slash hs h.ends hg hl (by simpa using hp)]
        exact ⟨fun hd => absurd hd.1 hslash, fun _ => ⟨_, rfl⟩⟩

/-- Legible pieces are scanned back just when their slashes divide. -/
theorem scan_pieces {ps : List Piece} (h : Legible ps) :
    (DividesBehind none ps → ∃ tokens, scan (textOf ps) = .ok tokens ∧
      tokens.list.map Token.mark = marks false ps) ∧
      (¬ DividesBehind none ps → ∃ spot,
        scan (textOf ps) = .error (.unsupported .regularExpression spot)) := by
  have hnil : ∀ c ∈ ([] : List Char), isBlank c := by simp
  rw [scan, textOf, String.toList_ofList]
  exact scanFrom_pieces h none .start hnil

end Piece

end Graft
