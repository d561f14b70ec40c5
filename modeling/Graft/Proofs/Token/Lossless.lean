import Mathlib.Data.List.Induction
import Graft.Proofs.Token.Rescan
import Graft.Reading.Cursor

/-!
# Nothing is lost between the tokens

A text that can be scanned is written by its tokens, each behind the gap in front of it, and by one
more gap behind the last of them. What may stand in a gap is said here without the scanner: blanks,
and comments that are closed. The place of a token and its mark for a line that ended follow from
what is written in front of it.

* `Gap` - what may stand between two tokens
* `Place.behind` - the place behind a text, counted instead of walked
* `gap_splitGap` - the scanner splits off a gap
* `exists_pieces` - a scanned text, in pieces
-/

namespace Graft

open Text (Place isBlank isLineBreak)

/-! ## Gaps -/

/-- What may stand between two tokens: blanks and closed comments. A line comment is closed by the
line break behind it or, where the text ends, by the end of the text. -/
inductive Gap (atEnd : Bool) : List Char → Prop where
  | nil : Gap atEnd []
  | blank {c : Char} {gap : List Char} : isBlank c → Gap atEnd gap → Gap atEnd (c :: gap)
  | block {inside gap : List Char} : ¬ ['*', '/'] <:+: inside → Gap atEnd gap →
    Gap atEnd ('/' :: '*' :: inside ++ '*' :: '/' :: gap)
  | line {text gap : List Char} {c : Char} : (∀ c ∈ text, ¬ isLineBreak c) → isLineBreak c →
    Gap atEnd (c :: gap) → Gap atEnd ('/' :: '/' :: text ++ c :: gap)
  | lastLine {text : List Char} : atEnd → (∀ c ∈ text, ¬ isLineBreak c) →
    Gap atEnd ('/' :: '/' :: text)

/-- The closing mark of a block comment is the first one behind its opening mark. -/
theorem splitComment_inside {cs inside rest : List Char}
    (h : splitComment cs = some (inside, rest)) :
    ∃ body, inside = body ++ ['*', '/'] ∧ ¬ ['*', '/'] <:+: body := by
  fun_induction splitComment cs generalizing inside with
  | case1 => cases h
  | case2 =>
    simp only [Option.some.injEq, Prod.mk.injEq] at h
    exact ⟨[], h.1.symm, by simp⟩
  | case3 c cs hmark ih =>
    obtain ⟨⟨i, r⟩, hs, he⟩ := Option.map_eq_some_iff.1 h
    obtain ⟨rfl, rfl⟩ := Prod.mk.inj he
    obtain ⟨body, rfl, hbody⟩ := ih hs
    refine ⟨c :: body, rfl, fun hinfix => ?_⟩
    rcases List.infix_cons_iff.1 hinfix with hpre | hin
    · -- a mark at the front would have closed the comment there
      have open_mark : ['*', '/'] <+: c :: cs := by
        rw [← splitComment_append hs]
        exact hpre.trans ⟨['*', '/'] ++ r, by simp⟩
      obtain ⟨tail, ht⟩ := open_mark
      obtain ⟨rfl, rfl⟩ := List.cons.inj ht
      exact hmark tail rfl rfl
    · exact hbody hin

/-- What the scanner splits off in front of a token is a gap, and so is what it splits off behind
the last one. -/
theorem gap_splitGap {cs : List Char} (h : (splitGap cs).closed) :
    Gap (splitGap cs).rest.isEmpty (splitGap cs).gap := by
  fun_induction splitGap cs with
  | case1 => exact .nil
  | case2 c rest hc ih => exact .blank hc (ih h)
  | case3 line hslash ih =>
    have text : ∀ c ∈ line.takeWhile (!isLineBreak ·), ¬ isLineBreak c := fun c hc => by
      simpa using List.all_eq_true.1 List.all_takeWhile c hc
    cases hrest : line.dropWhile (!isLineBreak ·) with
    | nil =>
      rw [splitGap.eq_def]
      simpa [GapSplit.behind] using Gap.lastLine rfl text
    | cons c more =>
      have hc : isLineBreak c := by
        have := List.head?_dropWhile_not (!isLineBreak ·) line
        simpa [hrest] using this
      rw [hrest] at ih h
      have stopped : splitGap ([c] ++ more) = (splitGap more).behind [c] :=
        splitGap_of_blank (by simpa using Text.isBlank_of_isLineBreak hc) more
      rw [List.singleton_append] at stopped
      rw [stopped] at ih h ⊢
      exact .line text hc (ih h)
  | case4 body inside after hs hslash ih =>
    obtain ⟨body, rfl, hbody⟩ := splitComment_inside hs
    have := Gap.block hbody (ih h)
    simpa [GapSplit.behind] using this
  | case5 => cases h
  | case6 => exact .nil

/-! ## Places -/

/-- The place behind a text: its line counts the line feeds in front of it, its column the
characters behind the last of them. -/
def Text.Place.behind (cs : List Char) : Place :=
  ⟨1 + cs.count '\n', 1 + (cs.reverse.takeWhile (· != '\n')).length⟩

/-- Walking over a text from its start leads behind it. -/
theorem advance_start (cs : List Char) : Place.start.advance cs = Place.behind cs := by
  induction cs using List.reverseRecOn with
  | nil => rfl
  | append_singleton cs c ih =>
    rw [Place.advance_append, ih, Place.advance_cons, Place.advance_nil, Place.next, Place.behind,
      Place.behind, List.count_append, List.reverse_append]
    by_cases hc : c = '\n'
    · subst hc
      simp [Nat.add_assoc]
    · simp [hc, Nat.add_comm]

/-- Walking on from behind a text leads behind what is added to it. -/
theorem advance_behind (before cs : List Char) :
    (Place.behind before).advance cs = .behind (before ++ cs) := by
  rw [← advance_start, ← advance_start, Place.advance_append]

/-! ## Pieces -/

/-- Tokens with the gaps in front of them, written one behind the other. -/
def laidOut (pieces : List (List Char × Token)) : List Char :=
  pieces.flatMap fun piece => piece.1 ++ piece.2.lexeme.text.toList

/-- A token behind a gap, and what is written in front of the two. -/
structure Laid (front gap : List Char) (token : Token) : Prop where
  between : Gap false gap
  place : token.place = .behind (front ++ gap)
  newline : token.newlineBefore = true ↔ ∃ c ∈ gap, isLineBreak c

/-- What is scanned from the middle of a text is in pieces. -/
theorem exists_pieces_scanFrom {previous : Option Lexeme} {place : Place} {cs : List Char}
    {tokens : Tokens} (before : List Char) (h : scanFrom previous place cs = .ok tokens)
    (hplace : place = .behind before) :
    ∃ pieces last, pieces.map Prod.snd = tokens.list ∧ cs = laidOut pieces ++ last ∧
      (∀ front gap token back, pieces = front ++ (gap, token) :: back →
        Laid (before ++ laidOut front) gap token) ∧
      Gap true last ∧ tokens.finish = .behind (before ++ cs) := by
  fun_induction scanFrom previous place cs generalizing tokens before with
  | case1 previous place cs s here hclosed =>
    rename_i hrest
    obtain rfl := Except.ok.inj h
    have whole : s.gap = cs := by
      have := splitGap_append cs
      rwa [show (splitGap cs).rest = [] from hrest, List.append_nil] at this
    have last := gap_splitGap hclosed
    rw [hrest] at last
    refine ⟨[], cs, rfl, rfl, fun front gap token back hsplit => ?_, whole ▸ last, ?_⟩
    · exact absurd (congrArg List.length hsplit) (by simp)
    · rw [← advance_behind, ← hplace, ← whole]
  | case4 previous place cs s here hclosed c rest hrest lexeme after hlexeme tokens' hscan =>
    rename_i ih
    obtain rfl := Except.ok.inj h
    have gap := gap_splitGap hclosed
    rw [hrest] at gap
    have here_eq : here = .behind (before ++ s.gap) := by rw [← advance_behind, ← hplace]
    obtain ⟨pieces, last, htokens, hcs, laid, hlast, hfinish⟩ :=
      ih (before ++ s.gap ++ lexeme.text.toList) hscan (by rw [here_eq, advance_behind])
    have split : cs = s.gap ++ lexeme.text.toList ++ after := by
      rw [List.append_assoc, splitLexeme_append hlexeme, ← hrest, splitGap_append]
    refine ⟨(s.gap, ⟨lexeme, s.gap.any isLineBreak, here⟩) :: pieces, last,
      congrArg (_ :: ·) htokens, ?_, fun front gap' token back hsplit => ?_, hlast, ?_⟩
    · rw [split, hcs]
      simp [laidOut]
    · -- the piece is the one that was scanned here, or one of those behind it
      rcases List.cons_eq_append_iff.1 hsplit with ⟨rfl, heq⟩ | ⟨front, rfl, heq⟩
      · obtain ⟨hpiece, -⟩ := List.cons.inj heq
        obtain ⟨rfl, rfl⟩ := Prod.mk.inj hpiece
        exact ⟨gap, by rw [here_eq, laidOut, List.flatMap_nil, List.append_nil], List.any_eq_true⟩
      · have := laid _ _ _ _ heq
        simpa [laidOut] using this
    · rw [hfinish, split, List.append_assoc before, List.append_assoc]
  | case2 | case3 | case5 => cases h

/-- A text that can be scanned is written by its tokens, each behind blanks and closed comments, and
by blanks and comments behind the last token. A token stands where the line feeds in front of it
say and the characters behind the last of these, and is marked if a line ended in the gap in front
of it. The end of the text has its place in the same way, and a line always ends there. -/
theorem exists_pieces {source : String} {tokens : Tokens} (h : scan source = .ok tokens) :
    ∃ (pieces : List (List Char × Token)) (last : List Char),
      pieces.map Prod.snd = tokens.list ∧ source.toList = laidOut pieces ++ last ∧
      (∀ front gap token back, pieces = front ++ (gap, token) :: back →
        Gap false gap ∧ token.place = .behind (laidOut front ++ gap) ∧
          (token.newlineBefore = true ↔ ∃ c ∈ gap, isLineBreak c)) ∧
      Gap true last ∧ tokens.finish = .behind source.toList ∧
        (Cursor.ofTokens ⟨[], tokens.finish⟩).newlineAhead = true := by
  obtain ⟨pieces, last, htokens, hsource, laid, hlast, hfinish⟩ :=
    exists_pieces_scanFrom [] h rfl
  refine ⟨pieces, last, htokens, hsource, fun front gap token back hsplit => ?_, hlast, hfinish,
    rfl⟩
  obtain ⟨between, place, newline⟩ := laid front gap token back hsplit
  exact ⟨between, place, newline⟩

/-- A comment with a line feed in it marks the token behind it; the last comment is closed by the
end of the text. -/
theorem exists_pieces_comments : ∃ tokens, scan "a /*\n*/ b // c" = .ok tokens ∧
    tokens.list.map (·.newlineBefore) = [false, true] ∧
    ∃ (pieces : List (List Char × Token)) (last : List Char),
      pieces.map Prod.snd = tokens.list ∧ "a /*\n*/ b // c".toList = laidOut pieces ++ last ∧
      (∀ front gap token back, pieces = front ++ (gap, token) :: back →
        Gap false gap ∧ token.place = .behind (laidOut front ++ gap) ∧
          (token.newlineBefore = true ↔ ∃ c ∈ gap, isLineBreak c)) ∧
      Gap true last ∧ tokens.finish = .behind "a /*\n*/ b // c".toList ∧
        (Cursor.ofTokens ⟨[], tokens.finish⟩).newlineAhead = true := by
  have scanned : scan "a /*\n*/ b // c" =
      .ok ⟨[⟨.word "a", false, 1, 1⟩, ⟨.word "b", true, 2, 4⟩], 2, 10⟩ := by decide +kernel
  exact ⟨_, scanned, rfl, exists_pieces scanned⟩

end Graft
