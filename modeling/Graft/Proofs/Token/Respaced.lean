import Graft.Proofs.Printing.Legible
import Graft.Proofs.Token.Lossless

/-!
# Spelling undone by scanning

The spelling of a token tells all of it. So the tokens of a text can be written again with other
blanks between them: each ends in front of a blank, whatever stood behind it at first, and a slash
is judged by the token in front of it, which is the same.

* `divides_of_scan` - the slashes of a text that is scanned are those of divisions
* `scan_laidOut` - tokens written with other blanks between them
-/

namespace Graft

open Text (Place isBlank isLineBreak)
open Piece

/-! ## Slashes that were scanned -/

/-- A lexeme that was taken is no slash where an operand is expected. -/
theorem divides_of_splitLexeme {previous : Option Lexeme} {place : Place} {c : Char}
    {cs rest : List Char} {l : Lexeme} (h : splitLexeme previous place c cs = .ok (l, rest)) :
    l.isSlash = true → expectsOperand previous = false := by
  intro hl
  by_contra hp
  rw [splitLexeme_of_slash (spelled_of_splitLexeme h) hl (splitLexeme_append h)
    (by simpa using hp)] at h
  cases h

/-- Lexemes as pieces without anything between them. -/
def piecesOf (tokens : List Token) : List Piece :=
  tokens.map fun t => .lexeme t.lexeme

theorem divides_of_scanFrom {previous : Option Lexeme} {place : Place} {cs : List Char}
    {tokens : Tokens} (h : scanFrom previous place cs = .ok tokens) :
    DividesBehind previous (piecesOf tokens.list) := by
  fun_induction scanFrom previous place cs generalizing tokens with
  | case1 =>
    obtain rfl := Except.ok.inj h
    exact ⟨by rintro _ ⟨⟩, .nil⟩
  | case4 previous place cs s here hclosed c rest hrest lexeme after hlexeme tokens' hscan =>
    rename_i ih
    obtain rfl := Except.ok.inj h
    exact dividesBehind_cons_lexeme.2 ⟨divides_of_splitLexeme hlexeme, ih hscan⟩
  | case2 | case3 | case5 => cases h

/-- The slashes of a text that is scanned are those of divisions. -/
theorem divides_of_scan {source : String} {tokens : Tokens} (h : scan source = .ok tokens) :
    DividesBehind none (piecesOf tokens.list) :=
  divides_of_scanFrom h

/-! ## Other blanks -/

/-- A text that begins with a blank, if it begins with anything. -/
theorem ends_laidOut {l : Lexeme} (hs : l.Spelled) {pieces : List (List Char × Token)}
    (blank : ∀ p ∈ pieces, ∀ c ∈ p.1, isBlank c) (apart : ∀ p ∈ pieces, p.1 ≠ []) :
    l.Ends (laidOut pieces) := by
  cases pieces with
  | nil => exact nofun
  | cons p pieces =>
    obtain ⟨gap, token⟩ := p
    obtain ⟨c, more, rfl⟩ := List.exists_cons_of_ne_nil (apart _ (List.mem_cons_self ..))
    intro d hd
    obtain rfl : c = d := Option.some.inj hd
    exact endsAt_blank hs (blank _ (List.mem_cons_self ..) c (List.mem_cons_self ..))

/-- Tokens behind blanks are scanned one after the other. -/
theorem scanFrom_laidOut {pieces : List (List Char × Token)} (previous : Option Lexeme)
    (place : Place) (spelled : ∀ p ∈ pieces, p.2.lexeme.Spelled)
    (divides : DividesBehind previous (piecesOf (pieces.map Prod.snd)))
    (blank : ∀ p ∈ pieces, ∀ c ∈ p.1, isBlank c) (apart : ∀ p ∈ pieces.tail, p.1 ≠ []) :
    ∃ tokens, scanFrom previous place (laidOut pieces) = .ok tokens ∧
      tokens.list.map Token.mark = pieces.map fun p => (p.2.lexeme, p.1.any isLineBreak) := by
  induction pieces generalizing previous place with
  | nil => exact ⟨_, scanFrom_of_blank previous place nofun, rfl⟩
  | cons p pieces ih =>
    obtain ⟨gap, token⟩ := p
    obtain ⟨hs, spelled⟩ := List.forall_mem_cons.1 spelled
    obtain ⟨hg, blank⟩ := List.forall_mem_cons.1 blank
    obtain ⟨hslash, divides⟩ := dividesBehind_cons_lexeme.1 divides
    have layout : laidOut ((gap, token) :: pieces) =
        gap ++ (token.lexeme.text.toList ++ laidOut pieces) := by
      simp [laidOut]
    rw [layout, scanFrom_of_spelled hs (ends_laidOut hs blank apart) hg hslash]
    obtain ⟨tokens, ht, hm⟩ := ih _ _ spelled divides blank fun p hp =>
      apart p (List.mem_of_mem_tail hp)
    refine ⟨_, congrArg (Except.map _) ht, ?_⟩
    rw [List.map_cons, List.map_cons, hm]
    rfl

/-- The tokens of a text can be written again with other blanks between them, and in front of them
if there are any: the text that this gives is scanned as the same lexemes in the same order, and a
line ended in front of a token if it did in the blanks. -/
theorem scan_laidOut {source : String} {tokens : Tokens} (h : scan source = .ok tokens)
    {pieces : List (List Char × Token)} (same : pieces.map Prod.snd = tokens.list)
    (blank : ∀ p ∈ pieces, ∀ c ∈ p.1, isBlank c) (apart : ∀ p ∈ pieces.tail, p.1 ≠ []) :
    ∃ tokens', scan (String.ofList (laidOut pieces)) = .ok tokens' ∧
      tokens'.list.map Token.lexeme = tokens.list.map Token.lexeme ∧
      tokens'.list.map Token.newlineBefore = pieces.map fun p => p.1.any isLineBreak := by
  have spelled : ∀ p ∈ pieces, p.2.lexeme.Spelled := by
    intro p hp
    exact spelled_of_scan h p.2 (same ▸ List.mem_map_of_mem hp)
  have divides := divides_of_scan h
  rw [← same] at divides
  obtain ⟨tokens', scanned, marked⟩ := scanFrom_laidOut none .start spelled divides blank apart
  rw [scan, String.toList_ofList]
  refine ⟨tokens', scanned, ?_, ?_⟩
  · have lexemes := congrArg (List.map Prod.fst) marked
    rw [List.map_map, List.map_map] at lexemes
    rw [← same, List.map_map]
    exact lexemes
  · have newlines := congrArg (List.map Prod.snd) marked
    rw [List.map_map, List.map_map] at newlines
    exact newlines

/-- A division behind a sign that ends an operand; the number has lost what stood in front of it. -/
theorem scan_laidOut_division : ∃ (tokens : Tokens) (pieces : List (List Char × Token)),
    scan "x++/.5e1" = .ok tokens ∧ pieces.map Prod.snd = tokens.list ∧
    (∀ p ∈ pieces, ∀ c ∈ p.1, isBlank c) ∧ (∀ p ∈ pieces.tail, p.1 ≠ []) ∧
    String.ofList (laidOut pieces) = "x ++\n\t/\u2028.5e1" ∧
    ∃ tokens', scan (String.ofList (laidOut pieces)) = .ok tokens' ∧
      tokens'.list.map Token.lexeme = tokens.list.map Token.lexeme ∧
      tokens'.list.map Token.newlineBefore = pieces.map fun p => p.1.any isLineBreak := by
  have scanned : scan "x++/.5e1" =
      .ok ⟨[⟨.word "x", false, 1, 1⟩, ⟨.punct "++", false, 1, 2⟩, ⟨.punct "/", false, 1, 4⟩,
        ⟨.number ".5e1", false, 1, 5⟩], 1, 9⟩ := by decide +kernel
  let pieces : List (List Char × Token) :=
    [([], ⟨.word "x", false, 1, 1⟩), ([' '], ⟨.punct "++", false, 1, 2⟩),
      (['\n', '\t'], ⟨.punct "/", false, 1, 4⟩), (['\u2028'], ⟨.number ".5e1", false, 1, 5⟩)]
  have blank : ∀ p ∈ pieces, ∀ c ∈ p.1, isBlank c := by
    have all : (pieces.all fun p => p.1.all isBlank) = true := by decide
    intro p hp
    exact List.all_eq_true.1 (List.all_eq_true.1 all p hp)
  have apart : ∀ p ∈ pieces.tail, p.1 ≠ [] := by decide
  exact ⟨_, pieces, scanned, rfl, blank, apart, by decide, scan_laidOut scanned rfl blank apart⟩

end Graft
