import Graft.Proofs.Printing.Sentence
import Graft.Proofs.Reading.Program

/-!
# The text of a script

The text of a script that was read consists of legible pieces, and it is scanned back just when all
slashes of the script divide.

* `exists_pieces` - the pieces of the text of a script
* `scan_text_iff` - when the text of a script is scanned
-/

namespace Graft

open Piece Layout Graft.Tree
open Reading (of)

variable {τ : Type}

namespace Tree

theorem form_erase (t : Tree τ) : t.erase.form = t.form :=
  fold_retag ..

/-- Trees that differ in tags alone are printed the same. -/
theorem text_of_erase_eq {σ : Type} {t : Tree τ} {u : Tree σ} (h : t.erase = u.erase) :
    t.text = u.text := by
  have form : t.form = u.form := by rw [← form_erase, h, form_erase]
  rw [text, text, pieces, pieces, form]

theorem edge_erase (t : Tree τ) : t.erase.edge = t.edge :=
  fold_retag ..

theorem divisible_erase (t : Tree τ) : t.erase.Divisible ↔ t.Divisible := by
  induction t using induct with
  | step t ih =>
    obtain ⟨tag, n⟩ := t
    rw [erase_mk]
    exact divisible_mk_map (fun c _ => edge_erase c) ih

theorem divisible_program {tag : τ} {body : List (Tree τ)} :
    (mk tag (.program body)).Divisible ↔ ∀ c ∈ body, c.Divisible := by
  rw [divisible_mk]
  exact and_iff_right (Node.divisible_of_none rfl)

end Tree

/-! ## The text of a program -/

/-- A lexeme does not begin with the end of a line. -/
theorem exists_head {l : Lexeme} (h : l.Spelled) : ∃ c cs, l.text.toList = c :: cs ∧ c ≠ '\n' := by
  cases l with
  | word text =>
    obtain ⟨c, cs, ht, hstart, -⟩ := h
    refine ⟨c, cs, ht, ?_⟩
    rintro rfl
    exact absurd hstart (by decide +kernel)
  | number raw =>
    have hstart := h.1
    rcases hcs : raw.toList with _ | ⟨c, cs⟩
    · rw [hcs] at hstart
      cases hstart
    · rw [hcs, startsNumber_cons] at hstart
      refine ⟨c, cs, hcs, ?_⟩
      rintro rfl
      cases hstart
  | quoted raw =>
    obtain ⟨quote, inside, ht, hq, -⟩ := h
    refine ⟨quote, inside, ht, ?_⟩
    rcases hq with rfl | rfl <;> decide
  | punct p =>
    obtain ⟨c, cs, ht, -, hb, -⟩ := head_of_punct h
    refine ⟨c, cs, ht, ?_⟩
    rintro rfl
    cases hb

/-- Nothing but the start of its line is left out in front of a statement. -/
theorem dropWhile_sentence {ps : List Piece} {d : Prop} (h : Sentence ps d) (rest : List Piece) :
    (charsOf (Setting.outer.line :: ps ++ rest)).dropWhile (· == '\n') = charsOf (ps ++ rest) := by
  obtain ⟨l, more, rfl, -⟩ := h.first
  obtain ⟨first, tail, hl, hne⟩ := exists_head (h.legible.spelled l (List.mem_cons_self ..))
  have chars : charsOf (lexeme l :: more ++ rest) =
      first :: (tail ++ charsOf (more ++ rest)) := by
    rw [List.cons_append, charsOf_cons, Piece.chars, hl]
    rfl
  have line : charsOf (Setting.outer.line :: lexeme l :: more ++ rest) =
      '\n' :: charsOf (lexeme l :: more ++ rest) := rfl
  rw [line, chars, List.dropWhile_cons_of_pos (by rfl), List.dropWhile_cons_of_neg (by simpa)]

/-- Statements in a row are printed with the start of the first line left out and the end of the
last one put in. -/
def linesOf (body : List (Tree τ)) : List Piece :=
  match Form.statements (body.map form) .outer with
  | [] => []
  | _ :: ps => ps ++ [.line 0]

theorem strip_linesOf {body : List (Tree τ)} (hs : ∀ c ∈ body, c.Shaped ∧ c.IsStmt) :
    Strip (linesOf body) (∀ c ∈ body, c.Divisible) := by
  have lines : ∀ c ∈ body, OnLine .outer false (c.form.statement .outer false) c.Divisible :=
    fun c hc => (written (hs c hc).1).sentence (hs c hc).2 .outer false
  cases body with
  | nil => exact Strip.nil.congr (by simp)
  | cons c cs =>
    obtain ⟨hc, hcs⟩ := List.forall_mem_cons.1 lines
    obtain ⟨qs, hqs, hsentence⟩ := hc.exists_eq
    have rest := line_flatMap fun x hx => (hcs x hx).line
    have last : Line [.line 0] True := Line.nil.behind_gap rfl
    have layout : linesOf (c :: cs) =
        qs ++ cs.flatMap (fun x => x.form.statement .outer false) ++ [.line 0] := by
      rw [linesOf, statements_map, List.flatMap_cons, hqs]
      rfl
    rw [layout]
    exact ((hsentence.toLine.append rest).append last).toStrip.congr (by simp)

/-- The slashes of the lines divide just when those of the statements do. -/
theorem dividesBehind_linesOf {body : List (Tree τ)} (hs : ∀ c ∈ body, c.Shaped ∧ c.IsStmt) :
    DividesBehind none (linesOf body) ↔ ∀ c ∈ body, c.Divisible := by
  have strip := strip_linesOf hs
  rw [DividesBehind, strip.divides]
  refine and_iff_right fun l hl hslash => ?_
  rw [strip.starts l hl] at hslash
  cases hslash

theorem Script.Shows.form_eq {s : Script} {body : List Reading} (h : s.Shows body) :
    (s.tree Script.root).form = (of (.program body)).form := by
  rw [← form_erase, h.erase_eq]

/-- The text of a script that is laid out with the characters of a program is that of the program's
lines. -/
theorem text_eq_of_chars {s : Script} {body : List (Tree τ)}
    (h : charsOf (s.tree Script.root).pieces = charsOf (Form.statements (body.map form) .outer))
    (hs : ∀ c ∈ body, c.Shaped ∧ c.IsStmt) : s.text = textOf (linesOf body) := by
  rw [Script.text, Script.textAt, Tree.text, h, linesOf]
  cases body with
  | nil => rfl
  | cons c cs =>
    obtain ⟨hc, hstmt⟩ := hs c (List.mem_cons_self ..)
    obtain ⟨qs, hqs, hsentence⟩ := ((written hc).sentence hstmt .outer false).exists_eq
    rw [statements_map, List.flatMap_cons, hqs]
    generalize cs.flatMap (fun x => x.form.statement .outer false) = rest
    rw [dropWhile_sentence hsentence rest]
    obtain ⟨l, more, rfl, -⟩ := hsentence.first
    obtain ⟨first, tail, hl, -⟩ := exists_head
      (hsentence.legible.spelled l (List.mem_cons_self ..))
    split
    · rename_i hempty
      rw [List.cons_append, charsOf_cons, chars, hl] at hempty
      have := congrArg String.toList hempty
      rw [String.toList_ofList] at this
      cases this
    · exact (textOf_append (lexeme l :: more ++ rest) [.line 0]).symm

/-- The text of a script that is laid out like a program is that of the program's lines. -/
theorem text_eq {s : Script} {body : List Reading}
    (h : (s.tree Script.root).form = (of (.program body)).form)
    (hs : ∀ c ∈ body, c.Shaped ∧ c.IsStmt) : s.text = textOf (linesOf body) := by
  refine text_eq_of_chars (congrArg charsOf ?_) hs
  rw [pieces, h, of, form_mk]
  rfl

/-- The text of a script that was read is scanned just when no slash of the script stands behind a
name behind which an operand is expected. -/
theorem scan_text_iff {source : String} {s : Script} (h : Script.read source = .ok s) :
    (∃ tokens, scan s.text = .ok tokens) ↔ (s.tree Script.root).Divisible := by
  obtain ⟨body, hshows, hs⟩ := shows_read h
  have strip := strip_linesOf hs
  have slashes : (∀ c ∈ body, c.Divisible) ↔ (s.tree Script.root).Divisible := by
    rw [← divisible_erase, hshows.erase_eq, of, divisible_mk]
    simp [Node.Divisible, Node.divided?, Node.children]
  have behind : DividesBehind none (linesOf body) ↔ (s.tree Script.root).Divisible := by
    rw [DividesBehind, strip.divides, slashes]
    refine and_iff_right fun l hl hslash => ?_
    rw [strip.starts l hl] at hslash
    cases hslash
  obtain ⟨hyes, hno⟩ := scan_pieces strip.legible
  rw [text_eq hshows.form_eq hs, ← behind]
  constructor
  · rintro ⟨tokens, ht⟩
    by_contra hd
    obtain ⟨spot, he⟩ := hno hd
    rw [ht] at he
    cases he
  · intro hd
    obtain ⟨tokens, ht, -⟩ := hyes hd
    exact ⟨tokens, ht⟩

/-- The slash behind a name that is no operator. -/
theorem scan_text_of_name : ∃ s, Script.read "(a) / 2" = .ok s ∧
    ∃ tokens, scan s.text = .ok tokens := by
  obtain ⟨s, hs, hd⟩ : ∃ s, Script.read "(a) / 2" = .ok s ∧
      decide (s.tree Script.root).Divisible = true := exists_read (by decide +kernel)
  exact ⟨s, hs, (scan_text_iff hs).2 (of_decide_eq_true hd)⟩

/-- The slash behind a name that may be an operator. -/
theorem scan_text_of_operandWord : ∃ s, Script.read "(of) / 2" = .ok s ∧
    ¬ ∃ tokens, scan s.text = .ok tokens := by
  obtain ⟨s, hs, he⟩ : ∃ s, Script.read "(of) / 2" = .ok s ∧
      (scan s.text).toOption.isNone = true := exists_read (by decide +kernel)
  refine ⟨s, hs, fun ⟨tokens, ht⟩ => ?_⟩
  rw [ht] at he
  cases he

end Graft
