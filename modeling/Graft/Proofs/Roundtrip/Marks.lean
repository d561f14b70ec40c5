import Graft.Proofs.Printing.Phrase
import Graft.Proofs.Roundtrip.Takes

/-!
# The marks of layouts

What a reader sees of a layout is put together from what it sees of the parts. Whether a line ended
in front of a lexeme is known from the piece before it.

* `marks_append` - the marks of two layouts in a row
* `listed_commas` - the marks of a list of items
-/

namespace Graft

open Piece Read

namespace Piece

/-- Whether a line has ended behind pieces, as far as can be told in front of the next lexeme. -/
def freshBehind (fresh : Bool) : List Piece → Bool
  | [] => fresh
  | lexeme _ :: ps => freshBehind false ps
  | space :: ps => freshBehind fresh ps
  | line _ :: ps => freshBehind true ps

variable (fresh : Bool) (ps qs : List Piece)

@[simp] theorem marks_nil : marks fresh [] = [] := rfl

@[simp] theorem marks_lexeme (l : Lexeme) :
    marks fresh (lexeme l :: ps) = (l, fresh) :: marks false ps := rfl

@[simp] theorem marks_word (w : String) :
    marks fresh (word w :: ps) = (.word w, fresh) :: marks false ps := rfl

@[simp] theorem marks_punct (p : String) :
    marks fresh (punct p :: ps) = (.punct p, fresh) :: marks false ps := rfl

@[simp] theorem marks_space : marks fresh (space :: ps) = marks fresh ps := rfl

@[simp] theorem marks_line (n : Nat) : marks fresh (line n :: ps) = marks true ps := rfl

/-- The lexemes of what a reader sees of pieces. -/
theorem map_fst_marks : (marks fresh ps).map Prod.fst = lexemes ps := by
  induction ps generalizing fresh with
  | nil => rfl
  | cons p ps ih =>
    cases p with
    | lexeme l => exact congrArg (l :: ·) (ih false)
    | _ => exact ih _

@[simp] theorem marks_append :
    marks fresh (ps ++ qs) = marks fresh ps ++ marks (freshBehind fresh ps) qs := by
  induction ps generalizing fresh with
  | nil => rfl
  | cons p ps ih => cases p <;> simp [marks, freshBehind, ih]

@[simp] theorem freshBehind_append :
    freshBehind fresh (ps ++ qs) = freshBehind (freshBehind fresh ps) qs := by
  induction ps generalizing fresh with
  | nil => rfl
  | cons p ps ih => cases p <;> simp [freshBehind, ih]

@[simp] theorem freshBehind_nil : freshBehind fresh [] = fresh := rfl

@[simp] theorem freshBehind_word (w : String) :
    freshBehind fresh (word w :: ps) = freshBehind false ps := rfl

@[simp] theorem freshBehind_punct (p : String) :
    freshBehind fresh (punct p :: ps) = freshBehind false ps := rfl

@[simp] theorem freshBehind_space : freshBehind fresh (space :: ps) = freshBehind fresh ps := rfl

@[simp] theorem freshBehind_line (n : Nat) :
    freshBehind fresh (line n :: ps) = freshBehind true ps := rfl

@[simp] theorem marks_infixed (l : Lexeme) :
    marks fresh (Layout.infixed ps (lexeme l) qs) =
      marks fresh ps ++ (l, freshBehind fresh ps) :: marks false qs := by
  simp [Layout.infixed]

@[simp] theorem marks_enclosed (opening closing : String) :
    marks fresh (enclosed opening ps closing) =
      (.punct opening, fresh) :: (marks false ps ++ [(.punct closing, freshBehind false ps)]) := by
  simp [enclosed]

@[simp] theorem marks_parens :
    marks fresh (parens ps) =
      (.punct "(", fresh) :: (marks false ps ++ [(.punct ")", freshBehind false ps)]) :=
  marks_enclosed ..

end Piece

variable {ps : List Piece} {d : Prop}

/-- No line ends behind a lexeme. -/
theorem Item.freshBehind (h : Item ps d) (fresh : Bool) : freshBehind fresh ps = false := by
  obtain ⟨l, hl, -⟩ := h.exists_last
  obtain ⟨init, rfl⟩ := List.getLast?_eq_some_iff.1 hl
  rw [freshBehind_append]
  rfl

/-! ## Lists -/

section Lists

variable {α β : Type} {f : α → List Piece} {g : α → β} {close : String} {item : Read β} {n : Nat}

/-- A list of items is read if each item is, in front of a comma or of the closing bracket. -/
theorem listed_commas {xs : List α} (hclose : close ≠ ",")
    (front : ∀ x ∈ xs, ∀ fresh, ∃ m ms, marks fresh (f x) = m :: ms ∧ m.1 ≠ .punct close)
    (h : ∀ x ∈ xs, ∀ fresh rest, (marks fresh (f x) ++ rest).length ≤ n →
      front? rest = some (.punct ",") ∨ front? rest = some (.punct close) →
        Takes item (marks fresh (f x) ++ rest) (g x) rest)
    {fresh : Bool} {rest : List Mark} (hr : front? rest = some (.punct close))
    (hlen : (marks fresh (commas (xs.map f)) ++ rest).length ≤ n) :
    Listed close item (marks fresh (commas (xs.map f)) ++ rest) (xs.map g) rest := by
  induction xs generalizing fresh with
  | nil => exact .nil hr
  | cons x xs ih =>
    obtain ⟨hx, hxs⟩ := List.forall_mem_cons.1 h
    obtain ⟨m, ms, hm, hne⟩ := front x (List.mem_cons_self ..) fresh
    have hfront : ∀ rest, front? (marks fresh (f x) ++ rest) ≠ some (.punct close) := by
      intro rest
      rw [hm]
      simpa [front?] using hne
    cases xs with
    | nil =>
      have one : commas ([x].map f) = f x := by simp [commas]
      rw [one] at hlen ⊢
      refine .last (hfront rest) (hx fresh rest hlen (.inr hr)) ?_
      rw [hr]
      simpa using hclose
    | cons y ys =>
      have layout : marks fresh (commas ((x :: y :: ys).map f)) ++ rest =
          marks fresh (f x) ++ (.punct ",", freshBehind fresh (f x)) ::
            (marks false (commas ((y :: ys).map f)) ++ rest) := by
        rw [List.map_cons, List.map_cons, commas_cons_cons, ← List.map_cons]
        simp
      rw [layout] at hlen ⊢
      refine .more (hfront _) (hx fresh _ hlen (.inl rfl)) ?_ (ih ?_ hxs ?_)
      · simp
        omega
      · exact fun z hz => front z (List.mem_cons_of_mem _ hz)
      · rw [List.length_append, List.length_cons] at hlen
        omega

end Lists

end Graft
