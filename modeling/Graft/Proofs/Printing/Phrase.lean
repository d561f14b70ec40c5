import Graft.Proofs.Printing.Strip
import Graft.Proofs.Reading.Shape

/-!
# Phrases and sentences

The layout of an expression begins with the first lexeme of its first operand and ends with a
lexeme that an operand can end with; that of a statement begins with a word or a sign of its own and
ends with a semicolon or a brace. This is all that what stands around them has to know.

* `Item`, `Phrase` - what ends like an expression, and the layouts of expressions
* `Line`, `Sentence` - what ends like a statement, and the layouts of statements
* `Item.infixed` - operators between operands, slashes among them
-/

namespace Graft

open Piece

variable {ps qs : List Piece} {d e : Prop}

/-! ## Spellings -/

/-- The words that are printed of themselves. -/
def keywords : List String :=
  ["break", "case", "catch", "class", "const", "continue", "default", "delete", "do", "else",
   "extends", "false", "finally", "for", "function", "if", "in", "instanceof", "let", "new", "null",
   "of", "return", "static", "switch", "this", "throw", "true", "try", "typeof", "var", "void",
   "while", "with"]

theorem spelled_keyword {w : String} (h : w ∈ keywords) : (Lexeme.word w).Spelled := by
  have all : ∀ w ∈ keywords, (w.toList.head?.any fun c =>
      isNameStart c && w.toList.tail.all isNamePart) = true := by decide
  obtain ⟨c, hc, hw⟩ := (Option.any_eq_true ..).1 (all w h)
  obtain ⟨hstart, hall⟩ := Bool.and_eq_true_iff.1 hw
  obtain ⟨cs, hcs⟩ := List.head?_eq_some_iff.1 hc
  rw [hcs] at hall
  exact ⟨c, cs, hcs, hstart, List.all_eq_true.1 hall⟩

/-! ## What ends like an expression -/

/-- A layout that ends with a lexeme that an operand can end with. -/
structure Item (ps : List Piece) (d : Prop) : Prop extends Strip ps d where
  ne_nil : ps ≠ []
  last : ∀ p ∈ ps.getLast?, p.Closes

namespace Item

theorem congr (h : Item ps d) (hde : d ↔ e) : Item ps e :=
  { h with divides := h.divides.trans hde }

/-- The last lexeme of an item is its last piece. -/
theorem exists_last (h : Item ps d) :
    ∃ l, ps.getLast? = some (.lexeme l) ∧ (lexemes ps).getLast? = some l := by
  rcases List.eq_nil_or_concat ps with rfl | ⟨init, last, rfl⟩
  · exact absurd rfl h.ne_nil
  · have hl := h.last last (by simp)
    cases last with
    | lexeme l => exact ⟨l, by simp, by simp [lexemes, lexeme?]⟩
    | _ => cases hl

/-- A lexeme that is no sign. -/
theorem lexeme {l : Lexeme} (hs : l.Spelled) (hl : ∀ p, l ≠ .punct p) : Item [.lexeme l] True := by
  have plain : l.isSlash = false ∧ l.isOpening = false ∧ l.isClosing = false ∧
      (Piece.lexeme l).Closes := by
    cases l with
    | punct p => exact absurd rfl (hl p)
    | _ => exact ⟨rfl, rfl, rfl, trivial⟩
  refine ⟨.lexeme hs plain.1 ⟨plain.2.1, plain.2.2.1⟩, List.cons_ne_nil _ _, fun p hp => ?_⟩
  obtain rfl := Option.some.inj hp
  exact plain.2.2.2

/-- Brackets around a strip. -/
theorem enclosed (h : Strip ps d) {opening closing : String}
    (hb : (opening, closing) ∈ [("(", ")"), ("[", "]"), ("\x7b", "\x7d")])
    (hlast : ∀ p ∈ ps.getLast?, p.Loose ∨ p.Closes) :
    Item (Piece.enclosed opening ps closing) d := by
  have ends : ∀ b ∈ [("(", ")"), ("[", "]"), ("\x7b", "\x7d")], b.2 ∈ operandEnds := by decide
  refine ⟨h.enclosed hb hlast, List.cons_ne_nil _ _, fun p hp => ?_⟩
  obtain rfl : punct closing = p := by
    rw [Piece.enclosed, List.getLast?_concat] at hp
    exact Option.some.inj hp
  exact ends _ hb

theorem parens (h : Item ps d) : Item (Piece.parens ps) d :=
  enclosed h.toStrip (by simp) fun p hp => .inr (h.last p hp)

/-- Something in front of an item. -/
theorem behind (h : Item qs e) (h' : Strip ps d)
    (joint : ∀ p ∈ ps.getLast?, ∀ q ∈ qs.head?, Meets p q) : Item (ps ++ qs) (d ∧ e) := by
  refine ⟨h'.append h.toStrip joint, List.append_ne_nil_of_right_ne_nil _ h.ne_nil, fun p hp => ?_⟩
  rw [List.getLast?_append_of_ne_nil _ h.ne_nil] at hp
  exact h.last p hp

/-- What stands behind without a gap: it begins with a calm sign. -/
theorem append (h : Item ps d) (h' : Item qs e) (hq : ∀ q ∈ qs.head?, q.Calm) :
    Item (ps ++ qs) (d ∧ e) :=
  h'.behind h.toStrip fun p hp q hq' => meets_of_calm (h.last p hp) (hq q hq')

theorem behind_gap {p : Piece} (hp : p.lexeme? = none) (h : Item ps d) : Item (p :: ps) d := by
  refine ⟨h.toStrip.behind_gap hp, List.cons_ne_nil _ _, fun q hq => ?_⟩
  rw [List.getLast?_cons_of_ne_nil h.ne_nil] at hq
  exact h.last q hq

theorem behind_sign {p : String} (hp : p ∈ [";", ",", ":"]) (h : Item ps d) :
    Item (punct p :: ps) d := by
  refine ⟨h.toStrip.behind_sign hp, List.cons_ne_nil _ _, fun q hq => ?_⟩
  rw [List.getLast?_cons_of_ne_nil h.ne_nil] at hq
  exact h.last q hq

/-- A gap and another item. -/
theorem append_gap (h : Item ps d) (h' : Item qs e) {p : Piece} (hp : p.lexeme? = none) :
    Item (ps ++ p :: qs) (d ∧ e) := by
  refine h.append (h'.behind_gap hp) fun q hq => ?_
  obtain rfl := Option.some.inj hq
  cases p with
  | lexeme l => cases hp
  | _ => trivial

/-- A keyword, a gap and an item. -/
theorem behind_word {w : String} (hw : w ∈ keywords) {p : Piece} (hp : p.lexeme? = none)
    (h : Item ps d) : Item (word w :: p :: ps) d :=
  ((lexeme (spelled_keyword hw) nofun).append_gap h hp).congr (by rw [true_and])

/-- An operator between two operands. A slash divides if no operand is expected behind the end of
the left one. -/
theorem infixed (h : Item ps d) (h' : Item qs e) {l : Lexeme} {c : Prop} (hs : l.Spelled)
    (hb : l.isOpening = false ∧ l.isClosing = false) (hn : l.isSlash = false → c)
    (hc : l.isSlash = true → ∀ last, ps.getLast? = some (.lexeme last) →
      (expectsOperand (some last) = false ↔ c)) :
    Item (Layout.infixed ps (.lexeme l) qs) (c ∧ d ∧ e) := by
  have lexs : lexemes (Layout.infixed ps (.lexeme l) qs) = lexemes ps ++ l :: lexemes qs := by
    rw [Layout.infixed, lexemes_append]
    rfl
  obtain ⟨last, hp, hl⟩ := h.exists_last
  refine ⟨⟨⟨⟨fun l' hl => ?_, ?_⟩, ?_, ?_⟩, ?_⟩, List.append_ne_nil_of_left_ne_nil h.ne_nil _,
    fun p hp => ?_⟩
  · rw [lexs, List.mem_append, List.mem_cons] at hl
    rcases hl with hl | rfl | hl
    · exact h.legible.spelled l' hl
    · exact hs
    · exact h'.legible.spelled l' hl
  · have tail : (.space :: .lexeme l :: .space :: qs).IsChain Meets := by
      refine List.isChain_cons_cons.2 ⟨trivial, List.isChain_cons_cons.2 ⟨trivial, ?_⟩⟩
      exact List.isChain_cons.2 ⟨fun _ _ => trivial, h'.legible.meets⟩
    refine h.legible.meets.append tail fun p _ q hq => ?_
    obtain rfl := Option.some.inj hq
    cases p <;> trivial
  · intro first hf
    rw [lexs] at hf
    cases hps : lexemes ps with
    | nil => rw [hps] at hl; cases hl
    | cons x xs =>
      rw [hps] at hf
      exact h.starts first (by rw [hps]; exact hf)
  · rw [Divides, lexs, List.isChain_append, List.isChain_cons, hl]
    have behind : ∀ y ∈ (lexemes qs).head?, Follows l y := by
      intro y hy hslash
      rw [h'.starts y hy] at hslash
      cases hslash
    have joint : (∀ x ∈ some last, ∀ y ∈ (l :: lexemes qs).head?, Follows x y) ↔ c := by
      simp only [Option.mem_def, Option.some.injEq, forall_eq', List.head?_cons]
      by_cases hslash : l.isSlash = true
      · rw [← hc hslash last hp, Follows]
        exact ⟨fun hf => hf hslash, fun hf _ => hf⟩
      · exact iff_of_true (fun ht => absurd ht hslash) (hn (by simpa using hslash))
    rw [joint, ← h.divides, ← h'.divides]
    constructor
    · rintro ⟨hd, ⟨-, he⟩, hc⟩
      exact ⟨hc, hd, he⟩
    · rintro ⟨hc, hd, he⟩
      exact ⟨hd, ⟨behind, he⟩, hc⟩
  · exact h.balanced.append (Balanced.cons hb h'.balanced)
  · refine h'.last p ?_
    rw [Layout.infixed, List.getLast?_append_of_ne_nil _ (by simp), List.getLast?_cons_cons,
      List.getLast?_cons_cons, List.getLast?_cons_of_ne_nil h'.ne_nil] at hp
    exact hp

/-- An operator other than a slash. -/
theorem infixed_of_not (h : Item ps d) (h' : Item qs e) {l : Lexeme} (hs : l.Spelled)
    (hb : l.isOpening = false ∧ l.isClosing = false) (hn : l.isSlash = false) :
    Item (Layout.infixed ps (.lexeme l) qs) (d ∧ e) := by
  refine (h.infixed h' hs hb (fun _ => trivial) fun hs => ?_).congr (by rw [true_and])
  rw [hn] at hs
  cases hs

end Item

/-! ## Lists of items -/

theorem commas_cons_cons (x y : List Piece) (xs : List (List Piece)) :
    commas (x :: y :: xs) = x ++ punct "," :: space :: commas (y :: xs) := by
  simp [commas, List.intersperse]

section Commas

variable {α : Type} {f : α → List Piece} {D : α → Prop}

theorem Item.commas {x : α} {xs : List α} (h : ∀ y ∈ x :: xs, Item (f y) (D y)) :
    Item (Piece.commas ((x :: xs).map f)) (∀ y ∈ x :: xs, D y) := by
  induction xs generalizing x with
  | nil =>
    have one : Piece.commas ([x].map f) = f x := by simp [Piece.commas]
    rw [one]
    exact (h x (List.mem_singleton_self x)).congr (by simp)
  | cons y ys ih =>
    obtain ⟨hx, hys⟩ := List.forall_mem_cons.1 h
    rw [List.map_cons, List.map_cons, commas_cons_cons, ← List.map_cons]
    refine (hx.append (((ih hys).behind_gap rfl).behind_sign (by simp)) fun q hq => ?_).congr
      List.forall_mem_cons.symm
    obtain rfl := Option.some.inj hq
    exact (by decide : "," ∈ calmSigns)

/-- A list of items, which may be empty. -/
theorem strip_commas {xs : List α} (h : ∀ y ∈ xs, Item (f y) (D y)) :
    Strip (Piece.commas (xs.map f)) (∀ y ∈ xs, D y) ∧
      ∀ p ∈ (Piece.commas (xs.map f)).getLast?, p.Closes := by
  cases xs with
  | nil => exact ⟨Strip.nil.congr (by simp), nofun⟩
  | cons x xs => exact ⟨(Item.commas h).toStrip, (Item.commas h).last⟩

/-- A list of items in brackets. -/
theorem Item.enclosed_commas {xs : List α} (h : ∀ y ∈ xs, Item (f y) (D y))
    {opening closing : String}
    (hb : (opening, closing) ∈ [("(", ")"), ("[", "]"), ("\x7b", "\x7d")]) :
    Item (Piece.enclosed opening (Piece.commas (xs.map f)) closing) (∀ y ∈ xs, D y) :=
  .enclosed (strip_commas h).1 hb fun p hp => .inr ((strip_commas h).2 p hp)

end Commas

/-! ## Phrases -/

/-- The words that are no names and with which an expression may begin. -/
def expressionWords : List String :=
  ["this", "null", "true", "false", "function", "new", "typeof", "void", "delete"]

/-- The signs with which an expression may begin. -/
def expressionSigns : List String :=
  ["(", "[", "\x7b", "-", "+", "!", "~", "++", "--"]

/-- Whether an expression may begin with a lexeme; `opening` is the kind of its first operand. -/
def Lexeme.Opens (opening : Kind) : Lexeme → Prop
  | word w => (Grammar.isReserved w = false ∨ w ∈ expressionWords) ∧
      (w = "function" → opening = .functionExpr)
  | punct p => p ∈ expressionSigns ∧ (p = "\x7b" → opening = .object)
  | _ => True

/-- Whether pieces begin like an expression. -/
def StartsAs (opening : Kind) (ps : List Piece) : Prop :=
  ∃ l qs, ps = lexeme l :: qs ∧ l.Opens opening

theorem StartsAs.append {k : Kind} (h : StartsAs k ps) (qs : List Piece) :
    StartsAs k (ps ++ qs) := by
  obtain ⟨l, more, rfl, ho⟩ := h
  exact ⟨l, more ++ qs, rfl, ho⟩

/-- The layout of an expression. -/
structure Phrase (opening : Kind) (ps : List Piece) (d : Prop) : Prop extends Item ps d where
  first : StartsAs opening ps

namespace Phrase

variable {k k' : Kind}

theorem congr (h : Phrase k ps d) (hde : d ↔ e) : Phrase k ps e :=
  { h with divides := h.divides.trans hde }

theorem parens (h : Item ps d) : Phrase k (Piece.parens ps) d :=
  ⟨h.parens, _, _, rfl, by decide, by simp⟩

/-- An operator between two operands. -/
theorem of_infixed {p : Piece} (h : Phrase k ps d) (h' : Item (Layout.infixed ps p qs) e) :
    Phrase k (Layout.infixed ps p qs) e :=
  ⟨h', h.first.append _⟩

theorem append (h : Phrase k ps d) (h' : Item qs e) (hq : ∀ q ∈ qs.head?, q.Calm) :
    Phrase k (ps ++ qs) (d ∧ e) :=
  ⟨h.toItem.append h' hq, h.first.append qs⟩

end Phrase

/-! ## Sentences -/

/-- A layout that ends with a semicolon or a brace, if it is not empty. -/
structure Line (ps : List Piece) (d : Prop) : Prop extends Strip ps d where
  last : ∀ p ∈ ps.getLast?, p.Loose

/-- The words with which no statement begins. -/
def continuations : List String := ["case", "catch", "default", "else", "finally"]

/-- Whether a statement may begin with a lexeme. -/
def Lexeme.Begins : Lexeme → Prop
  | word w => w ∉ continuations
  | punct p => p ≠ "\x7d"
  | _ => True

/-- The layout of a statement behind the start of its line. -/
structure Sentence (ps : List Piece) (d : Prop) : Prop extends Line ps d where
  first : ∃ l qs, ps = lexeme l :: qs ∧ l.Begins

/-- A sentence on a line of its own, or on the line that is there if it goes on a line. -/
def OnLine (s : Setting) (inline : Bool) (layout : List Piece) (d : Prop) : Prop :=
  ∃ ps, Sentence ps d ∧ (layout = s.line :: ps ∨ inline = true ∧ layout = ps)

end Graft
