import Graft.Printing.Layout
import Graft.Proofs.Printing.Legible

/-!
# Putting layouts together

What is said of the pieces of a layout - that they are legible, that their brackets match, when
their slashes divide - is said of its parts one by one. Only the joints have to be looked at: a
space, a line and most brackets may stand next to anything, and behind an expression there stands
what no expression goes on with.

* `Strip` - a layout with the condition under which its slashes divide
* `Strip.append_loose`, `Strip.append_calm` - the two kinds of joints
-/

namespace Graft

open Piece

/-! ## Brackets -/

namespace Lexeme

def isOpening : Lexeme → Bool
  | punct p => ["(", "[", "\x7b"].contains p
  | _ => false

def isClosing : Lexeme → Bool
  | punct p => [")", "]", "\x7d"].contains p
  | _ => false

theorem isOpening_of_isClosing {l : Lexeme} (h : l.isClosing = true) : l.isOpening = false := by
  have all : ∀ p ∈ [")", "]", "\x7d"], ["(", "[", "\x7b"].contains p = false := by decide
  cases l with
  | punct p => exact all p (by simpa [isClosing] using h)
  | _ => cases h

end Lexeme

/-- What follows the bracket that closes the outermost of the open ones; `depth` counts them. -/
def behindGroup : Nat → List Lexeme → Option (List Lexeme)
  | _, [] => none
  | depth, l :: ls =>
    if l.isOpening then behindGroup (depth + 1) ls
    else if l.isClosing then
      match depth with
      | 0 => none
      | 1 => some ls
      | depth + 1 => behindGroup depth ls
    else behindGroup depth ls

section Group

variable {l : Lexeme} (depth : Nat) (ls : List Lexeme)

theorem behindGroup_of_isOpening (h : l.isOpening = true) :
    behindGroup depth (l :: ls) = behindGroup (depth + 1) ls := by
  rw [behindGroup.eq_def]
  simp [h]

theorem behindGroup_of_isClosing (h : l.isClosing = true) :
    behindGroup (depth + 2) (l :: ls) = behindGroup (depth + 1) ls := by
  rw [behindGroup.eq_def]
  simp [h, Lexeme.isOpening_of_isClosing h]

theorem behindGroup_one (h : l.isClosing = true) : behindGroup 1 (l :: ls) = some ls := by
  rw [behindGroup.eq_def]
  simp [h, Lexeme.isOpening_of_isClosing h]

theorem behindGroup_of_not (h : l.isOpening = false) (h' : l.isClosing = false) :
    behindGroup depth (l :: ls) = behindGroup depth ls := by
  rw [behindGroup.eq_def]
  simp [h, h']

end Group

/-- Whether the brackets of pieces match. -/
def Balanced (ps : List Piece) : Prop :=
  ∀ depth rest, behindGroup (depth + 1) (lexemes ps ++ rest) = behindGroup (depth + 1) rest

namespace Balanced

variable {ps qs : List Piece}

theorem nil : Balanced [] := fun _ _ => rfl

theorem append (h : Balanced ps) (h' : Balanced qs) : Balanced (ps ++ qs) := by
  intro depth rest
  rw [lexemes_append, List.append_assoc, h, h']

/-- A lexeme that is no bracket may stand in front. -/
theorem cons {l : Lexeme} (hl : l.isOpening = false ∧ l.isClosing = false) (h : Balanced ps) :
    Balanced (lexeme l :: ps) := by
  intro depth rest
  change behindGroup (depth + 1) (l :: (lexemes ps ++ rest)) = _
  rw [behindGroup_of_not _ _ hl.1 hl.2, h]

/-- Brackets of any kind match around pieces whose brackets match. -/
theorem enclosed (h : Balanced ps) {opening closing : Lexeme} (ho : opening.isOpening = true)
    (hc : closing.isClosing = true) : Balanced (lexeme opening :: ps ++ [lexeme closing]) := by
  intro depth rest
  have inner := h (depth + 1) (closing :: rest)
  rw [behindGroup_of_isClosing _ _ hc] at inner
  rw [lexemes_append, List.append_assoc]
  change behindGroup (depth + 1) (opening :: (lexemes ps ++ closing :: rest)) = _
  rw [behindGroup_of_isOpening _ _ ho, inner]

end Balanced

/-! ## Joints -/

/-- The signs behind which anything may stand. -/
def looseSigns : List String :=
  ["(", ")", "[", "]", "\x7b", "\x7d", ";", ",", ":", "++", "--"]

/-- The signs that end whatever they stand behind. -/
def calmSigns : List String :=
  ["(", ")", "[", "]", "\x7d", ";", ",", ":", "++", "--"]

namespace Piece

/-- Whether anything may stand behind a piece. -/
def Loose : Piece → Prop
  | lexeme (.punct p) => p ∈ looseSigns
  | lexeme _ => False
  | _ => True

/-- Whether a piece may stand behind whatever ends an expression. -/
def Calm : Piece → Prop
  | lexeme (.punct p) => p ∈ calmSigns
  | lexeme _ => False
  | _ => True

/-- Whether an expression may end with a piece. -/
def Closes : Piece → Prop
  | lexeme (.punct p) => p ∈ operandEnds
  | lexeme _ => True
  | _ => False

theorem meets_of_loose {p q : Piece} (h : p.Loose) : Meets p q := by
  cases p with
  | lexeme l =>
    cases q with
    | lexeme next =>
      cases l with
      | punct p =>
        have all : ∀ p ∈ looseSigns, p ≠ "." ∧ p ≠ "/" ∧
            ∀ q ∈ punctuators, p.toList <+: q.toList → q.toList = p.toList := by decide
        obtain ⟨hpoint, hslash, hlong⟩ := all p h
        intro c _
        simp only [Lexeme.endsAt, Bool.and_eq_true, Bool.not_eq_true', List.any_eq_false,
          List.isPrefixOf_iff_prefix]
        refine ⟨⟨fun q hq hp => ?_, by simp [hpoint]⟩, by simp [hslash]⟩
        have hlen := hp.length_le
        rw [hlong q hq ((List.prefix_append _ _).trans hp), List.length_append] at hlen
        exact absurd hlen (Nat.not_succ_le_self _)
      | _ => cases h
    | _ => trivial
  | _ => trivial

theorem meets_of_calm {p q : Piece} (h : p.Closes) (h' : q.Calm) : Meets p q := by
  cases q with
  | lexeme next =>
    cases next with
    | punct q =>
      have all : ∀ q ∈ calmSigns, (q.toList.head?.all fun c => !goesOnNumber c) = true := by
        decide
      have heads : ∀ c ∈ q.toList.head?, goesOnNumber c = false := fun c hc => by
        simpa using (Option.all_eq_true ..).1 (all q h') c hc
      cases p with
      | lexeme l =>
        cases l with
        | word w =>
          intro c hc
          have := heads c hc
          simp only [goesOnNumber, Bool.or_eq_false_iff] at this
          simp [Lexeme.endsAt, this.1]
        | number n =>
          intro c hc
          simp [Lexeme.endsAt, heads c hc]
        | quoted t => exact fun _ _ => rfl
        | punct p =>
          have ends : ∀ p ∈ operandEnds, p ∈ looseSigns := by decide
          exact meets_of_loose (p := lexeme (.punct p)) (ends p h)
      | _ => cases h
    | _ => cases h'
  | _ => cases p <;> trivial

end Piece

/-! ## Strips -/

/-- Pieces that are legible, do not begin with a slash, and whose slashes divide just when a
condition holds. -/
structure Fragment (ps : List Piece) (d : Prop) : Prop where
  legible : Legible ps
  starts : ∀ l ∈ (lexemes ps).head?, l.isSlash = false
  divides : Divides ps ↔ d

/-- A fragment whose brackets match. -/
structure Strip (ps : List Piece) (d : Prop) : Prop extends Fragment ps d where
  balanced : Balanced ps

variable {ps qs : List Piece} {d e : Prop}

namespace Fragment

theorem congr (h : Fragment ps d) (hde : d ↔ e) : Fragment ps e :=
  { h with divides := h.divides.trans hde }

/-- Fragments are put together where the pieces at the joint may meet. -/
theorem append (h : Fragment ps d) (h' : Fragment qs e)
    (joint : ∀ p ∈ ps.getLast?, ∀ q ∈ qs.head?, Meets p q) : Fragment (ps ++ qs) (d ∧ e) := by
  refine ⟨⟨fun l hl => ?_, ?_⟩, fun l hl => ?_, ?_⟩
  · rw [lexemes_append] at hl
    exact (List.mem_append.1 hl).elim (h.legible.spelled l) (h'.legible.spelled l)
  · exact h.legible.meets.append h'.legible.meets joint
  · rw [lexemes_append] at hl
    cases hp : lexemes ps with
    | nil =>
      rw [hp, List.nil_append] at hl
      exact h'.starts l hl
    | cons first more =>
      rw [hp] at hl
      obtain rfl : first = l := by simpa using hl
      exact h.starts first (by rw [hp]; rfl)
  · rw [Divides, lexemes_append, List.isChain_append, ← and_assoc, and_iff_left]
    · exact and_congr h.divides h'.divides
    · intro l _ next hn hs
      rw [h'.starts next hn] at hs
      cases hs

theorem lexeme {l : Lexeme} (hs : l.Spelled) (hl : l.isSlash = false) :
    Fragment [.lexeme l] True := by
  refine ⟨⟨?_, .singleton _⟩, ?_, iff_true_intro (.singleton _)⟩
  · intro l' h
    obtain rfl := List.mem_singleton.1 h
    exact hs
  · intro l' h
    obtain rfl := Option.some.inj h
    exact hl

theorem gap {p : Piece} (h : p.lexeme? = none) : Fragment [p] True := by
  have none : lexemes [p] = [] := by simp [lexemes, h]
  refine ⟨⟨by simp [none], .singleton _⟩, by simp [none], iff_true_intro ?_⟩
  rw [Divides, none]
  exact .nil

end Fragment

namespace Strip

theorem congr (h : Strip ps d) (hde : d ↔ e) : Strip ps e :=
  { h with divides := h.divides.trans hde }

theorem nil : Strip [] True :=
  ⟨⟨⟨nofun, .nil⟩, nofun, iff_true_intro .nil⟩, .nil⟩

theorem append (h : Strip ps d) (h' : Strip qs e)
    (joint : ∀ p ∈ ps.getLast?, ∀ q ∈ qs.head?, Meets p q) : Strip (ps ++ qs) (d ∧ e) :=
  ⟨h.toFragment.append h'.toFragment joint, h.balanced.append h'.balanced⟩

/-- Anything may stand behind a loose piece. -/
theorem append_loose (h : Strip ps d) (h' : Strip qs e) (hl : ∀ p ∈ ps.getLast?, p.Loose) :
    Strip (ps ++ qs) (d ∧ e) :=
  h.append h' fun p hp _ _ => meets_of_loose (hl p hp)

/-- A calm piece may stand behind the end of an expression. -/
theorem append_calm (h : Strip ps d) (h' : Strip qs e) (hp : ∀ p ∈ ps.getLast?, p.Closes)
    (hq : ∀ q ∈ qs.head?, q.Calm) : Strip (ps ++ qs) (d ∧ e) :=
  h.append h' fun p hp' q hq' => meets_of_calm (hp p hp') (hq q hq')

theorem lexeme {l : Lexeme} (hs : l.Spelled) (hl : l.isSlash = false)
    (hb : l.isOpening = false ∧ l.isClosing = false) : Strip [.lexeme l] True :=
  ⟨.lexeme hs hl, Balanced.nil.cons hb⟩

theorem gap {p : Piece} (h : p.lexeme? = none) : Strip [p] True := by
  refine ⟨.gap h, fun depth rest => ?_⟩
  simp [lexemes, h]

/-- A space or a line in front. -/
theorem behind_gap {p : Piece} (hp : p.lexeme? = none) (h : Strip ps d) : Strip (p :: ps) d := by
  refine ((gap hp).append_loose h fun q hq => ?_).congr (by rw [true_and])
  obtain rfl := Option.some.inj hq
  cases p with
  | lexeme l => cases hp
  | _ => trivial

/-- A semicolon, a comma or a colon in front. -/
theorem behind_sign {p : String} (hp : p ∈ [";", ",", ":"]) (h : Strip ps d) :
    Strip (punct p :: ps) d := by
  have all : ∀ p ∈ [";", ",", ":"], p ∈ punctuators ∧ (Lexeme.punct p).isSlash = false ∧
      (Lexeme.punct p).isOpening = false ∧ (Lexeme.punct p).isClosing = false ∧
      p ∈ looseSigns := by decide
  obtain ⟨hs, hl, ho, hc, hloose⟩ := all p hp
  refine ((lexeme (l := .punct p) hs hl ⟨ho, hc⟩).append_loose h fun q hq => ?_).congr
    (by rw [true_and])
  obtain rfl := Option.some.inj hq
  exact hloose

/-- Brackets around a strip. -/
theorem enclosed (h : Strip ps d) {opening closing : String}
    (hb : (opening, closing) ∈ [("(", ")"), ("[", "]"), ("\x7b", "\x7d")])
    (hlast : ∀ p ∈ ps.getLast?, p.Loose ∨ p.Closes) :
    Strip (Piece.enclosed opening ps closing) d := by
  have kinds : ∀ b ∈ [("(", ")"), ("[", "]"), ("\x7b", "\x7d")],
      b.1 ∈ punctuators ∧ b.2 ∈ punctuators ∧ (Lexeme.punct b.1).isSlash = false ∧
      (Lexeme.punct b.2).isSlash = false ∧ (Lexeme.punct b.1).isOpening = true ∧
      (Lexeme.punct b.2).isClosing = true ∧ b.1 ∈ looseSigns ∧
      (b.2 ∈ calmSigns ∧ b.2 ∈ looseSigns) := by decide
  obtain ⟨ho, hc, hos, hcs, hoo, hcc, hol, hcl⟩ := kinds _ hb
  have front : Fragment (punct opening :: ps) d := by
    refine ((Fragment.lexeme (l := .punct opening) ho hos).append h.toFragment
      fun p hp q _ => ?_).congr (by rw [true_and])
    obtain rfl := Option.some.inj hp
    exact meets_of_loose hol
  refine ⟨(front.append (Fragment.lexeme (l := .punct closing) hc hcs) ?_).congr (by rw [and_true]),
    h.balanced.enclosed hoo hcc⟩
  intro p hp q hq
  obtain rfl := Option.some.inj hq
  rcases List.eq_nil_or_concat ps with rfl | ⟨init, last, rfl⟩
  · obtain rfl := Option.some.inj hp
    exact meets_of_loose hol
  · obtain rfl : last = p := by simpa [List.getLast?_cons] using hp
    exact (hlast last (by simp)).elim meets_of_loose fun h => meets_of_calm h hcl.1

end Strip

end Graft
