import Graft.Chance.Stream
import Graft.Syntax.Names

/-!
# Visible names

While a script is walked through, its names become visible in three layers: the global ones, those
of the functions around the current point, and those that a borrowed tree declares while it is
being repaired. Entering a function keeps the names of the functions around it; leaving it forgets
what became visible inside.

* `mem_visibleNames` - the visible names are those of the three layers
* `visibleNames_sorted` - they are listed in the order of their symbols, each once
-/

namespace Graft

open Chance (Draw)

/-- Put a symbol into a list in order, unless it is there. -/
def insertSym (x : Sym) : List Sym → List Sym
  | [] => [x]
  | y :: ys => if x < y then x :: y :: ys else if x = y then y :: ys else y :: insertSym x ys

/-- The members of a list in order, each once. -/
def sortSyms (xs : List Sym) : List Sym :=
  xs.foldr insertSym []

theorem mem_insertSym {x y : Sym} {ys : List Sym} : y ∈ insertSym x ys ↔ y = x ∨ y ∈ ys := by
  induction ys with
  | nil => simp [insertSym]
  | cons z zs ih =>
    simp only [insertSym]
    split
    · simp
    · split
      · subst x
        simp
      · simp [ih, or_left_comm]

theorem mem_sortSyms {x : Sym} {xs : List Sym} : x ∈ sortSyms xs ↔ x ∈ xs := by
  induction xs with
  | nil => simp [sortSyms]
  | cons y ys ih => rw [sortSyms, List.foldr_cons, mem_insertSym, List.mem_cons, ← ih, sortSyms]

theorem insertSym_sorted {x : Sym} {ys : List Sym} (h : ys.Pairwise (· < ·)) :
    (insertSym x ys).Pairwise (· < ·) := by
  induction ys with
  | nil => simp [insertSym]
  | cons z zs ih =>
    obtain ⟨hz, hzs⟩ := List.pairwise_cons.1 h
    simp only [insertSym]
    split
    · rename_i hx
      refine List.pairwise_cons.2 ⟨fun w hw => ?_, h⟩
      rcases List.mem_cons.1 hw with rfl | hw
      · exact hx
      · exact Nat.lt_trans hx (hz w hw)
    · split
      · exact h
      · refine List.pairwise_cons.2 ⟨fun w hw => ?_, ih hzs⟩
        rcases mem_insertSym.1 hw with rfl | hw
        · exact Nat.lt_of_le_of_ne (Nat.le_of_not_lt ‹_›) (Ne.symm ‹_›)
        · exact hz w hw

theorem sortSyms_sorted (xs : List Sym) : (sortSyms xs).Pairwise (· < ·) := by
  induction xs with
  | nil => simp [sortSyms]
  | cons y ys ih => exact insertSym_sorted ih

/-- What a walk knows of a function that it is in. -/
inductive FunctionIdentity where
  | named (name : Sym)
  | anonymous
deriving Repr, DecidableEq

/-- The layers of visible names and the functions around the current point. -/
structure Scope where
  /-- Declared outside of every function. -/
  global : List Sym
  /-- Declared in the functions around the current point. -/
  inner : List Sym
  /-- Declared by the tree that is being repaired. -/
  borrowed : List Sym
  /-- The local layers in front of the functions around the current point, innermost first. -/
  saved : List (List Sym)
  /-- The functions around the current point, innermost first. -/
  functions : List FunctionIdentity
deriving Repr, DecidableEq

namespace Scope

/-- Outside of every function, with nothing visible. -/
def empty : Scope := ⟨[], [], [], [], []⟩

def inFunction (s : Scope) : Bool :=
  !s.functions.isEmpty

/-- How many functions are around the current point. -/
def depth (s : Scope) : Nat :=
  s.functions.length

/-- The innermost function. -/
def current (s : Scope) : Option FunctionIdentity :=
  s.functions.head?

/-- Make names visible where the walk is. -/
def declare (s : Scope) (names : List Sym) : Scope :=
  if s.inFunction then { s with inner := names ++ s.inner }
  else { s with global := names ++ s.global }

/-- Make names of a borrowed tree visible. -/
def borrow (s : Scope) (names : List Sym) : Scope :=
  { s with borrowed := names ++ s.borrowed }

/-- Forget the names of the borrowed tree. -/
def clearBorrowed (s : Scope) : Scope :=
  { s with borrowed := [] }

def enterFunction (s : Scope) (identity : FunctionIdentity) : Scope :=
  { s with saved := s.inner :: s.saved, functions := identity :: s.functions }

/-- Leave the innermost function; outside of every function the local layer is emptied. -/
def exitFunction (s : Scope) : Scope :=
  { s with inner := s.saved.headD [], saved := s.saved.tail, functions := s.functions.tail }

def visible (s : Scope) (name : Sym) : Bool :=
  s.global.contains name || s.inner.contains name || s.borrowed.contains name

def isBorrowed (s : Scope) (name : Sym) : Bool :=
  s.borrowed.contains name

/-- Every visible name, in the order of the symbols. -/
def visibleNames (s : Scope) : List Sym :=
  sortSyms (s.global ++ s.inner ++ s.borrowed)

/-- A visible name by chance; none where nothing is visible. -/
def randomVisible (s : Scope) : Draw (Option Sym) :=
  Draw.choose s.visibleNames

theorem mem_visibleNames {s : Scope} {name : Sym} :
    name ∈ s.visibleNames ↔ s.visible name := by
  simp [visibleNames, mem_sortSyms, visible, or_assoc]

theorem visibleNames_sorted (s : Scope) : s.visibleNames.Pairwise (· < ·) :=
  sortSyms_sorted _

end Scope

end Graft
