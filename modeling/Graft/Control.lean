import Graft.Syntax.Script

/-!
# Transfers of control

A `break` needs a loop or a switch around it, a `continue` a loop and a `return` a function, and
the body of a function starts over with neither loop nor switch. What is around a node is its
`Enclosure`; a tree may stand where an enclosure holds if every transfer in it, with what the tree
itself puts around it, is permitted.

What may stand where is said here by recursion over a tree; the loops that find it out with a stack
are in `Graft.Control.Search`.

* `Tree.admissible_eq` - a tree is admissible if its root is permitted and its children are
  admissible one level further in
* `Tree.placed_eq` - the nodes of a tree with their enclosures, in preorder
-/

namespace Graft

/-- How many loops, switches and functions are around a point; loops and switches are counted from
the innermost function on. -/
structure Enclosure where
  loops : Nat
  switches : Nat
  functions : Nat
deriving Repr, DecidableEq

namespace Enclosure

/-- Around a whole program there is nothing. -/
def outermost : Enclosure := ⟨0, 0, 0⟩

def inLoop (e : Enclosure) : Bool := e.loops != 0

def inSwitch (e : Enclosure) : Bool := e.switches != 0

def inFunction (e : Enclosure) : Bool := e.functions != 0

/-- What is around the children of a node of a kind. -/
def enter (e : Enclosure) (kind : Kind) : Enclosure :=
  if kind.isFunction then ⟨0, 0, e.functions + 1⟩
  else if kind.isLoop then { e with loops := e.loops + 1 }
  else if kind.isSwitch then { e with switches := e.switches + 1 }
  else e

/-- Whether a node of a kind may stand directly here. -/
def permits (e : Enclosure) : Kind → Bool
  | .breakStmt => e.inLoop || e.inSwitch
  | .continueStmt => e.inLoop
  | .returnStmt => e.inFunction
  | _ => true

end Enclosure

variable {τ : Type}

namespace Tree

/-- Whether a tree may stand where an enclosure holds. -/
def admissible (t : Tree τ) (e : Enclosure) : Bool :=
  e.permits t.kind && t.children.attach.all fun ⟨c, _⟩ => admissible c (e.enter t.kind)
termination_by t.size
decreasing_by exact size_lt_of_mem_children ‹_›

theorem admissible_eq (t : Tree τ) (e : Enclosure) :
    t.admissible e = (e.permits t.kind && t.children.all (·.admissible (e.enter t.kind))) := by
  rw [admissible]
  simp

/-- The nodes of a tree in preorder, each with what is around it. -/
def placed (t : Tree τ) (e : Enclosure) : List (Tree τ × Enclosure) :=
  (t, e) :: t.children.attach.flatMap fun ⟨c, _⟩ => placed c (e.enter t.kind)
termination_by t.size
decreasing_by exact size_lt_of_mem_children ‹_›

theorem placed_eq (t : Tree τ) (e : Enclosure) :
    t.placed e = (t, e) :: t.children.flatMap (·.placed (e.enter t.kind)) := by
  rw [placed]
  simp

/-- The nodes of a kind that are admissible where they stand. -/
def candidates (t : Tree τ) (kind : Kind) : List (Tree τ × Enclosure) :=
  (t.placed .outermost).filter fun (c, e) => c.kind == kind && c.admissible e

end Tree

namespace Script

/-- Whether what hangs under a node may stand where an enclosure holds. -/
def admissible (s : Script) (id : NodeId) (e : Enclosure) : Bool :=
  (s.tree id).admissible e

/-- The nodes of a kind that are admissible where they stand, in preorder. -/
def candidates (s : Script) (kind : Kind) : List (NodeId × Enclosure) :=
  ((s.tree root).candidates kind).map fun (t, e) => (t.tag, e)

/-- Whether every transfer of control in the program is permitted. -/
def isLegal (s : Script) : Bool :=
  s.admissible root .outermost

end Script

end Graft
