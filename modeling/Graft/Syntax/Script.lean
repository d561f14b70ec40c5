import Graft.Syntax.Names
import Graft.Syntax.Tree

/-!
# Scripts

A script stores its nodes in a table, and a node refers to its children by their places there. A
node belongs to the script only while it can be reached from the root, so that replacing a node
is overwriting its place: whoever referred to the old node now refers to the new one, and what
only the old one referred to is out of the script.

`Script.tree` shows what hangs under a node as a tree whose tags are the places. A tree is put
into a script by `Script.plant`, children first.
-/

namespace Graft

/-- A node's place in the table of its script. -/
abbrev NodeId := Nat

/-- A table of nodes with the names that they use. -/
structure Script where
  nodes : Array (Node NodeId Sym)
  names : Names
deriving Repr, DecidableEq

namespace Script

/-! ## Reading -/

/-- The place of the node that is the whole program. -/
def root : NodeId := 0

/-- A program without statements. -/
def empty : Script := ⟨#[.program []], .empty⟩

/-- The node at a place; the empty statement where there is none. -/
def node (s : Script) (id : NodeId) : Node NodeId Sym :=
  s.nodes.getD id .empty

def kind (s : Script) (id : NodeId) : Kind :=
  (s.node id).kind

/-- What hangs under a node, down to a depth below which everything is shown as empty. -/
def treeToDepth (s : Script) : Nat → NodeId → Tree NodeId
  | 0, id => .mk id .empty
  | depth + 1, id => .mk id ((s.node id).map (s.treeToDepth depth) s.names.text)

/-- What hangs under a node. No path without a repetition is longer than the table. -/
def tree (s : Script) (id : NodeId) : Tree NodeId :=
  s.treeToDepth s.nodes.size id

/-- The places under a node in preorder; one that is reached twice is listed twice. -/
def preorder (s : Script) (id : NodeId) : List NodeId :=
  (s.tree id).preorder.map (·.tag)

/-- The statements of the program. -/
def body (s : Script) : List NodeId :=
  match s.node root with
  | .program body => body
  | _ => []

/-! ## Writing -/

/-- Store a node at a new place. -/
def alloc (node : Node NodeId Sym) : StateM Script NodeId :=
  fun s => (s.nodes.size, { s with nodes := s.nodes.push node })

/-- The symbol of a name. -/
def intern (name : String) : StateM Script Sym :=
  fun s => let (sym, names) := s.names.intern name; (sym, { s with names })

/-- Store a tree at new places, every node behind its children, and give the root's place. -/
def plant {τ : Type} (t : Tree τ) : StateM Script NodeId :=
  t.fold fun _ node => do alloc (← node.traverse id intern)

/-- Copy what hangs under a node of another script. -/
def copy (source : Script) (id : NodeId) : StateM Script NodeId :=
  plant (source.tree id)

/-- Overwrite one place. -/
def setNode (s : Script) (id : NodeId) (node : Node NodeId Sym) : Script :=
  { s with nodes := s.nodes.setIfInBounds id node }

/-- Put the node at `source` also at `site`. -/
def replace (s : Script) (site source : NodeId) : Script :=
  s.setNode site (s.node source)

/-- Add a statement at the end of the program. -/
def push (s : Script) (id : NodeId) : Script :=
  match s.node root with
  | .program body => s.setNode root (.program (body ++ [id]))
  | _ => s

end Script

end Graft
