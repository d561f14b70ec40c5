import Graft.Syntax.Script

/-!
# Listing what hangs under a place

The places under a place, each with that of its parent, are listed with a stack of the places that
are still to be listed. Each is taken from the top and gives way to its children, the first of them
on top.

The loop ends if no way down from a place comes back to it. A script in which one does has no
listing.
-/

namespace Graft

namespace Script

/-- A place in a listing, with the place of its parent. -/
abbrev Offspring := NodeId × Option NodeId

/-- Put the children of a node on a stack, the last one first. -/
def pushChildren (s : Script) (id : NodeId) (stack : List Offspring) : List Offspring :=
  (s.node id).children.reverse.foldl (fun stack c => (c, some id) :: stack) stack

/-- List what is on a stack and all that hangs under it, behind what has been listed. -/
def listStack (s : Script) (listed : Array Offspring) (stack : List Offspring) :
    Option (Array Offspring) :=
  match stack with
  | [] => some listed
  | (id, parent) :: stack => s |>.listStack (listed.push (id, parent)) (s.pushChildren id stack)
partial_fixpoint

/-- The places under a place, itself included, each with that of its parent. -/
def listing (s : Script) (id : NodeId) : Option (List Offspring) :=
  (s.listStack #[] [(id, none)]).map (·.toList)

/-- The first child comes to stand on top. -/
theorem pushChildren_eq (s : Script) (id : NodeId) (stack : List Offspring) :
    s.pushChildren id stack = (s.node id).children.map (·, some id) ++ stack := by
  rw [pushChildren, List.foldl_reverse]
  induction (s.node id).children with
  | nil => rfl
  | cons c cs ih => rw [List.foldr_cons, ih]; rfl

end Script

end Graft
