import Graft.Control
import Graft.Proofs.Syntax.Planting
import Graft.Proofs.Syntax.Ways

/-!
# Transfers of control in a script that changes

Whether a tree may stand at a point depends on the kinds of its nodes alone. So it is not changed by
copying, by renaming, or by a change elsewhere, and a node may be replaced by whatever is admissible
in its own enclosure.

* `admissible_retag` - tags and names do not matter
* `Acyclic.admissible_eq` - a place of a script is judged by its kind and its children
* `admissible_setNode` - nor does a change that keeps kinds and children
-/

namespace Graft

variable {τ σ : Type}

namespace Tree

theorem admissible_mk (tag : τ) (node : Node (Tree τ) String) (e : Enclosure) :
    (mk tag node).admissible e =
      (e.permits node.kind && node.children.all (·.admissible (e.enter node.kind))) :=
  admissible_eq _ e

theorem admissible_retag (f : τ → σ) (t : Tree τ) (e : Enclosure) :
    (t.retag f).admissible e = t.admissible e := by
  induction t using induct generalizing e with
  | step t ih =>
    obtain ⟨tag, node⟩ := t
    rw [retag_mk, admissible_mk, admissible_mk, Node.kind_map, Node.children_map, List.all_map]
    refine congrArg (_ && ·) (Bool.eq_iff_iff.2 ?_)
    simp only [List.all_eq_true]
    exact forall₂_congr fun c hc => by rw [Function.comp_apply, ih c hc]

theorem admissible_erase (t : Tree τ) (e : Enclosure) : t.erase.admissible e = t.admissible e :=
  admissible_retag _ t e

/-- Trees that differ in tags alone are admissible at the same points. -/
theorem admissible_of_erase_eq {t : Tree τ} {u : Tree σ} (h : t.erase = u.erase) (e : Enclosure) :
    t.admissible e = u.admissible e := by
  rw [← admissible_erase, h, admissible_erase]

/-- The listing with enclosures holds the same nodes. -/
theorem map_fst_placed (t : Tree τ) (e : Enclosure) : (t.placed e).map Prod.fst = t.preorder := by
  induction t using induct generalizing e with
  | step t ih =>
    rw [preorder_eq, placed_eq, List.map_cons, List.map_flatMap]
    exact congrArg (t :: ·) (List.flatMap_congr fun c hc => ih c hc (e.enter t.kind))

end Tree

namespace Script

variable {s s' : Script} {id : NodeId} {e : Enclosure}

/-- A place is judged by its kind and its children. -/
theorem Acyclic.admissible_eq (h : s.Acyclic id) (e : Enclosure) :
    s.admissible id e =
      (e.permits (s.kind id) &&
        (s.node id).children.all fun c => s.admissible c (e.enter (s.kind id))) := by
  rw [admissible, h.tree_eq, Tree.admissible_mk, Node.kind_map, Node.children_map, List.all_map]
  rfl

/-- A change that keeps the children and the kind keeps what may stand where. -/
theorem admissible_setNode {i : NodeId} {node : Node NodeId Sym} (h : s.Rooted id)
    (hn : s.Named node) (hc : node.children = (s.node i).children) (hk : node.kind = s.kind i)
    (hi : i < s.nodes.size) (e : Enclosure) :
    (s.setNode i node).admissible id e = s.admissible id e := by
  induction h using Rooted.induct generalizing e with
  | step id h ih =>
    have kept : ((s.setNode i node).node id).children = (s.node id).children ∧
        (s.setNode i node).kind id = s.kind id := by
      by_cases hid : id = i
      · subst hid
        rw [Script.kind, node_eq (node?_setNode hi)]
        exact ⟨hc, hk⟩
      · rw [Script.kind, node_setNode_of_ne node hid]
        exact ⟨rfl, rfl⟩
    rw [(setNode_spec h hn hc).1.acyclic.admissible_eq, h.acyclic.admissible_eq, kept.1, kept.2]
    refine congrArg (_ && ·) (Bool.eq_iff_iff.2 ?_)
    simp only [List.all_eq_true]
    exact forall₂_congr fun c hc => by rw [ih c hc]

/-- A change elsewhere keeps what may stand where. -/
theorem admissible_of_tree_eq (h : s'.tree id = s.tree id) (e : Enclosure) :
    s'.admissible id e = s.admissible id e := by
  rw [admissible, admissible, h]

/-- A copy is admissible where the original is. -/
theorem Planted.admissible {source : Script} {place : NodeId}
    (h : Planted (source.tree place) s id s') (e : Enclosure) :
    s'.admissible id e = source.admissible place e :=
  Tree.admissible_of_erase_eq h.erase_eq e

/-- A replaced node is admissible where the other was. -/
theorem admissible_replace {site source : NodeId} (hlt : site < s.nodes.size)
    (h : s.Rooted source) (hs : site ∉ s.preorder source) (e : Enclosure) :
    (s.replace site source).admissible site e = s.admissible source e := by
  rw [admissible, admissible, (replace_spec hlt h hs).2]
  generalize s.tree source = t
  obtain ⟨tag, node⟩ := t
  rw [Tree.admissible_mk, Tree.node, Tree.admissible_mk]

end Script

end Graft
