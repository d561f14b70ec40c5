import Graft.Proofs.Reading.Program
import Graft.Printing.Layout

/-!
# Statements in front of `else`

A printer puts a statement in front of `else` in braces, so that no inner `if` takes the `else`. A
tree that is read back has a block there. The block changes neither the layout of the tree nor the
names that it mentions.

* `Tree.wrapped` - a tree with blocks in front of every `else`
* `form_wrapped`, `mentions_wrapped` - what the blocks do not change
-/

namespace Graft

open Piece Layout
open Reading (of)

variable {τ : Type}

/-- A statement as a block. -/
def Reading.asBlock (t : Reading) : Reading :=
  if t.kind = .block then t else of (.block [t])

/-- A node with a block in front of its `else`. -/
def Node.wrapped (n : Node Reading String) : Node Reading String :=
  match n with
  | ifStmt test consequent (some alternate) => .ifStmt test consequent.asBlock (some alternate)
  | n => n

namespace Tree

/-- A tree without tags and with blocks in front of every `else`. -/
def wrapped (t : Tree τ) : Reading :=
  t.fold fun _ n => of n.wrapped

theorem wrapped_mk (tag : τ) (n : Node (Tree τ) String) :
    (mk tag n).wrapped = of (n.map wrapped id).wrapped :=
  fold_mk _ tag n

theorem wrapped_erase (t : Tree τ) : t.erase.wrapped = t.wrapped :=
  fold_retag ..

end Tree

open Graft.Tree

theorem Tree.kind_wrapped (t : Tree τ) : t.wrapped.kind = t.kind := by
  obtain ⟨tag, n⟩ := t
  rw [wrapped_mk]
  cases n with
  | ifStmt test consequent alternate => cases alternate <;> rfl
  | _ => rfl

/-! ## Layouts -/

/-- A block of one statement is the statement in braces. -/
theorem braced_asBlock (t : Reading) (s : Setting) :
    t.asBlock.form.braced s = t.form.braced s := by
  have hkind : t.form.kind = t.kind := by
    obtain ⟨tag, n⟩ := t
    rw [form_mk]
    exact Node.kind_map form id n
  unfold Reading.asBlock
  split
  · rfl
  · rename_i hne
    have hblock : (of (.block [t])).form.braced s = braces s (t.form.statement s.deeper false) := by
      rw [of, form_mk, ← List.append_nil (t.form.statement s.deeper false)]
      rfl
    rw [hblock, Form.braced, hkind, if_neg hne]

/-- The layout of an `if` depends on the layout of its first branch in braces alone. -/
theorem form_ifStmt {test consequent consequent' alternate : Form}
    (h : ∀ s, consequent.braced s = consequent'.braced s) :
    Node.form (.ifStmt test consequent (some alternate)) =
      Node.form (.ifStmt test consequent' (some alternate)) := by
  have hstatement (other : Setting → List Piece) :
      Node.statement other (.ifStmt test consequent (some alternate)) =
        Node.statement other (.ifStmt test consequent' (some alternate)) := by
    funext s inline
    simp only [Node.statement, h]
  unfold Node.form
  simp only [hstatement]
  rfl

theorem Tree.form_wrapped (t : Tree τ) : t.wrapped.form = t.form := by
  induction t using induct with
  | step t ih =>
    obtain ⟨tag, n⟩ := t
    have below : (n.map wrapped id).map form id = n.map form id := by
      rw [Node.map_map]
      exact Node.map_congr_parts ih fun _ _ => rfl
    rw [wrapped_mk, of, form_mk, form_mk, ← below]
    cases n with
    | ifStmt test consequent alternate =>
      cases alternate with
      | none => rfl
      | some alternate => exact form_ifStmt (braced_asBlock _)
    | _ => rfl

/-! ## Names -/

theorem mentions_asBlock (t : Reading) : t.asBlock.mentions = t.mentions := by
  unfold Reading.asBlock
  split
  · rfl
  · simp [Reading.mentions_of, Node.parts]

theorem Tree.mentions_wrapped (t : Tree τ) : t.wrapped.mentions = t.mentions := by
  induction t using induct with
  | step t ih =>
    obtain ⟨tag, n⟩ := t
    have below : (n.map wrapped id).parts.flatMap (Sum.elim mentions fun name => [name]) =
        n.parts.flatMap (Sum.elim mentions fun name => [name]) := by
      rw [Node.parts_map, List.flatMap_map]
      refine List.flatMap_congr fun p hp => ?_
      rcases p with c | x
      · exact ih c (Node.mem_children.2 hp)
      · rfl
    rw [wrapped_mk, Reading.mentions_of, mentions_mk, ← below]
    cases n with
    | ifStmt test consequent alternate =>
      cases alternate with
      | none => rfl
      | some alternate => simp [Node.map, Node.wrapped, Node.parts, mentions_asBlock]
    | _ => rfl

end Graft
