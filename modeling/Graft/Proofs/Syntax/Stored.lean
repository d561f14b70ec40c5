import Graft.Proofs.Syntax.Parts
import Mathlib.Data.List.Nodup
import Mathlib.Data.List.Pairwise
import Mathlib.Data.List.Perm.Subperm

/-!
# Scripts as trees

What hangs under a place of a script is a tree as long as no place is met twice on the way down.
Then a place and what it refers to are told apart from the rest of the script, and a change
elsewhere leaves them alone.

* `Stored.tree_eq` - a tree that is stored without repetitions is the one that the script shows
* `Branches.rooted_and_tree` - a place is the root of a tree if its children are, apart from each
  other and from the place
* `Rooted.induct` - induction over what hangs under a place
* `Rooted.frame` - a change elsewhere leaves a tree alone
* `Rooted.graft` - a tree below a place gives way to another
-/

namespace Graft

variable {τ σ ρ : Type}

/-! ## Tags -/

namespace Tree

/-- The same tree with other tags. -/
def retag (f : τ → σ) (t : Tree τ) : Tree σ :=
  t.fold fun tag node => .mk (f tag) node

/-- The tree without its tags. -/
def erase (t : Tree τ) : Tree Unit :=
  t.retag fun _ => ()

/-- The tags in preorder. -/
def tags (t : Tree τ) : List τ :=
  t.preorder.map tag

theorem retag_mk (f : τ → σ) (tag : τ) (node : Node (Tree τ) String) :
    (mk tag node).retag f = mk (f tag) (node.map (retag f) id) :=
  fold_mk _ tag node

theorem erase_mk (tag : τ) (node : Node (Tree τ) String) :
    (mk tag node).erase = mk () (node.map erase id) :=
  retag_mk _ tag node

theorem kind_erase (t : Tree τ) : t.erase.kind = t.kind := by
  obtain ⟨tag, node⟩ := t
  rw [erase_mk]
  exact Node.kind_map _ _ node

theorem tags_mk (tag : τ) (node : Node (Tree τ) String) :
    (mk tag node).tags = tag :: node.children.flatMap tags := by
  rw [tags, preorder_eq, List.map_cons, List.map_flatMap]
  rfl

theorem length_tags (t : Tree τ) : t.tags.length = t.size := by
  induction t using induct with
  | step t ih =>
    obtain ⟨tag, node⟩ := t
    have below : node.children.map (fun c => c.tags.length) = node.children.map size :=
      List.map_congr_left ih
    rw [tags_mk, size_mk, List.length_cons, List.length_flatMap, below, List.sum_eq_foldr,
      Nat.add_comm]

theorem size_pos (t : Tree τ) : 0 < t.size := by
  obtain ⟨tag, node⟩ := t
  rw [size_mk]
  omega

/-- A fold does not depend on what the tags were before. -/
theorem fold_retag {β : Type} (f : τ → σ) (g : σ → Node β String → β) (t : Tree τ) :
    (t.retag f).fold g = t.fold fun tag => g (f tag) := by
  induction t using induct with
  | step t ih =>
    obtain ⟨tag, node⟩ := t
    rw [retag_mk, fold_mk, fold_mk, Node.map_map]
    exact congrArg (g (f tag)) (Node.map_congr_parts ih fun _ _ => rfl)

/-- A tree without tags has none to lose. -/
theorem erase_eq_self (t : Tree Unit) : t.erase = t := by
  induction t using induct with
  | step t ih =>
    obtain ⟨tag, node⟩ := t
    rw [erase_mk]
    refine congrArg (mk _) (Eq.trans ?_ (Node.map_id node))
    exact Node.map_congr_parts ih fun _ _ => rfl

end Tree

namespace Script

variable {s s' s'' : Script} {id : NodeId} {changed changed' : List NodeId}

/-! ## Stored trees -/

/-- The script has at the tags of a tree the nodes that the tree has there. -/
inductive Stored (s : Script) : Tree NodeId → Prop where
  | mk {id : NodeId} {node : Node NodeId Sym} {shown : Node (Tree NodeId) String} :
    s.nodes[id]? = some node → node.map (fun c => c) s.names.text? = shown.map Tree.tag some →
    (∀ c ∈ shown.children, Stored s c) → Stored s (.mk id shown)

theorem node_eq {node : Node NodeId Sym} (h : s.nodes[id]? = some node) : s.node id = node := by
  rw [Script.node, Array.getD_eq_getD_getElem?, h, Option.getD_some]

theorem getElem?_of_lt (h : id < s.nodes.size) : s.nodes[id]? = some (s.node id) := by
  have hn := Array.getElem?_eq_getElem h
  rw [node_eq hn, hn]

theorem node_congr {s' : Script} (h : s.nodes[id]? = s'.nodes[id]?) : s.node id = s'.node id := by
  rw [node, node, Array.getD_eq_getD_getElem?, Array.getD_eq_getD_getElem?, h]

theorem node_of_size_le (h : s.nodes.size ≤ id) : s.node id = .empty := by
  rw [Script.node, Array.getD_eq_getD_getElem?, Array.getElem?_eq_none h]
  rfl

/-- A place that shows anything but the empty statement is in the table. -/
theorem node?_of_ne_empty (h : s.node id ≠ .empty) : s.nodes[id]? = some (s.node id) := by
  rcases hn : s.nodes[id]? with _ | node
  · refine absurd ?_ h
    rw [Script.node, Array.getD_eq_getD_getElem?, hn, Option.getD_none]
  · rw [node_eq hn]

theorem lt_of_node {node : Node NodeId Sym} (h : s.nodes[id]? = some node) :
    id < s.nodes.size := by
  obtain ⟨hlt, -⟩ := Array.getElem?_eq_some_iff.1 h
  exact hlt

namespace Stored

theorem treeToDepth_eq {t : Tree NodeId} (h : Stored s t) {depth : Nat} (hd : t.size ≤ depth) :
    s.treeToDepth depth t.tag = t := by
  induction h generalizing depth with
  | @mk id node shown hn hm _ ih =>
    have hpos := Tree.size_mk id shown
    obtain ⟨depth, rfl⟩ : ∃ d, depth = d + 1 := ⟨depth - 1, by omega⟩
    have below : ∀ c ∈ shown.children, s.treeToDepth depth c.tag = c := by
      intro c hc
      have hlt : c.size < (Tree.mk id shown).size := Tree.size_lt_of_mem_children hc
      exact ih c hc (by omega)
    rw [treeToDepth, Tree.tag, node_eq hn]
    refine congrArg (Tree.mk id) ?_
    calc node.map (s.treeToDepth depth) s.names.text
        = (node.map (fun c => c) s.names.text?).map (s.treeToDepth depth) (·.getD "") := by
          rw [Node.map_map]
          rfl
      _ = shown.map (fun c => s.treeToDepth depth c.tag) (fun x => x) := by
          rw [hm, Node.map_map]
          rfl
      _ = shown.map (fun c => c) (fun x => x) := Node.map_congr_parts below fun _ _ => rfl
      _ = shown := Node.map_id shown

theorem tags_lt {t : Tree NodeId} (h : Stored s t) : ∀ i ∈ t.tags, i < s.nodes.size := by
  induction h with
  | mk hn _ _ ih =>
    intro i hi
    rw [Tree.tags_mk, List.mem_cons, List.mem_flatMap] at hi
    rcases hi with rfl | ⟨c, hc, hi⟩
    · exact lt_of_node hn
    · exact ih c hc i hi

/-- A tree without repetitions has no more nodes than the table. -/
theorem size_le {t : Tree NodeId} (h : Stored s t) (hd : t.tags.Nodup) :
    t.size ≤ s.nodes.size := by
  rw [← Tree.length_tags]
  have hsub : t.tags ⊆ List.range s.nodes.size := fun i hi => List.mem_range.2 (h.tags_lt i hi)
  simpa using (List.subperm_of_subset hd hsub).length_le

theorem tree_eq {t : Tree NodeId} (h : Stored s t) (hd : t.tags.Nodup) : s.tree t.tag = t :=
  h.treeToDepth_eq (h.size_le hd)

end Stored

/-! ## Places that are roots of trees -/

/-- What hangs under a place is a tree. -/
structure Rooted (s : Script) (id : NodeId) : Prop where
  stored : s.Stored (s.tree id)
  nodup : (s.preorder id).Nodup

theorem tag_tree (s : Script) (id : NodeId) : (s.tree id).tag = id := by
  rw [tree]
  cases s.nodes.size <;> rfl

/-- The kind of a place is that of the tree that hangs under it. -/
theorem kind_tree (s : Script) (id : NodeId) : (s.tree id).kind = s.kind id := by
  rw [tree]
  cases hs : s.nodes.size with
  | zero =>
    rw [Script.kind, node_of_size_le (hs ▸ Nat.zero_le id)]
    rfl
  | succ depth => exact Node.kind_map _ _ _

theorem preorder_eq_tags (s : Script) (id : NodeId) : s.preorder id = (s.tree id).tags := rfl

theorem mem_preorder_self (s : Script) (id : NodeId) : id ∈ s.preorder id := by
  have h := tag_tree s id
  generalize ht : s.tree id = t at h
  obtain ⟨tag, node⟩ := t
  rw [preorder_eq_tags, ht, Tree.tags_mk]
  exact List.mem_cons.2 (.inl h.symm)

theorem rooted_of_stored {t : Tree NodeId} (h : Stored s t) (hd : t.tags.Nodup) :
    s.Rooted t.tag ∧ s.tree t.tag = t := by
  have ht := h.tree_eq hd
  exact ⟨⟨ht.symm ▸ h, by rwa [preorder_eq_tags, ht]⟩, ht⟩

/-- Whether a symbol is that of a name. -/
def Knows (s : Script) (x : Sym) : Prop :=
  ∃ name, s.names.text? x = some name

/-- Every symbol in a node is that of a name. -/
def Named (s : Script) (node : Node NodeId Sym) : Prop :=
  ∀ x ∈ node.names, s.Knows x

/-- Every symbol in the table is that of a name, whether its node can be reached or not. -/
def Closed (s : Script) : Prop :=
  ∀ (id : NodeId) (node : Node NodeId Sym), s.nodes[id]? = some node → s.Named node

theorem Closed.named (h : s.Closed) (id : NodeId) : s.Named (s.node id) := by
  rcases hn : s.nodes[id]? with _ | node
  · rw [Script.node, Array.getD_eq_getD_getElem?, hn]
    exact fun x hx => absurd hx List.not_mem_nil
  · rw [node_eq hn]
    exact h _ _ hn

theorem text_eq {x : Sym} {name : String} (h : s.names.text? x = some name) :
    s.names.text x = name := by
  rw [Names.text, h, Option.getD_some]

/-- What is at the root of a tree: a node whose symbols are those of names and whose children are
roots of trees that are apart from each other and from the place. -/
structure Branches (s : Script) (id : NodeId) (node : Node NodeId Sym) : Prop where
  node? : s.nodes[id]? = some node
  named : s.Named node
  child : ∀ c ∈ node.children, s.Rooted c
  apart : (id :: node.children.flatMap s.preorder).Nodup

namespace Branches

variable {node : Node NodeId Sym}

theorem stored (h : s.Branches id node) : s.Stored (.mk id (node.map s.tree s.names.text)) := by
  refine .mk h.node? ?_ fun u hu => ?_
  · rw [Node.map_map]
    refine Node.map_congr_parts (fun c _ => (tag_tree s c).symm) fun x hx => ?_
    obtain ⟨name, ht⟩ := h.named x hx
    rw [ht, text_eq ht]
  · rw [Node.children_map, List.mem_map] at hu
    obtain ⟨c, hc, rfl⟩ := hu
    exact (h.child c hc).stored

theorem rooted_and_tree (h : s.Branches id node) :
    s.Rooted id ∧ s.tree id = .mk id (node.map s.tree s.names.text) := by
  refine rooted_of_stored h.stored ?_
  rw [Tree.tags_mk, Node.children_map, List.flatMap_map]
  exact h.apart

end Branches

/-- A root of a tree has a node, and the tree branches as the node says. -/
theorem Rooted.exists_branches (h : s.Rooted id) : ∃ node, s.Branches id node := by
  obtain ⟨hs, hd⟩ := h
  have htag := tag_tree s id
  rw [preorder_eq_tags] at hd
  generalize s.tree id = t at hs hd htag
  obtain @⟨i, node, shown, hn, hm, hc⟩ := hs
  obtain rfl : i = id := htag
  rw [Tree.tags_mk] at hd
  obtain ⟨hi, hd⟩ := List.nodup_cons.1 hd
  have shownAt : ∀ c ∈ shown.children, s.Rooted c.tag ∧ s.tree c.tag = c := fun c hcm =>
    rooted_of_stored (hc c hcm) ((List.nodup_flatMap.1 hd).1 c hcm)
  have children : node.children = shown.children.map Tree.tag := by
    have := congrArg Node.children hm
    rwa [Node.children_map, Node.children_map, List.map_id'] at this
  have places : node.children.flatMap s.preorder = shown.children.flatMap Tree.tags := by
    rw [children, List.flatMap_map]
    exact List.flatMap_congr fun c hcm => by rw [preorder_eq_tags, (shownAt c hcm).2]
  refine ⟨node, hn, fun x hx => ?_, fun c hcm => ?_, ?_⟩
  · have hx' : s.names.text? x ∈ (node.map (fun c => c) s.names.text?).names := by
      rw [Node.names_map]
      exact List.mem_map_of_mem hx
    rw [hm, Node.names_map, List.mem_map] at hx'
    obtain ⟨name, -, h⟩ := hx'
    exact ⟨name, h.symm⟩
  · rw [children, List.mem_map] at hcm
    obtain ⟨u, hu, rfl⟩ := hcm
    exact (shownAt u hu).1
  · rw [places]
    exact List.nodup_cons.2 ⟨hi, hd⟩

theorem Rooted.branches (h : s.Rooted id) : s.Branches id (s.node id) := by
  obtain ⟨node, hb⟩ := h.exists_branches
  rwa [node_eq hb.node?]

namespace Rooted

theorem node? (h : s.Rooted id) : s.nodes[id]? = some (s.node id) :=
  h.branches.node?

theorem lt (h : s.Rooted id) : id < s.nodes.size :=
  lt_of_node h.node?

theorem named (h : s.Rooted id) : s.Named (s.node id) :=
  h.branches.named

theorem child (h : s.Rooted id) {c : NodeId} (hc : c ∈ (s.node id).children) : s.Rooted c :=
  h.branches.child c hc

theorem tree_eq (h : s.Rooted id) :
    s.tree id = .mk id ((s.node id).map s.tree s.names.text) :=
  h.branches.rooted_and_tree.2

theorem preorder_eq (h : s.Rooted id) :
    s.preorder id = id :: (s.node id).children.flatMap s.preorder := by
  rw [preorder_eq_tags, h.tree_eq, Tree.tags_mk, Node.children_map, List.flatMap_map]
  rfl

theorem kind_eq (h : s.Rooted id) : (s.tree id).kind = s.kind id := by
  rw [h.tree_eq]
  exact Node.kind_map _ _ _

theorem children_eq (h : s.Rooted id) : (s.tree id).children = (s.node id).children.map s.tree := by
  rw [h.tree_eq]
  exact Node.children_map _ _ _

theorem size_le (h : s.Rooted id) : (s.tree id).size ≤ s.nodes.size :=
  h.stored.size_le h.nodup

theorem places_lt (h : s.Rooted id) : ∀ i ∈ s.preorder id, i < s.nodes.size :=
  h.stored.tags_lt

theorem mem_preorder_child (h : s.Rooted id) {c i : NodeId} (hc : c ∈ (s.node id).children)
    (hi : i ∈ s.preorder c) : i ∈ s.preorder id := by
  rw [h.preorder_eq]
  exact List.mem_cons_of_mem _ (List.mem_flatMap.2 ⟨c, hc, hi⟩)

/-- What holds of a place whenever it holds of the children holds of every root of a tree. -/
theorem induct {motive : (id : NodeId) → s.Rooted id → Prop}
    (step : ∀ id (h : s.Rooted id),
      (∀ c (hc : c ∈ (s.node id).children), motive c (h.child hc)) → motive id h)
    (h : s.Rooted id) : motive id h := by
  have all : ∀ t : Tree NodeId, ∀ i (hi : s.Rooted i), s.tree i = t → motive i hi := by
    intro t
    induction t using Tree.induct with
    | step t ih =>
      rintro i hi rfl
      refine step i hi fun c hc => ih (s.tree c) ?_ c (hi.child hc) rfl
      rw [hi.children_eq]
      exact List.mem_map_of_mem hc
  exact all _ id h rfl

/-- Every place under a root is a root. -/
theorem of_mem_preorder (h : s.Rooted id) {i : NodeId} (hi : i ∈ s.preorder id) : s.Rooted i := by
  induction h using induct with
  | step id h ih =>
    rw [h.preorder_eq, List.mem_cons, List.mem_flatMap] at hi
    rcases hi with rfl | ⟨c, hc, hi⟩
    · exact h
    · exact ih c hc hi

end Rooted

/-- The script is a program, its nodes are a tree, and its symbols are those of names. -/
structure Wellformed (s : Script) : Prop where
  rooted : s.Rooted root
  program : ∃ body, s.node root = .program body
  closed : s.Closed

/-! ## Changes -/

/-- The later script has all that the earlier one had, but for what stood at some places. -/
structure Evolves (changed : List NodeId) (s s' : Script) : Prop where
  node? : ∀ {i node}, s.nodes[i]? = some node → i ∉ changed → s'.nodes[i]? = some node
  text? : ∀ {x name}, s.names.text? x = some name → s'.names.text? x = some name
  size_le : s.nodes.size ≤ s'.nodes.size
  closed : s.Closed → s'.Closed

namespace Evolves

theorem refl (s : Script) : Evolves [] s s :=
  ⟨fun h _ => h, fun h => h, Nat.le_refl _, fun h => h⟩

theorem mono (h : Evolves changed s s') (hsub : changed ⊆ changed') : Evolves changed' s s' :=
  ⟨fun hn hi => h.node? hn fun hc => hi (hsub hc), h.text?, h.size_le, h.closed⟩

/-- Of two changes in turn, those count that are at places of the earlier script. -/
theorem trans (h : Evolves changed s s') (h' : Evolves changed' s' s'')
    (hnew : ∀ i ∈ changed', i < s.nodes.size → i ∈ changed) : Evolves changed s s'' := by
  refine ⟨fun hn hi => ?_, fun hx => h'.text? (h.text? hx), Nat.le_trans h.size_le h'.size_le,
    fun hc => h'.closed (h.closed hc)⟩
  exact h'.node? (h.node? hn hi) fun hc => hi (hnew _ hc (lt_of_node hn))

/-- What was in the table keeps its node when nothing is overwritten. -/
theorem getElem?_eq (h : Evolves [] s s') (hid : id < s.nodes.size) :
    s'.nodes[id]? = s.nodes[id]? := by
  rw [getElem?_of_lt hid, h.node? (getElem?_of_lt hid) List.not_mem_nil]

theorem knows (h : Evolves changed s s') {x : Sym} (hx : s.Knows x) : s'.Knows x := by
  obtain ⟨name, ht⟩ := hx
  exact ⟨name, h.text? ht⟩

theorem named (h : Evolves changed s s') {node : Node NodeId Sym} (hn : s.Named node) :
    s'.Named node :=
  fun x hx => h.knows (hn x hx)

theorem text_eq (h : Evolves changed s s') {node : Node NodeId Sym} (hn : s.Named node) :
    ∀ x ∈ node.names, s'.names.text x = s.names.text x := by
  intro x hx
  obtain ⟨name, ht⟩ := hn x hx
  rw [Script.text_eq ht, Script.text_eq (h.text? ht)]

end Evolves

/-- A tree stays as it is in a table that has its nodes and in which symbols mean the same. -/
theorem Rooted.of_kept (h : s.Rooted id)
    (node? : ∀ i ∈ s.preorder id, ∀ node, s.nodes[i]? = some node → s'.nodes[i]? = some node)
    (text? : ∀ {x name}, s.names.text? x = some name → s'.names.text? x = some name) :
    s'.Rooted id ∧ s'.tree id = s.tree id := by
  induction h using Rooted.induct with
  | step id h ih =>
    have hn := node? id (mem_preorder_self s id) _ h.node?
    have below : ∀ c ∈ (s.node id).children, s'.Rooted c ∧ s'.tree c = s.tree c := fun c hc =>
      ih c hc fun i hi => node? i (h.mem_preorder_child hc hi)
    have named : s'.Named (s.node id) := fun x hx => (h.named x hx).imp fun _ => text?
    have texts : ∀ x ∈ (s.node id).names, s'.names.text x = s.names.text x := by
      intro x hx
      obtain ⟨name, ht⟩ := h.named x hx
      rw [Script.text_eq ht, Script.text_eq (text? ht)]
    have hb : s'.Branches id (s.node id) := by
      refine ⟨hn, named, fun c hc => (below c hc).1, ?_⟩
      rw [List.flatMap_congr fun c hc => by rw [preorder_eq_tags, (below c hc).2]]
      exact h.branches.apart
    refine ⟨hb.rooted_and_tree.1, ?_⟩
    rw [hb.rooted_and_tree.2, h.tree_eq]
    exact congrArg (Tree.mk id) (Node.map_congr_parts (fun c hc => (below c hc).2) texts)

/-- A change elsewhere leaves a tree alone. -/
theorem Rooted.frame (h : s.Rooted id) (he : Evolves changed s s')
    (apart : ∀ i ∈ s.preorder id, i ∉ changed) : s'.Rooted id ∧ s'.tree id = s.tree id :=
  h.of_kept (fun i hi _ hn => he.node? hn (apart i hi)) he.text?

/-- What hangs under a place is listed with what hangs under the places above. -/
theorem Rooted.preorder_subset (h : s.Rooted id) {c : NodeId} (hc : c ∈ s.preorder id) :
    s.preorder c ⊆ s.preorder id := by
  induction h using Rooted.induct with
  | step id h ih =>
    rw [h.preorder_eq, List.mem_cons, List.mem_flatMap] at hc
    rcases hc with rfl | ⟨d, hd, hc⟩
    · exact List.Subset.refl _
    · exact fun i hi => h.mem_preorder_child hd (ih d hd hc hi)

/-- What hangs under different children is apart. -/
theorem Rooted.disjoint (h : s.Rooted id) {c d : NodeId} (hc : c ∈ (s.node id).children)
    (hd : d ∈ (s.node id).children) (hne : c ≠ d) : (s.preorder c).Disjoint (s.preorder d) := by
  have symm : Std.Symm (Function.onFun List.Disjoint s.preorder) :=
    ⟨fun _ _ h _ hi hj => h hj hi⟩
  exact (List.nodup_flatMap.1 (List.nodup_cons.1 h.branches.apart).2).2.forall hc hd hne

/-- Nothing below a place comes up twice when one of its children has other places below it than
before, and those that it did not have are new. -/
theorem Rooted.nodup_of_grown (h : s.Rooted id) {d : NodeId}
    (nodup : ∀ e ∈ (s.node id).children, (s'.preorder e).Nodup)
    (old : ∀ e ∈ (s.node id).children, ∀ i ∈ s'.preorder e,
      i ∈ s.preorder e ∨ e = d ∧ s.nodes.size ≤ i) :
    (id :: (s.node id).children.flatMap s'.preorder).Nodup := by
  obtain ⟨fresh, apart⟩ := List.nodup_cons.1 h.branches.apart
  refine List.nodup_cons.2 ⟨fun hm => ?_, List.nodup_flatMap.2 ⟨nodup,
    (List.nodup_flatMap.1 apart).2.imp_of_mem fun {e f} hm hm' hdis i hi hi' => ?_⟩⟩
  · obtain ⟨e, hm, hi⟩ := List.mem_flatMap.1 hm
    rcases old e hm id hi with hi | ⟨-, hi⟩
    · exact fresh (List.mem_flatMap.2 ⟨e, hm, hi⟩)
    · exact Nat.not_lt.2 hi h.lt
  · rcases old e hm i hi with hi | ⟨rfl, hsize⟩ <;>
      rcases old f hm' i hi' with hi' | ⟨rfl, hsize'⟩
    · exact hdis hi hi'
    · exact Nat.not_lt.2 hsize' ((h.child hm).places_lt i hi)
    · exact Nat.not_lt.2 hsize ((h.child hm').places_lt i hi')
    · exact hdis (mem_preorder_self s _) (mem_preorder_self s _)

/-- Where one child has other places under `c` and the other children stay as they are, the children
together have other places under `c`. -/
theorem Rooted.exists_mem_preorder_iff (h : s.Rooted id) {c d : NodeId}
    (hd : d ∈ (s.node id).children) (hc : c ∈ s.preorder d)
    (others : ∀ e ∈ (s.node id).children, e ≠ d → s'.preorder e = s.preorder e)
    (places : ∀ i, i ∈ s'.preorder d ↔ (i ∈ s.preorder d ∧ i ∉ s.preorder c) ∨ i ∈ s'.preorder c)
    (i : NodeId) :
    (∃ e ∈ (s.node id).children, i ∈ s'.preorder e) ↔
      ((∃ e ∈ (s.node id).children, i ∈ s.preorder e) ∧ i ∉ s.preorder c) ∨
        i ∈ s'.preorder c := by
  constructor
  · rintro ⟨e, hm, hi⟩
    by_cases hne : e = d
    · subst hne
      exact ((places i).1 hi).imp_left fun hi => ⟨⟨e, hm, hi.1⟩, hi.2⟩
    · rw [others e hm hne] at hi
      exact .inl ⟨⟨e, hm, hi⟩, fun hic =>
        h.disjoint hm hd hne hi ((h.child hd).preorder_subset hc hic)⟩
  · rintro (⟨⟨e, hm, hi⟩, hn⟩ | hi)
    · refine ⟨e, hm, ?_⟩
      by_cases hne : e = d
      · subst hne
        exact (places i).2 (.inl ⟨hi, hn⟩)
      · rwa [others e hm hne]
    · exact ⟨d, hd, (places i).2 (.inr hi)⟩

/-- Another tree under a place below a root. -/
theorem Rooted.graft (h : s.Rooted id) {c : NodeId} (hc : c ∈ s.preorder id)
    (he : Evolves (s.preorder c) s s') (hr : s'.Rooted c)
    (places : ∀ i ∈ s'.preorder c, i ∈ s.preorder c ∨ s.nodes.size ≤ i) :
    s'.Rooted id ∧ ∀ i, i ∈ s'.preorder id ↔
      (i ∈ s.preorder id ∧ i ∉ s.preorder c) ∨ i ∈ s'.preorder c := by
  induction h using Rooted.induct with
  | step id h ih =>
    by_cases hid : c = id
    · subst hid
      exact ⟨hr, fun i => ⟨.inr, fun hi => hi.resolve_left fun ⟨hi, hn⟩ => hn hi⟩⟩
    · rw [h.preorder_eq, List.mem_cons, List.mem_flatMap] at hc
      obtain ⟨d, hd, hc⟩ := hc.resolve_left hid
      have below := (h.child hd).preorder_subset hc
      -- the child that has the place below it takes the new tree, and the others stay as they are
      obtain ⟨hrd, hplaces⟩ := ih d hd hc
      have framed : ∀ e ∈ (s.node id).children, e ≠ d → s'.Rooted e ∧ s'.tree e = s.tree e :=
        fun e hm hne => (h.child hm).frame he fun i hi hic =>
          h.disjoint hm hd hne hi (below hic)
      have others (e) (hm : e ∈ (s.node id).children) (hne : e ≠ d) :
          s'.preorder e = s.preorder e := by
        rw [preorder_eq_tags, (framed e hm hne).2, preorder_eq_tags]
      have rooted : ∀ e ∈ (s.node id).children, s'.Rooted e := fun e hm =>
        if hne : e = d then hne ▸ hrd else (framed e hm hne).1
      have old : ∀ e ∈ (s.node id).children, ∀ i ∈ s'.preorder e, i ∈ s.preorder e ∨
          e = d ∧ s.nodes.size ≤ i := by
        intro e hm i hi
        by_cases hne : e = d
        · subst hne
          rcases (hplaces i).1 hi with ⟨hi, -⟩ | hi
          · exact .inl hi
          · exact (places i hi).imp (fun hi => below hi) fun hi => ⟨rfl, hi⟩
        · exact .inl (others e hm hne ▸ hi)
      have outside : id ∉ s.preorder c := fun hi =>
        (List.nodup_cons.1 h.branches.apart).1 (List.mem_flatMap.2 ⟨d, hd, below hi⟩)
      have hn : s'.nodes[id]? = some (s.node id) := he.node? h.node? outside
      have branches : s'.Branches id (s.node id) :=
        ⟨hn, he.named h.named, rooted, h.nodup_of_grown (fun e hm => (rooted e hm).nodup) old⟩
      have rooted' := branches.rooted_and_tree.1
      refine ⟨rooted', fun i => ?_⟩
      rw [rooted'.preorder_eq, node_eq hn, h.preorder_eq, List.mem_cons, List.mem_cons,
        List.mem_flatMap, List.mem_flatMap, h.exists_mem_preorder_iff hd hc others hplaces]
      constructor
      · rintro (rfl | hi)
        · exact .inl ⟨.inl rfl, outside⟩
        · exact hi.imp_left fun hi => ⟨.inr hi.1, hi.2⟩
      · rintro (⟨rfl | hi, hn⟩ | hi)
        · exact .inl rfl
        · exact .inr (.inl ⟨hi, hn⟩)
        · exact .inr (.inr hi)

end Script

end Graft
