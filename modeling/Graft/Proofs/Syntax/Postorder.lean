import Graft.Proofs.Syntax.Mentions

/-!
# The order of planted places

A tree is planted children first, so that its places follow each other in postorder: those below
a node are right in front of the place of the node itself.

* `Script.postorder_plant` - a planted tree fills the table from its end, in postorder
* `Script.perm_postorder` - the places in postorder are those in preorder
* `Script.Rooted.mem_mentions` - the names of a tree are those of its nodes
-/

namespace Graft

variable {τ : Type}

namespace Tree

/-- The tags in postorder, each behind those of its children. -/
def postorder (t : Tree τ) : List τ :=
  t.fold fun tag node => node.children.flatMap id ++ [tag]

theorem postorder_mk (tag : τ) (node : Node (Tree τ) String) :
    (mk tag node).postorder = node.children.flatMap postorder ++ [tag] := by
  rw [postorder, fold_mk, Node.children_map, List.flatMap_map]
  rfl

/-- The same tags in another order. -/
theorem perm_tags (t : Tree τ) : t.postorder.Perm t.tags := by
  induction t using induct with
  | step t ih =>
    obtain ⟨tag, node⟩ := t
    rw [postorder_mk, tags_mk]
    exact (List.perm_append_singleton ..).trans (.cons tag (.flatMap_left _ ih))

end Tree

namespace Script

variable {s s' : Script} {id : NodeId}

/-- The places under a node in postorder, each behind those of its children. -/
def postorder (s : Script) (id : NodeId) : List NodeId :=
  (s.tree id).postorder

theorem perm_postorder (s : Script) (id : NodeId) : (s.postorder id).Perm (s.preorder id) :=
  (s.tree id).perm_tags

theorem Rooted.postorder_eq (h : s.Rooted id) :
    s.postorder id = (s.node id).children.flatMap s.postorder ++ [id] := by
  rw [postorder, h.tree_eq, Tree.postorder_mk, Node.children_map, List.flatMap_map]
  rfl

/-! ## Planting -/

/-- The parts of a node are planted one behind the other. -/
theorem postorder_of_runs {ps : List (Part (Tree τ × NodeId) (String × Sym))}
    (h : Runs plant intern ps s s')
    (step : ∀ p ∈ lefts ps, ∀ s,
      (plant p.1 s).2.postorder (plant p.1 s).1 = List.range' s.nodes.size p.1.size) :
    (lefts ps).flatMap (fun p => s'.postorder p.2) =
      List.range' s.nodes.size (s'.nodes.size - s.nodes.size) := by
  induction h with
  | nil s => rw [Nat.sub_self]; rfl
  | @child a ps s s' runs ih =>
    have first : (plant a s).2.postorder (plant a s).1 = List.range' s.nodes.size a.size :=
      step (a, (plant a s).1) (by simp [lefts]) s
    have evolves := (partsPlanted_of_runs runs fun p _ => plant_spec p.1).evolves
    have kept : s'.postorder (plant a s).1 = (plant a s).2.postorder (plant a s).1 := by
      rw [postorder, postorder, ((plant_spec a s).rooted.grown evolves).2]
    have filled := size_plant a s
    have grown := evolves.size_le
    rw [lefts, List.flatMap_cons, ih fun p hp => step p (by simp [lefts, hp]), kept, first, filled,
      List.range'_append_1]
    congr 1
    omega
  | name _ ih => exact ih step

/-- A node that is stored behind what hangs under it comes last. -/
theorem postorder_alloc {node : Node NodeId Sym} (h : (alloc node s).2.Rooted s.nodes.size)
    (hc : ∀ c ∈ node.children, s.Rooted c) :
    (alloc node s).2.postorder s.nodes.size =
      node.children.flatMap s.postorder ++ [s.nodes.size] := by
  have stored : (alloc node s).2.node s.nodes.size = node := node_eq (node?_alloc node s)
  have old : ∀ i n, s.nodes[i]? = some n → (alloc node s).2.nodes[i]? = some n := fun i n hn => by
    rw [alloc, Array.getElem?_push_lt (lt_of_node hn), ← hn,
      Array.getElem?_eq_getElem (lt_of_node hn)]
  have kept : ∀ c ∈ node.children, (alloc node s).2.postorder c = s.postorder c := fun c hcm => by
    rw [postorder, postorder, ((hc c hcm).of_kept (fun i _ => old i) fun h => h).2]
  rw [h.postorder_eq, stored, List.flatMap_congr kept]

/-- A planted tree fills the table from its end on, in postorder. -/
theorem postorder_plant (t : Tree τ) (s : Script) :
    (plant t s).2.postorder (plant t s).1 = List.range' s.nodes.size t.size := by
  induction t using Tree.induct generalizing s with
  | step t ih =>
    obtain ⟨tag, node⟩ := t
    obtain ⟨z, hz, hz', runs⟩ := exists_runs_traverse (f := plant) (g := intern) node s
    have children : node.children = (lefts z.parts).map Prod.fst := by
      rw [← hz, Node.children_map, Node.children_eq_lefts]
    have below := postorder_of_runs runs fun p hp s => by
      have hc : p.1 ∈ node.children := by
        rw [children]
        exact List.mem_map_of_mem hp
      exact ih p.1 hc s
    have parts := partsPlanted_of_runs runs fun p _ => plant_spec p.1
    have grown := parts.evolves.size_le
    have filled := size_plant (.mk tag node) s
    have run : plant (.mk tag node) s =
        alloc (node.traverse plant intern s).1 (node.traverse plant intern s).2 := by
      rw [plant_mk]
      rfl
    have whole := (plant_spec (.mk tag node) s).rooted
    rw [run] at filled whole ⊢
    generalize node.traverse plant intern s = through at *
    obtain ⟨made, s₁⟩ := through
    change z.map Prod.snd Prod.snd = made at hz'
    change s.nodes.size ≤ s₁.nodes.size at grown
    change (s₁.nodes.push made).size = _ at filled
    rw [Array.size_push] at filled
    have made_children : made.children = (lefts z.parts).map Prod.snd := by
      rw [← hz', Node.children_map, Node.children_eq_lefts]
    have rooted : ∀ c ∈ made.children, s₁.Rooted c := by
      rw [made_children]
      exact List.forall_mem_map.2 fun p hp => (parts.child p hp).1
    calc (alloc made s₁).2.postorder s₁.nodes.size
        = made.children.flatMap s₁.postorder ++ [s₁.nodes.size] := postorder_alloc whole rooted
      _ = List.range' s.nodes.size (s₁.nodes.size - s.nodes.size) ++ [s₁.nodes.size] := by
        rw [made_children, List.flatMap_map, below]
      _ = List.range' s.nodes.size (Tree.mk tag node).size := by
        have last : s₁.nodes.size = s.nodes.size + (s₁.nodes.size - s.nodes.size) := by omega
        rw [show (Tree.mk tag node).size = s₁.nodes.size - s.nodes.size + 1 by omega,
          List.range'_1_concat, ← last]

/-- A pushed statement comes behind the statements in front of it, and the root behind all. -/
theorem postorder_push {body : List NodeId} (hn : s.node root = .program body)
    (h : s.Rooted root) (hid : s.Rooted id) (hd : ∀ i ∈ s.preorder id, i ∉ s.preorder root) :
    (s.push id).postorder root = body.flatMap s.postorder ++ s.postorder id ++ [root] := by
  rw [postorder, (push_spec hn h hid hd).2.1, Tree.postorder_mk]
  change (body.map s.tree ++ [s.tree id]).flatMap Tree.postorder ++ [root] = _
  rw [List.flatMap_append, List.flatMap_map, List.flatMap_singleton]
  rfl

/-! ## Names -/

/-- The names that a tree mentions are those of its nodes. -/
theorem Rooted.mem_mentions (h : s.Rooted id) {name : String} :
    name ∈ (s.tree id).mentions ↔
      ∃ i ∈ s.preorder id, ∃ x ∈ (s.node i).names, s.names.text? x = some name := by
  induction h using Rooted.induct with
  | step id h ih =>
    have here : (∃ x ∈ (s.node id).names, s.names.text x = name) ↔
        ∃ x ∈ (s.node id).names, s.names.text? x = some name := by
      refine exists_congr fun x => and_congr_right fun hx => ?_
      obtain ⟨text, ht⟩ := h.named x hx
      rw [text_eq ht, ht, Option.some.injEq]
    have parts : name ∈ (s.tree id).mentions ↔ (∃ x ∈ (s.node id).names, s.names.text x = name) ∨
        ∃ c ∈ (s.node id).children, name ∈ (s.tree c).mentions := by
      rw [h.tree_eq, Tree.mentions_mk, Node.parts_map, List.flatMap_map, List.mem_flatMap]
      constructor
      · rintro ⟨c | x, hp, hm⟩
        · exact .inr ⟨c, Node.mem_children.2 hp, hm⟩
        · exact .inl ⟨x, Node.mem_names.2 hp, (List.mem_singleton.1 hm).symm⟩
      · rintro (⟨x, hx, rfl⟩ | ⟨c, hc, hm⟩)
        · exact ⟨.inr x, Node.mem_names.1 hx, List.mem_singleton.2 rfl⟩
        · exact ⟨.inl c, Node.mem_children.1 hc, hm⟩
    rw [parts, here, h.preorder_eq]
    constructor
    · rintro (⟨x, hx, ht⟩ | ⟨c, hc, hm⟩)
      · exact ⟨id, List.mem_cons_self .., x, hx, ht⟩
      · obtain ⟨i, hi, found⟩ := (ih c hc).1 hm
        exact ⟨i, List.mem_cons_of_mem _ (List.mem_flatMap.2 ⟨c, hc, hi⟩), found⟩
    · rintro ⟨i, hi, found⟩
      rcases List.mem_cons.1 hi with rfl | hi
      · exact .inl found
      · obtain ⟨c, hc, hi⟩ := List.mem_flatMap.1 hi
        exact .inr ⟨c, hc, (ih c hc).2 ⟨i, hi, found⟩⟩

end Script

end Graft
