import Graft.Proofs.Syntax.Stored

/-!
# Writing into scripts

What each way to write into a script does to the trees in it. A tree is planted at new places, so
that all trees of the script stay as they were; an overwritten place takes the tree that hangs under
the new node.

* `plant_spec` - a planted tree hangs under its place and is apart from all else
* `replace_spec` - a replaced node takes over what hangs under the other
* `push_spec` - a pushed statement is the last child of the root
* `setNode_spec` - a node with the old children keeps the shape of all trees
-/

namespace Graft

variable {τ : Type}

namespace Names

theorem lt_of_text? {names : Names} {x : Sym} {name : String} (h : names.text? x = some name) :
    x < names.size := by
  obtain ⟨hlt, -⟩ := Array.getElem?_eq_some_iff.1 h
  exact hlt

/-- Interning a name keeps what symbols mean. -/
theorem text?_intern_of_text? {names : Names} {x : Sym} {name : String} (new : String)
    (h : names.text? x = some name) : (names.intern new).2.text? x = some name := by
  rw [text_intern_of_lt names new (lt_of_text? h), h]

end Names

namespace Script

variable {s s' : Script} {id : NodeId}

/-! ## New names and new nodes -/

/-- A script with more names. -/
theorem evolves_of_names {names : Names}
    (h : ∀ {x name}, s.names.text? x = some name → names.text? x = some name) :
    Evolves [] s { s with names } := by
  refine ⟨fun h _ => h, h, Nat.le_refl _, fun hc i node hn x hx => ?_⟩
  obtain ⟨name, ht⟩ := hc _ _ hn x hx
  exact ⟨name, h ht⟩

theorem evolves_intern (name : String) (s : Script) : Evolves [] s (intern name s).2 :=
  evolves_of_names fun h => Names.text?_intern_of_text? name h

theorem text?_intern (name : String) (s : Script) :
    (intern name s).2.names.text? (intern name s).1 = some name :=
  Names.text_intern s.names name

theorem evolves_alloc {node : Node NodeId Sym} (hn : s.Named node) :
    Evolves [] s (alloc node s).2 := by
  refine ⟨fun h _ => ?_, fun h => h, ?_, fun hc i n h => ?_⟩
  · rw [alloc, Array.getElem?_push_lt (lt_of_node h), ← h, Array.getElem?_eq_getElem]
  · simp [alloc]
  · rw [alloc, Array.getElem?_push] at h
    split at h
    · exact Option.some.inj h ▸ hn
    · exact hc _ _ h

theorem node?_alloc (node : Node NodeId Sym) (s : Script) :
    (alloc node s).2.nodes[(alloc node s).1]? = some node := by
  simp [alloc]

/-! ## Planting -/

theorem plant_mk (tag : τ) (node : Node (Tree τ) String) :
    plant (.mk tag node) = (do alloc (← node.traverse plant intern)) := by
  rw [plant, Tree.fold_mk, Node.traverse_map]
  rfl

/-- What a planted tree is in the script. -/
structure Planted (t : Tree τ) (s : Script) (id : NodeId) (s' : Script) : Prop where
  rooted : s'.Rooted id
  erase_eq : (s'.tree id).erase = t.erase
  fresh : ∀ i ∈ s'.preorder id, s.nodes.size ≤ i
  evolves : Evolves [] s s'

/-- What planting the parts of a node one after the other gives. -/
structure PartsPlanted (ps : List (Part (Tree τ × NodeId) (String × Sym))) (s s' : Script) :
    Prop where
  child : ∀ p ∈ lefts ps, s'.Rooted p.2 ∧ (s'.tree p.2).erase = p.1.erase
  fresh : ∀ p ∈ lefts ps, ∀ i ∈ s'.preorder p.2, s.nodes.size ≤ i
  apart : ((lefts ps).flatMap fun p => s'.preorder p.2).Nodup
  named : ∀ p ∈ rights ps, s'.names.text? p.2 = some p.1
  evolves : Evolves [] s s'

/-- A tree in place stays as it is when the script only grows. -/
theorem Rooted.grown (h : s.Rooted id) (he : Evolves [] s s') :
    s'.Rooted id ∧ s'.tree id = s.tree id :=
  h.frame he fun _ _ => List.not_mem_nil

theorem partsPlanted_of_runs {ps : List (Part (Tree τ × NodeId) (String × Sym))}
    (h : Runs plant intern ps s s')
    (step : ∀ p ∈ lefts ps, ∀ s, Planted p.1 s (plant p.1 s).1 (plant p.1 s).2) :
    PartsPlanted ps s s' := by
  induction h with
  | nil s => exact ⟨by simp [lefts], by simp [lefts], by simp [lefts], by simp [rights], .refl s⟩
  | @child a ps s s' _ ih =>
    obtain ⟨hr, he, hf, hv⟩ := step (a, (plant a s).1) (by simp [lefts]) s
    obtain ⟨child, fresh, apart, named, evolves⟩ := ih fun p hp => step p (by simp [lefts, hp])
    obtain ⟨hr', ht'⟩ := hr.grown evolves
    have places : s'.preorder (plant a s).1 = (plant a s).2.preorder (plant a s).1 := by
      rw [preorder_eq_tags, preorder_eq_tags, ht']
    refine ⟨?_, ?_, ?_, named, hv.trans evolves (by simp)⟩
    · simp only [lefts, List.forall_mem_cons]
      exact ⟨⟨hr', ht' ▸ he⟩, child⟩
    · simp only [lefts, List.forall_mem_cons]
      exact ⟨places ▸ hf, fun p hp i hi => Nat.le_trans hv.size_le (fresh p hp i hi)⟩
    · rw [lefts, List.flatMap_cons, List.nodup_append]
      refine ⟨hr'.nodup, apart, fun i hi j hj hij => ?_⟩
      obtain ⟨p, hp, hj⟩ := List.mem_flatMap.1 hj
      have hlt := hr.places_lt i (places ▸ hi)
      exact absurd (hij ▸ hlt) (Nat.not_lt.2 (fresh p hp j hj))
  | @name x ps s s' _ ih =>
    obtain ⟨child, fresh, apart, named, evolves⟩ := ih fun p hp => step p hp
    refine ⟨child, fresh, apart, ?_, (evolves_intern x s).trans evolves (by simp)⟩
    simp only [rights, List.forall_mem_cons]
    exact ⟨evolves.text? (text?_intern x s), named⟩

/-- A planted tree hangs under its place, without its tags, and is apart from all that was there. -/
theorem plant_spec (t : Tree τ) (s : Script) : Planted t s (plant t s).1 (plant t s).2 := by
  induction t using Tree.induct generalizing s with
  | step t ih =>
    obtain ⟨tag, node⟩ := t
    rw [plant_mk]
    obtain ⟨z, hz, hz', runs⟩ := exists_runs_traverse (f := plant) (g := intern) node s
    have children : node.children = (lefts z.parts).map Prod.fst := by
      rw [← hz, Node.children_map, Node.children_eq_lefts]
    have hp := partsPlanted_of_runs runs fun p hp s => by
      have hc : p.1 ∈ node.children := by
        rw [children]
        exact List.mem_map_of_mem hp
      exact ih p.1 hc s
    change Planted _ s (alloc (node.traverse plant intern s).1 (node.traverse plant intern s).2).1
      (alloc (node.traverse plant intern s).1 (node.traverse plant intern s).2).2
    generalize node.traverse plant intern s = made at *
    obtain ⟨made, s₁⟩ := made
    change z.map Prod.snd Prod.snd = made at hz'
    have made_named : s₁.Named made := by
      intro x hx
      rw [← hz', Node.names_map, List.mem_map] at hx
      obtain ⟨p, hpm, rfl⟩ := hx
      exact ⟨p.1, hp.named p hpm⟩
    have hv := evolves_alloc made_named
    have made_children : made.children = (lefts z.parts).map Prod.snd := by
      rw [← hz', Node.children_map, Node.children_eq_lefts]
    have grown : ∀ p ∈ lefts z.parts, (alloc made s₁).2.Rooted p.2 ∧
        (alloc made s₁).2.tree p.2 = s₁.tree p.2 := fun p hpm => (hp.child p hpm).1.grown hv
    have places : made.children.flatMap (alloc made s₁).2.preorder =
        (lefts z.parts).flatMap fun p => s₁.preorder p.2 := by
      rw [made_children, List.flatMap_map]
      exact List.flatMap_congr fun p hpm => by
        rw [preorder_eq_tags, preorder_eq_tags, (grown p hpm).2]
    have named : ∀ p ∈ rights z.parts, (alloc made s₁).2.names.text p.2 = p.1 := fun p hpm =>
      text_eq (hp.named p hpm)
    have hb : (alloc made s₁).2.Branches s₁.nodes.size made := by
      refine ⟨node?_alloc made s₁, hv.named made_named, fun c hc => ?_, ?_⟩
      · rw [made_children, List.mem_map] at hc
        obtain ⟨p, hpm, rfl⟩ := hc
        exact (grown p hpm).1
      · rw [places]
        refine List.nodup_cons.2 ⟨fun hmem => ?_, hp.apart⟩
        obtain ⟨p, hpm, hi⟩ := List.mem_flatMap.1 hmem
        exact absurd ((hp.child p hpm).1.places_lt _ hi) (Nat.lt_irrefl _)
    obtain ⟨hr, ht⟩ := hb.rooted_and_tree
    refine ⟨hr, ?_, ?_, hp.evolves.trans hv (by simp)⟩
    · have hmade : ∀ (f : NodeId → Tree Unit) (g : Sym → String),
          made.map f g = z.map (fun p => f p.2) fun p => g p.2 := fun f g => by
        rw [← hz', Node.map_map]
      rw [show (alloc made s₁).1 = s₁.nodes.size from rfl, ht, Tree.erase_mk, Tree.erase_mk,
        Node.map_map, hmade, ← hz, Node.map_map]
      refine congrArg (Tree.mk ()) (Node.map_congr_parts (fun p hpm => ?_) fun p hpm => named p hpm)
      rw [Node.children_eq_lefts] at hpm
      rw [(grown p hpm).2, (hp.child p hpm).2]
    · intro i hi
      rw [show (alloc made s₁).1 = s₁.nodes.size from rfl, hr.preorder_eq, List.mem_cons,
        node_eq hb.node?, places, List.mem_flatMap] at hi
      rcases hi with rfl | ⟨p, hpm, hi⟩
      · exact hp.evolves.size_le
      · exact hp.fresh p hpm i hi

theorem size_of_runs {ps : List (Part (Tree τ × NodeId) (String × Sym))}
    (h : Runs plant intern ps s s')
    (step : ∀ p ∈ lefts ps, ∀ s, (plant p.1 s).2.nodes.size = s.nodes.size + p.1.size) :
    s'.nodes.size = s.nodes.size + ((lefts ps).map fun p => p.1.size).foldr (· + ·) 0 := by
  induction h with
  | nil s => rfl
  | @child a ps s s' _ ih =>
    have first : (plant a s).2.nodes.size = s.nodes.size + a.size :=
      step (a, (plant a s).1) (by simp [lefts]) s
    rw [ih fun p hp => step p (by simp [lefts, hp]), first, lefts, List.map_cons, List.foldr_cons,
      Nat.add_assoc]
  | @name x ps s s' _ ih => exact ih step

/-- Planting a tree takes as many places as the tree has nodes. -/
theorem size_plant (t : Tree τ) (s : Script) :
    (plant t s).2.nodes.size = s.nodes.size + t.size := by
  induction t using Tree.induct generalizing s with
  | step t ih =>
    obtain ⟨tag, node⟩ := t
    obtain ⟨z, hz, -, runs⟩ := exists_runs_traverse (f := plant) (g := intern) node s
    have children : node.children = (lefts z.parts).map Prod.fst := by
      rw [← hz, Node.children_map, Node.children_eq_lefts]
    have below := size_of_runs runs fun p hp s => ih p.1 (by
      change p.1 ∈ node.children
      rw [children]
      exact List.mem_map_of_mem hp) s
    have sizes : node.children.map Tree.size = (lefts z.parts).map fun p => p.1.size := by
      rw [children, List.map_map]
      rfl
    rw [plant_mk, Tree.size_mk, sizes]
    change (alloc _ (node.traverse plant intern s).2).2.nodes.size = _
    rw [alloc, Array.size_push, below]
    omega

/-- A copy hangs under its place like the original under its own. -/
theorem copy_spec (source : Script) (place : NodeId) (s : Script) :
    Planted (source.tree place) s (copy source place s).1 (copy source place s).2 :=
  plant_spec _ _

/-! ## Overwriting -/

theorem evolves_setNode {node : Node NodeId Sym} (id : NodeId) (hn : s.Named node) :
    Evolves [id] s (s.setNode id node) := by
  refine ⟨fun {i n} h hi => ?_, fun h => h, by simp [setNode], fun hc i n h => ?_⟩
  · have hne : id ≠ i := fun h => hi (by simp [h])
    rw [setNode, Array.getElem?_setIfInBounds_ne hne, h]
  · rw [setNode, Array.getElem?_setIfInBounds] at h
    split at h
    · split at h
      · exact Option.some.inj h ▸ hn
      · cases h
    · exact hc _ _ h

theorem node?_setNode {node : Node NodeId Sym} (h : id < s.nodes.size) :
    (s.setNode id node).nodes[id]? = some node := by
  simp [setNode, h]

theorem node_setNode_of_ne {i : NodeId} (node : Node NodeId Sym) (h : i ≠ id) :
    (s.setNode id node).node i = s.node i := by
  rw [Script.node, Script.node, Array.getD_eq_getD_getElem?, Array.getD_eq_getD_getElem?, setNode,
    Array.getElem?_setIfInBounds_ne h.symm]

/-- What an overwritten place shows, when the children of the new node are roots that do not have
the place below them. -/
theorem setNode_tree {node : Node NodeId Sym} (hlt : id < s.nodes.size) (hn : s.Named node)
    (hc : ∀ c ∈ node.children, s.Rooted c) (hd : (id :: node.children.flatMap s.preorder).Nodup) :
    (s.setNode id node).Rooted id ∧
      (s.setNode id node).tree id = .mk id (node.map s.tree s.names.text) := by
  have he := evolves_setNode id hn
  have below : ∀ c ∈ node.children, (s.setNode id node).Rooted c ∧
      (s.setNode id node).tree c = s.tree c := by
    intro c hcm
    refine (hc c hcm).frame he fun i hi hmem => ?_
    rw [List.mem_singleton] at hmem
    subst hmem
    exact (List.nodup_cons.1 hd).1 (List.mem_flatMap.2 ⟨c, hcm, hi⟩)
  have hb : (s.setNode id node).Branches id node := by
    refine ⟨node?_setNode hlt, he.named hn, fun c hcm => (below c hcm).1, ?_⟩
    rw [List.flatMap_congr fun c hcm => by rw [preorder_eq_tags, (below c hcm).2]]
    exact hd
  refine ⟨hb.rooted_and_tree.1, ?_⟩
  rw [hb.rooted_and_tree.2]
  exact congrArg (Tree.mk id) (Node.map_congr_parts (fun c hcm => (below c hcm).2) fun _ _ => rfl)

/-- A replaced node takes over all that hangs under the other, at its own place. -/
theorem replace_spec {site source : NodeId} (hlt : site < s.nodes.size) (h : s.Rooted source)
    (hs : site ∉ s.preorder source) :
    (s.replace site source).Rooted site ∧
      (s.replace site source).tree site = .mk site (s.tree source).node := by
  have hd := h.preorder_eq ▸ h.nodup
  rw [h.preorder_eq] at hs
  have hr := setNode_tree hlt h.named (fun c hc => h.child hc)
    (List.nodup_cons.2 ⟨fun hm => hs (List.mem_cons_of_mem _ hm), (List.nodup_cons.1 hd).2⟩)
  refine ⟨hr.1, hr.2.trans ?_⟩
  rw [h.tree_eq]
  rfl

theorem preorder_replace {site source : NodeId} (hlt : site < s.nodes.size) (h : s.Rooted source)
    (hs : site ∉ s.preorder source) : (s.replace site source).preorder site =
      site :: (s.node source).children.flatMap s.preorder := by
  rw [preorder_eq_tags, (replace_spec hlt h hs).2, Tree.tags_mk]
  change site :: (s.tree source).children.flatMap Tree.tags = _
  rw [h.children_eq, List.flatMap_map]
  rfl

theorem push_eq {body : List NodeId} (hn : s.node root = .program body) (id : NodeId) :
    s.push id = s.setNode root (.program (body ++ [id])) := by
  rw [push, hn]

/-- A pushed statement becomes the last child of the root. -/
theorem push_spec {body : List NodeId} (hn : s.node root = .program body) (h : s.Rooted root)
    (hid : s.Rooted id) (hd : ∀ i ∈ s.preorder id, i ∉ s.preorder root) :
    (s.push id).Rooted root ∧
      (s.push id).tree root = .mk root (.program (body.map s.tree ++ [s.tree id])) ∧
      Evolves [root] s (s.push id) := by
  have named : s.Named (.program (body ++ [id])) := by
    intro x hx
    simp [Node.mem_names, Node.parts] at hx
  have children : ∀ c ∈ body ++ [id], s.Rooted c := by
    intro c hc
    rcases List.mem_append.1 hc with hc | hc
    · exact h.child (by rwa [hn])
    · exact List.mem_singleton.1 hc ▸ hid
  have apart : (root :: (body ++ [id]).flatMap s.preorder).Nodup := by
    have hroot := h.nodup
    rw [h.preorder_eq, hn] at hroot hd
    obtain ⟨hr, hb⟩ := List.nodup_cons.1 hroot
    rw [List.flatMap_append, List.flatMap_singleton, List.nodup_cons, List.nodup_append]
    refine ⟨fun hm => ?_, hb, hid.nodup, fun i hi j hj hij => ?_⟩
    · rcases List.mem_append.1 hm with hm | hm
      · exact hr hm
      · exact hd root hm (List.mem_cons_self ..)
    · exact hd j hj (List.mem_cons_of_mem _ (hij ▸ hi))
  obtain ⟨hr, ht⟩ := setNode_tree h.lt named children apart
  rw [push_eq hn]
  refine ⟨hr, ht.trans ?_, evolves_setNode _ named⟩
  simp [Node.map]

theorem preorder_push {body : List NodeId} (hn : s.node root = .program body) (h : s.Rooted root)
    (hid : s.Rooted id) (hd : ∀ i ∈ s.preorder id, i ∉ s.preorder root) :
    (s.push id).preorder root = s.preorder root ++ s.preorder id := by
  rw [h.preorder_eq, hn, preorder_eq_tags, (push_spec hn h hid hd).2.1, Tree.tags_mk]
  change root :: (body.map s.tree ++ [s.tree id]).flatMap Tree.tags = _
  rw [List.flatMap_append, List.flatMap_map, List.flatMap_singleton]
  rfl

/-- A new node with the old children, under names of the script, keeps what is below what. -/
theorem setNode_spec {i : NodeId} {node : Node NodeId Sym} (h : s.Rooted id) (hn : s.Named node)
    (hc : node.children = (s.node i).children) :
    (s.setNode i node).Rooted id ∧ (s.setNode i node).preorder id = s.preorder id := by
  have he := evolves_setNode i hn
  induction h using Rooted.induct with
  | step id h ih =>
    have places : ((s.node id).children.flatMap (s.setNode i node).preorder) =
        (s.node id).children.flatMap s.preorder :=
      List.flatMap_congr fun c hcm => (ih c hcm).2
    have hb : ∃ n, (s.setNode i node).Branches id n ∧ n.children = (s.node id).children := by
      by_cases hi : id = i
      · subst hi
        refine ⟨node, ⟨node?_setNode h.lt, he.named hn, fun c hcm => ?_, ?_⟩, hc⟩
        · exact (ih c (hc ▸ hcm)).1
        · rw [hc, places]
          exact h.branches.apart
      · refine ⟨s.node id, ⟨he.node? h.node? (by simpa using hi), he.named h.named,
          fun c hcm => (ih c hcm).1, ?_⟩, rfl⟩
        rw [places]
        exact h.branches.apart
    obtain ⟨n, hb, hcn⟩ := hb
    have hr := hb.rooted_and_tree.1
    refine ⟨hr, ?_⟩
    rw [hr.preorder_eq, node_eq hb.node?, hcn, places, h.preorder_eq]

/-- What is folded from a tree does not see an exchange of contents that no single step of the fold
sees. -/
theorem fold_setNode {β : Type} {f : NodeId → Node β String → β} {i : NodeId}
    {node : Node NodeId Sym} (h : s.Rooted id) (hn : s.Named node)
    (hc : node.children = (s.node i).children)
    (same : ∀ k : NodeId → β, f i (node.map k s.names.text) = f i ((s.node i).map k s.names.text)) :
    ((s.setNode i node).tree id).fold f = (s.tree id).fold f := by
  induction h using Rooted.induct with
  | step id h ih =>
    have hr := (setNode_spec h hn hc).1
    have folded (n : Node NodeId Sym) (hsub : n.children ⊆ (s.node id).children) :
        (n.map (s.setNode i node).tree s.names.text).map (Tree.fold f) (fun x => x) =
          n.map (fun c => (s.tree c).fold f) s.names.text := by
      rw [Node.map_map]
      exact Node.map_congr_parts (fun c hcm => ih c (hsub hcm)) fun _ _ => rfl
    have before : (s.tree id).fold f =
        f id ((s.node id).map (fun c => (s.tree c).fold f) s.names.text) := by
      rw [h.tree_eq, Tree.fold_mk]
      exact congrArg (f id) (Node.map_map ..)
    rw [hr.tree_eq, Tree.fold_mk, before]
    by_cases hi : id = i
    · subst hi
      have hnode : (s.setNode id node).node id = node := node_eq (node?_setNode h.lt)
      rw [hnode, ← same]
      exact congrArg (f id) (folded node (hc ▸ fun _ hm => hm))
    · rw [node_setNode_of_ne node hi]
      exact congrArg (f id) (folded _ fun _ hm => hm)

end Script

end Graft
