import Graft.Proofs.Grammar.Slots
import Graft.Proofs.Reading.Program

/-!
# The grammar in a script

A script that was read has a shaped tree under each of its places, since it has no place that the
program does not reach. What the grammar asks of the nodes of a tree does not depend on its places,
and it is kept when a node takes other contents that ask no more.

* `each_setNode` - a node takes other contents
* `shaped_read` - every place of a script that was read
-/

namespace Graft

open Graft.Tree
open Reading (of)

variable {τ σ : Type} {P : Node Head String → Prop}

namespace Tree

/-- The parts of a part of a tree are parts of the tree. -/
theorem mem_preorder_trans {t u v : Tree τ} (h : u ∈ t.preorder) (h' : v ∈ u.preorder) :
    v ∈ t.preorder := by
  induction t using induct with
  | step t ih =>
    rw [preorder_eq, List.mem_cons, List.mem_flatMap] at h
    rcases h with rfl | ⟨c, hc, h⟩
    · exact h'
    · rw [preorder_eq, List.mem_cons, List.mem_flatMap]
      exact .inr ⟨c, hc, ih c hc h⟩

theorem size_retag (f : τ → σ) (t : Tree τ) : (t.retag f).size = t.size :=
  fold_retag ..

theorem head_retag (f : τ → σ) (t : Tree τ) : (t.retag f).head = t.head := by
  obtain ⟨tag, node⟩ := t
  rw [retag_mk]
  exact Node.map_map ..

theorem each_retag (f : τ → σ) (t : Tree τ) : (t.retag f).Each P ↔ t.Each P := by
  induction t using induct with
  | step t ih =>
    obtain ⟨tag, node⟩ := t
    have heads : (node.map (retag f) id).map head id = node.map head id := by
      rw [Node.map_map]
      exact Node.map_congr_parts (fun c _ => head_retag f c) fun _ _ => rfl
    rw [retag_mk, each_mk, each_mk, heads, Node.children_map, List.forall_mem_map]
    exact and_congr_right fun _ => forall₂_congr ih

/-- Trees that differ in tags alone ask the same of their nodes. -/
theorem each_of_erase_eq {t : Tree τ} {u : Tree σ} (h : t.erase = u.erase) :
    t.Each P ↔ u.Each P := by
  rw [← each_retag (fun _ => ()) t, ← each_retag (fun _ => ()) u]
  exact iff_of_eq (congrArg (Each P) h)

theorem isMethod_iff (t : Tree τ) :
    t.IsMethod ↔ ∃ params, t.head = .functionExpr none params () := by
  obtain ⟨tag, n⟩ := t
  constructor
  · rintro ⟨params, body, h⟩
    obtain rfl : n = .functionExpr none params body := h
    exact ⟨params, by simp [head, node, Node.head, Node.map]⟩
  · rintro ⟨params, h⟩
    cases n with
    | functionExpr name params' body =>
      obtain ⟨hname, -, -⟩ := Node.functionExpr.inj h
      obtain rfl : name = none := by simpa using hname
      exact ⟨params', body, rfl⟩
    | _ => cases h

theorem shaped_retag (f : τ → σ) (t : Tree τ) : (t.retag f).Shaped ↔ t.Shaped := by
  induction t using induct with
  | step t ih =>
    obtain ⟨tag, n⟩ := t
    have heads : (n.map (retag f) id).map head id = n.map head id := by
      rw [Node.map_map]
      exact Node.map_congr_parts (fun c _ => head_retag f c) fun _ _ => rfl
    have grammatical : (n.map (retag f) id).Grammatical ↔ n.Grammatical := by
      have names : (n.map (retag f) id).identifiers = n.identifiers := by
        rw [Node.identifiers_map, List.map_id]
      constructor
      · rintro ⟨fits, hn⟩
        exact ⟨heads ▸ fits, names ▸ hn⟩
      · rintro ⟨fits, hn⟩
        exact ⟨heads.symm ▸ fits, names.symm ▸ hn⟩
    have methods : (∀ m ∈ (n.map (retag f) id).methods, m.function.IsMethod) ↔
        ∀ m ∈ n.methods, m.function.IsMethod := by
      cases n <;> simp [Node.methods, Node.map, Method.map, isMethod_iff, head_retag]
    rw [retag_mk, shaped_mk, shaped_mk, shaped_iff_grammatical, shaped_iff_grammatical, grammatical,
      Node.spelled_map, methods, Node.children_map, List.forall_mem_map]
    exact and_congr_right fun _ => forall₂_congr ih

end Tree

namespace Script

variable {s s' : Script} {id i : NodeId}

/-! ## Trees in trees -/

/-- What hangs under a place is part of what hangs under the places above. -/
theorem Rooted.tree_mem_preorder (h : s.Rooted id) (hi : i ∈ s.preorder id) :
    s.tree i ∈ (s.tree id).preorder := by
  induction h using Rooted.induct with
  | step id h ih =>
    rw [h.preorder_eq, List.mem_cons, List.mem_flatMap] at hi
    rw [Tree.preorder_eq, List.mem_cons, List.mem_flatMap]
    rcases hi with rfl | ⟨c, hc, hi⟩
    · exact .inl rfl
    · refine .inr ⟨s.tree c, ?_, ih c hc hi⟩
      rw [h.children_eq]
      exact List.mem_map_of_mem hc

/-- A part of what hangs under a place is what hangs under its own place. -/
theorem Rooted.eq_tree_of_mem_preorder (h : s.Rooted id) {u : Tree NodeId}
    (hu : u ∈ (s.tree id).preorder) : ∃ i ∈ s.preorder id, u = s.tree i := by
  induction h using Rooted.induct with
  | step id h ih =>
    rw [Tree.preorder_eq, List.mem_cons, List.mem_flatMap] at hu
    rcases hu with rfl | ⟨t, ht, hu⟩
    · exact ⟨id, mem_preorder_self s id, rfl⟩
    · rw [h.children_eq, List.mem_map] at ht
      obtain ⟨c, hc, rfl⟩ := ht
      obtain ⟨i, hi, rfl⟩ := ih c hc hu
      exact ⟨i, h.mem_preorder_child hc hi, rfl⟩

/-- What hangs under a place outside of the table. -/
theorem tree_of_size_le (h : s.nodes.size ≤ i) : s.tree i = .mk i .empty := by
  rw [tree]
  cases s.nodes.size with
  | zero => rfl
  | succ depth =>
    have hn : s.node i = .empty := by
      rw [Script.node, Array.getD_eq_getD_getElem?, Array.getElem?_eq_none h]
      rfl
    rw [treeToDepth, hn]
    rfl

/-! ## Heads -/

/-- A node of the script without its children. -/
def head (s : Script) (i : NodeId) : Head :=
  (s.node i).map (fun _ => ()) s.names.text

theorem Rooted.head_eq (h : s.Rooted id) : (s.tree id).head = s.head id := by
  rw [h.tree_eq]
  exact Node.map_map ..

/-- A place is judged by its own node, by the heads of its children, and by what is below them. -/
theorem Rooted.each_iff (h : s.Rooted id) :
    (s.tree id).Each P ↔ P ((s.node id).map s.head s.names.text) ∧
      ∀ c ∈ (s.node id).children, (s.tree c).Each P := by
  have heads : ((s.node id).map s.tree s.names.text).map Tree.head (fun x => x) =
      (s.node id).map s.head s.names.text := by
    rw [Node.map_map]
    exact Node.map_congr_parts (fun c hc => (h.child hc).head_eq) fun _ _ => rfl
  rw [h.tree_eq, each_mk, ← heads, Node.children_map, List.forall_mem_map]
  rfl

/-- What stays true of a node when its children give way to others of their kinds. -/
theorem stable_heads (stable : Node.Stable P) {node : Node NodeId Sym} {f g : NodeId → Head}
    {text : Sym → String} (h : ∀ c ∈ node.children, (f c).kind = (g c).kind ∧
      (c ∈ node.each? → (f c).kind.isExpression ∨ f c = g c))
    (hp : P (node.map f text)) : P (node.map g text) := by
  have named (k : NodeId → Head) : (node.map (fun c => c) text).map k id = node.map k text :=
    Node.map_map ..
  have step := stable (node.map (fun c => c) text) f g
  rw [named, named, Node.children_map, List.map_id', Node.each?_map, Option.map_id'] at step
  exact step h hp

/-- Contents that may take the place of others: of the same kind and with the same children, and the
same at all unless they are those of an expression. -/
structure Exchanged (s : Script) (i : NodeId) (new : Node NodeId Sym) : Prop where
  named : s.Named new
  children : new.children = (s.node i).children
  kind : new.kind = (s.node i).kind
  alike : (s.node i).kind.isExpression ∨ new = s.node i

/-- A node takes other contents that ask no more of the children. -/
theorem each_setNode (stable : Node.Stable P) {new : Node NodeId Sym} (h : s.Rooted id)
    (hx : s.Exchanged i new)
    (step : P ((s.node i).map s.head s.names.text) → P (new.map s.head s.names.text))
    (hp : (s.tree id).Each P) : ((s.setNode i new).tree id).Each P := by
  have hrooted : ∀ {c}, s.Rooted c → (s.setNode i new).Rooted c := fun hc =>
    (setNode_spec hc hx.named hx.children).1
  have alike : ∀ c, s.Rooted c → (s.head c).kind = ((s.setNode i new).head c).kind ∧
      ((s.head c).kind.isExpression ∨ s.head c = (s.setNode i new).head c) := by
    intro c hc
    rw [head, head, Node.kind_map, Node.kind_map]
    by_cases hci : c = i
    · subst hci
      rw [node_eq (node?_setNode hc.lt)]
      exact ⟨hx.kind.symm, hx.alike.imp_right fun he => by rw [he]; rfl⟩
    · rw [node_setNode_of_ne new hci]
      exact ⟨rfl, .inr rfl⟩
  induction h using Rooted.induct with
  | step id h ih =>
    obtain ⟨here, below⟩ := h.each_iff.1 hp
    have same : ∀ c ∈ (s.node id).children, (s.head c).kind = ((s.setNode i new).head c).kind ∧
        ((s.head c).kind.isExpression ∨ s.head c = (s.setNode i new).head c) :=
      fun c hc => alike c (h.child hc)
    by_cases hi : id = i
    · subst hi
      have hn : (s.setNode id new).node id = new := node_eq (node?_setNode h.lt)
      refine (hrooted h).each_iff.2 ⟨?_, fun c hc => ?_⟩
      · rw [hn]
        refine stable_heads stable (fun c hc => ?_) (step here)
        obtain ⟨hkind, he⟩ := same c (hx.children ▸ hc)
        exact ⟨hkind, fun _ => he⟩
      · rw [hn, hx.children] at hc
        exact ih c hc (below c hc)
    · have hn : (s.setNode i new).node id = s.node id := node_setNode_of_ne new hi
      refine (hrooted h).each_iff.2 ⟨?_, fun c hc => ?_⟩
      · rw [hn]
        refine stable_heads stable (fun c hc => ?_) here
        obtain ⟨hkind, he⟩ := same c hc
        exact ⟨hkind, fun _ => he⟩
      · rw [hn] at hc
        exact ih c hc (below c hc)

/-! ## Places without gaps -/

/-- A tree without repetitions whose places are as many as there are from a first one on has them
all. -/
theorem mem_tags_of_length {t : Tree NodeId} {first : Nat} (hd : t.tags.Nodup)
    (places : ∀ i ∈ t.tags, first ≤ i ∧ i < first + t.size) (hi : first ≤ i ∧ i < first + t.size) :
    i ∈ t.tags := by
  have hsub : t.tags ⊆ List.range' first t.size := fun j hj => List.mem_range'_1.2 (places j hj)
  have all := (List.subperm_of_subset hd hsub).perm_of_length_le (by simp [length_tags])
  exact all.mem_iff.2 (List.mem_range'_1.2 hi)

/-- A planted tree takes all new places. -/
theorem mem_preorder_plant (t : Tree τ) (hi : s.nodes.size ≤ i)
    (hlt : i < (plant t s).2.nodes.size) : i ∈ (plant t s).2.preorder (plant t s).1 := by
  have planted := plant_spec t s
  have size : ((plant t s).2.tree (plant t s).1).size = t.size := by
    rw [← size_retag (fun _ => ()) t, ← size_retag (fun _ => ()) ((plant t s).2.tree _)]
    exact congrArg Tree.size planted.erase_eq
  rw [size_plant] at hlt
  have places : ∀ j ∈ ((plant t s).2.tree (plant t s).1).tags,
      s.nodes.size ≤ j ∧ j < s.nodes.size + ((plant t s).2.tree (plant t s).1).size := by
    intro j hj
    rw [size, ← size_plant]
    exact ⟨planted.fresh j hj, planted.rooted.places_lt j hj⟩
  exact mem_tags_of_length planted.rooted.nodup places ⟨hi, size ▸ hlt⟩

/-- The program reaches every place of a script that was read. -/
theorem Shows.mem_preorder {body : List Reading} (h : s.Shows body) (hi : i < s.nodes.size) :
    i ∈ s.preorder root := by
  have size : (s.tree root).size = s.nodes.size := by
    rw [h.size_eq, ← h.erase_eq, erase, size_retag]
  refine mem_tags_of_length h.rooted.nodup (fun j hj => ⟨Nat.zero_le j, ?_⟩)
    ⟨Nat.zero_le i, by rwa [size, Nat.zero_add]⟩
  rw [size, Nat.zero_add]
  exact h.rooted.places_lt j hj

/-! ## Scripts that were read -/

/-- What hangs under any place of a script that was read is shaped as the reader makes it. -/
theorem shaped_read {source : String} (h : Script.read source = .ok s) (i : NodeId) :
    (s.tree i).Shaped := by
  obtain ⟨body, shows, hs⟩ := shows_read h
  by_cases hi : i < s.nodes.size
  · have program : (of (.program body)).Shaped :=
      shaped_mk.2 ⟨fun c hc => (hs c hc).2, fun c hc => (hs c hc).1⟩
    rw [← shows.erase_eq, erase, shaped_retag] at program
    intro u hu
    refine program u (Tree.mem_preorder_trans (shows.rooted.tree_mem_preorder ?_) hu)
    exact shows.mem_preorder hi
  · rw [tree_of_size_le (Nat.le_of_not_lt hi), shaped_mk]
    exact ⟨trivial, nofun⟩

end Script

end Graft
