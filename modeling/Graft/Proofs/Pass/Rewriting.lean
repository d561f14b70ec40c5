import Graft.Proofs.Grammar.Slots
import Graft.Proofs.Pass.Imports

/-!
# What a walk makes of a tree

A walk keeps a node or puts another tree of its kind in its place, and goes on below. So what it
makes of a tree is told by the trees alone: which trees are put in, and that the left side of a loop
through a collection is not one of the places. Whatever every tree that is put in has, and what
stays true of a node when its children give way to others of their kinds, a walk keeps.

* `Rewritten` - what a walk makes of a tree
* `rewritten_visit` - a walk rewrites the tree that it walks through
* `Rewritten.each` - what a walk keeps
-/

namespace Graft

open Chance (Draw Stream Probability)
open Script (Evolves root)
open Work Graft.Tree

variable {σ : Type} {G : Tree NodeId → Prop}

/-! ## Trees -/

/-- What a walk makes of a tree, whose root it may replace if `replaceable` is set. The trees that
it puts in are good ones. -/
inductive Rewritten (G : Tree NodeId → Prop) : Bool → Tree NodeId → Tree NodeId → Prop where
  | same (replaceable : Bool) (t : Tree NodeId) : Rewritten G replaceable t t
  | keep {replaceable : Bool} {place : NodeId} {node : Node NodeId String}
    {f g : NodeId → Tree NodeId} :
    (∀ c ∈ node.children, Rewritten G (some c != node.each?) (f c) (g c)) →
    Rewritten G replaceable (.mk place (node.map f id)) (.mk place (node.map g id))
  | swap {t u v : Tree NodeId} : G u → u.tag = t.tag → u.kind = t.kind → t.kind.isSite →
    Rewritten G false u v → Rewritten G true t v

namespace Rewritten

variable {replaceable : Bool} {t t' : Tree NodeId} {P : Node Head String → Prop}

/-- The root keeps its kind, and its whole head unless it may be replaced. -/
theorem head_eq (h : Rewritten G replaceable t t') :
    t'.kind = t.kind ∧ (replaceable = false → t'.head = t.head) := by
  induction h with
  | same => exact ⟨rfl, fun _ => rfl⟩
  | @keep _ place node f g _ _ =>
    have heads (k : NodeId → Tree NodeId) :
        (mk place (node.map k id)).head = node.map (fun _ => ()) id :=
      Node.map_map k ..
    refine ⟨(Node.kind_map ..).trans (Node.kind_map ..).symm, fun _ => ?_⟩
    rw [heads, heads]
  | swap _ _ hk _ _ ih => exact ⟨ih.1.trans hk, nofun⟩

/-- A walk keeps what the trees have that it puts in, if it outlasts a change of children. -/
theorem each (stable : Node.Stable P) (good : ∀ u, G u → u.Each P)
    (h : Rewritten G replaceable t t') (ht : t.Each P) : t'.Each P := by
  induction h with
  | same => exact ht
  | @keep _ place node f g below ih =>
    have heads (k : NodeId → Tree NodeId) :
        (node.map k id).map Tree.head id = node.map (fun c => (k c).head) id :=
      Node.map_map k ..
    obtain ⟨here, hbelow⟩ := each_mk.1 ht
    rw [Node.children_map, List.forall_mem_map] at hbelow
    refine each_mk.2 ⟨?_, ?_⟩
    · rw [heads] at here ⊢
      refine stable node _ _ (fun c hc => ?_) here
      obtain ⟨hkind, hhead⟩ := (below c hc).head_eq
      rw [kind_head, kind_head]
      refine ⟨hkind.symm, fun hl => .inr (hhead ?_).symm⟩
      rw [hl]
      exact bne_self_eq_false ..
    · rw [Node.children_map, List.forall_mem_map]
      exact fun c hc => ih c hc (hbelow c hc)
  | swap hu _ _ _ _ ih => exact ih (good _ hu)

end Rewritten

/-- A node of a script with names instead of symbols. -/
def Script.shown (s : Script) (place : NodeId) : Node NodeId String :=
  (s.node place).map id s.names.text

/-- The root of a tree is a node whose children are places. -/
theorem Script.Rooted.tree_eq_shown {s : Script} {place : NodeId} (h : s.Rooted place) :
    s.tree place = .mk place ((s.shown place).map s.tree id) := by
  rw [h.tree_eq, Script.shown, Node.map_map]
  rfl

/-- A node that stays is shown as it was. -/
theorem Script.Evolves.shown_eq {changed : List NodeId} {s s' : Script} {place : NodeId}
    (h : Evolves changed s s') (named : s.Named (s.node place))
    (hn : s'.node place = s.node place) : s'.shown place = s.shown place := by
  rw [Script.shown, Script.shown, hn]
  exact Node.map_congr_parts (fun _ _ => rfl) (h.text_eq named)

/-! ## Walks -/

variable {b b' : Bench σ} {id : NodeId}

/-- What the steps of a walk keep of a pass at work, and what they put in the place of a node. -/
structure Rewrites (sampler : Sampler σ) (I : Bench σ → Prop) (G : Tree NodeId → Prop) : Prop where
  legal : sampler.Legal
  sound : ∀ {b}, I b → b.Sound
  enter : ∀ {b} id, I b → I { b with pass := b.pass.enter b.script id }
  leave : ∀ {b} id, I b → I { b with pass := b.pass.leave b.script id }
  draw : ∀ {b} stream, I b → I { b with stream }
  splice : ∀ {b id}, I b → b.script.Rooted id → I (splice sampler id b).2 ∧
    if (Work.splice sampler id b).1 then
      G ((Work.splice sampler id b).2.script.tree id) ∧
        (Work.splice sampler id b).2.script.kind id = b.script.kind id
    else (Work.splice sampler id b).2.script = b.script

variable {sampler : Sampler σ} {I : Bench σ → Prop}

/-- Visits of places in turn, each of which does something to its tree that does not depend on what
is elsewhere. -/
theorem rewritten_forM {visitChild : NodeId → Bool → Work σ Unit}
    {R : NodeId × Bool → Tree NodeId → Tree NodeId → Prop} (cs : List (NodeId × Bool))
    (sound : ∀ {b}, I b → b.Sound)
    (visited : ∀ c ∈ cs, ∀ b : Bench σ, b.Sound → b.script.Rooted c.1 →
      Visited c.1 b (visitChild c.1 c.2 b).2)
    (step : ∀ c ∈ cs, ∀ b : Bench σ, I b → b.script.Rooted c.1 → I (visitChild c.1 c.2 b).2 ∧
      R c (b.script.tree c.1) ((visitChild c.1 c.2 b).2.script.tree c.1))
    (hb : I b) (hr : ∀ c ∈ cs.map Prod.fst, b.script.Rooted c)
    (hd : ((cs.map Prod.fst).flatMap b.script.preorder).Nodup) :
    I (cs.forM (fun c => visitChild c.1 c.2) b).2 ∧ ∀ c ∈ cs,
      R c (b.script.tree c.1) ((cs.forM (fun c => visitChild c.1 c.2) b).2.script.tree c.1) := by
  induction cs generalizing b with
  | nil => exact ⟨hb, nofun⟩
  | cons c cs ih =>
    rw [List.map_cons, List.flatMap_cons, List.nodup_append] at hd
    obtain ⟨-, hrest, hapart⟩ := hd
    rw [List.map_cons, List.forall_mem_cons] at hr
    obtain ⟨hc, hcs⟩ := hr
    change I (cs.forM (fun c => visitChild c.1 c.2) (visitChild c.1 c.2 b).2).2 ∧ ∀ d ∈ c :: cs,
      R d (b.script.tree d.1)
        ((cs.forM (fun c => visitChild c.1 c.2) (visitChild c.1 c.2 b).2).2.script.tree d.1)
    have first := visited c (List.mem_cons_self ..) b (sound hb) hc
    obtain ⟨hb₁, here⟩ := step c (List.mem_cons_self ..) b hb hc
    generalize (visitChild c.1 c.2 b).2 = b₁ at first hb₁ here ⊢
    obtain ⟨kept, same, clear⟩ := first.siblings hcs fun i hi hm => hapart i hi i hm rfl
    have hr₁ : ∀ d ∈ cs.map Prod.fst, b₁.script.Rooted d := fun d hd => (kept d hd).1
    have rest := walked_forM cs (fun d hd => visited d (List.mem_cons_of_mem _ hd)) (sound hb₁) hr₁
      (same ▸ hrest)
    obtain ⟨hb₂, there⟩ := ih (fun d hd => visited d (List.mem_cons_of_mem _ hd))
      (fun d hd => step d (List.mem_cons_of_mem _ hd)) hb₁ hr₁ (same ▸ hrest)
    refine ⟨hb₂, List.forall_mem_cons.2 ⟨?_, fun d hd => ?_⟩⟩
    · have evolves := rest.evolves
      rw [same] at evolves
      rwa [(first.rooted.frame evolves clear).2]
    · rw [← (kept d.1 (List.mem_map_of_mem hd)).2]
      exact there d hd

theorem mem_sites {s : Script} {c : NodeId} (hc : c ∈ (s.node id).children) :
    (c, some c != (s.node id).each?) ∈ sites s id := by
  rw [sites, List.mem_map]
  refine ⟨c, hc, ?_⟩
  cases s.node id <;> rfl

/-- A walk through the children of a node rewrites below the node. -/
theorem rewritten_within (h : Rewrites sampler I G) {visitChild : NodeId → Bool → Work σ Unit}
    (visited : ∀ c r (b : Bench σ), b.Sound → b.script.Rooted c → Visited c b (visitChild c r b).2)
    (step : ∀ c r (b : Bench σ), I b → b.script.Rooted c → I (visitChild c r b).2 ∧
      Rewritten G r (b.script.tree c) ((visitChild c r b).2.script.tree c))
    (hb : I b) (hr : b.script.Rooted id) (replaceable : Bool) :
    I (within visitChild id b).2 ∧
      Rewritten G replaceable (b.script.tree id) ((within visitChild id b).2.script.tree id) := by
  obtain ⟨whole, hnode⟩ := visited_within visited (h.sound hb) hr
  have shown := whole.evolves.shown_eq hr.named hnode
  have hr' := whole.rooted
  rw [hr.tree_eq_shown, hr'.tree_eq_shown, shown]
  clear whole hr' hnode shown
  unfold within
  rw [run_bind, run_onPass, run_bind, run_bind, run_get, run_onPass]
  dsimp only
  have hb₁ := h.enter id hb
  generalize b.pass.enter b.script id = p at hb₁ ⊢
  have apart := (List.nodup_cons.1 hr.branches.apart).2
  rw [← map_fst_sites] at apart
  obtain ⟨hb₂, children⟩ := rewritten_forM
    (R := fun c => Rewritten G c.2) (sites b.script id) h.sound (fun c _ => visited c.1 c.2)
    (fun c _ => step c.1 c.2) hb₁
    (fun c hc => hr.child (by rwa [map_fst_sites] at hc)) apart
  refine ⟨h.leave id hb₂, .keep fun c hc => ?_⟩
  have hc' : c ∈ (b.script.node id).children := by
    rwa [Script.shown, Node.children_map, List.map_id] at hc
  have each : (b.script.shown id).each? = (b.script.node id).each? := by
    rw [Script.shown, Node.each?_map, Option.map_id]
    rfl
  rw [each]
  exact children (c, some c != (b.script.node id).each?) (mem_sites hc')

/-- An attempt puts a good tree of its kind in the place of a node, or leaves the script alone. -/
theorem rewritten_attempt (h : Rewrites sampler I G) (chance : Probability) (budget : Nat)
    (replaceable : Bool) (hb : I b) (hr : b.script.Rooted id) :
    I (attempt sampler chance budget id replaceable b).2 ∧
      if (attempt sampler chance budget id replaceable b).1 then
        replaceable = true ∧ (b.script.kind id).isSite ∧
          G ((attempt sampler chance budget id replaceable b).2.script.tree id) ∧
          (attempt sampler chance budget id replaceable b).2.script.kind id = b.script.kind id
      else (attempt sampler chance budget id replaceable b).2.script = b.script := by
  unfold attempt
  split
  · exact ⟨hb, rfl⟩
  · rcases tryReplace_cases sampler chance id replaceable b with he | ⟨⟨may, site, -⟩, stream, he⟩
    · rw [he]
      exact ⟨hb, rfl⟩
    · have hb' := h.draw stream hb
      rcases he with he | he <;> rw [he]
      · exact ⟨hb', rfl⟩
      · obtain ⟨kept, spliced⟩ := h.splice hb' hr
        refine ⟨kept, ?_⟩
        split at spliced
        · rename_i hs
          exact (if_pos hs).mpr ⟨may, site, spliced⟩
        · rename_i hs
          exact (if_neg hs).mpr spliced

/-- A walk rewrites the tree that it walks through, whatever its bounds are. -/
theorem rewritten_visit (h : Rewrites sampler I G) (chance : Probability) (budget height : Nat)
    {b : Bench σ} {id : NodeId} (replaceable : Bool) (hb : I b) (hr : b.script.Rooted id) :
    I (visit sampler chance budget height id replaceable b).2 ∧
      Rewritten G replaceable (b.script.tree id)
        ((visit sampler chance budget height id replaceable b).2.script.tree id) := by
  rw [run_visit]
  have first := visited_attempt h.legal chance budget replaceable (h.sound hb) hr
  obtain ⟨hb', done⟩ := rewritten_attempt h chance budget replaceable hb hr
  generalize attempt sampler chance budget id replaceable b = tried at first hb' done ⊢
  dsimp only
  have visited (budget height : Nat) : ∀ c r (b : Bench σ), b.Sound → b.script.Rooted c →
      Visited c b (visit sampler chance budget height c r b).2 :=
    fun c r b hs hr => visited_visit h.legal chance budget height r hs hr
  have swapped {b'' : Bench σ} (ht : tried.1 = true)
      (hw : Rewritten G false (tried.2.script.tree id) (b''.script.tree id)) :
      Rewritten G replaceable (b.script.tree id) (b''.script.tree id) := by
    rw [if_pos ht] at done
    obtain ⟨rfl, hsite, good, hkind⟩ := done
    refine .swap good ?_ ?_ ?_ hw
    · rw [Script.tag_tree, Script.tag_tree]
    · rw [hr.kind_eq, first.rooted.kind_eq, hkind]
    · rwa [hr.kind_eq]
  by_cases hreplaced : tried.1 = true ∧ 0 < budget
  · rw [if_pos hreplaced]
    obtain ⟨hb'', walk⟩ := rewritten_within h (visited (budget - 1) tried.2.script.nodes.size)
      (fun c r b hb hr => rewritten_visit h chance (budget - 1) _ r hb hr) hb' first.rooted false
    exact ⟨hb'', swapped hreplaced.1 walk⟩
  · rw [if_neg hreplaced]
    have walk (b'' : Bench σ)
        (hw : ∀ r, Rewritten G r (tried.2.script.tree id) (b''.script.tree id)) :
        Rewritten G replaceable (b.script.tree id) (b''.script.tree id) := by
      by_cases ht : tried.1 = true
      · exact swapped ht (hw false)
      · rw [if_neg ht] at done
        rw [← done]
        exact hw replaceable
    cases height with
    | zero => exact ⟨hb', walk tried.2 fun r => .same r _⟩
    | succ height =>
      have below := fun r => rewritten_within h (visited budget height)
        (fun c r b hb hr => rewritten_visit h chance budget height r hb hr) hb' first.rooted r
      exact ⟨(below false).1, walk _ fun r => (below r).2⟩
termination_by (budget, height)

end Graft
