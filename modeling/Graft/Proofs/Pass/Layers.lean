import Graft.Proofs.Pass.Grammar
import Graft.Proofs.Pass.Turn

/-!
# Layers of names

What a tree declares belongs to the innermost functions around its declarations. A walk through a
tree that stands still keeps a layer of names for each function that it is in, and one for what is
outside of every function: in each of them are the names of the nodes that have been entered and
that the functions up to there are around.

* `Script.Around` - the innermost function around a place
* `Scope.follow` - what an event does to the layers
* `Trail` - the events of a walk, with the functions that are open
* `layered_foldl` - what is in the layers
-/

namespace Graft

open Script (root)

variable {s : Script} {f g : Option NodeId} {i j id : NodeId}

/-! ## Functions around places -/

/-- The innermost function around a place of the program. -/
inductive Script.Around (s : Script) : Option NodeId → NodeId → Prop where
  | outermost : s.Around none root
  | inside {f : Option NodeId} {i c : NodeId} : s.Around f i → (s.kind i).isFunction →
    c ∈ (s.node i).children → s.Around (some i) c
  | beside {f : Option NodeId} {i c : NodeId} : s.Around f i → ¬ (s.kind i).isFunction →
    c ∈ (s.node i).children → s.Around f c

namespace Script.Around

theorem reaches (h : s.Around f i) : s.Reaches i := by
  induction h with
  | outermost => exact .root
  | inside _ _ hc ih => exact .child ih hc
  | beside _ _ hc ih => exact .child ih hc

theorem mem_preorder (h : s.Around f i) (hroot : s.Rooted root) : i ∈ s.preorder root :=
  hroot.mem_iff_reaches.2 h.reaches

/-- Every place of a program has an innermost function around it or is outside of all. -/
theorem exists_of_reaches (h : s.Reaches i) : ∃ f, s.Around f i := by
  induction h with
  | root => exact ⟨none, .outermost⟩
  | @child i c _ hc ih =>
    obtain ⟨f, hf⟩ := ih
    by_cases hi : (s.kind i).isFunction
    · exact ⟨some i, .inside hf hi hc⟩
    · exact ⟨f, .beside hf hi hc⟩

/-- There is one innermost function around a place. -/
theorem unique (hroot : s.Rooted root) (h : s.Around f i) (h' : s.Around g i) : f = g := by
  -- both ways to a place go through its one parent
  induction h generalizing g with
  | outermost =>
    cases h' with
    | outermost => rfl
    | inside hi _ hc | beside hi _ hc =>
      exact absurd rfl (hroot.ne_of_child (hi.mem_preorder hroot) hc)
  | @inside f p c hp hk hc ih =>
    cases h' with
    | outermost => exact absurd rfl (hroot.ne_of_child (hp.mem_preorder hroot) hc)
    | @inside _ q _ hq _ hc' =>
      rw [hroot.parent_eq (hp.mem_preorder hroot) (hq.mem_preorder hroot) hc hc']
    | @beside _ q _ hq hk' hc' =>
      obtain rfl := hroot.parent_eq (hp.mem_preorder hroot) (hq.mem_preorder hroot) hc hc'
      exact absurd hk hk'
  | @beside f p c hp hk hc ih =>
    cases h' with
    | outermost => exact absurd rfl (hroot.ne_of_child (hp.mem_preorder hroot) hc)
    | @inside _ q _ hq hk' hc' =>
      obtain rfl := hroot.parent_eq (hp.mem_preorder hroot) (hq.mem_preorder hroot) hc hc'
      exact absurd hk' hk
    | @beside _ q _ hq _ hc' =>
      obtain rfl := hroot.parent_eq (hp.mem_preorder hroot) (hq.mem_preorder hroot) hc hc'
      exact ih hq

end Script.Around

/-! ## Places that are listed before others -/

theorem Script.Rooted.sublist_preorder (h : s.Rooted id) {p : NodeId} (hp : p ∈ s.preorder id) :
    (s.preorder p).Sublist (s.preorder id) := by
  induction h using Script.Rooted.induct with
  | step id h ih =>
    have below := hp
    rw [h.preorder_eq, List.mem_cons, List.mem_flatMap] at below
    rcases below with rfl | ⟨c, hc, below⟩
    · exact .refl _
    · rw [h.preorder_eq]
      exact (ih c hc below).trans
        ((List.sublist_flatten_of_mem (List.mem_map_of_mem hc)).trans (List.sublist_cons_self _ _))

/-- A node is listed before its children. -/
theorem Script.Rooted.mem_of_child (h : s.Rooted id) {front back : List NodeId}
    (he : s.preorder id = front ++ back) {p c : NodeId} (hp : p ∈ s.preorder id)
    (hc : c ∈ (s.node p).children) (hf : c ∈ front) : p ∈ front := by
  have hpr := h.of_mem_preorder hp
  have below : c ∈ (s.node p).children.flatMap s.preorder :=
    List.mem_flatMap.2 ⟨c, hc, Script.mem_preorder_self _ _⟩
  have both : [p, c].Sublist (front ++ back) := by
    -- the tree of the node is listed in one piece, the node in front
    rw [← he]
    refine List.Sublist.trans ?_ (h.sublist_preorder hp)
    rw [hpr.preorder_eq]
    exact (List.singleton_sublist.2 below).cons_cons p
  obtain ⟨l, r, hlr, hl, hr⟩ := List.sublist_append_iff.1 both
  cases l with
  | cons q l =>
    obtain ⟨rfl, -⟩ := List.cons.inj hlr
    exact hl.subset List.mem_cons_self
  | nil =>
    -- both would be listed behind, but the child is not listed twice
    obtain rfl : [p, c] = r := hlr
    have once := h.nodup
    rw [he, List.nodup_append] at once
    have behind := hr.subset (List.mem_cons_of_mem _ List.mem_cons_self)
    exact absurd rfl (once.2.2 c hf c behind)

/-- The functions around a place are the same where the nodes before it are the same. -/
theorem Script.Around.congr {s' : Script} (hroot : s.Rooted root) {front back : List NodeId}
    (he : s.preorder root = front ++ back) (same : ∀ j ∈ front, s'.node j = s.node j)
    (h : s.Around f i) (hi : i ∈ front) : s'.Around f i := by
  induction h with
  | outermost => exact .outermost
  | @inside f p c hp hk hc ih =>
    have before := hroot.mem_of_child he (hp.mem_preorder hroot) hc hi
    have hnode := same p before
    refine .inside (ih before) ?_ (hnode ▸ hc)
    rwa [Script.kind, hnode]
  | @beside f p c hp hk hc ih =>
    have before := hroot.mem_of_child he (hp.mem_preorder hroot) hc hi
    have hnode := same p before
    refine .beside (ih before) ?_ (hnode ▸ hc)
    rwa [Script.kind, hnode]

/-! ## Walks -/

/-- What an event of a walk does to the layers of names. -/
def Scope.follow (s : Script) (scope : Scope) : Event → Scope
  | .entered id _ _ =>
    if (s.kind id).isFunction then scope.enterFunction (Pass.identityOf (s.node id))
    else scope.declare (s.node id).declaredNames
  | .left id => if (s.kind id).isFunction then scope.exitFunction else scope

/-- The events of a walk through a program up to some point, with the functions that are open there,
innermost first. -/
inductive Trail (s : Script) : List Event → List NodeId → Prop where
  | nil : Trail s [] []
  | enter {events : List Event} {opened : List NodeId} {id : NodeId} (e : Enclosure) (n : Nat) :
    Trail s events opened → s.Around opened.head? id →
      Trail s (events ++ [.entered id e n])
        (if (s.kind id).isFunction then id :: opened else opened)
  | leave {events : List Event} {opened : List NodeId} {id : NodeId} :
    Trail s events opened → ((s.kind id).isFunction → opened.head? = some id) →
      Trail s (events ++ [.left id]) (if (s.kind id).isFunction then opened.tail else opened)

namespace Trail

variable {events more : List Event} {opened : List NodeId}

/-- A walk up to some point was a walk before. -/
theorem exists_front (h : Trail s (events ++ more) opened) : ∃ before, Trail s events before := by
  generalize he : events ++ more = all at h
  induction h generalizing more with
  | nil =>
    obtain ⟨rfl, -⟩ := List.append_eq_nil_iff.1 he
    exact ⟨[], .nil⟩
  | @enter front opened id e n h around ih =>
    rcases List.eq_nil_or_concat more with rfl | ⟨more, z, rfl⟩
    · obtain rfl : events = front ++ [.entered id e n] := (List.append_nil _).symm.trans he
      exact ⟨_, h.enter e n around⟩
    · rw [List.concat_eq_append, ← List.append_assoc] at he
      exact ih (List.append_inj' he rfl).1
  | @leave front opened id h innermost ih =>
    rcases List.eq_nil_or_concat more with rfl | ⟨more, z, rfl⟩
    · obtain rfl : events = front ++ [.left id] := (List.append_nil _).symm.trans he
      exact ⟨_, h.leave innermost⟩
    · rw [List.concat_eq_append, ← List.append_assoc] at he
      exact ih (List.append_inj' he rfl).1

/-- A walk goes through a tree and comes out of it with the functions that were open before. -/
theorem tour (hid : s.Rooted id) (h : Trail s events opened) (around : s.Around opened.head? id)
    (above : List Kind) : Trail s (events ++ (s.tree id).tour above) opened := by
  induction hid using Script.Rooted.induct generalizing events opened above with
  | step id hid ih =>
    obtain ⟨inner, hinner⟩ :
        ∃ inner, (if (s.kind id).isFunction then id :: opened else opened) = inner := ⟨_, rfl⟩
    -- the children in turn
    have below : ∀ cs, cs ⊆ (s.node id).children → ∀ {events}, Trail s events inner →
        Trail s (events ++ cs.flatMap fun c => (s.tree c).tour (above ++ [s.kind id])) inner := by
      intro cs
      induction cs with
      | nil =>
        intro _ events h
        rwa [List.flatMap_nil, List.append_nil]
      | cons c cs ihs =>
        intro hcs events h
        obtain ⟨hc, hcs⟩ := List.cons_subset.1 hcs
        have there : s.Around inner.head? c := by
          rw [← hinner]
          by_cases hk : (s.kind id).isFunction
          · rw [if_pos hk]
            exact .inside around hk hc
          · rw [if_neg hk]
            exact .beside around hk hc
        rw [List.flatMap_cons, ← List.append_assoc]
        exact ihs hcs (ih c hc h there _)
    have entered := h.enter (above.foldl Enclosure.enter .outermost) (above.countP Kind.isFunction)
      around
    rw [hinner] at entered
    have innermost : (s.kind id).isFunction → inner.head? = some id := fun hk => by
      rw [← hinner, if_pos hk, List.head?_cons]
    have back : (if (s.kind id).isFunction then inner.tail else inner) = opened := by
      rw [← hinner]
      split <;> rfl
    have left := (below _ (List.Subset.refl _) entered).leave innermost
    rw [back] at left
    rwa [tour_tree hid, List.cons_append, List.append_cons, ← List.append_assoc]

end Trail

/-! ## Layers -/

/-- A place of a list, which is no function, declares a name, and the innermost function around it
has a property. -/
def Script.DeclaresIn (s : Script) (seen : List NodeId) (F : Option NodeId → Prop) (x : Sym) :
    Prop :=
  ∃ j ∈ seen, ¬ (s.kind j).isFunction ∧ (∃ f, s.Around f j ∧ F f) ∧ x ∈ (s.node j).declaredNames

theorem Script.declaresIn_append {seen : List NodeId} {F : Option NodeId → Prop} {x : Sym}
    (hroot : s.Rooted root) (around : s.Around f id) :
    s.DeclaresIn (seen ++ [id]) F x ↔ s.DeclaresIn seen F x ∨
      (¬ (s.kind id).isFunction ∧ F f ∧ x ∈ (s.node id).declaredNames) := by
  have here : (∃ g, s.Around g id ∧ F g) ↔ F f :=
    ⟨fun ⟨g, hg, hF⟩ => around.unique hroot hg ▸ hF, fun hF => ⟨f, around, hF⟩⟩
  constructor
  · rintro ⟨j, hj, hk, hF, hx⟩
    rcases List.mem_append.1 hj with hj | hj
    · exact .inl ⟨j, hj, hk, hF, hx⟩
    · obtain rfl := List.mem_singleton.1 hj
      exact .inr ⟨hk, here.1 hF, hx⟩
  · rintro (⟨j, hj, rest⟩ | ⟨hk, hF, hx⟩)
    · exact ⟨j, List.mem_append_left _ hj, rest⟩
    · exact ⟨id, List.mem_append_right _ (List.mem_singleton_self _), hk, here.2 hF, hx⟩

/-- What is declared at places that are listed first is the same where their nodes are. -/
theorem Script.declaresIn_congr {s' : Script} (hroot : s.Rooted root) (hroot' : s'.Rooted root)
    {front back : List NodeId} (he : s.preorder root = front ++ back)
    (same : ∀ j ∈ front, s'.node j = s.node j) {F : Option NodeId → Prop} {x : Sym} :
    s'.DeclaresIn front F x ↔ s.DeclaresIn front F x := by
  have around : ∀ j ∈ front, ∀ f, s'.Around f j ↔ s.Around f j := by
    refine fun j hj f => ⟨fun h => ?_, fun h => h.congr hroot he same hj⟩
    -- the place has some function around it here, and it can only be that one
    have listed : j ∈ s.preorder root := he ▸ List.mem_append_left _ hj
    obtain ⟨g, hg⟩ := Around.exists_of_reaches (hroot.mem_iff_reaches.1 listed)
    rwa [h.unique hroot' (hg.congr hroot he same hj)]
  refine exists_congr fun j => and_congr_right fun hj => ?_
  rw [Script.kind, Script.kind, same j hj]
  simp only [around j hj]

/-- Layers of names, innermost first, one for each of the functions and one for what is outside of
all: each has the names that are declared in the functions from its own on. -/
inductive Stacked (s : Script) (seen : List NodeId) : List (List Sym) → List NodeId → Prop where
  | base {layer : List Sym} :
    (∀ x, x ∈ layer ↔ s.DeclaresIn seen (fun f => ∃ g ∈ f, g ∈ ([] : List NodeId)) x) →
      Stacked s seen [layer] []
  | push {layer : List Sym} {layers : List (List Sym)} {p : NodeId} {opened : List NodeId} :
    (∀ x, x ∈ layer ↔ s.DeclaresIn seen (fun f => ∃ g ∈ f, g ∈ p :: opened) x) →
      Stacked s seen layers opened → Stacked s seen (layer :: layers) (p :: opened)

namespace Stacked

variable {seen opened : List NodeId} {layers : List (List Sym)}

/-- The innermost layer. -/
theorem head {layer : List Sym} (h : Stacked s seen (layer :: layers) opened) :
    ∀ x, x ∈ layer ↔ s.DeclaresIn seen (fun f => ∃ g ∈ f, g ∈ opened) x := by
  cases h with
  | base hl => exact hl
  | push hl => exact hl

/-- The layers around the innermost one. -/
theorem tail {layer : List Sym} {p : NodeId} (h : Stacked s seen (layer :: layers) (p :: opened)) :
    Stacked s seen layers opened := by
  cases h with
  | push _ rest => exact rest

/-- There is a layer outside of all functions. -/
theorem headD_cons_tail (h : Stacked s seen layers opened) :
    layers.headD [] :: layers.tail = layers := by
  cases h <;> rfl

/-- What is entered elsewhere does not change the layers. -/
theorem elsewhere (h : Stacked s seen layers opened) (hroot : s.Rooted root)
    (around : s.Around f id) (other : ¬ (s.kind id).isFunction → ∀ g ∈ opened, f ≠ some g) :
    Stacked s (seen ++ [id]) layers opened := by
  induction h with
  | base hl =>
    refine .base fun x => (hl x).trans ?_
    rw [Script.declaresIn_append hroot around]
    exact ⟨.inl, fun h => h.resolve_right fun ⟨_, ⟨g, _, hg⟩, _⟩ => List.not_mem_nil hg⟩
  | @push layer layers p opened hl _ ih =>
    refine .push (fun x => (hl x).trans ?_)
      (ih fun hk g hg => other hk g (List.mem_cons_of_mem _ hg))
    rw [Script.declaresIn_append hroot around]
    exact ⟨.inl, fun h => h.resolve_right fun ⟨hk, ⟨g, hf, hg⟩, _⟩ => other hk g hg hf⟩

end Stacked

theorem filterMap_entered (events : List Event) (id : NodeId) (e : Enclosure) (n : Nat) :
    (events ++ [Event.entered id e n]).filterMap Event.entered? =
      events.filterMap Event.entered? ++ [id] := by
  rw [List.filterMap_append]
  rfl

theorem filterMap_left (events : List Event) (id : NodeId) :
    (events ++ [Event.left id]).filterMap Event.entered? = events.filterMap Event.entered? := by
  rw [List.filterMap_append]
  exact List.append_nil _

theorem left_mem_entered {events : List Event} {p id : NodeId} {e : Enclosure} {n : Nat} :
    Event.left p ∈ events ++ [.entered id e n] ↔ .left p ∈ events := by
  simp

theorem left_mem_left {events : List Event} {p id : NodeId} :
    Event.left p ∈ events ++ [.left id] ↔ .left p ∈ events ∨ p = id := by
  simp

/-- The layers of names behind the events of a walk, with the functions that are open. -/
structure Scope.Layered (s : Script) (events : List Event) (opened : List NodeId) (scope : Scope) :
    Prop where
  depth : scope.functions.length = opened.length
  global : ∀ x, x ∈ scope.global ↔
    s.DeclaresIn (events.filterMap Event.entered?) (· = none) x
  stacked : Stacked s (events.filterMap Event.entered?) (scope.inner :: scope.saved) opened
  distinct : opened.Nodup
  isOpen : ∀ p, p ∈ opened ↔
    p ∈ events.filterMap Event.entered? ∧ (s.kind p).isFunction ∧ .left p ∉ events
  /-- Functions are entered before what is in them. -/
  outer : ∀ j ∈ events.filterMap Event.entered?, ∀ p, s.Around (some p) j →
    p ∈ events.filterMap Event.entered?
  gone : ∀ p, .left p ∈ events → (s.kind p).isFunction → p ∈ events.filterMap Event.entered?

namespace Scope.Layered

variable {events : List Event} {opened : List NodeId} {scope : Scope}

theorem empty (s : Script) : Layered s [] [] .empty := by
  refine ⟨rfl, ?_, .base ?_, List.nodup_nil, ?_, ?_, ?_⟩ <;> simp [Scope.empty, Script.DeclaresIn]

/-- Functions are entered before what is in them, also when one more node is entered. -/
theorem outer_entered (h : Layered s events opened scope) (hroot : s.Rooted root)
    (around : s.Around opened.head? id) : ∀ j ∈ events.filterMap Event.entered? ++ [id], ∀ p,
      s.Around (some p) j → p ∈ events.filterMap Event.entered? ++ [id] := by
  intro j hj p hp
  refine List.mem_append_left _ ?_
  rcases List.mem_append.1 hj with hj | hj
  · exact h.outer j hj p hp
  · obtain rfl := List.mem_singleton.1 hj
    exact ((h.isOpen p).1 (List.mem_of_mem_head? (around.unique hroot hp))).1

/-- A function starts a new layer with what is in the one around it. -/
theorem enterFunction (h : Layered s events opened scope) (hroot : s.Rooted root)
    (around : s.Around opened.head? id) (fresh : id ∉ events.filterMap Event.entered?)
    (hk : (s.kind id).isFunction) (e : Enclosure) (n : Nat) (identity : FunctionIdentity) :
    Layered s (events ++ [.entered id e n]) (id :: opened) (scope.enterFunction identity) := by
  have seen := filterMap_entered events id e n
  have unseen : ∀ F x, s.DeclaresIn (events.filterMap Event.entered? ++ [id]) F x ↔
      s.DeclaresIn (events.filterMap Event.entered?) F x := fun F x =>
    (Script.declaresIn_append hroot around).trans ⟨fun h => h.resolve_right fun h => h.1 hk, .inl⟩
  constructor
  · exact congrArg (· + 1) h.depth
  · intro x
    rw [seen, unseen]
    exact h.global x
  · rw [seen]
    refine .push (fun x => ?_) (h.stacked.elsewhere hroot around fun hn => absurd hk hn)
    rw [unseen]
    refine (h.stacked.head x).trans ⟨?_, ?_⟩
    · rintro ⟨j, hj, hn, ⟨f, hf, g, hg, hm⟩, hx⟩
      exact ⟨j, hj, hn, ⟨f, hf, g, hg, List.mem_cons_of_mem _ hm⟩, hx⟩
    · rintro ⟨j, hj, hn, ⟨f, hf, g, rfl, hm⟩, hx⟩
      rcases List.mem_cons.1 hm with rfl | hm
      · -- nothing inside of the new function has been entered yet
        exact absurd (h.outer j hj g hf) fresh
      · exact ⟨j, hj, hn, ⟨some g, hf, g, rfl, hm⟩, hx⟩
  · exact List.nodup_cons.2 ⟨fun hm => fresh ((h.isOpen id).1 hm).1, h.distinct⟩
  · intro p
    rw [seen, left_mem_entered, List.mem_cons, List.mem_append, List.mem_singleton, h.isOpen]
    constructor
    · rintro (rfl | ⟨hp, rest⟩)
      · exact ⟨.inr rfl, hk, fun hl => fresh (h.gone p hl hk)⟩
      · exact ⟨.inl hp, rest⟩
    · rintro ⟨hp | hp, rest⟩
      · exact .inr ⟨hp, rest⟩
      · exact .inl hp
  · rw [seen]
    exact h.outer_entered hroot around
  · rw [seen]
    exact fun p hp hf => List.mem_append_left _ (h.gone p (left_mem_entered.1 hp) hf)

/-- The names of any other node come into the layer of the functions that are open. -/
theorem declare (h : Layered s events opened scope) (hroot : s.Rooted root)
    (around : s.Around opened.head? id) (hk : ¬ (s.kind id).isFunction) (e : Enclosure) (n : Nat) :
    Layered s (events ++ [.entered id e n]) opened (scope.declare (s.node id).declaredNames) := by
  have seen := filterMap_entered events id e n
  have isOpen : ∀ p, p ∈ opened ↔ p ∈ (events ++ [Event.entered id e n]).filterMap Event.entered? ∧
      (s.kind p).isFunction ∧ .left p ∉ events ++ [.entered id e n] := by
    intro p
    rw [seen, left_mem_entered, List.mem_append, List.mem_singleton, h.isOpen]
    constructor
    · exact fun ⟨hp, rest⟩ => ⟨.inl hp, rest⟩
    · rintro ⟨hp | rfl, hf, rest⟩
      · exact ⟨hp, hf, rest⟩
      · exact absurd hf hk
  have outer := h.outer_entered hroot around
  have gone : ∀ p, Event.left p ∈ events ++ [.entered id e n] → (s.kind p).isFunction →
      p ∈ events.filterMap Event.entered? ++ [id] := fun p hp hf =>
    List.mem_append_left _ (h.gone p (left_mem_entered.1 hp) hf)
  rw [← seen] at outer gone
  cases opened with
  | nil =>
    have outside : ¬ scope.inFunction := by
      simpa [Scope.inFunction] using List.length_eq_zero_iff.1 h.depth
    rw [Scope.declare, if_neg outside]
    refine ⟨h.depth, fun x => ?_, ?_, h.distinct, isOpen, outer, gone⟩
    · rw [seen, Script.declaresIn_append hroot around, ← h.global, List.mem_append]
      simp [hk, or_comm]
    · rw [seen]
      exact h.stacked.elsewhere hroot around fun _ g hg => absurd hg List.not_mem_nil
  | cons p ps =>
    have inside : scope.inFunction := by
      have depth := h.depth
      cases hf : scope.functions <;> simp_all [Scope.inFunction]
    rw [Scope.declare, if_pos inside]
    refine ⟨h.depth, fun x => ?_, ?_, h.distinct, isOpen, outer, gone⟩
    · rw [seen, Script.declaresIn_append hroot around, ← h.global]
      simp
    · rw [seen]
      obtain ⟨hp, -⟩ := List.nodup_cons.1 h.distinct
      refine .push (fun x => ?_) (h.stacked.tail.elsewhere hroot around fun _ g hg he => ?_)
      · rw [Script.declaresIn_append hroot around, ← h.stacked.head, List.mem_append]
        simp [hk, or_comm]
      · obtain rfl := Option.some.inj he
        exact hp hg

/-- Entering a node that has not been entered before. -/
theorem enter (h : Layered s events opened scope) (hroot : s.Rooted root)
    (around : s.Around opened.head? id) (fresh : id ∉ events.filterMap Event.entered?)
    (e : Enclosure) (n : Nat) :
    Layered s (events ++ [.entered id e n])
      (if (s.kind id).isFunction then id :: opened else opened)
      (scope.follow s (.entered id e n)) := by
  rw [Scope.follow]
  by_cases hk : (s.kind id).isFunction
  · rw [if_pos hk, if_pos hk]
    exact h.enterFunction hroot around fresh hk e n _
  · rw [if_neg hk, if_neg hk]
    exact h.declare hroot around hk e n

/-- When the innermost function is left, its layer gives way to the one around it. -/
theorem exitFunction (h : Layered s events (id :: opened) scope) :
    Layered s (events ++ [.left id]) opened scope.exitFunction := by
  have seen := filterMap_left events id
  obtain ⟨hid, distinct⟩ := List.nodup_cons.1 h.distinct
  constructor
  · change scope.functions.tail.length = opened.length
    rw [List.length_tail, h.depth]
    rfl
  · rw [seen]
    exact h.global
  · rw [seen]
    change Stacked s _ (scope.saved.headD [] :: scope.saved.tail) opened
    rw [h.stacked.tail.headD_cons_tail]
    exact h.stacked.tail
  · exact distinct
  · intro p
    have before := h.isOpen p
    rw [List.mem_cons] at before
    rw [seen, left_mem_left, not_or]
    constructor
    · intro hp
      obtain ⟨hs, hf, hl⟩ := before.1 (.inr hp)
      exact ⟨hs, hf, hl, fun he => hid (he ▸ hp)⟩
    · rintro ⟨hs, hf, hl, hne⟩
      exact (before.2 ⟨hs, hf, hl⟩).resolve_left hne
  · rw [seen]
    exact h.outer
  · intro p hp hf
    rw [seen]
    rcases left_mem_left.1 hp with hp | rfl
    · exact h.gone p hp hf
    · exact ((h.isOpen p).1 List.mem_cons_self).1

/-- Leaving any other node changes nothing. -/
theorem leaveOther (h : Layered s events opened scope) (hk : ¬ (s.kind id).isFunction) :
    Layered s (events ++ [.left id]) opened scope := by
  have seen := filterMap_left events id
  have same : ∀ p, (s.kind p).isFunction →
      (Event.left p ∈ events ++ [.left id] ↔ .left p ∈ events) := by
    intro p hf
    rw [left_mem_left]
    exact ⟨fun hp => hp.resolve_right fun he => hk (he ▸ hf), .inl⟩
  refine ⟨h.depth, ?_, ?_, h.distinct, fun p => ?_, ?_, fun p hp hf => ?_⟩
  · rw [seen]
    exact h.global
  · rw [seen]
    exact h.stacked
  · rw [seen, h.isOpen]
    exact and_congr_right fun _ => and_congr_right fun hf => not_congr (same p hf).symm
  · rw [seen]
    exact h.outer
  · rw [seen]
    exact h.gone p ((same p hf).1 hp) hf

/-- Leaving the node that was entered last. -/
theorem leave (h : Layered s events opened scope)
    (innermost : (s.kind id).isFunction → opened.head? = some id) :
    Layered s (events ++ [.left id]) (if (s.kind id).isFunction then opened.tail else opened)
      (scope.follow s (.left id)) := by
  rw [Scope.follow]
  by_cases hk : (s.kind id).isFunction
  · obtain ⟨ps, rfl⟩ := List.head?_eq_some_iff.1 (innermost hk)
    rw [if_pos hk, if_pos hk]
    exact h.exitFunction
  · rw [if_neg hk, if_neg hk]
    exact h.leaveOther hk

end Scope.Layered

/-- The layers behind every walk. -/
theorem layered_foldl {events : List Event} {opened : List NodeId} (h : Trail s events opened)
    (hroot : s.Rooted root) (once : (events.filterMap Event.entered?).Nodup) :
    (events.foldl (Scope.follow s) .empty).Layered s events opened := by
  induction h with
  | nil => exact .empty s
  | @enter events opened id e n h around ih =>
    rw [List.filterMap_append, List.nodup_append] at once
    obtain ⟨once, -, apart⟩ := once
    rw [List.foldl_append]
    have fresh := fun hm => apart id hm id (List.mem_singleton_self _) rfl
    exact (ih once).enter hroot around fresh e n
  | @leave events opened id h innermost ih =>
    rw [List.filterMap_append, List.nodup_append] at once
    rw [List.foldl_append]
    exact (ih once.1).leave innermost

end Graft
