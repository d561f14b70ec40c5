import Graft.Proofs.Pass.Tidy

/-!
# Programs obey the grammar

A program that was read, and every program that passes make of one, obeys the grammar: its nodes are
a tree, every slot holds what it is made for, and every identifier is a name that is not reserved.
Passes over single nodes exchange parts that no slot depends on; a structural pass puts in nothing
but what was read, in the place of nodes of the same kind.

* `Script.Produced` - the scripts that reading and passes give
* `Script.Regular` - what every pass keeps
* `grammatical_of_produced` - every such script is a tree that obeys the grammar
-/

namespace Graft

open Chance (Draw Stream Probability)
open Script (root)
open Graft.Tree

variable {σ τ : Type}

namespace Script

variable {s : Script} {id i : NodeId}

/-! ## Slots -/

/-- The places that can be reached from the root. -/
inductive Reaches (s : Script) : NodeId → Prop where
  | root : Reaches s root
  | child {i c : NodeId} : Reaches s i → c ∈ (s.node i).children → Reaches s c

/-- What stands in the slots of the nodes under a place. -/
def slots (s : Script) (id : NodeId) : List NodeId :=
  (s.preorder id).flatMap fun i => (s.node i).children

/-- The part of a script that can be reached is a tree: it is listed once in preorder, and every
place but the root stands in exactly one slot. -/
structure IsTree (s : Script) : Prop where
  stored : ∀ i, s.Reaches i → i < s.nodes.size
  listed : ∀ i, i ∈ s.preorder root ↔ s.Reaches i
  once : (s.preorder root).Nodup
  slot : ∀ i, s.Reaches i → (s.slots root).count i = if i = root then 0 else 1

theorem Rooted.slots_eq (h : s.Rooted id) :
    s.slots id = (s.node id).children ++ (s.node id).children.flatMap s.slots := by
  rw [slots, h.preorder_eq, List.flatMap_cons, List.flatMap_assoc]
  rfl

/-- Every place is listed as the one that a list starts with, or stands in a slot. -/
theorem Rooted.perm_slots (h : s.Rooted id) : (s.preorder id).Perm (id :: s.slots id) := by
  induction h using Rooted.induct with
  | step id h ih =>
    have below : ((s.node id).children.flatMap s.preorder).Perm
        ((s.node id).children.flatMap fun c => [c] ++ s.slots c) :=
      .flatMap_left _ fun c hc => ih c hc
    have apart := List.flatMap_append_perm (s.node id).children (fun c => [c]) s.slots
    rw [List.flatMap_singleton'] at apart
    rw [h.preorder_eq, h.slots_eq]
    exact (below.trans apart.symm).cons id

theorem Rooted.nodup_slots (h : s.Rooted id) : (id :: s.slots id).Nodup :=
  h.perm_slots.nodup_iff.1 h.nodup

/-- A place is a child of one node. -/
theorem Rooted.parent_eq (h : s.Rooted id) {p q c : NodeId} (hp : p ∈ s.preorder id)
    (hq : q ∈ s.preorder id) (hc : c ∈ (s.node p).children) (hc' : c ∈ (s.node q).children) :
    p = q := by
  have apart := (List.nodup_flatMap.1 (List.nodup_cons.1 h.nodup_slots).2).2
  have symm : Std.Symm (Function.onFun List.Disjoint fun i => (s.node i).children) :=
    ⟨fun _ _ h _ hi hj => h hj hi⟩
  by_contra hne
  exact apart.forall hp hq hne hc hc'

/-- The root of a tree is nobody's child in it. -/
theorem Rooted.ne_of_child (h : s.Rooted id) {p c : NodeId} (hp : p ∈ s.preorder id)
    (hc : c ∈ (s.node p).children) : c ≠ id := by
  rintro rfl
  exact (List.nodup_cons.1 h.nodup_slots).1 (List.mem_flatMap.2 ⟨p, hp, hc⟩)

/-- What is reached is where a way from the root leads. -/
theorem reaches_iff_way : s.Reaches i ↔ ∃ above, s.Way root above i := by
  constructor
  · intro reached
    induction reached with
    | root => exact ⟨[], .here root⟩
    | child _ hc ih =>
      obtain ⟨above, hw⟩ := ih
      exact ⟨_, hw.child hc⟩
  · rintro ⟨above, hw⟩
    have goesOn : ∀ {j above i}, s.Way j above i → s.Reaches j → s.Reaches i := by
      intro j above i hw
      induction hw with
      | here => exact fun reached => reached
      | down hc _ ih => exact fun reached => ih (reached.child hc)
    exact goesOn hw .root

theorem Rooted.mem_iff_reaches (h : s.Rooted root) : i ∈ s.preorder root ↔ s.Reaches i := by
  rw [h.acyclic.mem_preorder_iff, reaches_iff_way]

theorem Rooted.isTree (h : s.Rooted root) : s.IsTree := by
  refine ⟨fun i hi => h.places_lt i (h.mem_iff_reaches.2 hi), fun i => h.mem_iff_reaches, h.nodup,
    fun i hi => ?_⟩
  have once := List.count_eq_one_of_mem h.nodup (h.mem_iff_reaches.2 hi)
  rw [h.perm_slots.count_eq, List.count_cons] at once
  by_cases hroot : i = root
  · subst hroot
    simpa using once
  · have other : (root == i) = false := by simpa using Ne.symm hroot
    rw [other] at once
    simpa [hroot] using once

end Script

/-- No node of a program has a program under it, and what has a case of a switch under it is a
switch. -/
theorem Node.Grammatical.child {n : Node (Tree τ) String} (h : n.Grammatical) {c : Tree τ}
    (hc : c ∈ n.children) : c.kind ≠ .program ∧
      (c.kind = .switchCase ↔ ∃ discriminant cases, n = .switchStmt discriminant cases ∧
        c ∈ cases) := by
  have expression : ∀ k : Kind, k.isExpression → k ≠ .program ∧ k ≠ .switchCase := by
    rintro k hk
    cases k <;> simp_all [Kind.isExpression]
  have statement : ∀ k : Kind, k.isStatement → k ≠ .program ∧ k ≠ .switchCase := by
    rintro k hk
    cases k <;> simp_all [Kind.isStatement]
  have slots := ((fits_head_iff n).1 h.fits).1
  cases n <;>
    simp [Node.map, Node.Slots, Declarator.map, Method.map, Property.map, Catch.map] at slots <;>
    simp [Node.children] at hc ⊢ <;> grind

/-! ## What every pass keeps -/

/-- A script is a tree, its slots hold what they are made for, and its identifiers are names. -/
structure Script.Regular (s : Script) : Prop where
  wellformed : s.Wellformed
  named : s.WellNamed
  fits : (s.tree root).Each Node.Fits

theorem regular_read {source : String} {s : Script} (h : Script.read source = .ok s) :
    s.Regular :=
  ⟨wellformed_read h, Script.wellNamed_read h, lasting_fits.shaped _ (Script.shaped_read h root)⟩

/-- A structural pass that borrows from what was read keeps every lasting property of nodes. -/
theorem regular_structural {P : Node Head String → Prop} (lasting : Node.Lasting P)
    {sampler : Sampler σ} {m : Structural σ} (hs : sampler.Stocked m.samples) {s : Script}
    (h : s.Regular) (hp : (s.tree root).Each P) :
    (m.run sampler s).2.1.Regular ∧ ((m.run sampler s).2.1.tree root).Each P := by
  obtain ⟨Kept, supplies, kept⟩ := hs.exists_supplies
  have tidy : Bench.Tidy Kept ⟨s, .start s m.maxMutations, m.stream, m.samples⟩ :=
    ⟨⟨h.wellformed.closed, Pass.sound_start h.wellformed.closed _⟩, h.named,
      Pass.sees_start h.named.declared _, nofun, kept⟩
  have both : (s.tree root).Each fun n => n.Fits ∧ P n :=
    fun u hu => ⟨h.fits u hu, hp u hu⟩
  obtain ⟨after, each⟩ :=
    tidy_structural (lasting_fits.and lasting) supplies m.chance tidy h.wellformed rfl both
  exact ⟨⟨(completed_run supplies.legal m h.wellformed).1, after.named, fun u hu => (each u hu).1⟩,
    fun u hu => (each u hu).2⟩

namespace NodeChange

variable {s : Script} {step : NodeChange}

/-- A change of expressions that leaves their identifiers alone and asks no more of the slots. -/
def Obeys (step : NodeChange) : Prop :=
  ∀ node stream, ∀ new ∈ (step node stream).1, node.kind.isExpression ∧
    new.identifiers = node.identifiers ∧
      ∀ (f : NodeId → Head) (text : Sym → String), (node.map f text).Fits → (new.map f text).Fits

theorem obeys_operator (chance : Probability) : (operator chance).Obeys := by
  intro node stream new h
  cases operated_of_mem h <;> exact ⟨rfl, rfl, fun _ _ fits => .of_slots fits.slots rfl⟩

theorem obeys_number (chance : Probability) : (number chance).Obeys := by
  intro node stream new h
  obtain ⟨raw, raw', -, rfl, rfl⟩ := numbers_of_mem h
  exact ⟨rfl, rfl, fun _ _ _ => .of_slots trivial rfl⟩

theorem regular_setNode (h : s.Regular) {i : NodeId} {new : Node NodeId Sym}
    (keeps : new.kind = (s.node i).kind ∧ new.children = (s.node i).children ∧
      new.names = (s.node i).names)
    (obeys : (s.node i).kind.isExpression ∧ new.identifiers = (s.node i).identifiers ∧
      ∀ (f : NodeId → Head) (text : Sym → String),
        ((s.node i).map f text).Fits → (new.map f text).Fits) :
    (s.setNode i new).Regular := by
  obtain ⟨expression, identifiers, fits⟩ := obeys
  have wellformed := wellformed_setNode h.wellformed keeps
  obtain ⟨kind, children, names⟩ := keeps
  have named : s.Named new := fun x hx => h.wellformed.closed.named i x (names ▸ hx)
  refine ⟨wellformed, h.named.setNode i (identifiers ▸ h.named i), ?_⟩
  exact Script.each_setNode Node.stable_fits h.wellformed.rooted
    ⟨named, children, kind, .inl expression⟩ (fits _ _) h.fits

theorem regular_everywhere (keeps : step.Keeps) (obeys : step.Obeys) (h : s.Regular)
    (stream : Stream) : (everywhere step s stream).1.2.Regular :=
  atEach_induct (fun _ h _ _ stream new hnew =>
    regular_setNode h (keeps _ stream new hnew) (obeys _ stream new hnew)) h stream

end NodeChange

/-! ## Scripts -/

/-- The scripts that there are when samplers are given what was read: those that were read, and
those that passes make of them. -/
inductive Script.Produced : Script → Prop where
  | read {source : String} {s : Script} : Script.read source = .ok s → Produced s
  | pass {σ : Type} {sampler : Sampler σ} {s : Script} (m : Mutator σ) (strategy : Strategy) :
    Produced s → sampler.Stocked m.structural.samples → Produced (m.run sampler strategy s).2.1

theorem Script.Produced.regular {s : Script} (h : s.Produced) : s.Regular := by
  induction h with
  | read h => exact regular_read h
  | pass m strategy _ hs ih =>
    cases strategy with
    | operators =>
      exact NodeChange.regular_everywhere (NodeChange.keeps_operator _)
        (NodeChange.obeys_operator _) ih _
    | literals =>
      exact NodeChange.regular_everywhere (NodeChange.keeps_number _) (NodeChange.obeys_number _)
        ih _
    | structural => exact (regular_structural lasting_fits hs ih ih.fits).1

/-- A program that was read, or that passes made of one, is a tree with one slot for each place but
the root. Every slot holds what it is made for, every identifier is a name that is not reserved,
cases stand in switches alone, and the root is the only program. -/
theorem grammatical_of_produced {s : Script} (h : s.Produced) :
    s.IsTree ∧ (s.tree root).kind = .program ∧ (s.tree root).Grammatical ∧
      ∀ u ∈ (s.tree root).preorder, ∀ c ∈ u.children, c.kind ≠ .program ∧
        (c.kind = .switchCase ↔ ∃ discriminant cases, u.node = .switchStmt discriminant cases ∧
          c ∈ cases) := by
  obtain ⟨wellformed, named, fits⟩ := h.regular
  have grammatical := named.grammatical wellformed.rooted fits
  obtain ⟨body, hbody⟩ := wellformed.program
  refine ⟨wellformed.rooted.isTree, ?_, grammatical, fun u hu c hc => (grammatical u hu).child hc⟩
  rw [wellformed.rooted.kind_eq, Script.kind, hbody]
  rfl

/-- A loop through a collection after a structural pass with a sample of its body's kind. -/
theorem grammatical_of_forOf : ∃ (s t : Script) (m : Mutator Unit),
    Script.read "for (var x of a) { b(x); }" = .ok s ∧
    Script.read "switch (c) { case d: { e(); } }" = .ok t ∧ t.kind 6 = .block ∧
      let s' := (Mutator.run (Sample.pinned ⟨.ofScript "t.js" t, 6⟩) .structural m s).2.1
      s'.IsTree ∧ (s'.tree root).kind = .program ∧ (s'.tree root).Grammatical ∧
        ∀ u ∈ (s'.tree root).preorder, ∀ c ∈ u.children, c.kind ≠ .program ∧
          (c.kind = .switchCase ↔ ∃ discriminant cases, u.node = .switchStmt discriminant cases ∧
            c ∈ cases) := by
  obtain ⟨s, hs, -⟩ : ∃ s, Script.read "for (var x of a) { b(x); }" = .ok s ∧ s.isLegal :=
    exists_read (by decide +kernel)
  obtain ⟨t, ht, hk⟩ : ∃ t, Script.read "switch (c) { case d: { e(); } }" = .ok t ∧
      decide (t.kind 6 = .block) = true := exists_read (by decide +kernel)
  let m : Mutator Unit :=
    ⟨.seeded 0, ⟨.always, .seeded 0⟩, ⟨.always, .seeded 0⟩, ⟨1, .always, .seeded 0, ()⟩⟩
  refine ⟨s, t, m, hs, ht, of_decide_eq_true hk, ?_⟩
  exact grammatical_of_produced (.pass m .structural (.read hs) (.pinned () ⟨_, _, _, ht, rfl⟩))

end Graft
