import Graft.Proofs.Pass.Copies
import Graft.Proofs.Pass.Tidy

/-!
# Declarations of what is called

What a borrowed tree calls or constructs is looked for when the tree is repaired, in the program as
it is then. So a name that its source provides is declared by the tree, pending or declared in the
program at that time; and that declaration is only lost with a tree that gives way later on, or with
the one that gives way to the borrowed tree itself. All that is pending is brought in at the end.

* `Arrival` - a tree that came into a script in the course of a pass
* `Grafted` - a borrowed tree becomes part of the program
* `Bench.Covers` - every target that came into the script is declared, pending or lost
* `declared_run` - the declarations of targets after a structural pass
-/

namespace Graft

open Chance (Draw Stream Probability)
open Script (Evolves root)
open Work

variable {σ τ : Type}

/-! ## Names that are declared -/

namespace Tree

/-- Some node of the tree declares a name. -/
def Declares (name : String) (t : Tree τ) : Prop :=
  ∃ u ∈ t.preorder, name ∈ u.node.declaredNames

instance (name : String) (t : Tree τ) : Decidable (t.Declares name) :=
  inferInstanceAs (Decidable (∃ u ∈ t.preorder, name ∈ u.node.declaredNames))

theorem declares_of_copies_pos {t : Tree τ} {name : String} (h : 0 < t.copies name) :
    t.Declares name := by
  obtain ⟨u, hu, hd⟩ := List.countP_pos_iff.1 h
  exact ⟨u, hu, Node.mem_declaredNames_of_declaration (beq_iff_eq.1 hd)⟩

end Tree

namespace Script

variable {s s' : Script} {id i : NodeId}

theorem Rooted.declares_iff (h : s.Rooted id) (name : String) : (s.tree id).Declares name ↔
    ∃ i ∈ s.preorder id, ∃ x ∈ (s.node i).declaredNames, s.names.text x = name := by
  rw [Tree.Declares, h.preorder_tree]
  constructor
  · rintro ⟨u, hu, hn⟩
    obtain ⟨i, hi, rfl⟩ := List.mem_map.1 hu
    rw [(h.of_mem_preorder hi).tree_eq, Tree.node, Node.declaredNames_map] at hn
    obtain ⟨x, hx, he⟩ := List.mem_map.1 hn
    exact ⟨i, hi, x, hx, he⟩
  · rintro ⟨i, hi, x, hx, he⟩
    refine ⟨s.tree i, List.mem_map_of_mem hi, ?_⟩
    rw [(h.of_mem_preorder hi).tree_eq, Tree.node, Node.declaredNames_map]
    exact List.mem_map.2 ⟨x, hx, he⟩

/-- The name of an identifier. -/
def ident? (s : Script) (i : NodeId) : Option String :=
  match s.node i with
  | .ident x => some (s.names.text x)
  | _ => none

theorem ident?_eq_some_iff {name : String} :
    s.ident? i = some name ↔ ∃ x, s.node i = .ident x ∧ s.names.text x = name := by
  unfold ident?
  cases s.node i <;> simp

/-- An identifier that is called or constructed in the program. -/
def Target (s : Script) (kind : Imported) (i : NodeId) (name : String) : Prop :=
  s.ident? i = some name ∧ ∃ p ∈ s.preorder root, (s.node p).target? = some (kind, i)

instance (s : Script) (kind : Imported) (i : NodeId) (name : String) :
    Decidable (s.Target kind i name) :=
  inferInstanceAs (Decidable (_ ∧ ∃ p ∈ s.preorder root, (s.node p).target? = some (kind, i)))

end Script

/-- The program declares a name or is going to. -/
def Bench.Has (b : Bench σ) (name : String) : Prop :=
  (b.script.tree root).Declares name ∨ ∃ q ∈ b.pass.pending, b.script.names.text q.1 = name

/-! ## Trees that join the program -/

/-- A borrowed tree that becomes part of the program, where another may give way to it. -/
structure Grafted (copy : NodeId) (lost : Option (Tree NodeId)) (b b₁ b' : Bench σ) : Prop where
  rooted : b'.script.Rooted root
  names : b'.script.names = b₁.script.names
  pending : b'.pass.pending = b₁.pass.pending
  size : b'.script.nodes.size = b₁.script.nodes.size
  /-- What can be reached is old or from the borrowed tree. -/
  nodes : ∀ p ∈ b'.script.preorder root,
    (p ∈ b.script.preorder root ∧ (b'.script.node p).target? = (b.script.node p).target?) ∨
      ∃ p' ∈ b₁.script.preorder copy, b'.script.node p = b₁.script.node p'
  /-- The whole borrowed tree can be reached. -/
  whole : ∀ p' ∈ b₁.script.preorder copy, ∃ p ∈ b'.script.preorder root,
    b'.script.node p = b₁.script.node p'
  /-- What could be reached still can, unless it gave way. -/
  kept : ∀ j ∈ b.script.preorder root,
    (j ∈ b'.script.preorder root ∧
      (b'.script.node j).declaredNames = (b.script.node j).declaredNames) ∨
      ∃ i, lost = some (b.script.tree i) ∧ b.script.Rooted i ∧ j ∈ b.script.preorder i
  /-- Identifiers stay as they are. -/
  idents : ∀ i x, b'.script.node i = .ident x →
    if i < b.script.nodes.size then b.script.node i = .ident x else b₁.script.node i = .ident x

theorem Script.Evolves.node_eq {s s' : Script} (h : Evolves [] s s') {i : NodeId}
    (hi : i < s.nodes.size) : s'.node i = s.node i := by
  have hn := Array.getElem?_eq_getElem hi
  rw [Script.node_eq (h.node? hn List.not_mem_nil), Script.node_eq hn]

section

variable {source : Script} {place copy id : NodeId} {b b₁ b' : Bench σ}

/-- Identifiers stay where all that changes is a node that is no identifier. -/
theorem Script.Evolves.ident_elsewhere {s s₁ s' : Script} (h : Evolves [] s s₁) {place : NodeId}
    (there : ∀ {i}, i ≠ place → s'.node i = s₁.node i) (here : ∀ x, s'.node place ≠ .ident x)
    {i : NodeId} {x : Sym} (hx : s'.node i = .ident x) :
    if i < s.nodes.size then s.node i = .ident x else s₁.node i = .ident x := by
  have hi : i ≠ place := by
    rintro rfl
    exact here x hx
  rw [there hi] at hx
  split
  · rename_i hlt
    rwa [← h.node_eq hlt]
  · exact hx

/-- A borrowed tree in the place of a node that it is of the kind of. -/
theorem Borrowed.grafted_replace (h : Borrowed source place copy b b₁)
    (visited : Visited id b
      { b₁ with script := b₁.script.replace id copy, pass := b₁.pass.recordMutation })
    (hroot : b.script.Rooted root) (hid : id ∈ b.script.preorder root)
    (hkind : b₁.script.kind copy = b.script.kind id) (site : (b.script.kind id).isSite) :
    Grafted copy (some (b.script.tree id)) b b₁
      { b₁ with script := b₁.script.replace id copy, pass := b₁.pass.recordMutation } := by
  have hr := hroot.of_mem_preorder hid
  obtain ⟨rooted, places⟩ := visited.graft hroot hid
  have hlt : id < b₁.script.nodes.size := Nat.lt_of_lt_of_le hr.lt h.evolves.size_le
  have apart : id ∉ b₁.script.preorder copy := fun hi => Nat.not_le.2 hr.lt (h.fresh id hi)
  have here : (b₁.script.replace id copy).node id = b₁.script.node copy :=
    Script.node_eq (Script.node?_setNode hlt)
  have there : ∀ {i}, i ≠ id → (b₁.script.replace id copy).node i = b₁.script.node i := fun hi =>
    Script.node_setNode_of_ne _ hi
  have old : ∀ {i}, i ∈ b.script.preorder root → i ∉ b.script.preorder id →
      (b₁.script.replace id copy).node i = b.script.node i := by
    intro i hi hn
    have hne : i ≠ id := fun he => hn (he ▸ Script.mem_preorder_self _ _)
    rw [there hne, h.evolves.node_eq (hroot.places_lt i hi)]
  have hcopy := h.rooted.preorder_eq
  have hsite := Script.preorder_replace hlt h.rooted apart
  refine ⟨rooted, rfl, rfl, by simp [Script.replace, Script.setNode], fun p hp => ?_,
    fun p hp => ?_, fun j hj => ?_, fun i x => h.evolves.ident_elsewhere there fun x hx => ?_⟩
  · rcases (places p).1 hp with ⟨hp, hn⟩ | hp
    · exact .inl ⟨hp, congrArg Node.target? (old hp hn)⟩
    · dsimp only at hp
      rw [hsite, List.mem_cons] at hp
      rcases hp with rfl | hp
      · exact .inr ⟨copy, Script.mem_preorder_self _ _, here⟩
      · have hm : p ∈ b₁.script.preorder copy := hcopy ▸ List.mem_cons_of_mem _ hp
        exact .inr ⟨p, hm, there fun he => apart (he ▸ hm)⟩
  · have hp' := hp
    rw [hcopy, List.mem_cons] at hp'
    rcases hp' with rfl | hm
    · exact ⟨id, (places id).2 (.inr (Script.mem_preorder_self _ _)), here⟩
    · refine ⟨p, (places p).2 (.inr ?_), there fun he => apart (he ▸ hp)⟩
      dsimp only
      rw [hsite]
      exact List.mem_cons_of_mem _ hm
  · by_cases hm : j ∈ b.script.preorder id
    · exact .inr ⟨id, rfl, hr, hm⟩
    · exact .inl ⟨(places j).2 (.inl ⟨hj, hm⟩), congrArg Node.declaredNames (old hj hm)⟩
  · -- a site is no identifier, and so the tree that takes its place is none
    rw [← hkind, Script.kind, here.symm.trans hx] at site
    cases site

/-- A borrowed tree behind the statements of the program. -/
theorem Borrowed.grafted_push (h : Borrowed source place copy b b₁) (hw : b.script.Wellformed) :
    Grafted copy none b b₁
      { b₁ with script := b₁.script.push copy, pass := b₁.pass.markStale } := by
  obtain ⟨hw₁, htree, apart⟩ := h.beside hw
  obtain ⟨body, hbody⟩ := hw₁.program
  have hbody₀ : b.script.node root = .program body :=
    (h.evolves.node_eq hw.rooted.lt).symm.trans hbody
  have places₁ : b₁.script.preorder root = b.script.preorder root := by
    rw [Script.preorder_eq_tags, htree, ← Script.preorder_eq_tags]
  have places : (b₁.script.push copy).preorder root =
      b.script.preorder root ++ b₁.script.preorder copy := by
    rw [Script.preorder_push hbody hw₁.rooted h.rooted apart, places₁]
  have rooted := (Script.push_spec hbody hw₁.rooted h.rooted apart).1
  have run := Script.push_eq hbody copy
  have here : (b₁.script.push copy).node root = .program (body ++ [copy]) := by
    rw [run]
    exact Script.node_eq (Script.node?_setNode hw₁.rooted.lt)
  have there : ∀ {i}, i ≠ root → (b₁.script.push copy).node i = b₁.script.node i := fun hi => by
    rw [run, Script.node_setNode_of_ne _ hi]
  have old : ∀ {i}, i ∈ b.script.preorder root → i ≠ root →
      (b₁.script.push copy).node i = b.script.node i := fun hi hne => by
    rw [there hne, h.evolves.node_eq (hw.rooted.places_lt _ hi)]
  have hne : ∀ {i}, i ∈ b₁.script.preorder copy → i ≠ root := by
    rintro i hi rfl
    exact apart root hi (Script.mem_preorder_self _ _)
  refine ⟨rooted, by dsimp only; rw [run]; rfl, rfl, by simp [run, Script.setNode],
    fun p hp => ?_, fun p hp => ?_, fun j hj => .inl ?_,
    fun i x => h.evolves.ident_elsewhere there fun x hx => ?_⟩
  · dsimp only at hp
    rw [places, List.mem_append] at hp
    refine hp.imp (fun hp => ⟨hp, ?_⟩) fun hp => ⟨p, hp, there (hne hp)⟩
    by_cases hpr : p = root
    · subst hpr
      rw [here, hbody₀]
      rfl
    · rw [old hp hpr]
  · dsimp only
    rw [places]
    exact ⟨p, List.mem_append_right _ hp, there (hne hp)⟩
  · dsimp only
    rw [places]
    refine ⟨List.mem_append_left _ hj, ?_⟩
    by_cases hjr : j = root
    · subst hjr
      rw [here, hbody₀]
      rfl
    · rw [old hj hjr]
  · cases here.symm.trans hx

/-- A name that the program has or is going to have stays so, unless its declaration gives way. -/
theorem Grafted.has {lost : Option (Tree NodeId)} (h : Grafted copy lost b b₁ b')
    (borrowed : Borrowed source place copy b b₁) (closed : b.script.Closed)
    (hroot : b.script.Rooted root) (provided : ∀ q ∈ b.pass.pending, b.script.Provides q)
    {name : String} (has : b.Has name) : b'.Has name ∨ ∃ t ∈ lost, t.Declares name := by
  have text : ∀ {x}, b.script.Knows x → b'.script.names.text x = b.script.names.text x := by
    rintro x ⟨name, hx⟩
    rw [h.names, Script.text_eq hx, Script.text_eq (borrowed.evolves.text? hx)]
  rcases has with has | ⟨q, hq, hn⟩
  · obtain ⟨j, hj, x, hx, hn⟩ := (hroot.declares_iff name).1 has
    rcases h.kept j hj with ⟨hj', same⟩ | ⟨i, rfl, hi, hji⟩
    · refine .inl (.inl ((h.rooted.declares_iff name).2 ⟨j, hj', x, same ▸ hx, ?_⟩))
      rw [text (Pass.knows_of_declared closed j x hx), hn]
    · exact .inr ⟨_, rfl, (hi.declares_iff name).2 ⟨j, hji, x, hx, hn⟩⟩
  · obtain ⟨name', hx, -⟩ := (provided q hq).provided
    refine .inl (.inr ⟨q, ?_, (text ⟨name', hx⟩).trans hn⟩)
    rw [h.pending]
    exact borrowed.pending.subset hq

/-- A target at an old place was one before. -/
theorem Grafted.target_old {lost : Option (Tree NodeId)} (h : Grafted copy lost b b₁ b')
    (borrowed : Borrowed source place copy b b₁) (closed : b.script.Closed) {kind : Imported}
    {i : NodeId} {name : String} (hi : i < b.script.nodes.size)
    (ht : b'.script.Target kind i name) : b.script.Target kind i name := by
  obtain ⟨ident, p, hp, ht⟩ := ht
  obtain ⟨x, hx, hn⟩ := Script.ident?_eq_some_iff.1 ident
  have before : b.script.node i = .ident x := by simpa [hi] using h.idents i x hx
  obtain ⟨text, known⟩ : b.script.Knows x := closed.named i x (by
    rw [before]
    simp [Node.names, Node.parts, rights])
  refine ⟨Script.ident?_eq_some_iff.2 ⟨x, before, ?_⟩, ?_⟩
  · rw [← hn, h.names, Script.text_eq known, Script.text_eq (borrowed.evolves.text? known)]
  · rcases h.nodes p hp with ⟨hp, same⟩ | ⟨p', hp', same⟩
    · exact ⟨p, hp, same ▸ ht⟩
    · rw [same] at ht
      have below := borrowed.rooted.preorder_subset hp' ((borrowed.rooted.of_mem_preorder
        hp').mem_preorder_child (Node.mem_children_of_target ht) (Script.mem_preorder_self _ _))
      exact absurd hi (Nat.not_lt.2 (borrowed.fresh i below))

/-- A target at a new place is one in the borrowed tree. -/
theorem Grafted.target_new {lost : Option (Tree NodeId)} (h : Grafted copy lost b b₁ b')
    (hroot : b.script.Rooted root) {kind : Imported} {i : NodeId} {name : String}
    (hi : b.script.nodes.size ≤ i) (ht : b'.script.Target kind i name) :
    ∃ p ∈ b₁.script.preorder copy, (b₁.script.node p).target? = some (kind, i) ∧
      ∃ x, b₁.script.node i = .ident x ∧ b₁.script.names.text x = name := by
  obtain ⟨ident, p, hp, ht⟩ := ht
  obtain ⟨x, hx, hn⟩ := Script.ident?_eq_some_iff.1 ident
  have now : b₁.script.node i = .ident x := by simpa [Nat.not_lt.2 hi] using h.idents i x hx
  rcases h.nodes p hp with ⟨hp, same⟩ | ⟨p', hp', same⟩
  · rw [same] at ht
    have below := hroot.preorder_subset hp ((hroot.of_mem_preorder hp).mem_preorder_child
      (Node.mem_children_of_target ht) (Script.mem_preorder_self _ _))
    exact absurd (hroot.places_lt i below) (Nat.not_lt.2 hi)
  · exact ⟨p', hp', same ▸ ht, x, now, h.names ▸ hn⟩

/-- A target of the borrowed tree is declared, pending or lost. -/
theorem Grafted.answered {lost : Option (Tree NodeId)} (h : Grafted copy lost b b₁ b')
    (borrowed : Borrowed source place copy b b₁) (closed : b.script.Closed)
    (hroot : b.script.Rooted root) (provided : ∀ q ∈ b.pass.pending, b.script.Provides q)
    {entry : Entry} {kind : Imported} {x : Sym} (answers : b₁.Answers copy entry kind x)
    (hp : (kind.provider? entry (b₁.script.names.text x)).isSome) :
    b'.Has (b₁.script.names.text x) ∨ ∃ t ∈ lost, t.Declares (b₁.script.names.text x) := by
  rcases answers with ⟨p, hp, hx⟩ | pending | found | none
  · obtain ⟨p', hp', same⟩ := h.whole p hp
    refine .inl (.inl ((h.rooted.declares_iff _).2 ⟨p', hp', x, same ▸ hx, ?_⟩))
    rw [h.names]
  · obtain ⟨q, hq, rfl⟩ := List.mem_map.1 (Pass.isPending_iff.1 pending)
    refine .inl (.inr ⟨q, h.pending ▸ hq, ?_⟩)
    rw [h.names]
  · -- the program is what it was before the tree was borrowed
    obtain ⟨j, hj⟩ := Option.isSome_iff_exists.1 found
    obtain ⟨hroot₁, same⟩ := hroot.grown borrowed.evolves
    obtain ⟨hj, hd⟩ := Imported.declared_of_find hj
    refine h.has borrowed closed hroot provided (.inl ?_)
    rw [← same]
    exact (hroot₁.declares_iff _).2 ⟨j, hj, x, Imported.mem_declaredNames hd, rfl⟩
  · rw [none] at hp
    cases hp

end

/-! ## Arrivals -/

/-- A tree that came into a script: the entry that it is from, the places that were made for it, and
what gave way to it. -/
structure Arrival where
  source : Entry
  first : NodeId
  /-- The first place behind those of the tree. -/
  last : NodeId
  lost : Option (Tree NodeId)

/-- Whether a place was made for a tree. -/
def Arrival.Holds (a : Arrival) (i : NodeId) : Prop :=
  a.first ≤ i ∧ i < a.last

instance (a : Arrival) (i : NodeId) : Decidable (a.Holds i) :=
  inferInstanceAs (Decidable (_ ∧ _))

/-- The declaration of a name gave way to one of these trees. -/
def Lost (arrivals : List Arrival) (name : String) : Prop :=
  ∃ a ∈ arrivals, ∃ t ∈ a.lost, t.Declares name

/-- All that came into the script since it had so many nodes: every target of it that its source
provides is declared or pending, or its declaration gave way to the tree that it came with or to a
later one. -/
structure Bench.Covers (first : NodeId) (arrivals : List Arrival) (b : Bench σ) : Prop where
  starts : first ≤ b.script.nodes.size
  places : ∀ a ∈ arrivals, a.last ≤ b.script.nodes.size
  all : ∀ i, first ≤ i → i < b.script.nodes.size → ∃ a ∈ arrivals, a.Holds i
  covered : ∀ front a back, arrivals = front ++ a :: back → ∀ kind i name, a.Holds i →
    b.script.Target kind i name → kind.sought name → (kind.provider? a.source name).isSome →
      b.Has name ∨ Lost (a :: back) name

theorem covers_start (b : Bench σ) : b.Covers b.script.nodes.size [] := by
  refine ⟨Nat.le_refl _, nofun, fun i hi hlt => absurd hlt (Nat.not_lt.2 hi),
    fun front a back h => ?_⟩
  exact absurd h (by simp)

theorem Bench.Covers.of_eq {first : NodeId} {arrivals : List Arrival} {b b' : Bench σ}
    (h : b.Covers first arrivals) (hs : b'.script = b.script)
    (hp : b'.pass.pending = b.pass.pending) : b'.Covers first arrivals := by
  obtain ⟨starts, places, all, covered⟩ := h
  rw [← hs] at starts places all
  refine ⟨starts, places, all, fun front a back he kind i name hi ht hn hk => ?_⟩
  rw [hs] at ht
  refine (covered front a back he kind i name hi ht hn hk).imp_left fun has => ?_
  rwa [Bench.Has, hs, hp]

/-- A tree that joins the program keeps it covered. -/
theorem Grafted.covers {source : Entry} {place copy : NodeId} {lost : Option (Tree NodeId)}
    {b b₁ b' : Bench σ} (h : Grafted copy lost b b₁ b')
    (borrowed : Borrowed source.script place copy b b₁) (closed : b.script.Closed)
    (hroot : b.script.Rooted root) (provided : ∀ q ∈ b.pass.pending, b.script.Provides q)
    (answers : ∀ p ∈ b₁.script.preorder copy, ∀ kind i,
      (b₁.script.node p).target? = some (kind, i) → ∀ x, b₁.script.node i = .ident x →
        kind.sought (b₁.script.names.text x) → b₁.Answers copy source kind x)
    {first : NodeId} {arrivals : List Arrival} (covers : b.Covers first arrivals) :
    b'.Covers first
      (arrivals ++ [⟨source, b.script.nodes.size, b'.script.nodes.size, lost⟩]) := by
  have grown : b.script.nodes.size ≤ b'.script.nodes.size := h.size ▸ borrowed.evolves.size_le
  refine ⟨Nat.le_trans covers.starts grown, ?_, fun i hi hlt => ?_, ?_⟩
  · refine List.forall_mem_append.2 ⟨fun a ha => Nat.le_trans (covers.places a ha) grown, ?_⟩
    exact List.forall_mem_singleton.2 (Nat.le_refl _)
  · by_cases hold : i < b.script.nodes.size
    · obtain ⟨a, ha, hai⟩ := covers.all i hi hold
      exact ⟨a, List.mem_append_left _ ha, hai⟩
    · exact ⟨_, List.mem_append_right _ (List.mem_singleton_self _), Nat.le_of_not_lt hold, hlt⟩
  · intro front a back he kind i name hai ht sought hk
    rcases List.eq_nil_or_concat back with rfl | ⟨before, z, rfl⟩
    · obtain ⟨-, ha⟩ := List.append_inj' he rfl
      obtain rfl := List.singleton_inj.1 ha
      obtain ⟨p, hp, target, x, hx, rfl⟩ := h.target_new hroot hai.1 ht
      have answered := answers p hp kind i target x hx sought
      exact (h.answered borrowed closed hroot provided answered hk).imp_right
        fun lost => ⟨_, List.mem_singleton_self _, lost⟩
    · rw [List.concat_eq_append, ← List.cons_append, ← List.append_assoc] at he
      obtain ⟨same, hz⟩ := List.append_inj' he rfl
      obtain rfl := List.singleton_inj.1 hz
      have ha : a ∈ arrivals := same ▸ List.mem_append_right _ List.mem_cons_self
      have hi : i < b.script.nodes.size := Nat.lt_of_lt_of_le hai.2 (covers.places a ha)
      have old := h.target_old borrowed closed hi ht
      rw [List.concat_eq_append, ← List.cons_append]
      rcases covers.covered front a before same kind i name hai old sought hk with
        has | ⟨l, hl, lost⟩
      · exact (h.has borrowed closed hroot provided has).imp_right
          fun lost => ⟨_, List.mem_append_right _ (List.mem_singleton_self _), lost⟩
      · exact .inr ⟨l, List.mem_append_left _ hl, lost⟩

/-! ## Walks -/

/-- The sample that is put in the place of a node in a turn. -/
def Moment.sample? (sampler : Sampler σ) (chance : Probability) (m : Moment σ) : Option Sample :=
  match m.turn with
  | .enter id replaceable =>
    let (wanted, b) := chosen chance id replaceable m.before
    if wanted then (sampler (b.script.kind id) b.pass.enclosure b.samples b.stream).1.1 else none
  | .leave _ => none

/-- A turn that enters a node draws where the node may be replaced. Where the draw has it so, the
sampler is asked. -/
theorem take_enter (sampler : Sampler σ) (chance : Probability) (id : NodeId) (replaceable : Bool)
    (b : Bench σ) : ∃ wanted stream,
      (wanted = true → replaceable = true ∧ (b.script.kind id).isSite ∧ b.pass.hasBudget) ∧
      (take sampler chance (.enter id replaceable) b).ready =
        (if wanted then (splice sampler id { b with stream }).2 else { b with stream }) ∧
      (take sampler chance (.enter id replaceable) b).sample? sampler chance =
        if wanted then (sampler (b.script.kind id) b.pass.enclosure b.samples stream).1.1
        else none := by
  obtain ⟨wanted, stream, choice, may⟩ := exists_chosen chance id replaceable b
  refine ⟨wanted, stream, may, ?_, ?_⟩
  · change (tryReplace sampler chance id replaceable b).2 = _
    unfold tryReplace
    rw [run_bind, choice]
    cases wanted <;> rfl
  · unfold Moment.sample? take
    dsimp only
    rw [choice]

/-- What comes into the script in a turn. -/
def Moment.arrival? (sampler : Sampler σ) (chance : Probability) (m : Moment σ) : Option Arrival :=
  (m.sample? sampler chance).map fun sample =>
    { source := sample.entry
      first := m.before.script.nodes.size
      last := m.ready.script.nodes.size
      lost := some (m.before.script.tree m.turn.place) }

variable {Kept : σ → Prop} {sampler : Sampler σ} {b : Bench σ} {id : NodeId} {first : NodeId}
  {arrivals : List Arrival}

/-- A sample in the place of a node keeps the program covered. -/
theorem covers_splice (hs : sampler.Supplies Kept) (hb : b.Settled Kept) (sound : b.Sound)
    (hroot : b.script.Rooted root) (hid : id ∈ b.script.preorder root)
    (site : (b.script.kind id).isSite) (covers : b.Covers first arrivals) :
    let sample := (sampler (b.script.kind id) b.pass.enclosure b.samples b.stream).1.1
    (splice sampler id b).2.Covers first (arrivals ++ (sample.map fun sample =>
      { source := sample.entry, first := b.script.nodes.size,
        last := (splice sampler id b).2.script.nodes.size,
        lost := some (b.script.tree id) : Arrival }).toList) := by
  have spliced := visited_splice hs.legal sound (hroot.of_mem_preorder hid)
  rw [run_splice] at spliced ⊢
  have kept := hs.kept (b.script.kind id) b.pass.enclosure b.samples b.stream hb.kept
  have read := hs.read (b.script.kind id) b.pass.enclosure b.samples b.stream hb.kept
  generalize sampler (b.script.kind id) b.pass.enclosure b.samples b.stream = asked at *
  obtain ⟨⟨sample, samples⟩, stream⟩ := asked
  rcases sample with _ | sample
  · dsimp only
    rw [Option.map_none, Option.toList_none, List.append_nil]
    exact covers.of_eq rfl rfl
  · have hb₀ := hb.drawn kept stream
    have sound₀ := sound.drawn samples stream
    obtain ⟨hread, hkind⟩ := read sample rfl
    have borrowed := borrowed_copy sound₀ sample.entry sample.node
    have kinds := kind_copy sound₀ sample.entry sample.node
    obtain ⟨-, -, answers⟩ := settled_copy hb₀ sound₀ hroot hread sample.node
    dsimp only at spliced borrowed kinds answers ⊢
    generalize (prepare _ sample.entry _).2 = b₁ at spliced borrowed kinds answers ⊢
    have visited : Visited id { b with samples, stream } _ :=
      ⟨spliced.rooted, spliced.places, spliced.evolves, spliced.legal, spliced.enclosures,
        spliced.pending, spliced.sound⟩
    have grafted := borrowed.grafted_replace visited hroot hid (kinds.trans hkind) site
    exact grafted.covers borrowed sound.closed hroot hb.provided answers (covers.of_eq rfl rfl)

/-- A turn of a walk keeps the program covered. -/
theorem covers_take (hs : sampler.Supplies Kept) (chance : Probability) (turn : Turn)
    (hb : b.Settled Kept) (sound : b.Sound) (hroot : b.script.Rooted root)
    (hturn : turn.place ∈ b.script.preorder root) (covers : b.Covers first arrivals) :
    (take sampler chance turn b).after.Covers first
      (arrivals ++ ((take sampler chance turn b).arrival? sampler chance).toList) := by
  cases turn with
  | leave id =>
    have pending := (Pass.leave_eq b.script id b.pass).2.1
    change Bench.Covers first (arrivals ++ []) { b with pass := b.pass.leave b.script id }
    rw [List.append_nil]
    exact covers.of_eq rfl pending
  | enter id replaceable =>
    obtain ⟨wanted, stream, may, ready, sample⟩ := take_enter sampler chance id replaceable b
    -- entering the node changes nothing but what the pass knows
    suffices ready_covers : (take sampler chance (.enter id replaceable) b).ready.Covers first
        (arrivals ++ ((take sampler chance (.enter id replaceable) b).arrival? sampler
          chance).toList) from
      ready_covers.of_eq rfl (Pass.enter_eq _ id _).2.1
    rw [Moment.arrival?, sample, ready]
    cases wanted with
    | true =>
      exact covers_splice (b := { b with stream }) hs
        (hb.drawn hb.kept stream) (sound.drawn b.samples stream) hroot hturn (may rfl).2.1
        (covers.of_eq rfl rfl)
    | false =>
      change Bench.Covers first (arrivals ++ []) { b with stream }
      rw [List.append_nil]
      exact covers.of_eq rfl rfl

/-- Every turn of a walk keeps the program covered. -/
theorem carries_covers (hs : sampler.Supplies Kept) (chance : Probability) (first : NodeId) :
    Carries sampler chance fun moments b => b.Settled Kept ∧
      b.Covers first (moments.filterMap (Moment.arrival? sampler chance)) := by
  rintro moments b turn ⟨hb, covers⟩ sound hroot place
  refine ⟨carries_settled hs chance moments b turn hb sound hroot place, ?_⟩
  have step := covers_take hs chance turn hb sound hroot place covers
  rw [List.filterMap_append, List.filterMap_cons, List.filterMap_nil]
  revert step
  cases (take sampler chance turn b).arrival? sampler chance <;> exact id

/-! ## Imports -/

/-- What is brought in by the imports from a rank on, as long as the rounds last. -/
def Work.imported : Nat → Nat → Bench σ → List Arrival
  | 0, _, _ => []
  | rounds + 1, rank, b =>
    match b.pass.pending[rank]? with
    | none => []
    | some (_, entry) =>
      let b' := (bringIn entry b).2
      { source := entry.source
        first := b.script.nodes.size
        last := b'.script.nodes.size
        lost := none } :: imported rounds (rank + 1) b'

theorem covers_bringIn (hb : b.Settled Kept) (sound : b.Sound) (hw : b.script.Wellformed)
    {entry : Import} (hsource : entry.source.Read) (covers : b.Covers first arrivals) :
    (bringIn entry b).2.Covers first (arrivals ++ [{
      source := entry.source, first := b.script.nodes.size,
      last := (bringIn entry b).2.script.nodes.size, lost := none }]) := by
  rw [run_bringIn]
  have borrowed := borrowed_copy sound entry.source entry.declaration
  obtain ⟨-, -, answers⟩ := settled_copy hb sound hw.rooted hsource entry.declaration
  dsimp only at borrowed answers ⊢
  generalize (prepare _ entry.source _).2 = b₁ at borrowed answers ⊢
  exact (borrowed.grafted_push hw).covers borrowed sound.closed hw.rooted hb.provided answers covers

theorem covers_flushFrom (rounds rank : Nat) (hb : b.Settled Kept) (sound : b.Sound)
    (hw : b.script.Wellformed) (covers : b.Covers first arrivals) :
    (flushFrom rounds rank b).2.Covers first (arrivals ++ imported rounds rank b) := by
  induction rounds generalizing rank b arrivals with
  | zero => rwa [imported, List.append_nil]
  | succ rounds ih =>
    rw [run_flushFrom, imported]
    cases hq : b.pass.pending[rank]? with
    | none => rwa [List.append_nil]
    | some q =>
      have hmem := List.mem_of_getElem? hq
      have completed := completed_bringIn sound hw (sound.pass.vetted q hmem)
      have read := (hb.provided q hmem).read
      have step := ih (rank + 1) (settled_bringIn hb sound hw.rooted read).1 completed.sound
        completed.wellformed (covers_bringIn hb sound hw read covers)
      rwa [List.append_assoc, List.singleton_append] at step

/-! ## Passes -/

/-- All that comes into the script in a structural pass, in order. -/
def Structural.arrived (sampler : Sampler σ) (m : Structural σ) (s : Script)
    (moments : List (Moment σ)) : List Arrival :=
  moments.filterMap (Moment.arrival? sampler m.chance) ++
    imported (flushBound (m.walked sampler s).pass + 1) 0 (m.walked sampler s)

/-- The calls and constructions in a program after a structural pass over a source text. Each place
of the program that is not from the source text came with one of the arrivals. An identifier that is
called or constructed there is declared if the source of the arrival provides its name, unless a
declaration of the name gave way to that arrival or to a later one. -/
theorem declared_run {sampler : Sampler σ} {source : String} {s : Script}
    (hs : Script.read source = .ok s) (m : Structural σ) (hsampler : sampler.Stocked m.samples) :
    ∃ moments, Toured sampler m.chance (m.bench s) moments (m.walked sampler s) ∧
      let done := m.finished sampler s
      let arrivals := m.arrived sampler s moments
      (m.run sampler s).2.1 = done.script ∧
      (∀ i ∈ done.script.preorder root, s.nodes.size ≤ i → ∃ a ∈ arrivals, a.Holds i) ∧
      ∀ front a back, arrivals = front ++ a :: back → ∀ kind i name, a.Holds i →
        done.script.Target kind i name → kind.sought name →
        (kind.provider? a.source name).isSome →
          (done.script.tree root).Declares name ∨ Lost (a :: back) name := by
  obtain ⟨Kept, supplies, kept⟩ := hsampler.exists_supplies
  have wellformed := wellformed_read hs
  obtain ⟨moments, toured, carried⟩ := m.toured_walked supplies.legal wellformed
  obtain ⟨settled, covers⟩ := carried _ (carries_covers supplies m.chance s.nodes.size)
    ⟨settled_bench hs kept, covers_start (m.bench s)⟩
  have walk := completed_walk supplies.legal m.chance m.maxMutations s.nodes.size
    (m.sound_bench wellformed) wellformed rfl
  obtain ⟨settled', copies⟩ := flushed_flushImports settled walk.sound walk.wellformed
  have flushed := completed_flushImports walk.sound walk.wellformed
  have done : (m.finished sampler s).Covers s.nodes.size (m.arrived sampler s moments) :=
    covers_flushFrom (flushBound (m.walked sampler s).pass + 1) 0 settled walk.sound walk.wellformed
      covers
  refine ⟨moments, toured, rfl, fun i hi hlt => ?_,
    fun front a back he kind i name ha ht sought hp => ?_⟩
  · exact done.all i hlt (flushed.wellformed.rooted.places_lt i hi)
  · refine (done.covered front a back he kind i name ha ht sought hp).imp_left fun has => ?_
    rcases has with declares | ⟨q, hq, hn⟩
    · exact declares
    · -- what is pending at the end has been brought in
      obtain ⟨name', ht, hd, -⟩ := (settled'.provided q hq).declares
      obtain rfl : name' = name := (Script.text_eq ht).symm.trans hn
      refine Tree.declares_of_copies_pos ?_
      have one := List.le_sum_of_mem (List.mem_map_of_mem (f := fun q => q.2.tree.copies name') hq)
      have own := Tree.copies_pos hd
      have total : ((m.finished sampler s).script.tree root).copies name' =
          ((m.walked sampler s).script.tree root).copies name' +
            ((m.finished sampler s).pass.pending.map fun q => q.2.tree.copies name').sum :=
        copies name'
      omega

/-- A block that calls a function of its source. -/
theorem declared_run_helper : ∃ s t, Script.read "{ a = 1; }" = .ok s ∧
    Script.read "{ helper(); }\nfunction helper() { return 1; }" = .ok t ∧
      let m : Structural Unit := ⟨5, .always, .seeded 0, ()⟩
      let sampler := Sample.pinned ⟨.ofScript "t.js" t, 4⟩
      let done := m.finished sampler s
      ∃ moments, Toured sampler m.chance (m.bench s) moments (m.walked sampler s) ∧
        ∃ front a back, m.arrived sampler s moments = front ++ a :: back ∧ ∃ i, a.Holds i ∧
          done.script.Target .functionDecl i "helper" ∧
          ((done.script.tree root).Declares "helper" ∨ Lost (a :: back) "helper") := by
  obtain ⟨s, t, hs, ht, moments, toured, a, ha, i, -, hai, target, sought, provided⟩ :=
    exists_walked "{ a = 1; }" "{ helper(); }\nfunction helper() { return 1; }" 4
      ⟨5, .always, .seeded 0, ()⟩ 60 (p := fun t moments walked =>
        let done := (flushImports walked).2
        ∃ a ∈ moments.filterMap (Moment.arrival? (Sample.pinned ⟨.ofScript "t.js" t, 4⟩) .always) ++
            imported (flushBound walked.pass + 1) 0 walked,
          ∃ i ∈ done.script.preorder root, a.Holds i ∧
            done.script.Target .functionDecl i "helper" ∧
            Imported.sought .functionDecl "helper" ∧
            (Imported.provider? .functionDecl a.source "helper").isSome) (by decide +kernel)
  have stocked : Sampler.Stocked (Sample.pinned ⟨.ofScript "t.js" t, 4⟩) () :=
    .pinned () ⟨_, _, _, ht, rfl⟩
  obtain ⟨moments', toured', -, -, law⟩ := declared_run hs ⟨5, .always, .seeded 0, ()⟩ stocked
  obtain rfl := toured.moments_eq toured'
  obtain ⟨front, back, he⟩ := List.append_of_mem ha
  exact ⟨s, t, hs, ht, moments, toured, front, a, back, he, i, hai, target,
    law front a back he _ i _ hai target sought provided⟩

/-- A function that is declared in the very block that gives way to a call of it is not imported. -/
theorem declared_run_lost : ∃ s t, Script.read "{ function f() {} }" = .ok s ∧
    Script.read "function f() {} { f(); }" = .ok t ∧
      let m : Structural Unit := ⟨1, .always, .seeded 0, ()⟩
      let sampler := Sample.pinned ⟨.ofScript "t.js" t, 6⟩
      let done := m.finished sampler s
      ∃ moments, Toured sampler m.chance (m.bench s) moments (m.walked sampler s) ∧
        ∃ a ∈ m.arrived sampler s moments, ∃ i ∈ done.script.preorder root, a.Holds i ∧
          done.script.Target .functionDecl i "f" ∧ Imported.sought .functionDecl "f" ∧
          (Imported.provider? .functionDecl a.source "f").isSome ∧
          ¬ (done.script.tree root).Declares "f" :=
  exists_walked "{ function f() {} }" "function f() {} { f(); }" 6 ⟨1, .always, .seeded 0, ()⟩ 40
    (p := fun t moments walked =>
      let done := (flushImports walked).2
      ∃ a ∈ moments.filterMap (Moment.arrival? (Sample.pinned ⟨.ofScript "t.js" t, 6⟩) .always) ++
          imported (flushBound walked.pass + 1) 0 walked,
        ∃ i ∈ done.script.preorder root, a.Holds i ∧ done.script.Target .functionDecl i "f" ∧
          Imported.sought .functionDecl "f" ∧
          (Imported.provider? .functionDecl a.source "f").isSome ∧
          ¬ (done.script.tree root).Declares "f") (by decide +kernel)

end Graft
