import Graft.Proofs.Grammar.Named
import Graft.Proofs.Pass.Rewriting
import Graft.Proofs.Pass.Supply

/-!
# What a structural pass keeps of the grammar

All that a pass puts into a script comes from scripts that were read, and stands in a slot that held
a node of its kind or behind the statements of the program. So every property of the nodes that
outlasts an exchange of children for others of their kinds is kept, and no identifier is given a
name that is reserved.

* `Node.Lasting` - a property of nodes that a pass keeps
* `Bench.Tidy` - what holds between two steps of a pass that borrows from what was read
* `tidy_structural` - a pass keeps every lasting property
-/

namespace Graft

open Chance (Draw Stream Probability)
open Script (Evolves root)
open Work Graft.Tree

variable {σ τ : Type} {P : Node Head String → Prop}

/-! ## Lasting properties -/

/-- A property of nodes that holds of all that is read, of every identifier, and of a program with
one more statement; and that stays true when children give way to others of their kinds. -/
structure Node.Lasting (P : Node Head String → Prop) : Prop where
  stable : Node.Stable P
  ident : ∀ x, P (.ident x)
  program : ∀ body h, P (.program body) → h.kind.isStatement → P (.program (body ++ [h]))
  shaped : ∀ t : Tree NodeId, t.Shaped → t.Each P

theorem lasting_fits : Node.Lasting Node.Fits := by
  refine ⟨Node.stable_fits, fun x => ⟨trivial, nofun⟩, fun body h fits hh => ⟨?_, nofun⟩,
    fun t ht u hu => ((shaped_iff_grammatical _).1 (ht u hu)).1.fits⟩
  have slots : ∀ k ∈ body.map Node.kind, k.isStatement := fits.slots
  change ∀ k ∈ (body ++ [h]).map Node.kind, k.isStatement
  rw [List.map_append, List.forall_mem_append]
  exact ⟨slots, List.forall_mem_singleton.2 hh⟩

theorem lasting_spelled : Node.Lasting Node.Spelled := by
  refine ⟨Node.stable_spelled, fun x => trivial, fun body h _ _ => trivial, fun t ht u hu => ?_⟩
  exact (Node.spelled_map head u.node).2 ((shaped_iff_grammatical _).1 (ht u hu)).2.1

theorem Node.Lasting.and {Q : Node Head String → Prop} (h : Lasting P) (h' : Lasting Q) :
    Lasting fun n => P n ∧ Q n :=
  ⟨Node.Stable.and h.stable h'.stable, fun x => ⟨h.ident x, h'.ident x⟩,
    fun body k hp hk => ⟨h.program body k hp.1 hk, h'.program body k hp.2 hk⟩,
    fun t ht u hu => ⟨h.shaped t ht u hu, h'.shaped t ht u hu⟩⟩

theorem Tree.each_of_node_eq {t u : Tree τ} (h : t.node = u.node) : t.Each P ↔ u.Each P := by
  rw [each_iff, each_iff, Tree.children, Tree.children, h]

/-! ## Renaming -/

namespace Renamed

variable {K : Sym → Prop} {places : List NodeId} {s s' : Script} {id : NodeId}

theorem kind_eq (h : Renamed K places s s') (id : NodeId) : s'.kind id = s.kind id := by
  induction h with
  | refl => rfl
  | @step s' i old new _ _ hn _ ih =>
    rw [← ih, Script.kind, Script.kind]
    by_cases hi : id = i
    · subst hi
      rw [Script.node_eq hn, Script.node_eq (Script.node?_setNode (Script.lt_of_node hn))]
      rfl
    · rw [Script.node_setNode_of_ne _ hi]

theorem each (h : Renamed K places s s') (lasting : Node.Lasting P)
    (known : ∀ x, K x → s.Knows x) (hr : s.Rooted id) (ht : (s.tree id).Each P) :
    (s'.tree id).Each P := by
  induction h with
  | refl => exact ht
  | @step s' i old new h _ hn hk ih =>
    have old_node := Script.node_eq hn
    refine Script.each_setNode lasting.stable (h.rooted known hr).1 ⟨?_, ?_, ?_, .inl ?_⟩
      (fun _ => lasting.ident _) ih
    · exact named_ident (h.knows (known new hk))
    · rw [old_node]
      rfl
    · rw [old_node]
      rfl
    · rw [old_node]
      rfl

theorem wellNamed (h : Renamed K places s s') (known : ∀ x, K x → s.Proper x)
    (hs : s.WellNamed) : s'.WellNamed := by
  have proper : ∀ x, s.Proper x → s'.Proper x := by
    rintro x ⟨name, ht, hn⟩
    exact ⟨name, h.names_eq ▸ ht, hn⟩
  intro i x hx
  rcases h.node_eq_or i with he | ⟨new, hk, he⟩
  · exact proper x (hs i x (he ▸ hx))
  · rw [he] at hx
    obtain rfl : x = new := by simpa [Node.identifiers, Node.declaredNames, Node.referred] using hx
    exact proper x (known x hk)

end Renamed

/-! ## Passes at work -/

/-- A declaration of a script that was read. -/
structure Import.Usable (entry : Import) : Prop where
  read : entry.source.Read
  statement : (entry.source.script.kind entry.declaration).isStatement

/-- What holds between two steps of a pass that borrows from what was read. -/
structure Bench.Tidy (Kept : σ → Prop) (b : Bench σ) : Prop where
  sound : b.Sound
  named : b.script.WellNamed
  sees : b.pass.Sees b.script.Proper
  usable : ∀ q ∈ b.pass.pending, q.2.Usable
  kept : Kept b.samples

theorem Bench.Tidy.drawn {Kept : σ → Prop} {b : Bench σ} (h : b.Tidy Kept) {samples : σ}
    (kept : Kept samples) (stream : Stream) : Bench.Tidy Kept { b with samples, stream } :=
  ⟨h.sound.drawn samples stream, h.named, h.sees, h.usable, kept⟩

theorem Script.shaped_of_read {entry : Entry} (h : entry.Read) (place : NodeId) :
    (entry.script.tree place).Shaped := by
  obtain ⟨path, source, script, hs, rfl⟩ := h
  exact Script.shaped_read hs place

theorem Imported.usable_of_provider {kind : Imported} {source : Entry} (h : source.Read)
    {name : String} {id : NodeId} (hp : kind.provider? source name = some id) :
    Import.Usable ⟨id, source⟩ := by
  refine ⟨h, ?_⟩
  obtain ⟨path, text, script, hs, rfl⟩ := h
  obtain ⟨x, -, -, hd⟩ := Imported.declares_of_provider hp
  exact Imported.isStatement_of_declared hd

theorem Tree.kind_of_erase_eq {ρ : Type} {t : Tree τ} {u : Tree ρ} (h : t.erase = u.erase) :
    t.kind = u.kind := by
  obtain ⟨tag, n⟩ := t
  obtain ⟨tag', n'⟩ := u
  rw [erase_mk, erase_mk] at h
  obtain ⟨-, he⟩ := Tree.mk.inj h
  have kinds := congrArg Node.kind he
  rwa [Node.kind_map, Node.kind_map] at kinds

variable {Kept : σ → Prop} {b : Bench σ}

/-- A copied and repaired tree is of the kind of its original. -/
theorem kind_copy (hs : b.Sound) (source : Entry) (place : NodeId) :
    let made := Script.copy source.script place b.script
    (prepare made.1 source ({ b with script := made.2 } : Bench σ)).2.script.kind made.1 =
      source.script.kind place := by
  intro made
  obtain ⟨planted, -, repaired⟩ := repaired_copy hs source place
  rw [repaired.renamed.kind_eq, ← planted.rooted.kind_eq, ← Script.kind_tree]
  exact Tree.kind_of_erase_eq planted.erase_eq

/-- A copy of a node of what was read, repaired: the pass stays tidy, and the copy is of the kind of
the node and has every lasting property. -/
theorem tidy_copy (lasting : Node.Lasting P) (hb : b.Tidy Kept) {source : Entry}
    (hsource : source.Read) (place : NodeId) :
    let made := Script.copy source.script place b.script
    let b' := (prepare made.1 source ({ b with script := made.2 } : Bench σ)).2
    b'.Tidy Kept ∧ (b'.script.tree made.1).Each P ∧
      b'.script.kind made.1 = source.script.kind place := by
  intro made b'
  have planted : Script.Planted _ b.script made.1 made.2 :=
    Script.copy_spec source.script place b.script
  have shaped := Script.shaped_of_read hsource place
  have named : made.2.WellNamed := hb.named.plant shaped
  have sees : b.pass.Sees made.2.Proper := hb.sees.mono fun _ => planted.evolves.proper
  have repaired := repaired_prepare (b := { b with script := made.2 }) sees named.declared made.1
    source
  have borrowed := borrowed_copy hb.sound source place
  change Repaired _ source _ _ b' at repaired
  have known : ∀ x, made.2.Proper x → made.2.Knows x := fun _ => Script.Proper.knows
  refine ⟨⟨borrowed.sound, repaired.renamed.wellNamed (fun _ => id) named, ?_, fun q hq => ?_, ?_⟩,
    ?_, ?_⟩
  · exact repaired.sees.mono fun _ => (repaired.renamed.evolves known).proper
  · obtain ⟨new, hnew, provided⟩ := repaired.queued
    rw [hnew] at hq
    rcases List.mem_append.1 hq with hq | hq
    · exact hb.usable q hq
    · obtain ⟨hs, kind, hp⟩ := provided q hq
      have usable := Imported.usable_of_provider hsource hp
      exact ⟨hs ▸ usable.read, hs ▸ usable.statement⟩
  · exact repaired.samples ▸ hb.kept
  · refine repaired.renamed.each lasting known planted.rooted ?_
    exact (each_of_erase_eq planted.erase_eq).2 (lasting.shaped _ shaped)
  · exact kind_copy hb.sound source place

/-! ## Steps of a pass -/

variable {sampler : Sampler σ} {id : NodeId}

/-- A sample in the place of a node is of the kind of the node and has every lasting property. -/
theorem tidy_splice (lasting : Node.Lasting P) (hs : sampler.Supplies Kept) (hb : b.Tidy Kept)
    (hr : b.script.Rooted id) :
    (splice sampler id b).2.Tidy Kept ∧
      if (splice sampler id b).1 then
        ((splice sampler id b).2.script.tree id).Each P ∧
          (splice sampler id b).2.script.kind id = b.script.kind id
      else (splice sampler id b).2.script = b.script := by
  have spliced := visited_splice hs.legal hb.sound hr
  rw [run_splice] at spliced ⊢
  have kept := hs.kept (b.script.kind id) b.pass.enclosure b.samples b.stream hb.kept
  have read := hs.read (b.script.kind id) b.pass.enclosure b.samples b.stream hb.kept
  generalize sampler (b.script.kind id) b.pass.enclosure b.samples b.stream = asked at *
  obtain ⟨⟨sample, samples⟩, stream⟩ := asked
  have hb₀ := hb.drawn kept stream
  rcases sample with _ | sample
  · exact ⟨hb₀, rfl⟩
  · dsimp only at spliced ⊢
    obtain ⟨hread, hkind⟩ := read sample rfl
    obtain ⟨hb₁, good, kinds⟩ := tidy_copy lasting hb₀ hread sample.node
    have borrowed := borrowed_copy hb₀.sound sample.entry sample.node
    dsimp only at hb₁ good kinds borrowed
    generalize (prepare _ sample.entry _).2 = b₁ at hb₁ good kinds borrowed spliced ⊢
    have apart : id ∉ b₁.script.preorder (Script.copy sample.entry.script sample.node b.script).1 :=
      fun hi => Nat.not_le.2 hr.lt (borrowed.fresh id hi)
    have hlt : id < b₁.script.nodes.size := Nat.lt_of_lt_of_le hr.lt borrowed.evolves.size_le
    obtain ⟨rooted, tree⟩ := Script.replace_spec hlt borrowed.rooted apart
    have after : Evolves [id] b₁.script (b₁.script.replace id _) :=
      Script.evolves_setNode id borrowed.rooted.named
    refine ⟨⟨spliced.sound, hb₁.named.setNode id (hb₁.named _), ?_, hb₁.usable, hb₁.kept⟩,
      (if_pos rfl).mpr ⟨?_, ?_⟩⟩
    · have sees := hb₁.sees.mono fun _ => after.proper
      exact ⟨sees.visible, sees.indexed⟩
    · rw [tree]
      exact (Tree.each_of_node_eq (by rfl)).2 good
    · rw [← rooted.kind_eq, tree, ← hkind, ← kinds, ← borrowed.rooted.kind_eq]
      rfl

/-- The steps of a walk keep a pass tidy and put in nothing but trees with lasting properties. -/
theorem rewrites_of_supplies (lasting : Node.Lasting P) (hs : sampler.Supplies Kept) :
    Rewrites sampler (Bench.Tidy Kept) (Each P) where
  legal := hs.legal
  sound := Bench.Tidy.sound
  enter id hb := by
    refine ⟨⟨hb.sound.closed, Pass.sound_enter hb.sound.pass hb.sound.closed id⟩, hb.named,
      Pass.sees_enter hb.sees hb.named.declared id, ?_, hb.kept⟩
    rw [(Pass.enter_eq _ id _).2.1]
    exact hb.usable
  leave id hb := by
    refine ⟨⟨hb.sound.closed, Pass.sound_leave hb.sound.pass id⟩, hb.named,
      Pass.sees_leave hb.sees id, ?_, hb.kept⟩
    rw [(Pass.leave_eq _ id _).2.1]
    exact hb.usable
  draw stream hb := hb.drawn hb.kept stream
  splice := tidy_splice lasting hs

/-- A declaration behind the statements of the program. -/
theorem tidy_bringIn (lasting : Node.Lasting P) (hb : b.Tidy Kept) (hw : b.script.Wellformed)
    {entry : Import} (usable : entry.Usable)
    (hl : entry.source.script.admissible entry.declaration .outermost)
    (ht : (b.script.tree root).Each P) :
    (bringIn entry b).2.Tidy Kept ∧ ((bringIn entry b).2.script.tree root).Each P := by
  have completed := completed_bringIn hb.sound hw hl
  rw [run_bringIn] at completed ⊢
  dsimp only at completed ⊢
  obtain ⟨hb₁, good, kinds⟩ := tidy_copy lasting hb usable.read entry.declaration
  have borrowed := borrowed_copy hb.sound entry.source entry.declaration
  dsimp only at hb₁ good kinds borrowed
  generalize (prepare _ entry.source _).2 = b₁ at hb₁ good kinds borrowed completed ⊢
  generalize (Script.copy entry.source.script entry.declaration b.script).1 = copy at *
  obtain ⟨hw₁, htree, apart⟩ := borrowed.beside hw
  obtain ⟨body, hbody⟩ := hw₁.program
  obtain ⟨-, pushed, evolves⟩ := Script.push_spec hbody hw₁.rooted borrowed.rooted apart
  refine ⟨⟨completed.sound, hb₁.named.push copy, ?_, hb₁.usable, hb₁.kept⟩, ?_⟩
  · have sees := hb₁.sees.mono fun _ => evolves.proper
    exact ⟨sees.visible, sees.indexed⟩
  · rw [← htree, hw₁.rooted.tree_eq, hbody] at ht
    obtain ⟨here, below⟩ := each_mk.1 ht
    rw [pushed, each_mk]
    constructor
    · have step := lasting.program _ (b₁.script.tree copy).head here (by
        rw [kind_head, borrowed.rooted.kind_eq, kinds]
        exact usable.statement)
      simpa [Node.map] using step
    · rw [Node.children_map] at below
      refine List.forall_mem_append.2 ⟨below, List.forall_mem_singleton.2 good⟩

theorem tidy_flushFrom (lasting : Node.Lasting P) (rounds rank : Nat) (hb : b.Tidy Kept)
    (hw : b.script.Wellformed) (ht : (b.script.tree root).Each P) :
    (flushFrom rounds rank b).2.Tidy Kept ∧
      ((flushFrom rounds rank b).2.script.tree root).Each P := by
  induction rounds generalizing rank b with
  | zero => exact ⟨hb, ht⟩
  | succ rounds ih =>
    rw [flushFrom, run_bind, run_get]
    cases hq : b.pass.pending[rank]? with
    | none => exact ⟨hb, ht⟩
    | some q =>
      have hmem := List.mem_of_getElem? hq
      have hl := hb.sound.pass.vetted q hmem
      obtain ⟨hb₁, ht₁⟩ := tidy_bringIn lasting hb hw (hb.usable q hmem) hl ht
      exact ih (rank + 1) hb₁ (completed_bringIn hb.sound hw hl).wellformed ht₁

theorem tidy_flushImports (lasting : Node.Lasting P) (hb : b.Tidy Kept) (hw : b.script.Wellformed)
    (ht : (b.script.tree root).Each P) :
    (flushImports b).2.Tidy Kept ∧ ((flushImports b).2.script.tree root).Each P := by
  rw [flushImports, run_bind, run_get]
  exact tidy_flushFrom lasting _ 0 hb hw ht

/-- A structural pass keeps every lasting property of the nodes of the program. -/
theorem tidy_structural (lasting : Node.Lasting P) (hs : sampler.Supplies Kept)
    (chance : Probability) (hb : b.Tidy Kept) (hw : b.script.Wellformed)
    (henc : b.pass.enclosure = .outermost) (ht : (b.script.tree root).Each P) :
    (structural sampler chance b).2.Tidy Kept ∧
      ((structural sampler chance b).2.script.tree root).Each P := by
  unfold structural
  rw [run_bind, run_get, run_bind]
  obtain ⟨hb₁, rewritten⟩ := rewritten_visit (rewrites_of_supplies lasting hs) chance
    b.pass.maxMutations b.script.nodes.size false hb hw.rooted
  have walk := completed_walk hs.legal chance b.pass.maxMutations b.script.nodes.size hb.sound hw
    henc
  have ht₁ := rewritten.each lasting.stable (fun _ hu => hu) ht
  exact tidy_flushImports lasting hb₁ walk.wellformed ht₁

end Graft
