import Graft.Proofs.Pass.Loop
import Graft.Proofs.Pass.Supply

/-!
# The queue of imports

A repair looks at every name that its tree calls or constructs. Unless the name is built in, the
tree declares it afterwards, its import is pending, the program declares it already, or the source
of the tree does not provide it. Nothing is queued twice under one name.

* `Pass.Exact` - a pass that consults the index of the program as it is
* `Pass.Answered` - why a name need not be asked for
* `Bench.Settled` - what holds of the queue between two steps of a pass
* `settled_copy` - what a repair does to the queue
-/

namespace Graft

open Chance (Draw Stream Probability)
open Script (Evolves root)
open Work

variable {σ α ν : Type}

/-! ## The index -/

namespace Pass

variable {s : Script} {p : Pass}

/-- The index of a pass is that of the script, unless it is known to be stale. -/
def Exact (s : Script) (p : Pass) : Prop :=
  p.stale = false → p.index = .ofScript s

/-- What is consulted is the index of the script as it is. -/
theorem Exact.refresh_eq (h : p.Exact s) :
    p.refresh s = { p with index := .ofScript s, stale := false } := by
  unfold refresh
  split
  · rfl
  · rename_i hs
    have fresh : p.stale = false := by simpa using hs
    rw [← h fresh, ← fresh]

/-! ## Asking for an import -/

/-- Why a name need not be asked for: the borrowed tree declares it, its import is pending, the
program has a declaration of the kind, or the source does not provide one. -/
def Answered (s : Script) (p : Pass) (source : Entry) (kind : Imported) (name : Sym) : Prop :=
  p.scope.isBorrowed name ∨ p.isPending name ∨ (kind.find? (.ofScript s) name).isSome ∨
    kind.provider? source (s.names.text name) = none

theorem isPending_iff {name : Sym} : p.isPending name ↔ name ∈ p.pending.map Prod.fst := by
  simp [isPending]

/-- A name that was asked for is answered. It is queued at most once. -/
theorem Exact.queueImport (h : p.Exact s) (name : Sym) (kind : Imported) (source : Entry) :
    (p.queueImport s name kind source).Exact s ∧
      (p.queueImport s name kind source).Answered s source kind name ∧
      (p.queueImport s name kind source).scope = p.scope ∧
      ((p.queueImport s name kind source).pending = p.pending ∨
        p.scope.isBorrowed name = false ∧ name ∉ p.pending.map Prod.fst ∧
          kind.find? (.ofScript s) name = none ∧ ∃ declaration,
            kind.provider? source (s.names.text name) = some declaration ∧
            (p.queueImport s name kind source).pending =
              p.pending ++ [(name, ⟨declaration, source⟩)]) := by
  unfold Pass.queueImport
  by_cases hq : p.scope.isBorrowed name || p.isPending name
  · rw [if_pos hq]
    rw [Bool.or_eq_true] at hq
    exact ⟨h, hq.imp_right .inl, rfl, .inl rfl⟩
  · rw [if_neg hq, h.refresh_eq]
    dsimp only
    rw [Bool.or_eq_true, not_or, isPending_iff, Bool.not_eq_true] at hq
    obtain ⟨unborrowed, fresh⟩ := hq
    by_cases hf : (kind.find? (.ofScript s) name).isSome
    · rw [if_pos hf]
      exact ⟨fun _ => rfl, .inr (.inr (.inl hf)), rfl, .inl rfl⟩
    · rw [if_neg hf]
      cases hp : kind.provider? source (s.names.text name) with
      | none => exact ⟨fun _ => rfl, .inr (.inr (.inr hp)), rfl, .inl rfl⟩
      | some declaration =>
        refine ⟨fun _ => rfl, .inr (.inl ?_), rfl,
          .inr ⟨unborrowed, fresh, by simpa using hf, declaration, rfl, rfl⟩⟩
        simp [isPending]

end Pass

/-! ## Targets -/

/-- What a node calls or constructs, with the kind of declaration that this needs. -/
def Node.target? : Node α ν → Option (Imported × α)
  | call callee _ => some (.functionDecl, callee)
  | newExpr callee _ => some (.classDecl, callee)
  | _ => none

/-- A target is a child. -/
theorem Node.mem_children_of_target {n : Node α ν} {kind : Imported} {c : α}
    (h : n.target? = some (kind, c)) : c ∈ n.children := by
  cases n <;> simp_all [target?, children]

namespace Imported

/-- Whether a name is looked for where it is a target of this kind. -/
def sought (kind : Imported) (name : String) : Bool :=
  !builtins.contains name && (kind = .functionDecl || !builtinConstructors.contains name)

theorem ofTarget?_eq_some_iff {s : Script} {id : NodeId} {parent : Option NodeId}
    {kind : Imported} : ofTarget? s id parent = some kind ↔
      ∃ p, parent = some p ∧ (s.node p).target? = some (kind, id) := by
  unfold ofTarget?
  cases parent with
  | none => simp
  | some p =>
    simp only [Option.map_some, Option.some.injEq, exists_eq_left']
    cases s.node p with
    | call callee => by_cases hc : callee = id <;> simp [Node.target?, hc]
    | newExpr callee => by_cases hc : callee = id <;> simp [Node.target?, hc]
    | _ => simp [Node.target?]

end Imported

/-! ## Renamed identifiers -/

/-- A node stays as it is, or it is an identifier that gets another name. -/
def Node.Retitled (n n' : Node α ν) : Prop :=
  n' = n ∨ ∃ old new, n = ident old ∧ n' = ident new

namespace Node.Retitled

variable {n n' : Node α ν}

theorem declaredNames_eq (h : n.Retitled n') : n'.declaredNames = n.declaredNames := by
  rcases h with rfl | ⟨old, new, rfl, rfl⟩ <;> rfl

theorem declaration?_eq (h : n.Retitled n') : n'.declaration? = n.declaration? := by
  rcases h with rfl | ⟨old, new, rfl, rfl⟩ <;> rfl

theorem target?_eq (h : n.Retitled n') : n'.target? = n.target? := by
  rcases h with rfl | ⟨old, new, rfl, rfl⟩ <;> rfl

theorem children_eq (h : n.Retitled n') : n'.children = n.children := by
  rcases h with rfl | ⟨old, new, rfl, rfl⟩ <;> rfl

end Node.Retitled

namespace Renamed

variable {K : Sym → Prop} {places : List NodeId} {s s' : Script}

theorem retitled (h : Renamed K places s s') (i : NodeId) : (s.node i).Retitled (s'.node i) := by
  induction h with
  | refl => exact .inl rfl
  | @step s' id old new _ _ hn _ ih =>
    by_cases hi : i = id
    · subst hi
      have now : (s'.setNode i (.ident new)).node i = .ident new :=
        Script.node_eq (Script.node?_setNode (Script.lt_of_node hn))
      rw [Script.node_eq hn] at ih
      rcases ih with he | ⟨old', -, he, -⟩
      · exact .inr ⟨old, new, he.symm, now⟩
      · exact .inr ⟨old', new, he, now⟩
    · rwa [Script.node_setNode_of_ne _ hi]

theorem node_eq_of_not_mem (h : Renamed K places s s') {i : NodeId} (hi : i ∉ places) :
    s'.node i = s.node i := by
  induction h with
  | refl => rfl
  | @step s' id _ _ _ hp _ _ ih =>
    have hne : i ≠ id := fun he => hi (he ▸ hp)
    rw [Script.node_setNode_of_ne _ hne, ih]

theorem declaredNames_eq (h : Renamed K places s s') (i : NodeId) :
    (s'.node i).declaredNames = (s.node i).declaredNames :=
  (h.retitled i).declaredNames_eq

theorem declaration?_eq (h : Renamed K places s s') (i : NodeId) :
    (s'.node i).declaration? = (s.node i).declaration? :=
  (h.retitled i).declaration?_eq

theorem target?_eq (h : Renamed K places s s') (i : NodeId) :
    (s'.node i).target? = (s.node i).target? :=
  (h.retitled i).target?_eq

end Renamed

/-! ## Repairs -/

/-- An import under a name of the script that its source declares. -/
structure Script.Provides (s : Script) (q : Sym × Import) : Prop where
  read : q.2.source.Read
  provided : ∃ name, s.names.text? q.1 = some name ∧
    ∃ kind : Imported, kind.provider? q.2.source name = some q.2.declaration

/-- What repairing nodes that are not part of the program does to the queue. -/
structure Queued (source : Entry) (b b' : Bench σ) : Prop where
  rooted : b'.script.Rooted root
  tree : b'.script.tree root = b.script.tree root
  index : ScopeIndex.ofScript b'.script = .ofScript b.script
  names : b'.script.names = b.script.names
  scope : b'.pass.scope = b.pass.scope
  exact : b'.pass.Exact b'.script
  added : ∃ new, b'.pass.pending = b.pass.pending ++ new ∧
    ∀ q ∈ new, q.2.source = source ∧ (source.Read → b.script.Provides q)
  once : (b.pass.pending.map Prod.fst).Nodup → (b'.pass.pending.map Prod.fst).Nodup

namespace Queued

variable {source : Entry} {b b' b'' : Bench σ} {kind : Imported} {name : Sym}

theorem refl (hr : b.script.Rooted root) (exact : b.pass.Exact b.script) : Queued source b b :=
  ⟨hr, rfl, rfl, rfl, rfl, exact, ⟨[], (List.append_nil _).symm, nofun⟩, id⟩

theorem trans (h : Queued source b b') (h' : Queued source b' b'') : Queued source b b'' := by
  obtain ⟨new, hnew, provided⟩ := h.added
  obtain ⟨more, hmore, provided'⟩ := h'.added
  refine ⟨h'.rooted, h'.tree.trans h.tree, h'.index.trans h.index, h'.names.trans h.names,
    h'.scope.trans h.scope, h'.exact,
    ⟨new ++ more, by rw [hmore, hnew, List.append_assoc], fun q hq => ?_⟩, h'.once ∘ h.once⟩
  rcases List.mem_append.1 hq with hq | hq
  · exact provided q hq
  · obtain ⟨hs, hp⟩ := provided' q hq
    refine ⟨hs, fun read => ⟨(hp read).read, ?_⟩⟩
    rw [← h.names]
    exact (hp read).provided

/-- A name that is answered stays so. -/
theorem answered (h : Queued source b b') (ha : b.pass.Answered b.script source kind name) :
    b'.pass.Answered b'.script source kind name := by
  obtain ⟨new, hnew, -⟩ := h.added
  rw [Pass.Answered, h.scope, h.index, h.names, Pass.isPending_iff, hnew, List.map_append,
    List.mem_append, ← Pass.isPending_iff]
  exact ha.imp_right (Or.imp_left .inl)

end Queued

variable {K : Sym → Prop} {source : Entry} {b : Bench σ}

/-- A name that is asked for is queued or answered. -/
theorem queued_queueImport (exact : b.pass.Exact b.script) (hr : b.script.Rooted root) {name : Sym}
    (known : b.script.Knows name) (kind : Imported) (source : Entry) :
    let b' := (onPass (fun s p => p.queueImport s name kind source) b).2
    Queued source b b' ∧ b'.pass.Answered b'.script source kind name := by
  obtain ⟨exact', answered, scope, queued⟩ := exact.queueImport name kind source
  refine ⟨⟨hr, rfl, rfl, rfl, scope, exact', ?_, fun once => ?_⟩, answered⟩
  · rcases queued with same | ⟨-, -, -, declaration, hp, added⟩
    · exact ⟨[], same.trans (List.append_nil _).symm, nofun⟩
    · refine ⟨_, added, List.forall_mem_singleton.2 ⟨rfl, fun read => ⟨read, ?_⟩⟩⟩
      obtain ⟨text, ht⟩ := known
      exact ⟨text, ht, kind, Script.text_eq ht ▸ hp⟩
  · rw [run_onPass]
    rcases queued with same | ⟨-, fresh, -, declaration, -, added⟩
    · rwa [same]
    · rw [added, List.map_append, List.nodup_append]
      refine ⟨once, List.nodup_singleton _, fun x hx y hy => ?_⟩
      obtain rfl : y = name := List.mem_singleton.1 hy
      exact fun he => fresh (he ▸ hx)

/-- Renaming an identifier that is not part of the program. -/
theorem queued_repairReference (h : b.pass.Sees K) (known : ∀ x, K x → b.script.Knows x)
    (exact : b.pass.Exact b.script) (hr : b.script.Rooted root) {id : NodeId}
    (hid : id ∉ b.script.preorder root) (name : Sym) {renames : Renames} (hk : renames.All K) :
    Queued source b (repairReference id name renames b).2 := by
  unfold repairReference
  rw [run_bind, run_get, run_bind, run_get]
  by_cases hv : b.pass.resolves b.script name
  · rw [if_pos hv, run_pure]
    exact .refl hr exact
  · obtain ⟨hnew, -, hs, hpass, -⟩ := all_renamed h hk name
    rw [if_neg hv, run_bind]
    generalize renamed name renames b = r at *
    obtain ⟨⟨new, renames'⟩, script, pass, stream, samples⟩ := r
    obtain rfl : script = b.script := hs
    obtain rfl : pass = b.pass := hpass
    rcases new with _ | new
    · exact ⟨hr, rfl, rfl, rfl, rfl, exact, ⟨[], (List.append_nil _).symm, nofun⟩, fun once => once⟩
    · have evolves := Script.evolves_setNode id (Renamed.named_ident (known new (hnew new rfl)))
      have apart : ∀ i ∈ b.script.preorder root, i ∉ [id] := by
        rintro i hi hm
        exact hid (List.mem_singleton.1 hm ▸ hi)
      obtain ⟨rooted, tree⟩ := hr.frame evolves apart
      have index := hr.ofScript_eq evolves apart
      exact ⟨rooted, tree, index, rfl, rfl, fun fresh => (exact fresh).trans index.symm,
        ⟨[], (List.append_nil _).symm, nofun⟩, fun once => once⟩

/-- Repairing a node that is not part of the program: a target stays as it is and is answered. -/
theorem queued_repairNode (h : b.pass.Sees K) (known : ∀ x, K x → b.script.Knows x)
    (closed : b.script.Closed) (exact : b.pass.Exact b.script) (hr : b.script.Rooted root)
    (source : Entry) {id : NodeId} (hid : id ∉ b.script.preorder root) (parent : Option NodeId)
    {renames : Renames} (hk : renames.All K) :
    let b' := (repairNode source renames id parent b).2
    Queued source b b' ∧ ∀ kind, Imported.ofTarget? b.script id parent = some kind →
      b'.script.node id = b.script.node id ∧
        ∀ name, b.script.node id = .ident name → kind.sought (b.script.names.text name) →
          b'.pass.Answered b'.script source kind name := by
  unfold repairNode
  rw [run_bind, run_get]
  dsimp only
  cases hn : b.script.node id with
  | ident name =>
    dsimp only
    by_cases hb : builtins.contains (b.script.names.text name)
    · rw [if_pos hb]
      refine ⟨.refl hr exact, fun kind _ => ⟨hn, fun name' he sought => ?_⟩⟩
      obtain rfl := Node.ident.inj he
      rw [Imported.sought, hb] at sought
      cases sought
    · rw [if_neg hb]
      cases ht : Imported.ofTarget? b.script id parent with
      | some kind =>
        dsimp only
        by_cases hc : kind = .functionDecl ||
            !builtinConstructors.contains (b.script.names.text name)
        · rw [if_pos hc]
          have knows : b.script.Knows name := closed.named id name (by
            rw [hn]
            simp [Node.names, Node.parts, rights])
          obtain ⟨queued, answered⟩ := queued_queueImport exact hr knows kind source
          refine ⟨queued, fun kind' he => ⟨hn, fun name' hname _ => ?_⟩⟩
          obtain rfl := Option.some.inj he
          obtain rfl := Node.ident.inj hname
          exact answered
        · rw [if_neg hc]
          refine ⟨.refl hr exact, fun kind' he => ⟨hn, fun name' hname sought => ?_⟩⟩
          obtain rfl := Option.some.inj he
          obtain rfl := Node.ident.inj hname
          rw [Imported.sought, Bool.and_eq_true] at sought
          exact absurd sought.2 hc
      | none => exact ⟨queued_repairReference h known exact hr hid name hk, by rintro _ ⟨⟩⟩
  | _ => exact ⟨.refl hr exact, fun kind _ => ⟨hn, by rintro _ ⟨⟩⟩⟩

/-- What holds while nodes are repaired that are not part of the program: these nodes are still to
be repaired, and new names have been chosen. -/
structure Bench.Mending (K : Sym → Prop) (nodes : List (NodeId × Option NodeId)) (renames : Renames)
    (b : Bench σ) : Prop where
  sees : b.pass.Sees K
  declared : ∀ id, ∀ x ∈ (b.script.node id).declaredNames, K x
  known : ∀ x, K x → b.script.Knows x
  closed : b.script.Closed
  exact : b.pass.Exact b.script
  rooted : b.script.Rooted root
  apart : ∀ n ∈ nodes, n.1 ∉ b.script.preorder root
  chosen : renames.All K

/-- Repairing a node leaves the others to be repaired. -/
theorem Bench.Mending.step {id : NodeId} {parent : Option NodeId}
    {nodes : List (NodeId × Option NodeId)} {renames : Renames}
    (h : b.Mending K ((id, parent) :: nodes) renames) (source : Entry) :
    let repaired := repairNode source renames id parent b
    repaired.2.Mending K nodes repaired.1 := by
  obtain ⟨hid, apart⟩ := List.forall_mem_cons.1 h.apart
  obtain ⟨queued, -⟩ :=
    queued_repairNode h.sees h.known h.closed h.exact h.rooted source hid parent h.chosen
  obtain ⟨repaired, chosen⟩ := repaired_repairNode h.sees h.declared source
    (List.mem_singleton_self id) parent h.chosen
  intro r
  have places : r.2.script.preorder root = b.script.preorder root := by
    rw [Script.preorder_eq_tags, Script.preorder_eq_tags, queued.tree]
  have evolves := repaired.renamed.evolves h.known
  exact ⟨repaired.sees, repaired.renamed.declares h.declared,
    fun x hx => repaired.renamed.knows (h.known x hx), evolves.closed h.closed, queued.exact,
    queued.rooted, places ▸ apart, chosen⟩

/-- Repairing nodes that are not part of the program, each once. -/
theorem queued_repairNodes (source : Entry) {nodes : List (NodeId × Option NodeId)} {b : Bench σ}
    {renames : Renames} (h : b.Mending K nodes renames) (distinct : (nodes.map Prod.fst).Nodup) :
    let b' := (repairNodes source nodes renames b).2
    Queued source b b' ∧
      ∀ n ∈ nodes, ∀ kind, Imported.ofTarget? b.script n.1 n.2 = some kind →
        b'.script.node n.1 = b.script.node n.1 ∧
          ∀ name, b.script.node n.1 = .ident name → kind.sought (b.script.names.text name) →
            b'.pass.Answered b'.script source kind name := by
  induction nodes generalizing b renames with
  | nil => exact ⟨.refl h.rooted h.exact, nofun⟩
  | cons n nodes ih =>
    obtain ⟨id, parent⟩ := n
    obtain ⟨hne, distinct⟩ := List.nodup_cons.1 distinct
    have next := h.step source
    obtain ⟨queued, target⟩ := queued_repairNode h.sees h.known h.closed h.exact h.rooted source
      (h.apart _ List.mem_cons_self) parent h.chosen
    obtain ⟨first, -⟩ := repaired_repairNode h.sees h.declared source (List.mem_singleton_self id)
      parent h.chosen
    rw [repairNodes, run_bind]
    generalize repairNode source renames id parent b = r at next queued target first ⊢
    obtain ⟨renames', b₁⟩ := r
    dsimp only at next queued target first ⊢
    have rest : Repaired K source (nodes.map Prod.fst) b₁ _ :=
      repaired_repairNodes source next.sees next.declared
        (fun n hn => List.mem_map_of_mem hn) next.chosen
    obtain ⟨queued', targets⟩ := ih next distinct
    generalize (repairNodes source nodes renames' b₁).2 = b₂ at rest queued' targets ⊢
    refine ⟨queued.trans queued',
      List.forall_mem_cons.2 ⟨fun kind ht => ?_, fun n hn kind ht => ?_⟩⟩
    · obtain ⟨same, answered⟩ := target kind ht
      refine ⟨(rest.renamed.node_eq_of_not_mem hne).trans same, fun name hname sought => ?_⟩
      exact queued'.answered (answered name hname sought)
    · have ht' : Imported.ofTarget? b₁.script n.1 n.2 = some kind := by
        obtain ⟨p, hp, ht⟩ := Imported.ofTarget?_eq_some_iff.1 ht
        exact Imported.ofTarget?_eq_some_iff.2 ⟨p, hp, (first.renamed.target?_eq p).trans ht⟩
      have other : n.1 ≠ id := by
        rintro rfl
        exact hne (List.mem_map.2 ⟨n, hn, rfl⟩)
      have before : b₁.script.node n.1 = b.script.node n.1 :=
        first.renamed.node_eq_of_not_mem fun hm => other (List.mem_singleton.1 hm)
      obtain ⟨same, answered⟩ := targets n hn kind ht'
      rw [before, queued.names] at answered
      exact ⟨same.trans before, answered⟩

/-! ## Copies -/

namespace Tree

variable {τ : Type}

/-- Every child is listed with its parent. -/
theorem mem_preorderUnder_child {t u c : Tree τ} (hu : u ∈ t.preorder) (hc : c ∈ u.children)
    (parent : Option (Tree τ)) : (c, some u) ∈ preorderUnder parent t := by
  induction t using induct generalizing parent with
  | step t ih =>
    rw [preorder_eq, List.mem_cons, List.mem_flatMap] at hu
    rw [preorderUnder_eq, List.mem_cons, List.mem_flatMap]
    rcases hu with rfl | ⟨d, hd, hu⟩
    · refine .inr ⟨c, hc, ?_⟩
      rw [preorderUnder_eq]
      exact List.mem_cons_self
    · exact .inr ⟨d, hd, ih d hd hu _⟩

end Tree

theorem map_fst_family (s : Script) (id : NodeId) : (family s id).map Prod.fst = s.preorder id := by
  rw [family, List.map_map, Script.preorder, ← Tree.map_fst_preorderUnder none, List.map_map]
  rfl

/-- Every child is listed with the place of its parent. -/
theorem mem_family_child {s : Script} {id p c : NodeId} (h : s.Rooted id) (hp : p ∈ s.preorder id)
    (hc : c ∈ (s.node p).children) : (c, some p) ∈ family s id := by
  have child : s.tree c ∈ (s.tree p).children := by
    rw [(h.of_mem_preorder hp).children_eq]
    exact List.mem_map_of_mem hc
  have listed := Tree.mem_preorderUnder_child (h.tree_mem_preorder hp) child none
  refine List.mem_map.2 ⟨_, listed, ?_⟩
  dsimp only
  rw [Option.map_some, Script.tag_tree, Script.tag_tree]

/-- Why a target of a borrowed tree need not be asked for: the tree declares its name, its import is
pending, the program has a declaration of the kind, or the source does not provide one. -/
def Bench.Answers (b : Bench σ) (copy : NodeId) (source : Entry) (kind : Imported) (name : Sym) :
    Prop :=
  (∃ i ∈ b.script.preorder copy, name ∈ (b.script.node i).declaredNames) ∨ b.pass.isPending name ∨
    (kind.find? (.ofScript b.script) name).isSome ∨
    kind.provider? source (b.script.names.text name) = none

/-- A pass that shows names to a tree that is being repaired. -/
def Bench.showing (b : Bench σ) (names : List Sym) : Bench σ :=
  { b with pass := { b.pass with scope := b.pass.scope.borrow names } }

/-- The names that a tree declares, as they are shown while it is repaired. -/
def Work.shown (copy : NodeId) (b : Bench σ) : List Sym :=
  (family b.script copy).flatMap fun n => (b.script.node n.1).declaredNames

/-- A repair makes the names visible that its tree declares, repairs the nodes of the tree and
forgets these names. -/
theorem run_prepare (copy : NodeId) (source : Entry) (b : Bench σ) :
    prepare copy source b =
      let b' := (repairNodes source (family b.script copy) [] (b.showing (shown copy b))).2
      ((), { b' with pass := { b'.pass with scope := b'.pass.scope.clearBorrowed } }) :=
  rfl

theorem mem_shown_iff {copy : NodeId} {x : Sym} :
    x ∈ shown copy b ↔ ∃ i ∈ b.script.preorder copy, x ∈ (b.script.node i).declaredNames := by
  rw [shown, ← map_fst_family]
  simp only [List.mem_flatMap, List.mem_map, exists_exists_and_eq_and]

/-- A tree that is not part of the program can be repaired. -/
theorem mending_showing (hs : b.Sound) (exact : b.pass.Exact b.script)
    (hroot : b.script.Rooted root) {copy : NodeId}
    (apart : ∀ i ∈ b.script.preorder copy, i ∉ b.script.preorder root) :
    (b.showing (shown copy b)).Mending b.script.Knows (family b.script copy) [] := by
  have knows : ∀ i, ∀ x ∈ (b.script.node i).declaredNames, b.script.Knows x :=
    Pass.knows_of_declared hs.closed
  have sees : (b.showing (shown copy b)).pass.Sees b.script.Knows :=
    Pass.sees_borrow hs.pass.sees fun x hx =>
      let ⟨i, _, hx⟩ := mem_shown_iff.1 hx
      knows i x hx
  exact ⟨sees, knows, fun _ hx => hx, hs.closed, exact, hroot,
    fun n hn => apart _ (family_subset _ _ n hn), fun r hr => absurd hr List.not_mem_nil⟩

/-- A repair of a tree that is not part of the program: every target in the tree is answered. -/
theorem queued_prepare {b : Bench σ} (hs : b.Sound) (exact : b.pass.Exact b.script)
    (alone : b.pass.scope.borrowed = []) (hroot : b.script.Rooted root) {copy : NodeId}
    (hr : b.script.Rooted copy) (apart : ∀ i ∈ b.script.preorder copy, i ∉ b.script.preorder root)
    (source : Entry) :
    let b' := (prepare copy source b).2
    Queued source b b' ∧
      ∀ p ∈ b'.script.preorder copy, ∀ kind i, (b'.script.node p).target? = some (kind, i) →
        ∀ name, b'.script.node i = .ident name → kind.sought (b'.script.names.text name) →
          b'.Answers copy source kind name := by
  rw [run_prepare]
  dsimp only
  have mending := mending_showing hs exact hroot apart
  have repaired := repaired_repairNodes source mending.sees mending.declared
    (family_subset b.script copy) mending.chosen
  obtain ⟨queued, targets⟩ :=
    queued_repairNodes source mending (map_fst_family b.script copy ▸ hr.nodup)
  generalize (repairNodes source (family b.script copy) [] (b.showing (shown copy b))).2 = b₁
    at repaired queued targets ⊢
  obtain ⟨rooted, tree, index, sameNames, scope, exact', added, once⟩ := queued
  refine ⟨⟨rooted, tree, index, sameNames, ?_, exact', added, once⟩,
    fun p hp kind i ht name hi sought => ?_⟩
  · dsimp only
    rw [scope]
    change { b.pass.scope with borrowed := [] } = b.pass.scope
    rw [← alone]
  · have renamed := repaired.renamed
    obtain ⟨hr₁, places₁⟩ := renamed.rooted (fun _ hx => hx) hr
    rw [places₁] at hp
    rw [renamed.target?_eq] at ht
    have listed := mem_family_child hr hp (Node.mem_children_of_target ht)
    obtain ⟨same, answered⟩ := targets _ listed kind (Imported.ofTarget?_eq_some_iff.2 ⟨p, rfl, ht⟩)
    rw [same] at hi
    rw [sameNames] at sought
    rcases answered name hi sought with known | rest
    · -- a name that is shown is declared in the tree, and renaming keeps declarations
      rw [scope] at known
      have hm : name ∈ shown copy b := by
        simpa [Scope.isBorrowed, Bench.showing, Scope.borrow, alone] using known
      obtain ⟨j, hj, hx⟩ := mem_shown_iff.1 hm
      refine .inl ⟨j, ?_, ?_⟩
      · dsimp only
        rwa [places₁]
      · dsimp only
        rwa [renamed.declaredNames_eq]
    · exact .inr rest

/-! ## Between two steps -/

theorem Script.Provides.mono {changed : List NodeId} {s s' : Script} {q : Sym × Import}
    (h : s.Provides q) (he : Evolves changed s s') : s'.Provides q :=
  let ⟨name, ht, hp⟩ := h.provided
  ⟨h.read, name, he.text? ht, hp⟩

theorem Script.Provides.of_names {s s' : Script} {q : Sym × Import} (h : s.Provides q)
    (hn : s'.names = s.names) : s'.Provides q :=
  ⟨h.read, hn ▸ h.provided⟩

/-- What holds of the queue between two steps of a pass. -/
structure Bench.Settled (Kept : σ → Prop) (b : Bench σ) : Prop where
  exact : b.pass.Exact b.script
  /-- No tree is being repaired. -/
  alone : b.pass.scope.borrowed = []
  distinct : b.script.names.Distinct
  once : (b.pass.pending.map Prod.fst).Nodup
  provided : ∀ q ∈ b.pass.pending, b.script.Provides q
  kept : Kept b.samples

variable {Kept : σ → Prop} {b : Bench σ} {sampler : Sampler σ} {id : NodeId}

theorem Bench.Settled.drawn (h : b.Settled Kept) {samples : σ} (kept : Kept samples)
    (stream : Stream) : Bench.Settled Kept { b with samples, stream } :=
  ⟨h.exact, h.alone, h.distinct, h.once, h.provided, kept⟩

/-- A copy of a node is not part of the program, which stays as it is. -/
theorem copy_beside (exact : b.pass.Exact b.script) (hs : b.Sound) (hr : b.script.Rooted root)
    (source : Entry) (place : NodeId) :
    let made := Script.copy source.script place b.script
    Bench.Sound { b with script := made.2 } ∧ b.pass.Exact made.2 ∧ made.2.Rooted root ∧
      made.2.Rooted made.1 ∧ ∀ i ∈ made.2.preorder made.1, i ∉ made.2.preorder root := by
  intro made
  obtain ⟨planted, sound, -⟩ := repaired_copy hs source place
  obtain ⟨hr₁, tree₁⟩ := hr.grown planted.evolves
  have index := hr.ofScript_eq planted.evolves fun _ _ => List.not_mem_nil
  refine ⟨sound, fun fresh => (exact fresh).trans index.symm, hr₁, planted.rooted,
    fun i hi hm => ?_⟩
  rw [Script.preorder_eq_tags, tree₁, ← Script.preorder_eq_tags] at hm
  exact absurd (hr.places_lt i hm) (Nat.not_lt.2 (planted.fresh i hi))

/-- A copy of a node of what was read, repaired: the queue is settled again. -/
theorem settled_copy (hb : b.Settled Kept) (hs : b.Sound) (hr : b.script.Rooted root)
    {source : Entry} (hsource : source.Read) (place : NodeId) :
    let made := Script.copy source.script place b.script
    let b' := (prepare made.1 source ({ b with script := made.2 } : Bench σ)).2
    b'.Settled Kept ∧ (∀ q ∈ b'.pass.pending, q ∈ b.pass.pending ∨ q.2.source = source) ∧
      ∀ p ∈ b'.script.preorder made.1, ∀ kind i, (b'.script.node p).target? = some (kind, i) →
        ∀ name, b'.script.node i = .ident name → kind.sought (b'.script.names.text name) →
          b'.Answers made.1 source kind name := by
  intro made b'
  obtain ⟨planted, -, repaired⟩ := repaired_copy hs source place
  obtain ⟨sound, exact, hr₁, rooted, apart⟩ := copy_beside hb.exact hs hr source place
  obtain ⟨queued, targets⟩ := queued_prepare (b := { b with script := made.2 }) sound exact hb.alone
    hr₁ rooted apart source
  have evolves := repaired.renamed.evolves fun _ hx => hx
  have grown : ∀ q ∈ b.pass.pending, b'.script.Provides q := fun q hq =>
    ((hb.provided q hq).mono planted.evolves).mono evolves
  obtain ⟨new, hnew, provided⟩ := queued.added
  have pending : b'.pass.pending = b.pass.pending ++ new := hnew
  refine ⟨⟨queued.exact, ?_, ?_, queued.once hb.once, ?_, ?_⟩, ?_, targets⟩
  · exact (congrArg Scope.borrowed queued.scope).trans hb.alone
  · have names : b'.script.names = b.script.names.mentionAll _ :=
      queued.names.trans (Script.names_plant _ b.script)
    exact names ▸ hb.distinct.mentionAll _
  · rw [pending, List.forall_mem_append]
    exact ⟨grown, fun q hq => ((provided q hq).2 hsource).mono evolves⟩
  · exact repaired.samples ▸ hb.kept
  · rw [pending, List.forall_mem_append]
    exact ⟨fun q hq => .inl hq, fun q hq => .inr (provided q hq).1⟩

theorem settled_splice (hs : sampler.Supplies Kept) (hb : b.Settled Kept) (sound : b.Sound)
    (hr : b.script.Rooted root) (id : NodeId) : (splice sampler id b).2.Settled Kept := by
  rw [run_splice]
  have kept := hs.kept (b.script.kind id) b.pass.enclosure b.samples b.stream hb.kept
  have read := hs.read (b.script.kind id) b.pass.enclosure b.samples b.stream hb.kept
  generalize sampler (b.script.kind id) b.pass.enclosure b.samples b.stream = asked at kept read ⊢
  obtain ⟨⟨sample, samples⟩, stream⟩ := asked
  have hb₀ := hb.drawn kept stream
  rcases sample with _ | sample
  · exact hb₀
  · obtain ⟨settled, -, -⟩ := settled_copy hb₀ (sound.drawn samples stream) hr (read sample rfl).1
      sample.node
    dsimp only at settled ⊢
    generalize (prepare _ sample.entry _).2 = b' at settled ⊢
    exact ⟨nofun, settled.alone, settled.distinct, settled.once,
      fun q hq => (settled.provided q hq).of_names rfl, settled.kept⟩

theorem settled_enter (hb : b.Settled Kept) (id : NodeId) :
    Bench.Settled Kept { b with pass := b.pass.enter b.script id } := by
  have pending := (Pass.enter_eq b.script id b.pass).2.1
  refine ⟨?_, ?_, hb.distinct, ?_, ?_, hb.kept⟩
  · change (b.pass.enter b.script id).Exact b.script
    unfold Pass.enter
    dsimp only
    split
    · exact hb.exact
    · rw [hb.exact.refresh_eq]
      exact fun _ => rfl
  · change (b.pass.enter b.script id).scope.borrowed = []
    rw [← hb.alone]
    unfold Pass.enter
    dsimp only
    split
    · rfl
    · rw [hb.exact.refresh_eq]
      unfold Scope.declare
      split <;> rfl
  · exact pending ▸ hb.once
  · exact pending ▸ hb.provided

theorem settled_leave (hb : b.Settled Kept) (id : NodeId) :
    Bench.Settled Kept { b with pass := b.pass.leave b.script id } := by
  unfold Pass.leave
  dsimp only
  split <;> exact ⟨hb.exact, hb.alone, hb.distinct, hb.once, hb.provided, hb.kept⟩

theorem settled_tryReplace (hs : sampler.Supplies Kept) (chance : Probability) (hb : b.Settled Kept)
    (sound : b.Sound) (hr : b.script.Rooted root) (id : NodeId) (replaceable : Bool) :
    (tryReplace sampler chance id replaceable b).2.Settled Kept := by
  rcases tryReplace_cases sampler chance id replaceable b with h | ⟨-, stream, h⟩
  · rw [h]
    exact hb
  · have hb' := hb.drawn hb.kept stream
    rcases h with h | h <;> rw [h]
    · exact hb'
    · exact settled_splice hs hb' (sound.drawn b.samples stream) hr id

/-- Every turn of a walk leaves the queue settled. -/
theorem carries_settled (hs : sampler.Supplies Kept) (chance : Probability) :
    Carries sampler chance fun _ b => b.Settled Kept := by
  intro moments b turn hb sound hr place
  cases turn with
  | enter id replaceable =>
    exact settled_enter (settled_tryReplace hs chance hb sound hr id replaceable) id
  | leave id => exact settled_leave hb id

theorem settled_bench {source : String} {s : Script} (h : Script.read source = .ok s)
    {m : Structural σ} (kept : Kept m.samples) : (m.bench s).Settled Kept := by
  obtain ⟨body, shows, -⟩ := shows_read h
  have distinct : s.names.Distinct := shows.names_eq ▸ Names.distinct_empty.mentionAll _
  exact ⟨fun _ => rfl, rfl, distinct, List.nodup_nil, nofun, kept⟩

/-- The queue of a pass whose walk over a program is over. -/
theorem settled_walked (hs : sampler.Supplies Kept) {source : String} {s : Script}
    (h : Script.read source = .ok s) {m : Structural σ} (kept : Kept m.samples) :
    (m.walked sampler s).Settled Kept := by
  obtain ⟨moments, -, carried⟩ := m.toured_walked hs.legal (wellformed_read h)
  exact carried _ (carries_settled hs m.chance) (settled_bench h kept)

theorem settled_bringIn (hb : b.Settled Kept) (sound : b.Sound) (hr : b.script.Rooted root)
    {entry : Import} (hsource : entry.source.Read) :
    (bringIn entry b).2.Settled Kept ∧
      ∀ q ∈ (bringIn entry b).2.pass.pending, q ∈ b.pass.pending ∨ q.2.source = entry.source := by
  rw [run_bringIn]
  obtain ⟨settled, sources, -⟩ := settled_copy hb sound hr hsource entry.declaration
  dsimp only at settled sources ⊢
  generalize (prepare _ entry.source _).2 = b' at settled sources ⊢
  generalize (Script.copy entry.source.script entry.declaration b.script).1 = copy
  have names : (b'.script.push copy).names = b'.script.names := by
    unfold Script.push
    split <;> rfl
  have distinct : (b'.script.push copy).names.Distinct := names ▸ settled.distinct
  exact ⟨⟨nofun, settled.alone, distinct, settled.once,
    fun q hq => (settled.provided q hq).of_names names, settled.kept⟩, sources⟩

end Graft
