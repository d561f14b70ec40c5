import Graft.Proofs.Pass.Sound

/-!
# What a repair changes

A repair gives new names to some identifiers of the tree that it is given and asks for imports. It
does nothing else, so that the repaired tree has the nodes that it had and may stand where it could.
The new names are among those that are visible.

* `Renamed` - scripts that differ in identifiers at some places
* `repaired_prepare` - what a repair does to a pass at work
-/

namespace Graft

open Chance (Draw)
open Script (Evolves)

variable {σ : Type} {K : Sym → Prop} {places : List NodeId}

/-! ## Renamed identifiers -/

/-- The later script has other names, all of one property, at some identifiers among the places. -/
inductive Renamed (K : Sym → Prop) (places : List NodeId) : Script → Script → Prop where
  | refl (s : Script) : Renamed K places s s
  | step {s s' : Script} {id : NodeId} {old new : Sym} : Renamed K places s s' → id ∈ places →
    s'.nodes[id]? = some (.ident old) → K new → Renamed K places s (s'.setNode id (.ident new))

namespace Renamed

variable {s s' s'' : Script} {id : NodeId}

theorem trans (h : Renamed K places s s') (h' : Renamed K places s' s'') :
    Renamed K places s s'' := by
  induction h' with
  | refl => exact h
  | step _ hp hn hk ih => exact .step ih hp hn hk

theorem named_ident {x : Sym} (h : s.Knows x) : s.Named (.ident x) := by
  intro y hy
  obtain rfl : y = x := by simpa [Node.names, Node.parts, rights] using hy
  exact h

theorem size_eq (h : Renamed K places s s') : s'.nodes.size = s.nodes.size := by
  induction h with
  | refl => rfl
  | step _ _ _ _ ih => simpa [Script.setNode] using ih

theorem names_eq (h : Renamed K places s s') : s'.names = s.names := by
  induction h with
  | refl => rfl
  | step _ _ _ _ ih => exact ih

theorem knows (h : Renamed K places s s') {x : Sym} (hx : s.Knows x) : s'.Knows x := by
  obtain ⟨name, ht⟩ := hx
  exact ⟨name, h.names_eq ▸ ht⟩

/-- A node that is no identifier stays as it is. -/
theorem node_eq (h : Renamed K places s s') (hi : s.kind id ≠ .ident) :
    s'.node id = s.node id := by
  induction h with
  | refl => rfl
  | @step s' i old new _ _ hn _ ih =>
    rw [Script.node_setNode_of_ne, ih]
    rintro rfl
    rw [Script.kind, ← ih, Script.node_eq hn] at hi
    exact hi rfl

/-- A place has the node that it had, or an identifier with one of the new names. -/
theorem node_eq_or (h : Renamed K places s s') (id : NodeId) :
    s'.node id = s.node id ∨ ∃ new, K new ∧ s'.node id = .ident new := by
  induction h with
  | refl => exact .inl rfl
  | @step s' i old new _ _ hn hk ih =>
    by_cases hi : id = i
    · subst hi
      exact .inr ⟨new, hk, Script.node_eq (Script.node?_setNode (Script.lt_of_node hn))⟩
    · rwa [Script.node_setNode_of_ne _ hi]

section Known

variable (known : ∀ x, K x → s.Knows x)

include known

theorem evolves (h : Renamed K places s s') : Evolves places s s' := by
  induction h with
  | refl => exact (Evolves.refl s).mono (List.nil_subset _)
  | @step s' id old new h hp _ hk ih =>
    have hn := named_ident (h.knows (known new hk))
    refine ih.trans (Script.evolves_setNode id hn) ?_
    rintro i hi -
    exact List.mem_singleton.1 hi ▸ hp

/-- A renamed tree has the places that it had. -/
theorem rooted (h : Renamed K places s s') (hr : s.Rooted id) :
    s'.Rooted id ∧ s'.preorder id = s.preorder id := by
  induction h with
  | refl => exact ⟨hr, rfl⟩
  | step h _ hn hk ih =>
    have hs := Script.setNode_spec ih.1 (named_ident (h.knows (known _ hk)))
      (by rw [Script.node_eq hn]; rfl)
    exact ⟨hs.1, hs.2.trans ih.2⟩

/-- A renamed tree may stand where it could. -/
theorem admissible (h : Renamed K places s s') (hr : s.Rooted id) (e : Enclosure) :
    s'.admissible id e = s.admissible id e := by
  induction h with
  | refl => rfl
  | step h _ hn hk ih =>
    rw [← ih]
    exact Script.admissible_setNode (h.rooted known hr).1 (named_ident (h.knows (known _ hk)))
      (by rw [Script.node_eq hn]; rfl) (by rw [Script.kind, Script.node_eq hn]; rfl)
      (Script.lt_of_node hn) e

end Known

/-- Renaming identifiers declares nothing new. -/
theorem declares (h : Renamed K places s s') {J : Sym → Prop}
    (hs : ∀ id, ∀ x ∈ (s.node id).declaredNames, J x) :
    ∀ id, ∀ x ∈ (s'.node id).declaredNames, J x := by
  intro id x hx
  rcases h.node_eq_or id with he | ⟨new, -, he⟩
  · exact hs id x (he ▸ hx)
  · rw [he] at hx
    cases hx

end Renamed

/-! ## Repairs -/

/-- What a repair does to a pass at work: it gives visible names to identifiers among the places,
makes the index anew and queues imports of what an entry provides. -/
structure Repaired (K : Sym → Prop) (source : Entry) (places : List NodeId) (b b' : Bench σ) :
    Prop where
  renamed : Renamed K places b.script b'.script
  scope : b'.pass.scope.clearBorrowed = b.pass.scope.clearBorrowed
  enclosures : b'.pass.enclosures = b.pass.enclosures
  mutations : b'.pass.mutations = b.pass.mutations
  maxMutations : b'.pass.maxMutations = b.pass.maxMutations
  samples : b'.samples = b.samples
  queued : ∃ new, b'.pass.pending = b.pass.pending ++ new ∧ ∀ q ∈ new, q.2.source = source ∧
    ∃ kind : Imported, kind.provider? source (b.script.names.text q.1) = some q.2.declaration
  sees : b'.pass.Sees K

namespace Repaired

variable {b b' b'' : Bench σ} {source : Entry}

theorem refl (h : b.pass.Sees K) : Repaired K source places b b :=
  ⟨.refl _, rfl, rfl, rfl, rfl, rfl, ⟨[], (List.append_nil _).symm, nofun⟩, h⟩

theorem trans (h : Repaired K source places b b') (h' : Repaired K source places b' b'') :
    Repaired K source places b b'' := by
  obtain ⟨new, hnew, provided⟩ := h.queued
  obtain ⟨more, hmore, provided'⟩ := h'.queued
  refine ⟨h.renamed.trans h'.renamed, h'.scope.trans h.scope, h'.enclosures.trans h.enclosures,
    h'.mutations.trans h.mutations, h'.maxMutations.trans h.maxMutations,
    h'.samples.trans h.samples,
    ⟨new ++ more, by rw [hmore, hnew, List.append_assoc], fun q hq => ?_⟩, h'.sees⟩
  rcases List.mem_append.1 hq with hq | hq
  · exact provided q hq
  · rw [← h.renamed.names_eq]
    exact provided' q hq

theorem pending (h : Repaired K source places b b') : b.pass.pending <+: b'.pass.pending := by
  obtain ⟨new, hnew, -⟩ := h.queued
  exact ⟨new, hnew.symm⟩

/-- All imports may stand outside of everything if those may that were pending. -/
theorem vetted (h : Repaired K source places b b')
    (hb : ∀ q ∈ b.pass.pending, q.2.source.script.admissible q.2.declaration .outermost) :
    ∀ q ∈ b'.pass.pending, q.2.source.script.admissible q.2.declaration .outermost := by
  obtain ⟨new, hnew, provided⟩ := h.queued
  rw [hnew]
  intro q hq
  rcases List.mem_append.1 hq with hq | hq
  · exact hb q hq
  · obtain ⟨hs, kind, hp⟩ := provided q hq
    exact hs ▸ Imported.admissible_of_provider hp

end Repaired

open Work

/-- All chosen names have a property. -/
def Renames.All (K : Sym → Prop) (renames : Renames) : Prop :=
  ∀ r ∈ renames, ∀ new ∈ r.2, K new

section Steps

variable {b : Bench σ} (h : b.pass.Sees K)

include h

theorem repaired_queueImport (hd : ∀ id, ∀ x ∈ (b.script.node id).declaredNames, K x) (name : Sym)
    (kind : Imported) (source : Entry) :
    Repaired K source places b (onPass (fun s p => p.queueImport s name kind source) b).2 := by
  have hs := Pass.sees_queueImport h hd name kind source
  obtain ⟨index, stale, new, he, -, provided⟩ :=
    Pass.queueImport_eq b.script name kind source b.pass
  rw [run_onPass]
  rw [he] at hs ⊢
  refine ⟨.refl _, rfl, rfl, rfl, rfl, rfl, ⟨new, rfl, fun q hq => ?_⟩, hs⟩
  obtain ⟨hname, hsource, hp⟩ := provided q hq
  exact ⟨hsource, kind, by rw [hname]; exact hp⟩

/-- A new name is visible. -/
theorem all_renamed {renames : Renames} (hr : renames.All K) (name : Sym) :
    (∀ new ∈ (renamed name renames b).1.1, K new) ∧ (renamed name renames b).1.2.All K ∧
      (renamed name renames b).2.script = b.script ∧ (renamed name renames b).2.pass = b.pass ∧
      (renamed name renames b).2.samples = b.samples := by
  unfold renamed
  cases hl : renames.lookup name with
  | some new => exact ⟨hr _ (Pass.mem_of_lookup hl), hr, rfl, rfl, rfl⟩
  | none =>
    dsimp only
    rw [run_bind, run_get, run_bind, run_draw, run_pure]
    have hnew := Pass.sees_randomVisible h b.stream
    exact ⟨hnew, List.forall_mem_cons.2 ⟨hnew, hr⟩, rfl, rfl, rfl⟩

theorem repaired_repairReference (source : Entry) {id : NodeId} (hp : id ∈ places) {name : Sym}
    (hn : b.script.nodes[id]? = some (.ident name)) {renames : Renames} (hr : renames.All K) :
    Repaired K source places b (repairReference id name renames b).2 ∧
      (repairReference id name renames b).1.All K := by
  unfold repairReference
  rw [run_bind, run_get, run_bind, run_get]
  by_cases hv : b.pass.resolves b.script name
  · rw [if_pos hv, run_pure]
    exact ⟨.refl h, hr⟩
  · obtain ⟨hnew, hk, hs, hpass, hsamples⟩ := all_renamed h hr name
    rw [if_neg hv, run_bind]
    generalize renamed name renames b = r at *
    obtain ⟨⟨new, renames'⟩, b'⟩ := r
    obtain ⟨script, pass, stream, samples⟩ := b'
    obtain rfl : script = b.script := hs
    obtain rfl : pass = b.pass := hpass
    obtain rfl : samples = b.samples := hsamples
    have queued : ∃ new, b.pass.pending = b.pass.pending ++ new ∧ ∀ q ∈ new, q.2.source = source ∧
        ∃ kind : Imported,
          kind.provider? source (b.script.names.text q.1) = some q.2.declaration :=
      ⟨[], (List.append_nil _).symm, nofun⟩
    rcases new with _ | new
    · exact ⟨⟨.refl _, rfl, rfl, rfl, rfl, rfl, queued, h⟩, hk⟩
    · have changed : Renamed K places b.script (b.script.setNode id (.ident new)) :=
        .step (.refl _) hp hn (hnew new rfl)
      exact ⟨⟨changed, rfl, rfl, rfl, rfl, rfl, queued, h⟩, hk⟩

theorem repaired_repairNode (hd : ∀ id, ∀ x ∈ (b.script.node id).declaredNames, K x)
    (source : Entry) {id : NodeId} (hp : id ∈ places) (parent : Option NodeId) {renames : Renames}
    (hr : renames.All K) :
    Repaired K source places b (repairNode source renames id parent b).2 ∧
      (repairNode source renames id parent b).1.All K := by
  unfold repairNode
  rw [run_bind, run_get]
  dsimp only
  cases hn : b.script.node id with
  | ident name =>
    dsimp only
    by_cases hb : builtins.contains (b.script.names.text name)
    · rw [if_pos hb]
      exact ⟨.refl h, hr⟩
    · rw [if_neg hb]
      cases Imported.ofTarget? b.script id parent with
      | some kind =>
        dsimp only
        by_cases hc : kind = .functionDecl ||
            !builtinConstructors.contains (b.script.names.text name)
        · rw [if_pos hc]
          exact ⟨repaired_queueImport h hd name kind source, hr⟩
        · rw [if_neg hc]
          exact ⟨.refl h, hr⟩
      | none =>
        have hne : b.script.node id ≠ .empty := by rw [hn]; exact nofun
        exact repaired_repairReference h source hp (hn ▸ Script.node?_of_ne_empty hne) hr
  | _ => exact ⟨.refl h, hr⟩

end Steps

theorem repaired_repairNodes (source : Entry) {nodes : List (NodeId × Option NodeId)} {b : Bench σ}
    (h : b.pass.Sees K) (hd : ∀ id, ∀ x ∈ (b.script.node id).declaredNames, K x)
    (hp : ∀ n ∈ nodes, n.1 ∈ places) {renames : Renames} (hr : renames.All K) :
    Repaired K source places b (repairNodes source nodes renames b).2 := by
  induction nodes generalizing b renames with
  | nil => exact .refl h
  | cons n nodes ih =>
    obtain ⟨id, parent⟩ := n
    obtain ⟨hid, hps⟩ := List.forall_mem_cons.1 hp
    obtain ⟨first, hk⟩ := repaired_repairNode h hd source hid parent hr
    exact first.trans (ih first.sees (first.renamed.declares hd) hps hk)

theorem family_subset (s : Script) (root : NodeId) :
    ∀ n ∈ family s root, n.1 ∈ s.preorder root := by
  intro n hn
  obtain ⟨⟨t, parent⟩, ht, rfl⟩ := List.mem_map.1 hn
  refine List.mem_map.2 ⟨t, ?_, rfl⟩
  rw [← Tree.map_fst_preorderUnder none]
  exact List.mem_map_of_mem ht

/-- A repair renames identifiers of its tree and queues imports. -/
theorem repaired_prepare {b : Bench σ} (h : b.pass.Sees K)
    (hd : ∀ id, ∀ x ∈ (b.script.node id).declaredNames, K x) (copy : NodeId) (source : Entry) :
    Repaired K source (b.script.preorder copy) b (prepare copy source b).2 := by
  unfold prepare
  rw [run_bind, run_get, run_bind, run_onPass, run_bind, run_onPass]
  dsimp only
  generalize hnodes : family b.script copy = nodes
  have hp : ∀ n ∈ nodes, n.1 ∈ b.script.preorder copy := hnodes ▸ family_subset b.script copy
  have declared : ∀ x ∈ nodes.flatMap fun n => (b.script.node n.1).declaredNames, K x := by
    intro x hx
    obtain ⟨n, -, hn⟩ := List.mem_flatMap.1 hx
    exact hd n.1 x hn
  generalize (nodes.flatMap fun n => (b.script.node n.1).declaredNames) = names at declared ⊢
  have borrowed := Pass.sees_borrow h declared
  have unnamed : Renames.All K [] := fun r hr => absurd hr List.not_mem_nil
  obtain ⟨renamed, hscope, he, hm, hmax, hsamples, hq, hs⟩ :=
    repaired_repairNodes source (b := { b with pass := { b.pass with
      scope := b.pass.scope.borrow names } }) borrowed hd hp unnamed
  exact ⟨renamed, hscope, he, hm, hmax, hsamples, hq, Pass.sees_clearBorrowed hs⟩

end Graft
