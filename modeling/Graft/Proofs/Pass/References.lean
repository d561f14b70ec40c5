import Graft.Proofs.Chance.Choice
import Graft.Proofs.Pass.Requests

/-!
# The references of a repaired tree

A repair renames the strays of a tree: plain references under names that are neither built in nor
offered to the tree. A name is chosen for the first stray of a name and is given to all others. It
is a name that is offered, so that the strays are gone when the repair is over, unless nothing is
offered at all. In the same way what the tree calls or constructs need not be asked for again. So a
second repair finds nothing to do.

* `stray?` - the name that a repair renames at a node
* `Corrected` - what a repair does to nodes
* `renames_prepare` - which names a repair gives to the references of a tree
* `prepare_prepare` - a tree that was repaired is left as it is
-/

namespace Graft

open Chance (Draw Stream)
open Work

variable {σ : Type} {b b' b'' : Bench σ} {s s' : Script} {scope : Scope} {source : Entry}
  {nodes more : List (NodeId × Option NodeId)} {renames renames' renames'' : Renames}
  {id copy : NodeId} {parent : Option NodeId}

/-! ## Chosen names -/

/-- What was chosen fits a scope: names are visible, and there is none only where nothing is. -/
def Renames.Fit (scope : Scope) (renames : Renames) : Prop :=
  ∀ x new, renames.lookup x = some new →
    match new with
    | some y => scope.visible y
    | none => ∀ y, ¬ scope.visible y

/-- A name that was chosen once is chosen again. -/
theorem run_renamed_of_lookup {x : Sym} {new : Option Sym} (h : renames.lookup x = some new) :
    renamed x renames b = ((new, renames), b) := by
  unfold renamed
  rw [h]
  rfl

theorem run_renamed_of_not_lookup {x : Sym} (h : renames.lookup x = none) :
    let chosen := b.pass.scope.randomVisible b.stream
    renamed x renames b =
      ((chosen.1, (x, chosen.1) :: renames), { b with stream := chosen.2 }) := by
  unfold renamed
  rw [h]
  rfl

/-- What is chosen for a name fits and is noted, and what was noted before stays. -/
theorem fit_renamed (h : renames.Fit b.pass.scope) (x : Sym) :
    let r := renamed x renames b
    r.1.2.Fit b.pass.scope ∧ r.1.2.lookup x = some r.1.1 ∧
      (∀ y new, renames.lookup y = some new → r.1.2.lookup y = some new) ∧
      r.2 = { b with stream := r.2.stream } := by
  dsimp only
  cases hl : renames.lookup x with
  | some new =>
    rw [run_renamed_of_lookup hl]
    exact ⟨h, hl, fun _ _ hy => hy, rfl⟩
  | none =>
    rw [run_renamed_of_not_lookup hl]
    dsimp only
    refine ⟨fun y new hy => ?_, List.lookup_cons_self, fun y new hy => ?_, rfl⟩
    · rw [List.lookup_cons] at hy
      split at hy
      · obtain rfl := Option.some.inj hy
        rcases randomVisible_cases b.pass.scope b.stream with ⟨z, hz, hc⟩ | ⟨hn, hc⟩
        · rw [hc]
          exact hz
        · rw [hc]
          exact hn
      · exact h y new hy
    · rw [List.lookup_cons]
      split
      · rename_i he
        rw [beq_iff_eq.1 he, hl] at hy
        cases hy
      · exact hy

/-! ## One node -/

theorem Script.exists_ident (h : s.kind id = .ident) : ∃ x, s.node id = .ident x := by
  rw [Script.kind] at h
  cases hn : s.node id with
  | ident x => exact ⟨x, rfl⟩
  | _ =>
    rw [hn] at h
    cases h

namespace Work

/-- The name that a repair renames at a node: that of a plain reference which is neither built in
nor visible. -/
def stray? (scope : Scope) (s : Script) (id : NodeId) (parent : Option NodeId) : Option Sym :=
  match s.node id with
  | .ident x =>
    if builtins.contains (s.names.text x) || (Imported.ofTarget? s id parent).isSome ||
        scope.visible x || builtinConstructors.contains (s.names.text x) then none
    else some x
  | _ => none

theorem node_of_stray {x : Sym} (h : stray? scope s id parent = some x) : s.node id = .ident x := by
  unfold stray? at h
  split at h
  · rename_i y hn
    split at h
    · cases h
    · rw [hn, Option.some.inj h]
  · cases h

/-- A stray is no target. -/
theorem untargeted_of_stray {x : Sym} (h : stray? scope s id parent = some x) :
    Imported.ofTarget? s id parent = none := by
  have hn := node_of_stray h
  unfold stray? at h
  rw [hn] at h
  cases ht : Imported.ofTarget? s id parent with
  | none => rfl
  | some kind => simp [ht] at h

theorem asked?_of_untargeted (h : Imported.ofTarget? s id parent = none) :
    Imported.asked? s id parent = none := by
  unfold Imported.asked?
  rw [h]
  cases s.node id <;> rfl

theorem stray?_eq_none_of_visible {x : Sym} (hn : s.node id = .ident x) (hv : scope.visible x) :
    stray? scope s id parent = none := by
  unfold stray?
  rw [hn]
  simp [hv]

/-- What a bench is after a stray was given the name that was chosen for it. -/
def mend (id : NodeId) (new : Option Sym) (b : Bench σ) : Bench σ :=
  match new with
  | some y => { b with script := b.script.setNode id (.ident y) }
  | none => b

/-- A node of a copied tree is one that asks for a declaration, a stray, or left alone. -/
theorem run_repairNode (source : Entry) (renames : Renames) (id : NodeId) (parent : Option NodeId)
    (b : Bench σ) : repairNode source renames id parent b =
      match Imported.asked? b.script id parent, stray? b.pass.scope b.script id parent with
      | some (x, kind), _ =>
        (renames, { b with pass := b.pass.queueImport b.script x kind source })
      | none, some x =>
        let chosen := renamed x renames b
        (chosen.1.2, mend id chosen.1.1 chosen.2)
      | none, none => (renames, b) := by
  unfold repairNode Imported.asked? stray?
  rw [run_bind, run_get]
  dsimp only
  cases hn : b.script.node id with
  | ident x =>
    dsimp only
    cases hb : builtins.contains (b.script.names.text x) with
    | true =>
      rw [if_pos rfl]
      cases Imported.ofTarget? b.script id parent with
      | some kind =>
        have unsought : kind.sought (b.script.names.text x) = false := by
          simp only [Imported.sought, hb, Bool.not_true, Bool.false_and]
        dsimp only
        rw [unsought]
        rfl
      | none => rfl
    | false =>
      rw [if_neg Bool.false_ne_true]
      cases Imported.ofTarget? b.script id parent with
      | some kind =>
        dsimp only
        have sought : kind.sought (b.script.names.text x) = (decide (kind = .functionDecl) ||
            !builtinConstructors.contains (b.script.names.text x)) := by
          simp only [Imported.sought, hb, Bool.not_false, Bool.true_and]
        rw [sought]
        split <;> rfl
      | none =>
        dsimp only
        unfold repairReference
        rw [run_bind, run_get, run_bind, run_get]
        have resolves : b.pass.resolves b.script x = (b.pass.scope.visible x ||
            builtinConstructors.contains (b.script.names.text x)) := rfl
        rw [resolves, Option.isSome_none, Bool.or_false, Bool.false_or]
        split
        · rfl
        · rw [run_bind]
          dsimp only
          generalize renamed x renames b = r
          obtain ⟨⟨_ | new, renames'⟩, b'⟩ := r <;> rfl
  | _ => rfl

end Work

/-! ## Asking again -/

namespace Pass

variable {p : Pass} {names : Names} {kind : Imported} {x : Sym}

/-- Why asking for a name changes nothing: the name is borrowed or pending, or the index is not
made anew and has the declaration, or the source does not provide one. -/
def Heeded (names : Names) (source : Entry) (kind : Imported) (x : Sym) (p : Pass) : Prop :=
  p.scope.isBorrowed x ∨ p.isPending x ∨ p.stale = false ∧
    ((kind.find? p.index x).isSome ∨ kind.provider? source (names.text x) = none)

theorem refresh_of_fresh (h : p.stale = false) (s : Script) : p.refresh s = p := by
  unfold refresh
  rw [h]
  rfl

theorem stale_refresh (s : Script) (p : Pass) : (p.refresh s).stale = false := by
  cases h : p.stale with
  | true =>
    unfold refresh
    rw [if_pos h]
  | false => rw [refresh_of_fresh h, h]

theorem Heeded.queueImport_eq (h : p.Heeded s.names source kind x) :
    p.queueImport s x kind source = p := by
  unfold queueImport
  by_cases hq : p.scope.isBorrowed x || p.isPending x
  · rw [if_pos hq]
  · rw [if_neg hq]
    rw [Bool.or_eq_true, not_or] at hq
    obtain ⟨fresh, answer⟩ := (h.resolve_left hq.1).resolve_left hq.2
    rw [refresh_of_fresh fresh]
    dsimp only
    split
    · rfl
    · rename_i hf
      rw [answer.resolve_left hf]

/-- What was asked for is heeded. -/
theorem heeded_queueImport (s : Script) (x : Sym) (kind : Imported) (source : Entry) (p : Pass) :
    (p.queueImport s x kind source).Heeded s.names source kind x := by
  unfold queueImport
  by_cases hq : p.scope.isBorrowed x || p.isPending x
  · rw [if_pos hq]
    rw [Bool.or_eq_true] at hq
    exact hq.imp_right .inl
  · rw [if_neg hq]
    dsimp only
    split
    · rename_i hf
      exact .inr (.inr ⟨stale_refresh s p, .inl hf⟩)
    · split
      · exact .inr (.inl (by simp [isPending]))
      · rename_i hn
        exact .inr (.inr ⟨stale_refresh s p, .inr hn⟩)

/-- An index that is not made anew stays, whatever is asked for. -/
theorem index_queueImport (h : p.stale = false) (s : Script) (y : Sym) (kind : Imported)
    (source : Entry) : (p.queueImport s y kind source).index = p.index ∧
      (p.queueImport s y kind source).stale = false := by
  unfold queueImport
  rw [refresh_of_fresh h]
  split
  · exact ⟨rfl, h⟩
  · dsimp only
    split
    · exact ⟨rfl, h⟩
    · split <;> exact ⟨rfl, h⟩

/-- What is heeded stays so, whatever is asked for. -/
theorem Heeded.queueImport (h : p.Heeded names source kind x) (s : Script) (y : Sym)
    (kind' : Imported) (source' : Entry) :
    (p.queueImport s y kind' source').Heeded names source kind x := by
  obtain ⟨index, stale, new, he, -, -⟩ := Pass.queueImport_eq s y kind' source' p
  rcases h with borrowed | pending | ⟨fresh, answer⟩
  · rw [he]
    exact .inl borrowed
  · rw [he]
    refine .inr (.inl ?_)
    rw [isPending, List.any_append]
    exact Bool.or_eq_true_iff.2 (.inl pending)
  · obtain ⟨index, stale⟩ := index_queueImport fresh s y kind' source'
    exact .inr (.inr ⟨stale, index ▸ answer⟩)

theorem scope_queueImport (s : Script) (y : Sym) (kind : Imported) (source : Entry) (p : Pass) :
    (p.queueImport s y kind source).scope = p.scope := by
  obtain ⟨index, stale, new, he, -, -⟩ := Pass.queueImport_eq s y kind source p
  rw [he]

end Pass

/-! ## Nodes in a row -/

/-- What repairing nodes does: the strays have got the names that were chosen for them, all that is
asked for is heeded, and everything else is as it was. -/
structure Corrected (source : Entry) (nodes : List (NodeId × Option NodeId))
    (renames renames' : Renames) (b b' : Bench σ) : Prop where
  fit : renames'.Fit b'.pass.scope
  chosen : ∀ x new, renames.lookup x = some new → renames'.lookup x = some new
  names : b'.script.names = b.script.names
  size : b'.script.nodes.size = b.script.nodes.size
  scope : b'.pass.scope = b.pass.scope
  others : ∀ i ∉ nodes.map Prod.fst, b'.script.node i = b.script.node i
  mended : ∀ n ∈ nodes,
    match stray? b.pass.scope b.script n.1 n.2 with
    | some x => ∃ new, renames'.lookup x = some new ∧ b'.script.node n.1 = .ident (new.getD x)
    | none => b'.script.node n.1 = b.script.node n.1
  heeded : ∀ n ∈ nodes, ∀ x kind, Imported.asked? b.script n.1 n.2 = some (x, kind) →
    b'.pass.Heeded b.script.names source kind x
  heeds : ∀ x kind, b.pass.Heeded b.script.names source kind x →
    b'.pass.Heeded b.script.names source kind x

namespace Corrected

theorem mend_cases (h : Corrected source nodes renames renames' b b') {n : NodeId × Option NodeId}
    (hn : n ∈ nodes) :
    (∃ x new, stray? b.pass.scope b.script n.1 n.2 = some x ∧ renames'.lookup x = some new ∧
        b'.script.node n.1 = .ident (new.getD x)) ∨
      stray? b.pass.scope b.script n.1 n.2 = none ∧ b'.script.node n.1 = b.script.node n.1 := by
  have mended := h.mended n hn
  split at mended
  · rename_i x hx
    obtain ⟨new, hl, he⟩ := mended
    exact .inl ⟨x, new, hx, hl, he⟩
  · rename_i hx
    exact .inr ⟨hx, mended⟩

theorem retitled (h : Corrected source nodes renames renames' b b') (i : NodeId) :
    (b.script.node i).Retitled (b'.script.node i) := by
  by_cases hi : i ∈ nodes.map Prod.fst
  · obtain ⟨n, hn, rfl⟩ := List.mem_map.1 hi
    rcases h.mend_cases hn with ⟨x, new, hx, -, he⟩ | ⟨-, he⟩
    · exact .inr ⟨x, _, node_of_stray hx, he⟩
    · exact .inl he
  · exact .inl (h.others i hi)

theorem target?_eq (h : Corrected source nodes renames renames' b b') (i : NodeId) :
    (b'.script.node i).target? = (b.script.node i).target? :=
  (h.retitled i).target?_eq

theorem declaredNames_eq (h : Corrected source nodes renames renames' b b') (i : NodeId) :
    (b'.script.node i).declaredNames = (b.script.node i).declaredNames :=
  (h.retitled i).declaredNames_eq

theorem children_eq (h : Corrected source nodes renames renames' b b') (i : NodeId) :
    (b'.script.node i).children = (b.script.node i).children :=
  (h.retitled i).children_eq

theorem ofTarget?_eq (h : Corrected source nodes renames renames' b b') (id : NodeId)
    (parent : Option NodeId) :
    Imported.ofTarget? b'.script id parent = Imported.ofTarget? b.script id parent := by
  refine Option.ext fun kind => ?_
  simp only [Imported.ofTarget?_eq_some_iff, h.target?_eq]

/-- What is asked for at a node depends on the node and on the targets. -/
theorem asked?_eq (h : Corrected source nodes renames renames' b b')
    (hn : b'.script.node id = b.script.node id) (parent : Option NodeId) :
    Imported.asked? b'.script id parent = Imported.asked? b.script id parent := by
  rw [Imported.asked?, Imported.asked?, hn, h.ofTarget?_eq, h.names]

theorem stray?_eq (h : Corrected source nodes renames renames' b b')
    (hn : b'.script.node id = b.script.node id) (parent : Option NodeId) :
    stray? b'.pass.scope b'.script id parent = stray? b.pass.scope b.script id parent := by
  rw [stray?, stray?, hn, h.ofTarget?_eq, h.names, h.scope]

theorem refl (hf : renames.Fit b.pass.scope) : Corrected source [] renames renames b b where
  fit := hf
  chosen := fun _ _ h => h
  names := rfl
  size := rfl
  scope := rfl
  others := fun _ _ => rfl
  mended := nofun
  heeded := nofun
  heeds := fun _ _ h => h

theorem trans (h : Corrected source nodes renames renames' b b')
    (h' : Corrected source more renames' renames'' b' b'')
    (apart : ∀ n ∈ nodes, n.1 ∉ more.map Prod.fst) (apart' : ∀ n ∈ more, n.1 ∉ nodes.map Prod.fst) :
    Corrected source (nodes ++ more) renames renames'' b b'' where
  fit := h'.fit
  chosen := fun x new hx => h'.chosen x new (h.chosen x new hx)
  names := h'.names.trans h.names
  size := h'.size.trans h.size
  scope := h'.scope.trans h.scope
  others := by
    intro i hi
    rw [List.map_append, List.mem_append, not_or] at hi
    exact (h'.others i hi.2).trans (h.others i hi.1)
  mended := by
    intro n hn
    rcases List.mem_append.1 hn with hn | hn
    · rcases h.mend_cases hn with ⟨x, new, hx, hl, he⟩ | ⟨hx, he⟩
      · rw [hx]
        exact ⟨new, h'.chosen x new hl, (h'.others _ (apart n hn)).trans he⟩
      · rw [hx]
        exact (h'.others _ (apart n hn)).trans he
    · have before := h.others _ (apart' n hn)
      have mended := h'.mended n hn
      rwa [h.stray?_eq before, before] at mended
  heeded := by
    intro n hn x kind ha
    rcases List.mem_append.1 hn with hn | hn
    · have heeded := h.heeded n hn x kind ha
      rw [← h.names] at heeded ⊢
      exact h'.heeds x kind heeded
    · rw [← h.asked?_eq (h.others _ (apart' n hn))] at ha
      rw [← h.names]
      exact h'.heeded n hn x kind ha
  heeds := by
    intro x kind hx
    have heeded := h.heeds x kind hx
    rw [← h.names] at heeded ⊢
    exact h'.heeds x kind heeded

end Corrected

namespace Work

/-- Mending a stray gives it the name that was chosen for it. -/
theorem corrected_mend (source : Entry) (hf : renames.Fit b.pass.scope) {x : Sym}
    (hx : stray? b.pass.scope b.script id parent = some x) :
    let chosen := renamed x renames b
    Corrected source [(id, parent)] renames chosen.1.2 b (mend id chosen.1.1 chosen.2) := by
  obtain ⟨fit, noted, kept, hb⟩ := fit_renamed hf x
  dsimp only at fit noted kept hb ⊢
  generalize renamed x renames b = chosen at fit noted kept hb ⊢
  obtain ⟨⟨new, renames'⟩, b₁⟩ := chosen
  dsimp only at fit noted kept hb ⊢
  generalize b₁.stream = stream at hb
  subst hb
  have hn := node_of_stray hx
  have inside : id < b.script.nodes.size := by
    have hne : b.script.node id ≠ .empty := by
      rw [hn]
      exact nofun
    exact Script.lt_of_node (Script.node?_of_ne_empty hne)
  refine ⟨?_, kept, ?_, ?_, ?_, fun i hi => ?_, List.forall_mem_singleton.2 ?_,
    List.forall_mem_singleton.2 fun y kind ha => ?_, fun y kind hy => ?_⟩
  · cases new <;> exact fit
  · cases new <;> rfl
  · cases new with
    | none => rfl
    | some y => simp [mend, Script.setNode]
  · cases new <;> rfl
  · cases new with
    | none => rfl
    | some y =>
      exact Script.node_setNode_of_ne _ fun he => hi (List.mem_singleton.2 he)
  · rw [hx]
    refine ⟨new, noted, ?_⟩
    cases new with
    | none => exact hn
    | some y => exact Script.node_eq (Script.node?_setNode inside)
  · rw [asked?_of_untargeted (untargeted_of_stray hx)] at ha
    cases ha
  · cases new <;> exact hy

theorem corrected_repairNode (source : Entry) (hf : renames.Fit b.pass.scope) (id : NodeId)
    (parent : Option NodeId) :
    let r := repairNode source renames id parent b
    Corrected source [(id, parent)] renames r.1 b r.2 := by
  dsimp only
  rw [run_repairNode]
  cases hx : stray? b.pass.scope b.script id parent with
  | some x =>
    rw [asked?_of_untargeted (untargeted_of_stray hx)]
    exact corrected_mend source hf hx
  | none =>
    cases ha : Imported.asked? b.script id parent with
    | some asked =>
      obtain ⟨x, kind⟩ := asked
      have scope := Pass.scope_queueImport b.script x kind source b.pass
      refine ⟨?_, fun _ _ h => h, rfl, rfl, scope, fun _ _ => rfl, List.forall_mem_singleton.2 ?_,
        List.forall_mem_singleton.2 fun y kind' ha' => ?_, fun y kind' hy => ?_⟩
      · exact scope.symm ▸ hf
      · rw [hx]
      · obtain ⟨rfl, rfl⟩ := Prod.mk.inj (Option.some.inj (ha.symm.trans ha'))
        exact Pass.heeded_queueImport b.script x kind source b.pass
      · exact hy.queueImport b.script x kind source
    | none =>
      refine ⟨hf, fun _ _ h => h, rfl, rfl, rfl, fun _ _ => rfl, List.forall_mem_singleton.2 ?_,
        List.forall_mem_singleton.2 fun y kind' ha' => ?_, fun _ _ h => h⟩
      · rw [hx]
      · rw [ha] at ha'
        cases ha'

/-- Repairing nodes, each once. -/
theorem corrected_repairNodes (source : Entry) (hf : renames.Fit b.pass.scope)
    (distinct : (nodes.map Prod.fst).Nodup) :
    ∃ renames', Corrected source nodes renames renames' b
      (repairNodes source nodes renames b).2 := by
  induction nodes generalizing b renames with
  | nil => exact ⟨renames, .refl hf⟩
  | cons n nodes ih =>
    obtain ⟨id, parent⟩ := n
    obtain ⟨hne, distinct⟩ := List.nodup_cons.1 distinct
    have first := corrected_repairNode source hf id parent
    rw [repairNodes, run_bind]
    dsimp only at first ⊢
    generalize repairNode source renames id parent b = r at first ⊢
    obtain ⟨renames', rest⟩ := ih first.fit distinct
    refine ⟨renames', first.trans rest (List.forall_mem_singleton.2 hne) fun n hn hid => ?_⟩
    exact hne (List.mem_singleton.1 hid ▸ List.mem_map_of_mem hn)

/-! ## Nothing to do -/

/-- A repair of a node does nothing: what it asks for is heeded, and it is no stray that could get
another name. -/
structure Idle (source : Entry) (b : Bench σ) (id : NodeId) (parent : Option NodeId) : Prop where
  heeded : ∀ x kind, Imported.asked? b.script id parent = some (x, kind) →
    b.pass.Heeded b.script.names source kind x
  helpless : ∀ x, stray? b.pass.scope b.script id parent = some x → ∀ y, ¬ b.pass.scope.visible y

theorem Idle.run_repairNode (h : Idle source b id parent) (hf : renames.Fit b.pass.scope) :
    let r := repairNode source renames id parent b
    r.2 = b ∧ r.1.Fit b.pass.scope := by
  dsimp only
  rw [Work.run_repairNode]
  cases ha : Imported.asked? b.script id parent with
  | some asked =>
    obtain ⟨x, kind⟩ := asked
    refine ⟨?_, hf⟩
    dsimp only
    rw [(h.heeded x kind ha).queueImport_eq]
  | none =>
    cases hx : stray? b.pass.scope b.script id parent with
    | none => exact ⟨rfl, hf⟩
    | some x =>
      have helpless := h.helpless x hx
      obtain ⟨fit, noted, -, -⟩ := fit_renamed hf x
      dsimp only at fit noted ⊢
      -- nothing is visible, so that no name was chosen, now or before
      have chosen : renamed x renames b = ((none, (renamed x renames b).1.2), b) := by
        cases hl : renames.lookup x with
        | some new =>
          have none : new = none := by
            cases new with
            | none => rfl
            | some y => exact absurd (hf x (some y) hl) (helpless y)
          rw [run_renamed_of_lookup hl, none]
        | none =>
          rw [run_renamed_of_not_lookup hl]
          rcases randomVisible_cases b.pass.scope b.stream with ⟨y, hy, -⟩ | ⟨-, hc⟩
          · exact absurd hy (helpless y)
          · rw [hc]
      rw [chosen]
      exact ⟨rfl, fit⟩

theorem run_repairNodes_of_idle (h : ∀ n ∈ nodes, Idle source b n.1 n.2)
    (hf : renames.Fit b.pass.scope) : (repairNodes source nodes renames b).2 = b := by
  induction nodes generalizing renames with
  | nil => rfl
  | cons n nodes ih =>
    obtain ⟨id, parent⟩ := n
    obtain ⟨first, rest⟩ := List.forall_mem_cons.1 h
    obtain ⟨same, fit⟩ := first.run_repairNode hf
    rw [repairNodes, run_bind, same]
    exact ih rest fit

end Work

/-- Nodes that were repaired are idle. -/
theorem Corrected.idle (h : Corrected source nodes renames renames' b b') :
    ∀ n ∈ nodes, Idle source b' n.1 n.2 := by
  intro n hn
  rcases h.mend_cases hn with ⟨x, new, hx, hl, he⟩ | ⟨hx, he⟩
  · have untargeted : Imported.ofTarget? b'.script n.1 n.2 = none :=
      (h.ofTarget?_eq n.1 n.2).trans (untargeted_of_stray hx)
    refine ⟨fun y kind ha => ?_, fun y hy => ?_⟩
    · rw [asked?_of_untargeted untargeted] at ha
      cases ha
    · have fit := h.fit x new hl
      cases new with
      | none => exact fit
      | some z =>
        -- the name that was chosen is visible, so that this is no stray any more
        rw [stray?_eq_none_of_visible he fit] at hy
        cases hy
  · refine ⟨fun y kind ha => ?_, fun y hy => ?_⟩
    · rw [h.asked?_eq he] at ha
      rw [h.names]
      exact h.heeded n hn y kind ha
    · rw [h.stray?_eq he, hx] at hy
      cases hy

/-! ## The nodes of a tree -/

/-- Every parent that is listed is one of the tree, but for that of the root. -/
theorem Tree.mem_preorder_of_parent {τ : Type} {t c u : Tree τ} {parent : Option (Tree τ)}
    (h : (c, some u) ∈ preorderUnder parent t) : some u = parent ∨ u ∈ t.preorder := by
  induction t using induct generalizing parent with
  | step t ih =>
    rw [preorderUnder_eq, List.mem_cons, List.mem_flatMap] at h
    rw [preorder_eq, List.mem_cons, List.mem_flatMap]
    rcases h with he | ⟨d, hd, h⟩
    · exact .inl (Prod.mk.inj he).2
    · rcases ih d hd h with he | hu
      · exact .inr (.inl (Option.some.inj he))
      · exact .inr (.inr ⟨d, hd, hu⟩)

theorem mem_preorder_of_family {p : NodeId} (h : (id, some p) ∈ family s copy) :
    p ∈ s.preorder copy := by
  obtain ⟨⟨t, parent⟩, ht, he⟩ := List.mem_map.1 h
  obtain ⟨-, hp⟩ := Prod.mk.inj he
  obtain ⟨u, rfl, rfl⟩ := Option.map_eq_some_iff.1 hp
  exact List.mem_map_of_mem ((Tree.mem_preorder_of_parent ht).resolve_left nofun)

/-- Which places are listed with which parents depends on the children of the nodes. -/
theorem family_congr (size : s'.nodes.size = s.nodes.size)
    (children : ∀ i, (s'.node i).children = (s.node i).children) (id : NodeId) :
    family s' id = family s id := by
  have below : ∀ (s : Script) (depth : Nat) (id : NodeId), (s.treeToDepth (depth + 1) id).children =
      (s.node id).children.map (s.treeToDepth depth) := fun _ _ _ => Node.children_map ..
  have listed : ∀ (depth : Nat) (id : NodeId) (parent parent' : Option (Tree NodeId)),
      parent'.map Tree.tag = parent.map Tree.tag →
      (Tree.preorderUnder parent' (s'.treeToDepth depth id)).map
          (fun listed => (listed.1.tag, listed.2.map Tree.tag)) =
        (Tree.preorderUnder parent (s.treeToDepth depth id)).map
          fun listed => (listed.1.tag, listed.2.map Tree.tag) := by
    intro depth
    induction depth with
    | zero =>
      intro id parent parent' hp
      rw [Tree.preorderUnder_eq, Tree.preorderUnder_eq, List.map_cons, List.map_cons]
      dsimp only
      rw [hp]
      rfl
    | succ depth ih =>
      intro id parent parent' hp
      rw [Tree.preorderUnder_eq, Tree.preorderUnder_eq, List.map_cons, List.map_cons]
      dsimp only
      rw [hp]
      refine congrArg₂ List.cons rfl ?_
      rw [List.map_flatMap, List.map_flatMap, below, below, children, List.flatMap_map,
        List.flatMap_map]
      exact List.flatMap_congr fun c _ => ih c _ _ rfl
  unfold family Script.tree
  rw [size]
  exact listed _ _ _ _ rfl

/-! ## Repairs -/

/-- A pass that shows borrowed names no more. -/
def Bench.hiding (b : Bench σ) : Bench σ :=
  { b with pass := { b.pass with scope := b.pass.scope.clearBorrowed } }

/-- A repair of a tree, and the bench at the end of its nodes. -/
theorem Work.exists_corrected (hr : b.script.Rooted copy) (source : Entry) :
    ∃ renames b₁,
      Corrected source (family b.script copy) [] renames (b.showing (shown copy b)) b₁ ∧
      prepare copy source b = ((), b₁.hiding) := by
  have fit : Renames.Fit (b.showing (shown copy b)).pass.scope [] := nofun
  obtain ⟨renames, corrected⟩ := corrected_repairNodes (b := b.showing (shown copy b)) source fit
    (map_fst_family b.script copy ▸ hr.nodup)
  exact ⟨renames, _, corrected, run_prepare copy source b⟩

/-- A name is offered to a tree: it is visible, or the tree declares it. -/
def Bench.Offers (b : Bench σ) (copy : NodeId) (x : Sym) : Prop :=
  b.pass.scope.visible x ∨ ∃ i ∈ b.script.preorder copy, x ∈ (b.script.node i).declaredNames

/-- Why an identifier of a tree keeps its name: it is built in, it is called or constructed, it is
offered, or it is a constructor that is built in. -/
def Bench.Keeps (b : Bench σ) (copy id : NodeId) (x : Sym) : Prop :=
  builtins.contains (b.script.names.text x) ∨
    (∃ p ∈ b.script.preorder copy, ∃ kind, (b.script.node p).target? = some (kind, id)) ∨
    b.Offers copy x ∨ builtinConstructors.contains (b.script.names.text x)

theorem visible_showing (x : Sym) :
    (b.showing (shown copy b)).pass.scope.visible x ↔ b.Offers copy x := by
  rw [Bench.Offers, ← mem_shown_iff]
  simp only [Bench.showing, Scope.visible, Scope.borrow, Bool.or_eq_true, List.contains_eq_mem,
    decide_eq_true_eq, List.mem_append]
  tauto

/-- A node is a target if one of the tree calls or constructs it. -/
theorem ofTarget?_of_family (hr : b.script.Rooted copy) (hn : (id, parent) ∈ family b.script copy) :
    (Imported.ofTarget? b.script id parent).isSome ↔
      ∃ p ∈ b.script.preorder copy, ∃ kind, (b.script.node p).target? = some (kind, id) := by
  rw [Option.isSome_iff_exists]
  simp only [Imported.ofTarget?_eq_some_iff]
  constructor
  · rintro ⟨kind, p, rfl, ht⟩
    exact ⟨p, mem_preorder_of_family hn, kind, ht⟩
  · rintro ⟨p, hp, kind, ht⟩
    -- the tree lists the node once, with its parent
    have listed := mem_family_child hr hp (Node.mem_children_of_target ht)
    have distinct : ((family b.script copy).map Prod.fst).Nodup :=
      map_fst_family b.script copy ▸ hr.nodup
    have same := List.inj_on_of_nodup_map distinct hn listed rfl
    exact ⟨kind, p, (Prod.mk.inj same).2, ht⟩

/-- The strays of a tree are the identifiers that do not keep their names. -/
theorem stray?_eq_some_iff (hr : b.script.Rooted copy) (hn : (id, parent) ∈ family b.script copy)
    {x : Sym} (hx : b.script.node id = .ident x) :
    stray? (b.showing (shown copy b)).pass.scope b.script id parent = some x ↔
      ¬ b.Keeps copy id x := by
  have target := ofTarget?_of_family hr hn
  have offers : (b.showing (shown copy b)).pass.scope.visible x ↔ b.Offers copy x :=
    visible_showing x
  unfold stray? Bench.Keeps
  rw [hx, ← target, ← offers]
  dsimp only
  split
  · rename_i h
    simp only [Bool.or_eq_true] at h
    simp only [reduceCtorEq, false_iff, not_not]
    tauto
  · rename_i h
    simp only [Bool.or_eq_true] at h
    simp only [true_iff]
    tauto

/-- What a repair changes: no more than identifiers of its tree. These keep their names, or all of
one name get one name that is offered, unless nothing is offered. -/
theorem renames_prepare (alone : b.pass.scope.borrowed = []) (hr : b.script.Rooted copy)
    (source : Entry) :
    let b' := (prepare copy source b).2
    b'.script.names = b.script.names ∧ b'.script.nodes.size = b.script.nodes.size ∧
    b'.pass.scope = b.pass.scope ∧
    (∀ i, (i ∈ b.script.preorder copy → b.script.kind i ≠ .ident) →
      b'.script.node i = b.script.node i) ∧
    ∃ new : Sym → Option Sym, ∀ i ∈ b.script.preorder copy, ∀ x, b.script.node i = .ident x →
      (b.Keeps copy i x → b'.script.node i = .ident x) ∧
      (¬ b.Keeps copy i x →
        match new x with
        | some y => b'.script.node i = .ident y ∧ b.Offers copy y
        | none => b'.script.node i = .ident x ∧ ∀ y, ¬ b.Offers copy y) := by
  obtain ⟨renames, b₁, corrected, run⟩ := exists_corrected hr source
  rw [run]
  dsimp only
  have places : (family b.script copy).map Prod.fst = b.script.preorder copy :=
    map_fst_family b.script copy
  refine ⟨corrected.names, corrected.size, ?_, fun i hi => ?_,
    fun x => (renames.lookup x).join, fun i hi x hx => ?_⟩
  · change b₁.pass.scope.clearBorrowed = b.pass.scope
    rw [corrected.scope]
    change { b.pass.scope with borrowed := [] } = b.pass.scope
    rw [← alone]
  · change b₁.script.node i = b.script.node i
    by_cases hm : i ∈ (family b.script copy).map Prod.fst
    · rcases corrected.retitled i with he | ⟨old, new, ho, -⟩
      · exact he
      · refine absurd ?_ (hi (places ▸ hm))
        change (b.script.node i).kind = .ident
        rw [show b.script.node i = .ident old from ho]
        rfl
    · exact corrected.others i hm
  · rw [← places] at hi
    obtain ⟨n, hn, rfl⟩ := List.mem_map.1 hi
    have stray := stray?_eq_some_iff hr hn hx
    rcases corrected.mend_cases hn with ⟨y, new, hy, hl, he⟩ | ⟨hy, he⟩
    · obtain rfl : y = x := Node.ident.inj ((node_of_stray hy).symm.trans hx)
      refine ⟨fun keeps => absurd keeps (stray.1 hy), fun _ => ?_⟩
      have fit := corrected.fit y new hl
      rw [corrected.scope] at fit
      dsimp only
      rw [hl, Option.join_some]
      cases new with
      | some z => exact ⟨he, (visible_showing z).1 fit⟩
      | none => exact ⟨he, fun z hz => fit z ((visible_showing z).2 hz)⟩
    · refine ⟨fun _ => he.trans hx, fun leaves => ?_⟩
      have hsome := stray.2 leaves
      exact absurd (hy.symm.trans hsome) nofun

/-- A block that is copied declares a name, refers to another one and calls a function. -/
theorem renames_prepare_block : ∃ s t, Script.read "a = 1;" = .ok s ∧
    Script.read "{ var k = 1; x + f(x); } function f() {}" = .ok t ∧
      let made := Script.copy t (t.body.headD 0) s
      let b : Bench Unit := ⟨made.2, .start s 1, .seeded 0, ()⟩
      b.pass.scope.borrowed = [] ∧ b.script.Rooted made.1 ∧
      ∃ new : Sym → Option Sym, ∃ i ∈ b.script.preorder made.1, ∃ x y,
        b.script.node i = .ident x ∧ x ≠ y ∧ new x = some y ∧ b.Offers made.1 y ∧
        (prepare made.1 (.ofScript "t.js" t) b).2.script.node i = .ident y := by
  obtain ⟨s, t, hs, ht, renamed⟩ := @exists_read_both "a = 1;"
    "{ var k = 1; x + f(x); } function f() {}" (fun s t =>
      let made := Script.copy t (t.body.headD 0) s
      let b : Bench Unit := ⟨made.2, .start s 1, .seeded 0, ()⟩
      (b.script.preorder made.1).any fun i => b.script.kind i == .ident &&
        (prepare made.1 (.ofScript "t.js" t) b).2.script.node i != b.script.node i)
    (by decide +kernel)
  have rooted := (Script.copy_spec t (t.body.headD 0) s).rooted
  obtain ⟨-, -, -, -, new, names⟩ :=
    renames_prepare (b := ⟨_, .start s 1, .seeded 0, ()⟩) rfl rooted (.ofScript "t.js" t)
  refine ⟨s, t, hs, ht, rfl, rooted, new, ?_⟩
  obtain ⟨i, hi, found⟩ := List.any_eq_true.1 renamed
  obtain ⟨reference, differ⟩ := Bool.and_eq_true_iff.1 found
  obtain ⟨x, hx⟩ := Script.exists_ident (beq_iff_eq.1 reference)
  have changed := bne_iff_ne.1 differ
  obtain ⟨keeps, gets⟩ := names i hi x hx
  have got := gets fun hk => changed ((keeps hk).trans hx.symm)
  split at got
  · rename_i y hy
    refine ⟨i, hi, x, y, hx, fun he => changed ?_, hy, got.2, got.1⟩
    rw [got.1, ← he]
    exact hx.symm
  · exact absurd (got.1.trans hx.symm) changed

/-- A repair of a tree changes nothing when it is repeated: no node, nothing in the queue, nothing
that is visible, and nothing is drawn. -/
theorem prepare_prepare (alone : b.pass.scope.borrowed = []) (hr : b.script.Rooted copy)
    (source : Entry) :
    let b' := (prepare copy source b).2
    prepare copy source b' = ((), b') := by
  obtain ⟨renames, b₁, corrected, run⟩ := exists_corrected hr source
  rw [run]
  dsimp only
  -- inside of the second repair, everything is as it was inside of the first one in the end
  have family_eq : family b₁.script copy = family b.script copy :=
    family_congr corrected.size corrected.children_eq copy
  have shown_eq : shown copy b₁ = shown copy b := by
    rw [shown, family_eq]
    exact List.flatMap_congr fun n _ => corrected.declaredNames_eq n.1
  have scope : b₁.pass.scope.clearBorrowed.borrow (shown copy b) = b₁.pass.scope := by
    rw [corrected.scope]
    simp [Bench.showing, Scope.borrow, Scope.clearBorrowed, alone]
  have inside : b₁.hiding.showing (shown copy b₁) = b₁ := by
    unfold Bench.hiding Bench.showing
    dsimp only
    rw [shown_eq, scope]
  have nothing : (repairNodes source (family b₁.script copy) [] b₁).2 = b₁ := by
    rw [family_eq]
    exact run_repairNodes_of_idle corrected.idle fun _ _ h => by cases h
  calc prepare copy source b₁.hiding
      = ((), (repairNodes source (family b₁.script copy) []
          (b₁.hiding.showing (shown copy b₁))).2.hiding) := run_prepare copy source b₁.hiding
    _ = ((), b₁.hiding) := by rw [inside, nothing]

/-- A repair that renames a reference and queues an import, and its repetition. -/
theorem prepare_prepare_block : ∃ s t, Script.read "a = 1;" = .ok s ∧
    Script.read "{ var k = 1; x + f(x); } function f() {}" = .ok t ∧
      let made := Script.copy t (t.body.headD 0) s
      let source := Entry.ofScript "t.js" t
      let b : Bench Unit := ⟨made.2, .start s 1, .seeded 0, ()⟩
      let b' := (prepare made.1 source b).2
      b.pass.scope.borrowed = [] ∧ b.script.Rooted made.1 ∧
      b'.script ≠ b.script ∧ b'.stream ≠ b.stream ∧ b'.pass.pending ≠ [] ∧
      prepare made.1 source b' = ((), b') := by
  obtain ⟨s, t, hs, ht, changed⟩ := @exists_read_both "a = 1;"
    "{ var k = 1; x + f(x); } function f() {}" (fun s t =>
      let made := Script.copy t (t.body.headD 0) s
      let b : Bench Unit := ⟨made.2, .start s 1, .seeded 0, ()⟩
      let b' := (prepare made.1 (.ofScript "t.js" t) b).2
      b'.script ≠ b.script ∧ b'.stream ≠ b.stream ∧ b'.pass.pending ≠ []) (by decide +kernel)
  have rooted := (Script.copy_spec t (t.body.headD 0) s).rooted
  obtain ⟨script, stream, pending⟩ := of_decide_eq_true changed
  exact ⟨s, t, hs, ht, rfl, rooted, script, stream, pending,
    prepare_prepare (b := ⟨_, .start s 1, .seeded 0, ()⟩) rfl rooted (.ofScript "t.js" t)⟩

end Graft
