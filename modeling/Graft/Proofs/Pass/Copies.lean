import Graft.Proofs.Pass.Queue
import Mathlib.Algebra.GroupWithZero.Nat
import Mathlib.Algebra.Order.BigOperators.Group.List
import Mathlib.Algebra.Order.Group.Nat

/-!
# Copies of declarations

A declaration that is imported is put behind the statements of the program once, with all that is
declared inside of it. Nothing is looked up before that. So the copies of a name in the program when
a pass is over are those that were there when its walk was over, and those in all of the
declarations that were pending, each of which has its own name at least.

* `Bench.Settled.length_pending_le` - the queue is bounded by what its sources declare
* `flushImports_induct` - every import is brought in
* `copies_run` - the copies of a name after a structural pass
-/

namespace Graft

open Chance (Draw Stream Probability)
open Script (Evolves root)
open Work

variable {σ τ ρ : Type}

/-! ## Counting declarations -/

namespace Tree

/-- How many functions and classes of a name are declared in a tree. -/
def copies (name : String) (t : Tree τ) : Nat :=
  t.preorder.countP fun u => u.node.declaration? == some name

theorem copies_mk (name : String) (tag : τ) (node : Node (Tree τ) String) :
    (mk tag node).copies name =
      (if node.declaration? = some name then 1 else 0) + (node.children.map (copies name)).sum := by
  rw [copies, preorder_eq, List.countP_cons, List.countP_flatMap, Nat.add_comm]
  simp only [beq_iff_eq]
  rfl

theorem copies_retag (name : String) (f : τ → ρ) (t : Tree τ) :
    (t.retag f).copies name = t.copies name := by
  induction t using induct with
  | step t ih =>
    obtain ⟨tag, node⟩ := t
    rw [retag_mk, copies_mk, copies_mk, Node.declaration?_map, Option.map_id, Node.children_map,
      List.map_map]
    exact congrArg _ (congrArg List.sum (List.map_congr_left ih))

theorem copies_of_erase_eq {t : Tree τ} {u : Tree ρ} (h : t.erase = u.erase) (name : String) :
    t.copies name = u.copies name := by
  rw [← copies_retag name (fun _ => ()) t, ← copies_retag name (fun _ => ()) u]
  exact congrArg (copies name) h

theorem copies_pos {t : Tree τ} {name : String} (h : t.node.declaration? = some name) :
    0 < t.copies name := by
  obtain ⟨tag, node⟩ := t
  have here : node.declaration? = some name := h
  rw [copies_mk, if_pos here]
  omega

end Tree

namespace Script

variable {s : Script} {id : NodeId}

/-- The trees in what hangs under a place are those under the places that are listed. -/
theorem Rooted.preorder_tree (h : s.Rooted id) :
    (s.tree id).preorder = (s.preorder id).map s.tree := by
  rw [preorder, List.map_map]
  refine (List.map_id' _).symm.trans (List.map_congr_left fun u hu => ?_)
  obtain ⟨i, -, rfl⟩ := h.eq_tree_of_mem_preorder hu
  rw [Function.comp_apply, tag_tree]

theorem Rooted.copies_eq (h : s.Rooted id) (name : String) : (s.tree id).copies name =
    (s.preorder id).countP fun i => (s.node i).declaration?.map s.names.text == some name := by
  rw [Tree.copies, h.preorder_tree, List.countP_map]
  refine List.countP_congr fun i hi => ?_
  rw [Function.comp_apply, (h.of_mem_preorder hi).tree_eq, Tree.node, Node.declaration?_map]

end Script

/-- Renaming identifiers neither adds a declaration nor takes one away. -/
theorem Renamed.copies_eq {K : Sym → Prop} {places : List NodeId} {s s' : Script} {id : NodeId}
    (h : Renamed K places s s') (known : ∀ x, K x → s.Knows x) (hr : s.Rooted id) (name : String) :
    (s'.tree id).copies name = (s.tree id).copies name := by
  obtain ⟨hr', places'⟩ := h.rooted known hr
  rw [hr'.copies_eq, hr.copies_eq, places', h.names_eq]
  exact List.countP_congr fun i _ => by rw [h.declaration?_eq]

/-! ## Imports -/

namespace Imported

theorem declaration_of_declared {kind : Imported} {n : Node NodeId Sym} {x : Sym}
    (h : kind.declared? n = some x) : n.declaration? = some x := by
  cases kind <;> cases n <;> simp_all [declared?, Node.declaration?]

end Imported

/-- The tree that an import brings in. -/
def Import.tree (entry : Import) : Tree NodeId :=
  entry.source.script.tree entry.declaration

/-- An import declares the name under which it is pending. -/
theorem Script.Provides.declares {s : Script} {q : Sym × Import} (h : s.Provides q) :
    ∃ name, s.names.text? q.1 = some name ∧ q.2.tree.node.declaration? = some name ∧
      q.2.declaration < q.2.source.script.nodes.size := by
  obtain ⟨name, ht, kind, hp⟩ := h.provided
  have wellformed := h.read.wellformed
  obtain ⟨path, source, script, hread, he⟩ := h.read
  rw [he] at hp wellformed
  obtain ⟨x, hx, hm, hd⟩ := Imported.declares_of_provider hp
  have rooted : script.Rooted q.2.declaration := wellformed.rooted.of_mem_preorder hm
  refine ⟨name, ht, ?_, he ▸ rooted.lt⟩
  rw [Import.tree, he]
  change (script.tree q.2.declaration).node.declaration? = some name
  rw [rooted.tree_eq, Tree.node, Node.declaration?_map, Imported.declaration_of_declared hd,
    Option.map_some, Script.text_eq hx]

variable {Kept : σ → Prop} {b : Bench σ} {sources : List Entry}

/-- No declaration is pending twice, so that there are no more imports than nodes in their
sources. -/
theorem Bench.Settled.length_pending_le (hb : b.Settled Kept)
    (hsources : ∀ q ∈ b.pass.pending, q.2.source ∈ sources) :
    b.pass.pending.length ≤ (sources.map fun source => source.script.nodes.size).sum := by
  have same : ∀ q ∈ b.pass.pending, ∀ q' ∈ b.pass.pending, q.2 = q'.2 → q = q' := by
    intro q hq q' hq' he
    obtain ⟨name, ht, hd, -⟩ := (hb.provided q hq).declares
    obtain ⟨name', ht', hd', -⟩ := (hb.provided q' hq').declares
    rw [he, hd'] at hd
    obtain rfl := Option.some.inj hd
    exact Prod.ext (hb.distinct.eq_of_text? ht ht') he
  have distinct : (b.pass.pending.map fun q => (q.2.source, q.2.declaration)).Nodup := by
    refine hb.once.of_map.map_on fun q hq q' hq' he => same q hq q' hq' ?_
    obtain ⟨hsource, hdeclaration⟩ := Prod.mk.inj he
    rw [show q.2 = ⟨q.2.declaration, q.2.source⟩ from rfl, hsource, hdeclaration]
  have places : (b.pass.pending.map fun q => (q.2.source, q.2.declaration)) ⊆
      sources.flatMap fun source => (List.range source.script.nodes.size).map (source, ·) := by
    refine List.forall_mem_map.2 fun q hq => List.mem_flatMap.2 ⟨_, hsources q hq, ?_⟩
    obtain ⟨-, -, -, hlt⟩ := (hb.provided q hq).declares
    exact List.mem_map_of_mem (List.mem_range.2 hlt)
  simpa [List.length_flatMap] using (List.subperm_of_subset distinct places).length_le

/-- A copied and repaired tree declares what its original does. -/
theorem copies_copy (hs : b.Sound) (source : Entry) (place : NodeId) (name : String) :
    let made := Script.copy source.script place b.script
    let b' := (prepare made.1 source ({ b with script := made.2 } : Bench σ)).2
    (b'.script.tree made.1).copies name = (source.script.tree place).copies name := by
  intro made b'
  obtain ⟨planted, -, repaired⟩ := repaired_copy hs source place
  rw [repaired.renamed.copies_eq (fun _ hx => hx) planted.rooted]
  exact Tree.copies_of_erase_eq planted.erase_eq name

/-- An import adds what it declares to the program. -/
theorem copies_bringIn (hs : b.Sound) (hw : b.script.Wellformed) (entry : Import) (name : String) :
    ((bringIn entry b).2.script.tree root).copies name =
      (b.script.tree root).copies name + entry.tree.copies name := by
  rw [run_bringIn]
  have borrowed := borrowed_copy hs entry.source entry.declaration
  have copied := copies_copy hs entry.source entry.declaration name
  dsimp only at borrowed copied ⊢
  generalize (prepare _ entry.source _).2 = b₁ at borrowed copied ⊢
  generalize (Script.copy entry.source.script entry.declaration b.script).1 = copy at *
  obtain ⟨hw₁, htree, apart⟩ := borrowed.beside hw
  obtain ⟨body, hbody⟩ := hw₁.program
  obtain ⟨-, pushed, -⟩ := Script.push_spec hbody hw₁.rooted borrowed.rooted apart
  rw [pushed, ← htree, hw₁.rooted.tree_eq, hbody, Tree.copies_mk, Tree.copies_mk, Node.children_map]
  change _ + ((body.map b₁.script.tree ++ [b₁.script.tree copy]).map _).sum = _
  rw [List.map_append, List.sum_append, List.map_singleton, List.sum_singleton, copied,
    ← Nat.add_assoc]
  rfl

/-- The next element of a list that has grown behind. -/
theorem take_succ_of_grown {α : Type} {xs ys : List α} {i : Nat} {x : α} (h : xs <+: ys)
    (hx : xs[i]? = some x) : ys.take (i + 1) = xs.take i ++ [x] := by
  obtain ⟨more, rfl⟩ := h
  have hi := (List.getElem?_eq_some_iff.1 hx).1
  rw [List.take_append_of_le_length hi, List.take_add_one, hx]
  rfl

theorem run_flushFrom (rounds rank : Nat) (b : Bench σ) :
    flushFrom (rounds + 1) rank b =
      match b.pass.pending[rank]? with
      | none => (rank, b)
      | some q => flushFrom rounds (rank + 1) (bringIn q.2 b).2 := by
  rw [flushFrom, run_bind, run_get]
  cases b.pass.pending[rank]? <;> rfl

/-- Bringing in the imports from a rank on: the bound of the rounds is not met as long as all
imports come from sources that have fewer nodes together. So what every import keeps holds when all
that is pending has been brought in. -/
theorem flushFrom_induct {P : Nat → Bench σ → Prop}
    (step : ∀ rank b q, P rank b → b.Settled Kept → b.Sound → b.script.Wellformed →
      b.pass.pending[rank]? = some q → P (rank + 1) (bringIn q.2 b).2)
    {rounds rank : Nat} (hb : b.Settled Kept) (sound : b.Sound) (hw : b.script.Wellformed)
    (reached : rank ≤ b.pass.pending.length)
    (hsources : ∀ q ∈ b.pass.pending, q.2.source ∈ sources)
    (enough : (sources.map fun source => source.script.nodes.size).sum ≤ rounds + rank)
    (now : P rank b) :
    let b' := (flushFrom rounds rank b).2
    b'.Settled Kept ∧ P b'.pass.pending.length b' := by
  have bound := hb.length_pending_le hsources
  induction rounds generalizing rank b with
  | zero =>
    have all : rank = b.pass.pending.length := by omega
    exact ⟨hb, all ▸ now⟩
  | succ rounds ih =>
    rw [run_flushFrom]
    cases hq : b.pass.pending[rank]? with
    | none =>
      have all := Nat.le_antisymm reached (List.getElem?_eq_none_iff.1 hq)
      exact ⟨hb, all ▸ now⟩
    | some q =>
      have hmem := List.mem_of_getElem? hq
      have completed := completed_bringIn sound hw (sound.pass.vetted q hmem)
      obtain ⟨settled, queued⟩ := settled_bringIn hb sound hw.rooted (hb.provided q hmem).read
      have hsources' : ∀ q' ∈ (bringIn q.2 b).2.pass.pending, q'.2.source ∈ sources := fun q' hq' =>
        (queued q' hq').elim (hsources q') fun he => he ▸ hsources q hmem
      have reached' := Nat.lt_of_lt_of_le (List.getElem?_eq_some_iff.1 hq).1
        completed.pending.length_le
      exact ih settled completed.sound completed.wellformed reached' hsources' (by omega)
        (step rank b q now hb sound hw hq) (settled.length_pending_le hsources')

/-- What holds before the first import, and is kept by every import, holds when all that is pending
has been brought in. -/
theorem flushImports_induct {P : Nat → Bench σ → Prop}
    (step : ∀ rank b q, P rank b → b.Settled Kept → b.Sound → b.script.Wellformed →
      b.pass.pending[rank]? = some q → P (rank + 1) (bringIn q.2 b).2)
    (hb : b.Settled Kept) (sound : b.Sound) (hw : b.script.Wellformed) (now : P 0 b) :
    let b' := (flushImports b).2
    b'.Settled Kept ∧ P b'.pass.pending.length b' := by
  have enough : ((b.pass.pending.map fun q => q.2.source).map fun source =>
      source.script.nodes.size).sum ≤ flushBound b.pass + 1 + 0 := by
    rw [List.map_map, flushBound, ← List.sum_eq_foldr]
    refine Nat.le_succ_of_le (List.sum_le_sum fun q _ => ?_)
    exact Nat.le_add_left _ _
  exact flushFrom_induct step hb sound hw (Nat.zero_le _)
    (fun q hq => List.mem_map.2 ⟨q, hq, rfl⟩) enough now

/-- All imports are brought in. -/
theorem flushed_flushImports (hb : b.Settled Kept) (sound : b.Sound) (hw : b.script.Wellformed) :
    (flushImports b).2.Settled Kept ∧ ∀ name,
      ((flushImports b).2.script.tree root).copies name = (b.script.tree root).copies name +
        ((flushImports b).2.pass.pending.map fun q => q.2.tree.copies name).sum := by
  obtain ⟨settled, copies⟩ := flushImports_induct
    (P := fun rank b' => ∀ name, (b'.script.tree root).copies name =
      (b.script.tree root).copies name +
        ((b'.pass.pending.take rank).map fun q => q.2.tree.copies name).sum)
    (fun rank b' q now _ sound hw hq name => by
      have completed := completed_bringIn sound hw (sound.pass.vetted q (List.mem_of_getElem? hq))
      rw [copies_bringIn sound hw, now, take_succ_of_grown completed.pending hq, List.map_append,
        List.sum_append, Nat.add_assoc]
      rfl)
    hb sound hw fun name => rfl
  refine ⟨settled, fun name => ?_⟩
  have all := copies name
  rwa [List.take_length] at all

/-! ## Passes -/

/-- The declarations of a name after a structural pass over a source text: those that the walk left,
and those in everything that was imported, under each of its names once. So a name that was pending
is declared, and it is declared once just when the walk left no declaration of it and there is one
in all that was imported, its own. -/
theorem copies_run {sampler : Sampler σ} {source : String} {s : Script}
    (hs : Script.read source = .ok s) (m : Structural σ) (hsampler : sampler.Stocked m.samples) :
    let walked := m.walked sampler s
    let done := m.finished sampler s
    let imported := fun name => (done.pass.pending.map fun q => q.2.tree.copies name).sum
    (m.run sampler s).2.1 = done.script ∧
      (done.pass.pending.map fun q => done.script.names.text q.1).Nodup ∧
      (∀ name, (done.script.tree root).copies name =
        (walked.script.tree root).copies name + imported name) ∧
      ∀ q ∈ done.pass.pending, 0 < (done.script.tree root).copies (done.script.names.text q.1) ∧
        ((done.script.tree root).copies (done.script.names.text q.1) = 1 ↔
          (walked.script.tree root).copies (done.script.names.text q.1) = 0 ∧
            imported (done.script.names.text q.1) = 1) := by
  obtain ⟨Kept, supplies, kept⟩ := hsampler.exists_supplies
  have wellformed := wellformed_read hs
  have settled := settled_walked supplies hs kept
  have walk := completed_walk supplies.legal m.chance m.maxMutations s.nodes.size
    (m.sound_bench wellformed) wellformed rfl
  obtain ⟨settled', copies⟩ := flushed_flushImports settled walk.sound walk.wellformed
  intro walked done imported
  have text : ∀ q ∈ done.pass.pending, ∃ name, done.script.names.text? q.1 = some name ∧
      done.script.names.text q.1 = name ∧ q.2.tree.node.declaration? = some name := by
    intro q hq
    obtain ⟨name, ht, hd, -⟩ := (settled'.provided q hq).declares
    exact ⟨name, ht, Script.text_eq ht, hd⟩
  refine ⟨rfl, ?_, copies, fun q hq => ?_⟩
  · refine settled'.once.of_map.map_on fun q hq q' hq' he => ?_
    obtain ⟨name, ht, hn, -⟩ := text q hq
    obtain ⟨name', ht', hn', -⟩ := text q' hq'
    rw [hn, hn'] at he
    subst he
    exact List.inj_on_of_nodup_map settled'.once hq hq' (settled'.distinct.eq_of_text? ht ht')
  · obtain ⟨name, -, hn, hd⟩ := text q hq
    have one : 0 < imported name := by
      refine Nat.lt_of_lt_of_le (Tree.copies_pos hd) (List.le_sum_of_mem ?_)
      exact List.mem_map_of_mem hq
    have total : (done.script.tree root).copies name =
        (walked.script.tree root).copies name + imported name := copies name
    rw [hn]
    omega

/-- A block that calls a function of its source. -/
theorem copies_run_helper : ∃ s t, Script.read "{ a = 1; }" = .ok s ∧
    Script.read "{ helper(); }\nfunction helper() { return 1; }" = .ok t ∧
      let m : Structural Unit := ⟨5, .always, .seeded 0, ()⟩
      let sampler := Sample.pinned ⟨.ofScript "t.js" t, 4⟩
      let walked := m.walked sampler s
      let done := m.finished sampler s
      (m.run sampler s).2.1 = done.script ∧ ∀ name, (done.script.tree root).copies name =
        (walked.script.tree root).copies name +
          (done.pass.pending.map fun q => q.2.tree.copies name).sum := by
  obtain ⟨s, hs, -⟩ : ∃ s, Script.read "{ a = 1; }" = .ok s ∧ s.isLegal :=
    exists_read (by decide +kernel)
  obtain ⟨t, ht, -⟩ : ∃ t, Script.read "{ helper(); }\nfunction helper() { return 1; }" = .ok t ∧
      t.isLegal := exists_read (by decide +kernel)
  have stocked : Sampler.Stocked (Sample.pinned ⟨.ofScript "t.js" t, 4⟩) () :=
    .pinned () ⟨_, _, _, ht, rfl⟩
  obtain ⟨run, -, copies, -⟩ := copies_run hs ⟨5, .always, .seeded 0, ()⟩ stocked
  exact ⟨s, t, hs, ht, run, copies⟩

/-- A function that is declared inside of an imported one is imported once more when it is called
by itself. -/
theorem copies_run_nested : ∃ s t, Script.read "{}" = .ok s ∧
    Script.read "function g() { function f() {} }\n{ g(); f(); }" = .ok t ∧ t.kind 11 = .block ∧
      let m : Structural Unit := ⟨1, .always, .seeded 0, ()⟩
      let done := m.finished (Sample.pinned ⟨.ofScript "t.js" t, 11⟩) s
      ∃ q ∈ done.pass.pending, (done.script.tree root).copies (done.script.names.text q.1) ≠ 1 := by
  obtain ⟨s, t, hs, ht, -, -, kind, copies⟩ := exists_walked "{}"
    "function g() { function f() {} }\n{ g(); f(); }" 11 ⟨1, .always, .seeded 0, ()⟩ 40
    (p := fun t _ walked => t.kind 11 = .block ∧
      let done := (flushImports walked).2
      ∃ q ∈ done.pass.pending, (done.script.tree root).copies (done.script.names.text q.1) ≠ 1)
    (by decide +kernel)
  exact ⟨s, t, hs, ht, kind, copies⟩

end Graft
