import Graft.Proofs.Pass.Frame
import Graft.Proofs.Pass.Requests
import Mathlib.Data.List.Dedup
import Mathlib.Data.List.Find

/-!
# Bringing in all imports

The queue of imports is gone through while the imports that are brought in put others behind. Each
of these is of a source that was in the queue before and under a name of its own, so that the end of
the queue is reached. Every import has become a statement behind the old ones then: a copy of its
declaration under its name. What the copy calls or constructs was looked for when it was repaired,
and nothing that was found is lost by what comes behind.

* `Flushes` - the loop through the queue, without a bound
* `Tree.blank` - what renaming references leaves as it is
* `Brought` - what an import has become
* `flushed_of_settled` - what bringing in all imports does
* `flush_run` - bringing them in at any moment of a structural pass
-/

namespace Graft

open Chance (Probability)
open Script (Evolves root)
open Work

variable {σ τ ρ α : Type} {Kept : σ → Prop} {sampler : Sampler σ} {chance : Probability}
  {b b' b'' done : Bench σ} {rank n : Nat} {q : Sym × Import} {c : NodeId} {s s' : Script}

/-! ## The loop -/

/-- The loop through the queue from a rank on, which ends where the queue does. -/
inductive Work.Flushes : Nat → Bench σ → Nat → Bench σ → Prop where
  | stop {rank : Nat} {b : Bench σ} : b.pass.pending[rank]? = none → Flushes rank b rank b
  | next {rank n : Nat} {b done : Bench σ} {q : Sym × Import} : b.pass.pending[rank]? = some q →
    Flushes (rank + 1) (bringIn q.2 b).2 n done → Flushes rank b n done

namespace Work.Flushes

theorem rank_le (h : Flushes rank b n done) : rank ≤ n := by
  induction h with
  | stop _ => exact Nat.le_refl _
  | next _ _ ih => exact Nat.le_of_succ_le ih

/-- With a bound that is not met, the loop does what it does without one. -/
theorem run (h : Flushes rank b n done) {rounds : Nat} (enough : n ≤ rounds + rank) :
    flushFrom rounds rank b = (n, done) := by
  induction h generalizing rounds with
  | stop hq =>
    cases rounds with
    | zero => rfl
    | succ rounds => rw [run_flushFrom, hq]
  | next hq rest ih =>
    have := rest.rank_le
    cases rounds with
    | zero => omega
    | succ rounds =>
      rw [run_flushFrom, hq]
      exact ih (by omega)

end Work.Flushes

/-- The bound of the rounds counts the nodes of every source that is in the queue. -/
theorem Work.le_flushBound (p : Pass) :
    ((p.pending.map fun q => q.2.source).map fun source => source.script.nodes.size).sum ≤
      flushBound p := by
  rw [List.map_map, flushBound, ← List.sum_eq_foldr]
  exact List.sum_le_sum fun q _ => Nat.le_add_left _ _

/-- What is queued while imports are brought in is of a source that was in the queue before. -/
theorem sources_flushImports (hb : b.Settled Kept) (sound : b.Sound) (hw : b.script.Wellformed) :
    ∀ q ∈ (flushImports b).2.pass.pending,
      q.2.source ∈ b.pass.pending.map fun q => q.2.source :=
  (flushImports_induct
    (P := fun _ b' => ∀ q ∈ b'.pass.pending, q.2.source ∈ b.pass.pending.map fun q => q.2.source)
    (fun rank b' q now hb sound hw hq q' hq' => by
      have hmem := List.mem_of_getElem? hq
      obtain ⟨-, queued⟩ := settled_bringIn hb sound hw.rooted (hb.provided q hmem).read
      rcases queued q' hq' with old | he
      · exact now q' old
      · exact he ▸ now q hmem)
    hb sound hw fun q hq => List.mem_map_of_mem (f := fun q : Sym × Import => q.2.source) hq).2

/-- The loop through the queue comes to the end of the queue, and gives its length. -/
theorem flushes_flushImports (hb : b.Settled Kept) (sound : b.Sound) (hw : b.script.Wellformed) :
    let done := (flushImports b).2
    Flushes 0 b done.pass.pending.length done ∧
      flushImports b = (done.pass.pending.length, done) := by
  intro done
  obtain ⟨settled, flushes⟩ := flushImports_induct
    (P := fun rank b' => ∀ n done, Flushes rank b' n done → Flushes 0 b n done)
    (fun rank b' q now _ _ _ hq n done rest => now n done (.next hq rest))
    hb sound hw fun n done h => h
  have ends := flushes _ _ (.stop (List.getElem?_eq_none_iff.2 (Nat.le_refl _)))
  refine ⟨ends, ends.run ?_⟩
  have bound := settled.length_pending_le (sources_flushImports hb sound hw)
  exact Nat.le_succ_of_le (Nat.le_trans bound (le_flushBound b.pass))

/-! ## Copies -/

/-- A node without the name that it has as a reference. -/
def Node.blank : Node α String → Node α String
  | ident _ => ident ""
  | node => node

namespace Tree

/-- A tree without the names of its references. -/
def blank (t : Tree τ) : Tree Unit :=
  t.fold fun _ node => .mk () node.blank

theorem blank_of_erase_eq {t : Tree τ} {u : Tree ρ} (h : t.erase = u.erase) :
    t.blank = u.blank := by
  have erased : ∀ {υ : Type} (t : Tree υ), t.erase.blank = t.blank := fun t =>
    fold_retag (fun _ => ()) _ t
  rw [← erased t, h, erased u]

end Tree

/-- Blank trees tell what is declared at their roots. -/
theorem Tree.declaration?_of_blank_eq {t : Tree τ} {u : Tree ρ} (h : t.blank = u.blank) :
    t.node.declaration? = u.node.declaration? := by
  have seen : ∀ {υ : Type} (t : Tree υ), t.blank.node.declaration? = t.node.declaration? := by
    rintro υ ⟨tag, node⟩
    rw [blank, fold_mk]
    change (node.map _ id).blank.declaration? = node.declaration?
    cases node <;> rfl
  rw [← seen t, h, seen u]

/-- Renaming references changes no more than their names. -/
theorem Renamed.blank_eq {K : Sym → Prop} {places : List NodeId} {id : NodeId}
    (h : Renamed K places s s') (known : ∀ x, K x → s.Knows x) (hr : s.Rooted id) :
    (s'.tree id).blank = (s.tree id).blank := by
  induction h with
  | refl => rfl
  | @step s' i old new h _ hn hk ih =>
    rw [← ih]
    refine Script.fold_setNode (h.rooted known hr).1
      (Renamed.named_ident (h.knows (known _ hk))) ?_ fun k => ?_
    · rw [Script.node_eq hn]
      rfl
    · rw [Script.node_eq hn]
      rfl

/-- A copied and repaired tree is its original up to the names of references. -/
theorem blank_copy (hs : b.Sound) (source : Entry) (place : NodeId) :
    let made := Script.copy source.script place b.script
    let b' := (prepare made.1 source ({ b with script := made.2 } : Bench σ)).2
    (b'.script.tree made.1).blank = (source.script.tree place).blank := by
  intro made b'
  obtain ⟨planted, -, repaired⟩ := repaired_copy hs source place
  rw [repaired.renamed.blank_eq (fun _ hx => hx) planted.rooted]
  exact Tree.blank_of_erase_eq planted.erase_eq

/-! ## What a source provides -/

theorem distinct_read {source : String} (h : Script.read source = .ok s) : s.names.Distinct := by
  obtain ⟨body, shows, -⟩ := shows_read h
  exact shows.names_eq ▸ Names.distinct_empty.mentionAll _

/-- The symbol of a name is the one that has it as its text. -/
theorem Names.Distinct.lookup_eq_some_iff {names : Names} (h : names.Distinct) {name : String}
    {x : Sym} : names.lookup name = some x ↔ names.text? x = some name := by
  rw [Names.lookup_eq_some_iff]
  exact ⟨And.left, fun hx => ⟨hx, fun y hlt hy => Nat.ne_of_lt hlt (h.eq_of_text? hy hx)⟩⟩

namespace Imported

/-- The first declaration of a kind in a script that has a name. -/
def first? (kind : Imported) (s : Script) (name : String) : Option NodeId :=
  (s.preorder root).find? fun i => (kind.declared? (s.node i)).map s.names.text == some name

/-- An index finds the first declaration of a symbol. -/
theorem find?_ofScript (kind : Imported) (s : Script) (x : Sym) :
    kind.find? (.ofScript s) x =
      (s.preorder root).find? fun i => kind.declared? (s.node i) == some x := by
  rw [find?_eq_lookup, entries_ofScript]
  induction s.preorder root with
  | nil => rfl
  | cons i ids ih =>
    rw [List.filterMap_cons, List.find?_cons]
    cases hd : kind.declared? (s.node i) with
    | none => simpa using ih
    | some y =>
      dsimp only [Option.map_some]
      rw [List.lookup_cons, ih]
      by_cases he : x = y
      · simp [he]
      · have other : (x == y) = false := beq_false_of_ne he
        have other' : (some y == some x) = false := beq_false_of_ne fun h =>
          he (Option.some.inj h).symm
        rw [other, other']

/-- A declared name is one of the table, which has it once. -/
theorem lookup_text_of_declared {source : String} (h : Script.read source = .ok s)
    {kind : Imported} {i : NodeId} (hi : i ∈ s.preorder root) {y : Sym}
    (hy : kind.declared? (s.node i) = some y) : s.names.lookup (s.names.text y) = some y := by
  have rooted := (wellformed_read h).rooted.of_mem_preorder hi
  obtain ⟨name, ht⟩ := rooted.named y (Node.declaredNames_subset _ (mem_declaredNames hy))
  rw [Script.text_eq ht]
  exact (distinct_read h).lookup_eq_some_iff.2 ht

/-- The first declaration of a name is what the index of the script has for the symbol of the
name. -/
theorem first?_eq {source : String} (h : Script.read source = .ok s) (kind : Imported)
    (name : String) :
    kind.first? s name = (s.names.lookup name).bind (kind.find? (.ofScript s)) := by
  cases hl : s.names.lookup name with
  | none =>
    refine List.find?_eq_none.2 fun i hi hd => ?_
    obtain ⟨y, hy, he⟩ := Option.map_eq_some_iff.1 (beq_iff_eq.1 hd)
    rw [← he, lookup_text_of_declared h hi hy] at hl
    cases hl
  | some x =>
    rw [Option.bind_some, find?_ofScript]
    refine List.find?_congr fun i hi => Bool.eq_iff_iff.2 ?_
    rw [beq_iff_eq, beq_iff_eq]
    cases hy : kind.declared? (s.node i) with
    | none => simp
    | some y =>
      have symbol := lookup_text_of_declared h hi hy
      rw [Option.map_some, Option.some.injEq, Option.some.injEq]
      constructor
      · rintro rfl
        exact Option.some.inj (symbol.symm.trans hl)
      · rintro rfl
        exact Script.text_eq ((distinct_read h).lookup_eq_some_iff.1 hl)

/-- What a source provides under a name is its first declaration of the name, if that may stand
outside of everything. -/
theorem provider?_eq {source : Entry} (h : source.Read) (kind : Imported) (name : String) :
    kind.provider? source name =
      (kind.first? source.script name).filter fun d => source.script.admissible d .outermost := by
  obtain ⟨path, text, script, hread, rfl⟩ := h
  change _ = (kind.first? script name).filter _
  rw [first?_eq hread]
  unfold provider?
  change (script.names.lookup name).bind _ = _
  cases script.names.lookup name with
  | none => rfl
  | some x =>
    change (kind.find? (.ofScript script) x).bind _ = (kind.find? (.ofScript script) x).filter _
    cases kind.find? (.ofScript script) x with
    | none => rfl
    | some d => rfl

end Imported

/-! ## What has been brought in -/

/-- What bringing in imports does to a bench: it has all that it had but for the node at the root,
nothing falls out of the program, and the queue grows behind. -/
structure Bench.Grows (b b' : Bench σ) : Prop where
  evolves : Evolves [root] b.script b'.script
  reached : ∀ i ∈ b.script.preorder root, i ∈ b'.script.preorder root
  pending : b.pass.pending <+: b'.pass.pending

namespace Bench.Grows

theorem refl (b : Bench σ) : b.Grows b :=
  ⟨(Evolves.refl _).mono (List.nil_subset _), fun _ hi => hi, List.prefix_refl _⟩

theorem trans (h : b.Grows b') (h' : b'.Grows b'') : b.Grows b'' :=
  ⟨h.evolves.trans h'.evolves fun _ hi _ => hi, fun i hi => h'.reached i (h.reached i hi),
    h.pending.trans h'.pending⟩

theorem getElem?_eq (h : b.Grows b') {i : NodeId} (hi : i < b.script.nodes.size)
    (hne : i ≠ root) : b'.script.nodes[i]? = b.script.nodes[i]? := by
  have hn := Array.getElem?_eq_getElem hi
  rw [hn, h.evolves.node? hn fun hm => hne (List.mem_singleton.1 hm)]

theorem node_eq (h : b.Grows b') {i : NodeId} (hi : i < b.script.nodes.size) (hne : i ≠ root) :
    b'.script.node i = b.script.node i :=
  Script.node_congr (h.getElem?_eq hi hne)

end Bench.Grows

/-- Why a target of a tree from a source is taken care of: the tree declares its name, its import is
in the queue, the program has a declaration of the kind, or the first one of the source is missing
or may not stand outside of everything. -/
def Bench.Serves (b : Bench σ) (copy : NodeId) (source : Entry) (kind : Imported) (x : Sym) :
    Prop :=
  (∃ i ∈ b.script.preorder copy, x ∈ (b.script.node i).declaredNames) ∨
    x ∈ b.pass.pending.map Prod.fst ∨
    (∃ i ∈ b.script.preorder root, kind.declared? (b.script.node i) = some x) ∨
    ∀ d, kind.first? source.script (b.script.names.text x) = some d →
      source.script.admissible d .outermost = false

theorem Bench.Answers.serves {copy : NodeId} {source : Entry} {kind : Imported} {x : Sym}
    (h : b.Answers copy source kind x) (read : source.Read) : b.Serves copy source kind x := by
  rcases h with declared | pending | found | missing
  · exact .inl declared
  · exact .inr (.inl (Pass.isPending_iff.1 pending))
  · obtain ⟨i, hi⟩ := Option.isSome_iff_exists.1 found
    exact .inr (.inr (.inl ⟨i, Imported.declared_of_find hi⟩))
  · refine .inr (.inr (.inr fun d hd => ?_))
    rw [Imported.provider?_eq read, hd, Option.filter_eq_none_iff] at missing
    simpa using missing d rfl

/-- What an import has become: a tree that hangs under a place and is, up to the names of
references, that of its declaration. It declares the name of the import at its root, and what it
calls or constructs is taken care of. -/
structure Brought (q : Sym × Import) (c : NodeId) (b : Bench σ) : Prop where
  rooted : b.script.Rooted c
  beside : root ∉ b.script.preorder c
  copied : (b.script.tree c).blank = q.2.tree.blank
  named : (b.script.node c).declaration? = some q.1
  served : ∀ p ∈ b.script.preorder c, ∀ kind i, (b.script.node p).target? = some (kind, i) →
    ∀ x, b.script.node i = .ident x → kind.sought (b.script.names.text x) →
      b.Serves c q.2.source kind x

/-- What an import has become stays as it is. -/
theorem Brought.grown (h : Brought q c b) (hw : b.script.Wellformed) (grows : b.Grows b') :
    Brought q c b' := by
  have apart : ∀ i ∈ b.script.preorder c, i ≠ root := fun i hi he => h.beside (he ▸ hi)
  obtain ⟨rooted, tree⟩ := h.rooted.frame grows.evolves fun i hi hm =>
    apart i hi (List.mem_singleton.1 hm)
  have places : b'.script.preorder c = b.script.preorder c := by
    rw [Script.preorder_eq_tags, Script.preorder_eq_tags, tree]
  have same : ∀ i ∈ b.script.preorder c, b'.script.node i = b.script.node i := fun i hi =>
    grows.node_eq (h.rooted.places_lt i hi) (apart i hi)
  refine ⟨rooted, places ▸ h.beside, tree ▸ h.copied, ?_, fun p hp kind i ht x hx sought => ?_⟩
  · rw [same c (Script.mem_preorder_self _ _)]
    exact h.named
  · rw [places] at hp
    rw [same p hp] at ht
    have hi : i ∈ b.script.preorder c := h.rooted.preorder_subset hp
      ((h.rooted.of_mem_preorder hp).mem_preorder_child (Node.mem_children_of_target ht)
        (Script.mem_preorder_self _ _))
    rw [same i hi] at hx
    have text : b'.script.names.text x = b.script.names.text x := by
      obtain ⟨name, ht⟩ := (h.rooted.of_mem_preorder hi).named x (by
        rw [hx]
        simp [Node.names, Node.parts, rights])
      rw [Script.text_eq ht, Script.text_eq (grows.evolves.text? ht)]
    rw [text] at sought
    rcases h.served p hp kind i ht x hx sought with
      ⟨j, hj, hd⟩ | pending | ⟨j, hj, hd⟩ | missing
    · exact .inl ⟨j, places ▸ hj, same j hj ▸ hd⟩
    · exact .inr (.inl ((grows.pending.map Prod.fst).subset pending))
    · -- the root is a program, which declares nothing
      have inner : j ≠ root := by
        rintro rfl
        rw [hw.node_root] at hd
        cases kind <;> cases hd
      refine .inr (.inr (.inl ⟨j, grows.reached j hj, ?_⟩))
      rw [grows.node_eq (hw.rooted.places_lt j hj) inner]
      exact hd
    · exact .inr (.inr (.inr (text ▸ missing)))

/-- The statement that an import becomes. -/
theorem brought_bringIn (hb : b.Settled Kept) (sound : b.Sound) (hw : b.script.Wellformed)
    (hq : q ∈ b.pass.pending) :
    let b' := (bringIn q.2 b).2
    b.Grows b' ∧ ∃ c, b.script.nodes.size ≤ c ∧
      b'.script.node root = .program (b.script.body ++ [c]) ∧ Brought q c b' := by
  have provides := hb.provided q hq
  rw [run_bringIn]
  have borrowed := borrowed_copy sound q.2.source q.2.declaration
  have copied := blank_copy sound q.2.source q.2.declaration
  obtain ⟨settled, -, targets⟩ := settled_copy hb sound hw.rooted provides.read q.2.declaration
  dsimp only at borrowed copied settled targets ⊢
  generalize (prepare _ q.2.source _).2 = b₁ at borrowed copied settled targets ⊢
  generalize (Script.copy q.2.source.script q.2.declaration b.script).1 = c at *
  obtain ⟨hw₁, htree, apart⟩ := borrowed.beside hw
  obtain ⟨-, -, pushed⟩ := Script.push_spec hw₁.node_root hw₁.rooted borrowed.rooted apart
  have before : b.Grows b₁ := by
    refine ⟨borrowed.evolves.mono (List.nil_subset _), fun i hi => ?_, borrowed.pending⟩
    rwa [Script.preorder_eq_tags, htree]
  have behind : b₁.Grows { b₁ with script := b₁.script.push c, pass := b₁.pass.markStale } := by
    refine ⟨pushed, fun i hi => ?_, List.prefix_refl _⟩
    dsimp only
    rw [Script.preorder_push hw₁.node_root hw₁.rooted borrowed.rooted apart]
    exact List.mem_append_left _ hi
  -- the copy has the text of its declaration as its name, which has one symbol
  have named : (b₁.script.node c).declaration? = some q.1 := by
    obtain ⟨name, ht, declared, -⟩ := provides.declares
    have same := Tree.declaration?_of_blank_eq copied
    change _ = q.2.tree.node.declaration? at same
    rw [declared, borrowed.rooted.tree_eq, Tree.node, Node.declaration?_map] at same
    obtain ⟨y, hy, text⟩ := Option.map_eq_some_iff.1 same
    obtain ⟨name', ht'⟩ := borrowed.rooted.named y
      (Node.declaredNames_subset _ (Node.mem_declaredNames_of_declaration hy))
    obtain rfl : name' = name := (Script.text_eq ht').symm.trans text
    rw [hy, settled.distinct.eq_of_text? ht' (borrowed.evolves.text? ht)]
  -- it is served beside the program, and stays so as a statement of it
  have brought : Brought q c b₁ :=
    ⟨borrowed.rooted, fun hm => apart root hm (Script.mem_preorder_self _ _), copied, named,
      fun p hp kind i ht x hx sought => (targets p hp kind i ht x hx sought).serves provides.read⟩
  refine ⟨before.trans behind, c, borrowed.fresh c (Script.mem_preorder_self _ _), ?_,
    brought.grown hw₁ behind⟩
  have body : b₁.script.body = b.script.body := by
    rw [Script.body, borrowed.evolves.node_eq hw.rooted.lt, Script.body]
  rw [Script.push_eq hw₁.node_root, Script.node_eq (Script.node?_setNode hw₁.rooted.lt), body]

/-- A queue whose imports before a rank have been brought in: each has become a statement behind the
old ones, in the order of the queue. -/
structure Flushed (b₀ : Bench σ) (rank : Nat) (b : Bench σ) : Prop where
  grows : b₀.Grows b
  body : ∃ added, b.script.node root = .program (b₀.script.body ++ added) ∧
    List.Forall₂ (fun q c => b₀.script.nodes.size ≤ c ∧ Brought q c b) (b.pass.pending.take rank)
      added

namespace Flushed

theorem refl (hw : b.script.Wellformed) : Flushed b 0 b :=
  ⟨.refl b, [], by rw [hw.node_root, List.append_nil], .nil⟩

/-- One more import: the statements that are there stay, and it becomes the one behind them. -/
theorem step (h : Flushed b rank b') (hb : b'.Settled Kept) (sound : b'.Sound)
    (hw : b'.script.Wellformed) (hq : b'.pass.pending[rank]? = some q) :
    Flushed b (rank + 1) (bringIn q.2 b').2 := by
  obtain ⟨added, hbody, hadded⟩ := h.body
  obtain ⟨grows, c, fresh, hbody', brought⟩ :=
    brought_bringIn hb sound hw (List.mem_of_getElem? hq)
  have body : b'.script.body = b.script.body ++ added := by
    rw [Script.body, hbody]
  refine ⟨h.grows.trans grows, added ++ [c], ?_, ?_⟩
  · rw [hbody', body, List.append_assoc]
  · rw [take_succ_of_grown grows.pending hq]
    refine List.rel_append ?_ (.cons ?_ .nil)
    · exact hadded.imp fun q c came => ⟨came.1, came.2.grown hw grows⟩
    · exact ⟨Nat.le_trans h.grows.evolves.size_le fresh, brought⟩

end Flushed

/-- All imports have been brought in. -/
theorem flushed_of_settled (hb : b.Settled Kept) (sound : b.Sound) (hw : b.script.Wellformed) :
    let done := (flushImports b).2
    done.Settled Kept ∧ Flushed b done.pass.pending.length done :=
  flushImports_induct (P := Flushed b) (fun _ _ _ now hb sound hw hq => now.step hb sound hw hq)
    hb sound hw (.refl hw)

/-! ## The length of the queue -/

/-- The names of the functions and of the classes that a script declares. -/
def Script.declarations (s : Script) : List String :=
  (s.preorder root).filterMap fun i => (s.node i).declaration?.map s.names.text

theorem Import.Declares.mem_declarations {entry : Import} {kind : Imported} {name : String}
    (h : entry.Declares kind name) : name ∈ entry.source.script.declarations := by
  obtain ⟨x, hx, declared⟩ := h.named
  refine List.mem_filterMap.2 ⟨entry.declaration, h.inside, ?_⟩
  rw [Imported.declaration_of_declared declared, Option.map_some, Script.text_eq hx]

/-- Each import that joins the queue has a name of its own, which a source in the queue declares. -/
theorem length_joined_le (hb : b.Settled Kept) (sound : b.Sound) (hw : b.script.Wellformed) :
    ∃ joined, (flushImports b).2.pass.pending = b.pass.pending ++ joined ∧ joined.length ≤
      (b.pass.pending.flatMap fun q => q.2.source.script.declarations).dedup.length := by
  obtain ⟨settled, flushed⟩ := flushed_of_settled hb sound hw
  obtain ⟨joined, queue⟩ := flushed.grows.pending
  have sources := sources_flushImports hb sound hw
  generalize (flushImports b).2 = done at *
  refine ⟨joined, queue.symm, ?_⟩
  have once : (joined.map fun q => done.script.names.text q.1).Nodup := by
    have all := settled.nodup_texts
    rw [← queue, List.map_append, List.nodup_append] at all
    exact all.2.1
  have declared : (joined.map fun q => done.script.names.text q.1) ⊆
      (b.pass.pending.flatMap fun q => q.2.source.script.declarations).dedup := by
    refine List.forall_mem_map.2 fun q hq => List.mem_dedup.2 (List.mem_flatMap.2 ?_)
    have hq : q ∈ done.pass.pending := queue ▸ List.mem_append_right _ hq
    obtain ⟨read, name, ht, kind, provided⟩ := settled.provided q hq
    obtain ⟨old, hold, source⟩ := List.mem_map.1 (sources q hq)
    have declares : q.2.Declares kind name := Import.declares_of_provider read provided
    refine ⟨old, hold, ?_⟩
    rw [source, Script.text_eq ht]
    exact declares.mem_declarations
  simpa using (List.subperm_of_subset once declared).length_le

/-! ## Passes -/

theorem Script.exists_program {i : NodeId} (h : s.kind i = .program) :
    ∃ body, s.node i = .program body := by
  unfold Script.kind at h
  cases hn : s.node i with
  | program body => exact ⟨body, rfl⟩
  | _ =>
    rw [hn] at h
    cases h

/-- A turn leaves a pass sound, in its middle and at its end. -/
theorem sound_take (hl : sampler.Legal) (chance : Probability) (sound : b.Sound)
    (hroot : b.script.Rooted root) {turn : Turn} (place : turn.place ∈ b.script.preorder root) :
    let m := take sampler chance turn b
    m.ready.Sound ∧ m.after.Sound := by
  cases turn with
  | enter id replaceable =>
    have ready := (visited_tryReplace hl chance replaceable sound
      (hroot.of_mem_preorder place)).sound
    exact ⟨ready, ready.closed, Pass.sound_enter ready.pass ready.closed id⟩
  | leave id => exact ⟨sound, sound.closed, Pass.sound_leave sound.pass id⟩

theorem settled_ready (hs : sampler.Supplies Kept) (chance : Probability) (hb : b.Settled Kept)
    (sound : b.Sound) (hroot : b.script.Rooted root) (turn : Turn) :
    (take sampler chance turn b).ready.Settled Kept := by
  cases turn with
  | enter id replaceable => exact settled_tryReplace hs chance hb sound hroot id replaceable
  | leave id => exact hb

/-- At every moment of a walk over a program there is a program whose imports can be brought in. -/
theorem Work.Recorded.settled_of_mem {start : Bench σ} {moments : List (Moment σ)} {m : Moment σ}
    (hs : sampler.Supplies Kept) (h : Recorded Kept sampler chance start moments done)
    (hstart : start.script.Wellformed) (hm : m ∈ moments)
    (moment : b = m.before ∨ b = m.ready ∨ b = m.after) :
    b.Settled Kept ∧ b.Sound ∧ b.script.Wellformed := by
  obtain ⟨front, back, he⟩ := List.append_of_mem hm
  have met := h.met front m back he
  have settled := settled_ready hs chance met.before.settled met.sound met.rooted m.turn
  obtain ⟨ready, after⟩ := sound_take hs.legal chance met.sound met.rooted met.place
  rw [← met.taken] at settled ready after
  -- no turn changes what kind of node the root is
  have program : ∀ {later : List (Moment σ)} {b : Bench σ}, Since sampler chance start later b →
      ∃ body, b.script.node root = .program body := by
    intro later b since
    obtain ⟨body, hbody⟩ := hstart.program
    refine Script.exists_program ((since.kind_eq root hstart.rooted.lt).trans ?_)
    rw [Script.kind, hbody]
    rfl
  have behind : m.after.script.Wellformed :=
    ⟨(met.rooted_after hs).1, program met.after.started, after.closed⟩
  rcases moment with rfl | rfl | rfl
  · exact ⟨met.before.settled, met.sound, met.rooted, program met.before.started, met.sound.closed⟩
  · exact ⟨settled, ready, m.script_after ▸ behind⟩
  · exact ⟨met.after.settled, after, behind⟩

/-- All imports are brought in, at any moment of a structural pass over a source text or at the end
of its walk. The loop through the queue comes to the end of the queue and gives its length. The
program has its old statements then, and behind them one for each import, in the order of the queue:
a copy of its declaration at new places and under its name, with all that it calls or constructs
taken care of. Nothing else changes. No more imports join the queue on the way than there are names
of functions and classes in the sources that were in it. -/
theorem flush_run {sampler : Sampler σ} {source : String} {s : Script}
    (hs : Script.read source = .ok s) (m : Structural σ) (hsampler : sampler.Stocked m.samples) :
    ∃ moments, Toured sampler m.chance (m.bench s) moments (m.walked sampler s) ∧
      ∀ b, (b = m.walked sampler s ∨ ∃ moment ∈ moments,
          b = moment.before ∨ b = moment.ready ∨ b = moment.after) →
        let done := (flushImports b).2
        Flushes 0 b done.pass.pending.length done ∧
        flushImports b = (done.pass.pending.length, done) ∧
        done.script.Wellformed ∧ b.script.node root = .program b.script.body ∧
        (∃ added, done.script.node root = .program (b.script.body ++ added) ∧
          List.Forall₂ (fun q c => b.script.nodes.size ≤ c ∧ Brought q c done)
            done.pass.pending added) ∧
        (∀ i < b.script.nodes.size, i ≠ root → done.script.nodes[i]? = b.script.nodes[i]?) ∧
        ∃ joined, done.pass.pending = b.pass.pending ++ joined ∧ joined.length ≤
          (b.pass.pending.flatMap fun q => q.2.source.script.declarations).dedup.length := by
  obtain ⟨Kept, supplies, kept⟩ := hsampler.exists_supplies
  have wellformed := wellformed_read hs
  obtain ⟨moments, recorded, -⟩ := exists_recorded supplies hs kept
  have walk := m.completed_walked supplies.legal wellformed
  refine ⟨moments, recorded.toured, fun b moment => ?_⟩
  obtain ⟨settled, sound, hw⟩ : b.Settled Kept ∧ b.Sound ∧ b.script.Wellformed := by
    rcases moment with rfl | ⟨moment, hm, at_moment⟩
    · exact ⟨recorded.traced.settled, walk.sound, walk.wellformed⟩
    · exact recorded.settled_of_mem supplies wellformed hm at_moment
  obtain ⟨ends, value⟩ := flushes_flushImports settled sound hw
  obtain ⟨-, flushed⟩ := flushed_of_settled settled sound hw
  obtain ⟨added, hbody, hadded⟩ := flushed.body
  rw [List.take_length] at hadded
  exact ⟨ends, value, (completed_flushImports sound hw).wellformed, hw.node_root,
    ⟨added, hbody, hadded⟩, fun _ hi hne => flushed.grows.getElem?_eq hi hne,
    length_joined_le settled sound hw⟩

/-- A block that calls a function of its source, which calls another one. -/
theorem flush_run_helper : ∃ s t, Script.read "{ a = 1; }" = .ok s ∧
    Script.read "{ f(); }\nfunction f() { g(); }\nfunction g() {}" = .ok t ∧
      let m : Structural Unit := ⟨1, .always, .seeded 0, ()⟩
      let walked := m.walked (Sample.pinned ⟨.ofScript "t.js" t, 4⟩) s
      let done := (flushImports walked).2
      walked.pass.pending.length = 1 ∧ (flushImports walked).1 = 2 ∧ Flushes 0 walked 2 done ∧
        done.pass.pending.map (fun q => done.script.names.text q.1) = ["f", "g"] ∧
        ∃ added, done.script.node root = .program (walked.script.body ++ added) ∧
          List.Forall₂ (fun q c => walked.script.nodes.size ≤ c ∧ Brought q c done)
            done.pass.pending added := by
  obtain ⟨s, t, hs, ht, -, -, one, names⟩ :=
    exists_walked "{ a = 1; }" "{ f(); }\nfunction f() { g(); }\nfunction g() {}" 4
      ⟨1, .always, .seeded 0, ()⟩ 60
      (p := fun _ _ walked => walked.pass.pending.length = 1 ∧
        let done := (flushImports walked).2
        done.pass.pending.map (fun q => done.script.names.text q.1) = ["f", "g"])
      (by decide +kernel)
  have stocked : Sampler.Stocked (Sample.pinned ⟨.ofScript "t.js" t, 4⟩) () :=
    .pinned () ⟨_, _, _, ht, rfl⟩
  obtain ⟨moments, -, flush⟩ := flush_run hs ⟨1, .always, .seeded 0, ()⟩ stocked
  obtain ⟨ends, value, -, -, added, -, -⟩ := flush _ (.inl rfl)
  have two := congrArg List.length names
  rw [List.length_map] at two
  change _ = 2 at two
  rw [two] at ends value
  exact ⟨s, t, hs, ht, one, congrArg Prod.fst value, ends, names, added⟩

end Graft
