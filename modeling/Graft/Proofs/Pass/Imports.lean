import Graft.Proofs.Pass.Structural

/-!
# What bringing in declarations changes

When the walk is over, the declarations that are pending are put behind the statements of the
program one by one, with those that their own repair asks for. Every one of them was vetted for a
place outside of everything when it was queued, and that is where it comes to stand.

* `Script.isLegal_push` - a new statement is judged outside of everything
* `completed_flushImports` - what bringing in all imports does
-/

namespace Graft

open Chance (Draw Stream Probability)
open Script (Evolves root)
open Work

variable {σ : Type} {b b' b'' : Bench σ}

/-- A statement behind the others is judged outside of everything. -/
theorem Script.isLegal_push {s : Script} (hs : s.Wellformed) {id : NodeId} (hid : s.Rooted id)
    (apart : ∀ i ∈ s.preorder id, i ∉ s.preorder root) :
    (s.push id).Wellformed ∧
      (s.push id).isLegal = (s.isLegal && s.admissible id .outermost) := by
  obtain ⟨body, hbody⟩ := hs.program
  obtain ⟨hr, ht, he⟩ := Script.push_spec hbody hs.rooted hid apart
  have hn : (s.push id).node root = .program (body ++ [id]) := by
    rw [Script.push_eq hbody]
    exact Script.node_eq (Script.node?_setNode hs.rooted.lt)
  refine ⟨⟨hr, ⟨_, hn⟩, he.closed hs.closed⟩, ?_⟩
  have hk : s.kind root = .program := by rw [Script.kind, hbody]; rfl
  rw [Script.isLegal, Script.isLegal, Script.admissible, ht, Tree.admissible_mk,
    hs.rooted.acyclic.admissible_eq, hbody, hk]
  simp [Node.kind, Node.children, Enclosure.permits, Enclosure.enter, Kind.isFunction, Kind.isLoop,
    Kind.isSwitch, Script.admissible, List.all_map, Function.comp_def]

/-- What is done to a pass after its walk: the program grows and stays legal. -/
structure Completed (b b' : Bench σ) : Prop where
  wellformed : b'.script.Wellformed
  legal : b.script.isLegal → b'.script.isLegal
  pending : b.pass.pending <+: b'.pass.pending
  sound : b'.Sound

namespace Completed

theorem refl (hs : b.Sound) (hw : b.script.Wellformed) : Completed b b :=
  ⟨hw, fun h => h, List.prefix_refl _, hs⟩

theorem trans (h : Completed b b') (h' : Completed b' b'') : Completed b b'' :=
  ⟨h'.wellformed, fun hl => h'.legal (h.legal hl), h.pending.trans h'.pending, h'.sound⟩

end Completed

section Borrowed

variable {source : Script} {place copy : NodeId}

/-- A tree that is borrowed leaves the program as it was, and shares no place with it. -/
theorem Borrowed.beside (h : Borrowed source place copy b b') (hw : b.script.Wellformed) :
    b'.script.Wellformed ∧ b'.script.tree root = b.script.tree root ∧
      ∀ i ∈ b'.script.preorder copy, i ∉ b'.script.preorder root := by
  obtain ⟨hroot, htree⟩ := hw.rooted.grown h.evolves
  obtain ⟨body, hbody⟩ := hw.program
  refine ⟨⟨hroot, ⟨body, ?_⟩, h.sound.closed⟩, htree, fun i hi hm => ?_⟩
  · rw [← hbody]
    exact Script.node_eq (h.evolves.node? hw.rooted.node? List.not_mem_nil)
  · rw [Script.preorder_eq_tags, htree, ← Script.preorder_eq_tags] at hm
    exact absurd (hw.rooted.places_lt i hm) (Nat.not_lt.2 (h.fresh i hi))

/-- A borrowed tree behind the statements of the program. -/
theorem Borrowed.completed (h : Borrowed source place copy b b') (hw : b.script.Wellformed)
    (hl : source.admissible place .outermost) :
    Completed b { b' with script := b'.script.push copy, pass := b'.pass.markStale } := by
  obtain ⟨hw', htree, apart⟩ := h.beside hw
  obtain ⟨hpush, hlegal⟩ := Script.isLegal_push hw' h.rooted apart
  obtain ⟨ids, hids⟩ := hw'.program
  have he := (Script.push_spec hids hw'.rooted h.rooted apart).2.2
  have hp : b'.pass.markStale.Sound b'.script :=
    ⟨h.sound.pass.visible, h.sound.pass.indexed, h.sound.pass.vetted⟩
  refine ⟨hpush, fun hbl => ?_, h.pending, he.closed h.sound.closed, hp.mono he⟩
  change (b'.script.push copy).isLegal = true
  rw [hlegal, h.admissible, hl, Bool.and_true]
  rwa [Script.isLegal, Script.admissible_of_tree_eq htree]

end Borrowed

/-- An import is copied, repaired and put behind the statements of the program. -/
theorem run_bringIn (entry : Import) (b : Bench σ) :
    bringIn entry b =
      let made := Script.copy entry.source.script entry.declaration b.script
      let b' := (prepare made.1 entry.source { b with script := made.2 }).2
      ((), { b' with script := b'.script.push made.1, pass := b'.pass.markStale }) :=
  rfl

/-- Bringing in a declaration that may stand outside of everything. -/
theorem completed_bringIn (hs : b.Sound) (hw : b.script.Wellformed) {entry : Import}
    (hl : entry.source.script.admissible entry.declaration .outermost) :
    Completed b (bringIn entry b).2 := by
  rw [run_bringIn]
  exact (borrowed_copy hs entry.source entry.declaration).completed hw hl

/-- Bringing in the imports from a rank on, whatever the bound of the rounds is. -/
theorem completed_flushFrom (rounds rank : Nat) (hs : b.Sound) (hw : b.script.Wellformed) :
    Completed b (flushFrom rounds rank b).2 := by
  induction rounds generalizing rank b with
  | zero => exact .refl hs hw
  | succ rounds ih =>
    rw [flushFrom, run_bind, run_get]
    cases hq : b.pass.pending[rank]? with
    | none => exact .refl hs hw
    | some q =>
      have first := completed_bringIn hs hw (hs.pass.vetted q (List.mem_of_getElem? hq))
      exact first.trans (ih (rank + 1) first.sound first.wellformed)

theorem completed_flushImports (hs : b.Sound) (hw : b.script.Wellformed) :
    Completed b (flushImports b).2 := by
  rw [flushImports, run_bind, run_get]
  exact completed_flushFrom _ 0 hs hw

/-- The walk through the whole program. -/
theorem completed_walk {sampler : Sampler σ} (hl : sampler.Legal) (chance : Probability)
    (budget height : Nat) (hs : b.Sound) (hw : b.script.Wellformed)
    (hb : b.pass.enclosure = .outermost) :
    Completed b (visit sampler chance budget height root false b).2 := by
  have walk := visited_visit hl chance budget height false hs hw.rooted
  obtain ⟨body, hbody⟩ := hw.program
  have hn := node_visit hl chance budget height hs hw.rooted
  refine ⟨⟨walk.rooted, ⟨body, hn.trans hbody⟩, walk.sound.closed⟩, fun h => ?_, walk.pending,
    walk.sound⟩
  have hlegal := walk.legal
  rw [hb] at hlegal
  exact hlegal h

theorem completed_structural {sampler : Sampler σ} (hl : sampler.Legal) (chance : Probability)
    (hs : b.Sound) (hw : b.script.Wellformed) (hb : b.pass.enclosure = .outermost) :
    Completed b (structural sampler chance b).2 := by
  unfold structural
  rw [run_bind, run_get, run_bind]
  have walk := completed_walk hl chance b.pass.maxMutations b.script.nodes.size hs hw hb
  exact walk.trans (completed_flushImports walk.sound walk.wellformed)

end Graft
