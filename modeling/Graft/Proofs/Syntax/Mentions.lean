import Graft.Proofs.Syntax.Planting

/-!
# The names that a tree mentions

The names of a tree, in source order and with repetitions, decide how the table of names grows when
the tree is read and again when it is planted.

* `Names.mentionAll_of_subset` - names that are known do not change the table
* `Names.Distinct` - a table that keeps no name twice, however it grows
* `Script.names_plant` - planting a tree mentions its names in source order
-/

namespace Graft

variable {τ σ : Type}

namespace Names

variable {names : Names} {name : String}

/-- Whether a name has been mentioned. -/
def Has (names : Names) (name : String) : Prop :=
  name ∈ names.spellings

/-- The table behind further names. -/
def mentionAll (names : Names) (new : List String) : Names :=
  new.foldl (fun names name => (names.intern name).2) names

@[simp] theorem mentionAll_nil (names : Names) : names.mentionAll [] = names := rfl

theorem mentionAll_cons (names : Names) (name : String) (new : List String) :
    names.mentionAll (name :: new) = (names.intern name).2.mentionAll new := rfl

theorem mentionAll_append (names : Names) (new more : List String) :
    names.mentionAll (new ++ more) = (names.mentionAll new).mentionAll more :=
  List.foldl_append

theorem intern_of_has (h : names.Has name) : (names.intern name).2 = names := by
  unfold intern
  split
  · rfl
  · rename_i hn
    have := Array.findIdx?_eq_none_iff.1 hn name h
    simp at this

theorem spellings_intern_of_not_has (h : ¬ names.Has name) :
    (names.intern name).2.spellings = names.spellings.push name := by
  unfold intern
  split
  · rename_i sym hs
    obtain ⟨hlt, he⟩ := Array.getElem?_eq_some_iff.1 ((lookup_eq_some_iff names name sym).1 hs).1
    exact absurd (he ▸ Array.getElem_mem hlt) h
  · rfl

theorem has_intern_iff {new : String} :
    (names.intern new).2.Has name ↔ names.Has name ∨ name = new := by
  by_cases h : names.Has new
  · rw [intern_of_has h]
    exact ⟨.inl, fun hn => hn.elim id fun he => he ▸ h⟩
  · rw [Has, spellings_intern_of_not_has h, Array.mem_push]
    rfl

theorem has_mentionAll_iff {new : List String} :
    (names.mentionAll new).Has name ↔ names.Has name ∨ name ∈ new := by
  induction new generalizing names with
  | nil => simp
  | cons x xs ih => rw [mentionAll_cons, ih, has_intern_iff, List.mem_cons, or_assoc]

theorem mentionAll_of_has {new : List String} (h : ∀ x ∈ new, names.Has x) :
    names.mentionAll new = names := by
  induction new with
  | nil => rfl
  | cons x xs ih =>
    obtain ⟨hx, hxs⟩ := List.forall_mem_cons.1 h
    rw [mentionAll_cons, intern_of_has hx, ih hxs]

/-- Names that have been mentioned do not change the table. -/
theorem mentionAll_of_subset {l more : List String} (h : more ⊆ l) :
    (names.mentionAll l).mentionAll more = names.mentionAll l :=
  mentionAll_of_has fun _ hx => has_mentionAll_iff.2 (.inr (h hx))

theorem text?_mentionAll {x : Sym} {new : List String} (h : names.text? x = some name) :
    (names.mentionAll new).text? x = some name := by
  induction new generalizing names with
  | nil => exact h
  | cons y ys ih =>
    refine ih ?_
    rw [text_intern_of_lt, h]
    exact (Array.getElem?_eq_some_iff.1 h).1

/-- No name is kept twice. -/
def Distinct (names : Names) : Prop :=
  names.spellings.toList.Nodup

/-- A name has one symbol. -/
theorem Distinct.eq_of_text? (h : names.Distinct) {x y : Sym} (hx : names.text? x = some name)
    (hy : names.text? y = some name) : x = y := by
  obtain ⟨hlx, hx⟩ := Array.getElem?_eq_some_iff.1 hx
  obtain ⟨hly, hy⟩ := Array.getElem?_eq_some_iff.1 hy
  have lx : x < names.spellings.toList.length := hlx
  have ly : y < names.spellings.toList.length := hly
  have same : names.spellings.toList[x] = names.spellings.toList[y] := hx.trans hy.symm
  exact h.getElem_inj_iff.1 same

theorem distinct_empty : empty.Distinct :=
  List.nodup_nil

theorem Distinct.intern (h : names.Distinct) (name : String) : (names.intern name).2.Distinct := by
  by_cases hn : names.Has name
  · rwa [intern_of_has hn]
  · rw [Distinct, spellings_intern_of_not_has hn, Array.toList_push]
    rw [← List.concat_eq_append]
    exact List.Nodup.concat (fun hm => hn (Array.mem_toList_iff.1 hm)) h

theorem Distinct.mentionAll (h : names.Distinct) (new : List String) :
    (names.mentionAll new).Distinct := by
  induction new generalizing names with
  | nil => exact h
  | cons name new ih => exact ih (h.intern name)

end Names

namespace Tree

/-- The names in a tree in source order. -/
def mentions (t : Tree τ) : List String :=
  t.fold fun _ node => node.parts.flatMap (Sum.elim id fun name => [name])

theorem mentions_mk (tag : τ) (node : Node (Tree τ) String) :
    (mk tag node).mentions = node.parts.flatMap (Sum.elim mentions fun name => [name]) := by
  rw [mentions, fold_mk, Node.parts_map, List.flatMap_map]
  refine List.flatMap_congr fun p _ => ?_
  cases p <;> rfl

/-- Tags are no names. -/
theorem mentions_erase (t : Tree τ) : t.erase.mentions = t.mentions :=
  fold_retag _ _ t

end Tree

namespace Script

theorem names_of_runs {ps : List (Part (Tree τ × NodeId) (String × Sym))} {s s' : Script}
    (h : Runs plant intern ps s s')
    (step : ∀ p ∈ lefts ps, ∀ s, (plant p.1 s).2.names = s.names.mentionAll p.1.mentions) :
    s'.names = s.names.mentionAll
      (ps.flatMap (Sum.elim (fun p => p.1.mentions) fun p => [p.1])) := by
  induction h with
  | nil s => rfl
  | @child a ps s s' _ ih =>
    have first : (plant a s).2.names = s.names.mentionAll a.mentions :=
      step (a, (plant a s).1) (by simp [lefts]) s
    rw [ih fun p hp => step p (by simp [lefts, hp]), first, List.flatMap_cons,
      Names.mentionAll_append]
    rfl
  | @name x ps s s' _ ih =>
    rw [ih step]
    rfl

/-- Planting a tree mentions its names in source order. -/
theorem names_plant (t : Tree τ) (s : Script) :
    (plant t s).2.names = s.names.mentionAll t.mentions := by
  induction t using Tree.induct generalizing s with
  | step t ih =>
    obtain ⟨tag, node⟩ := t
    obtain ⟨z, hz, -, runs⟩ := exists_runs_traverse (f := plant) (g := intern) node s
    have step : ∀ p ∈ lefts z.parts, ∀ s,
        (plant p.1 s).2.names = s.names.mentionAll p.1.mentions := by
      intro p hp s
      refine ih p.1 ?_ s
      change p.1 ∈ node.children
      rw [← hz, Node.children_map, Node.children_eq_lefts]
      exact List.mem_map_of_mem hp
    have parts : node.parts = z.parts.map (Sum.map Prod.fst Prod.fst) := by
      rw [← hz, Node.parts_map]
    rw [plant_mk]
    change (node.traverse plant intern s).2.names = _
    rw [names_of_runs runs step, Tree.mentions_mk, parts, List.flatMap_map]
    refine congrArg _ (List.flatMap_congr fun p _ => ?_)
    cases p <;> rfl

end Script

end Graft
