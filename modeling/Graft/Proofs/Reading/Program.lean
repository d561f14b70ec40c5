import Graft.Proofs.Reading.Statement
import Graft.Proofs.Syntax.Planting

/-!
# The script that is read

A script that was read is a tree of the statements that the grammar gave, and its names are those
that the tree mentions, in source order.

* `Script.Shows` - a script as the tree of a program
* `shows_read` - a script that was read shows shaped statements
-/

namespace Graft

open Read Graft.Tree
open Reading (of)

namespace Script

/-- The script is the tree of a program with the given statements and nothing else, and has the
names that they mention. -/
structure Shows (s : Script) (body : List Reading) : Prop where
  rooted : s.Rooted root
  erase_eq : (s.tree root).erase = of (.program body)
  size_eq : s.nodes.size = (of (.program body)).size
  names_eq : s.names = Names.empty.mentionAll (body.flatMap mentions)
  closed : s.Closed

variable {s s' : Script} {body : List Reading}

/-- More names do not change a tree. -/
theorem evolves_names (s : Script) (new : List String) :
    Evolves [] s { s with names := s.names.mentionAll new } :=
  evolves_of_names fun h => Names.text?_mentionAll h

/-- The root holds the statements that the script shows. -/
theorem Rooted.exists_body (h : s.Rooted root) (he : (s.tree root).erase = of (.program body)) :
    ∃ ids, s.node root = .program ids ∧ ids.map (fun id => (s.tree id).erase) = body := by
  rw [h.tree_eq, erase_mk, Node.map_map] at he
  have hn : (s.node root).map (fun c => (s.tree c).erase) (fun x => s.names.text x) =
      .program body := by
    injection he
  cases hr : s.node root with
  | program ids =>
    rw [hr] at hn
    exact ⟨ids, rfl, Node.program.inj hn⟩
  | _ => rw [hr] at hn; cases hn

/-- A statement that is planted and pushed is the last one of the program. -/
theorem Shows.push (h : s.Shows body) (t : Reading) :
    (((plant t { s with names := s.names.mentionAll t.mentions }).2).push
      (plant t { s with names := s.names.mentionAll t.mentions }).1).Shows (body ++ [t]) := by
  have hnames := names_plant t { s with names := s.names.mentionAll t.mentions }
  have hsize := size_plant t { s with names := s.names.mentionAll t.mentions }
  obtain ⟨hr, he, hf, hv⟩ := plant_spec t { s with names := s.names.mentionAll t.mentions }
  generalize plant t { s with names := s.names.mentionAll t.mentions } = planted at *
  obtain ⟨id, s₁⟩ := planted
  have grown : Evolves [] s s₁ := (evolves_names s t.mentions).trans hv (by simp)
  obtain ⟨hroot, htree⟩ := h.rooted.grown grown
  obtain ⟨ids, hids, hbody⟩ := hroot.exists_body (htree ▸ h.erase_eq)
  have apart : ∀ i ∈ s₁.preorder id, i ∉ s₁.preorder root := by
    intro i hi hm
    rw [preorder_eq_tags, htree, ← preorder_eq_tags] at hm
    exact absurd (h.rooted.places_lt i hm) (Nat.not_lt.2 (hf i hi))
  obtain ⟨hp, ht, hv'⟩ := push_spec hids hroot hr apart
  refine ⟨hp, ?_, ?_, ?_, hv'.closed (grown.closed h.closed)⟩
  · rw [ht, erase_mk]
    refine congrArg (fun b => Tree.mk () (.program b)) ?_
    rw [List.map_append, List.map_map, List.map_singleton, he, erase_eq_self, ← hbody]
    rfl
  · have hpush : (s₁.push id).nodes.size = s₁.nodes.size := by
      simp [push_eq hids, setNode]
    rw [hpush, hsize, h.size_eq, of, size_mk, of, size_mk, ← List.sum_eq_foldr, ← List.sum_eq_foldr]
    simp [Node.children]
    omega
  · have hpush : (s₁.push id).names = s₁.names := by
      rw [push_eq hids]
      rfl
    rw [hpush, hnames, Names.mentionAll_of_subset (List.Subset.refl _), h.names_eq,
      ← Names.mentionAll_append, List.flatMap_append, List.flatMap_singleton]

theorem shows_empty : Script.empty.Shows [] := by
  have hb : Script.empty.Branches root (.program []) :=
    ⟨rfl, by simp [Named, Node.names, Node.parts, rights], by simp [Node.children],
      by simp [Node.children]⟩
  refine ⟨hb.rooted_and_tree.1, ?_, rfl, rfl, fun id node hn => ?_⟩
  · rw [hb.rooted_and_tree.2, erase_mk]
    rfl
  · obtain ⟨hlt, rfl⟩ := Array.getElem?_eq_some_iff.1 hn
    obtain rfl : id = 0 := by simpa [empty] using hlt
    exact hb.named

end Script

open Script

/-- A round of a program that succeeds ends it or puts a shaped statement behind the others. -/
theorem shows_of_programItem {rules : Rules} (sound : rules.Sound) {c c' : Cursor}
    {body : List Reading} {found : Option Unit} (hs : c.Spelled) (hb : c.script.Shows body)
    (h : programItem rules c = .ok found c') :
    c'.Spelled ∧ ∃ more, c'.script.Shows (body ++ more) ∧ ∀ t ∈ more, t.Shaped ∧ t.IsStmt := by
  obtain ⟨isEnd, c₁, he, h⟩ := bind_eq_ok h
  obtain ⟨rfl, rfl⟩ := EStateM.Result.ok.inj he
  split at h
  · obtain ⟨-, rfl⟩ := EStateM.Result.ok.inj h
    exact ⟨hs, [], by rwa [List.append_nil], by simp⟩
  · obtain ⟨t, c₂, ht, h⟩ := bind_eq_ok h
    obtain ⟨names, hr, rfl, hshape, hk⟩ := sound.statement c t c₂ ht hs
    obtain ⟨u, c₃, hp, h⟩ := bind_eq_ok h
    obtain ⟨-, rfl⟩ := EStateM.Result.ok.inj hp
    obtain ⟨-, rfl⟩ := EStateM.Result.ok.inj h
    refine ⟨hr.spelled hs, [t], ?_, by simpa using ⟨hshape, hk⟩⟩
    have := hb.push t
    rwa [← hr.script] at this

/-- A reader of a program that succeeds has put shaped statements behind those that were there. -/
theorem shows_of_program {rules : Rules} (sound : rules.Sound) {rounds : Nat} {c c' : Cursor}
    {body : List Reading} {found : List Unit} (hs : c.Spelled) (hb : c.script.Shows body)
    (h : manyWithin (programItem rules) rounds c = .ok found c') :
    ∃ more, c'.script.Shows (body ++ more) ∧ ∀ t ∈ more, t.Shaped ∧ t.IsStmt := by
  induction rounds generalizing c body found with
  | zero => cases h
  | succ rounds ih =>
    obtain ⟨item, c₁, hi, h⟩ := bind_eq_ok h
    obtain ⟨hs₁, more, hb₁, hm⟩ := shows_of_programItem sound hs hb hi
    rcases item with _ | u
    · obtain ⟨-, rfl⟩ := EStateM.Result.ok.inj h
      exact ⟨more, hb₁, hm⟩
    · obtain ⟨rest, c₂, hr, h⟩ := bind_eq_ok h
      obtain ⟨-, rfl⟩ := EStateM.Result.ok.inj h
      obtain ⟨last, hb₂, hl⟩ := ih hs₁ hb₁ hr
      refine ⟨more ++ last, by rwa [← List.append_assoc], fun t ht => ?_⟩
      exact (List.mem_append.1 ht).elim (hm t) (hl t)

/-- A script is read if its text can be scanned and the tokens are those of a program. -/
theorem read_eq_ok {source : String} {s : Script} :
    Script.read source = .ok s ↔ ∃ tokens c, scan source = .ok tokens ∧
      Read.program.run (.ofTokens tokens) = .ok () c ∧ c.script = s := by
  unfold Script.read
  cases ht : scan source with
  | error e => exact iff_of_false (by rintro ⟨⟩) (by rintro ⟨_, _, ⟨⟩, _⟩)
  | ok tokens =>
    cases hrun : Read.program.run (.ofTokens tokens) with
    | error e c =>
      simp only [bind, Except.bind, hrun]
      refine iff_of_false (by rintro ⟨⟩) ?_
      rintro ⟨_, _, ⟨⟩, h, _⟩
      cases hrun.symm.trans h
    | ok u c =>
      simp only [bind, Except.bind, hrun]
      refine ⟨fun h => ⟨tokens, c, rfl, hrun, Except.ok.inj h⟩, ?_⟩
      rintro ⟨_, _, ⟨⟩, h, rfl⟩
      obtain ⟨-, rfl⟩ := EStateM.Result.ok.inj (hrun.symm.trans h)
      rfl

/-- A script that was read is the tree of statements of the shape that the grammar asks for. -/
theorem shows_read {source : String} {s : Script} (h : Script.read source = .ok s) :
    ∃ body, s.Shows body ∧ ∀ t ∈ body, t.Shaped ∧ t.IsStmt := by
  obtain ⟨tokens, c, ht, hc, rfl⟩ := read_eq_ok.1 h
  obtain ⟨rules, c₁, hr, hc⟩ := bind_eq_ok hc
  obtain ⟨rfl, rfl⟩ := EStateM.Result.ok.inj hr
  obtain ⟨found, hc⟩ := discard_eq_ok hc
  obtain ⟨c₂, c₃, hg, hc⟩ := bind_eq_ok hc
  obtain ⟨rfl, rfl⟩ := EStateM.Result.ok.inj hg
  have hs : (Cursor.ofTokens tokens).Spelled := spelled_of_scan ht
  simpa using shows_of_program (Grammar.rules_sound _) hs shows_empty hc

theorem exists_of_isSome {ε α : Type} {r : Except ε α} (h : r.toOption.isSome) :
    ∃ a, r = .ok a := by
  cases r with
  | ok a => exact ⟨a, rfl⟩
  | error e => cases h

/-- A test of the script of a source text. -/
theorem exists_read {source : String} {p : Script → Bool}
    (h : (Script.read source).toOption.any p = true) : ∃ s, Script.read source = .ok s ∧ p s := by
  cases hr : Script.read source with
  | error e => rw [hr] at h; cases h
  | ok s => exact ⟨s, rfl, by rwa [hr] at h⟩

/-- A test of the scripts of two source texts. -/
theorem exists_read_both {first second : String} {p : Script → Script → Bool}
    (h : (Script.read first).toOption.any fun s => (Script.read second).toOption.any (p s)) :
    ∃ s t, Script.read first = .ok s ∧ Script.read second = .ok t ∧ p s t := by
  obtain ⟨s, hs, h⟩ := exists_read h
  obtain ⟨t, ht, h⟩ := exists_read h
  exact ⟨s, t, hs, ht, h⟩

end Graft
