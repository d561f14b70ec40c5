import Graft.Proofs.Building.Resumption
import Graft.Proofs.Syntax.Postorder

/-!
# The order of the table

A builder stores a node as soon as its last token is taken, and statements one behind the other.
So the table of a program has the places behind that of the root in postorder, and none of them
is met twice or not at all.

* `Ordered` - a program that fills its table in postorder
* `ordered_build` - a program that is built from tokens
* `read_in_postorder` - a script that was read
-/

namespace Graft

open Building
open Script (root)

/-- The places behind that of the root follow each other in postorder. -/
def Script.Ordered (s : Script) : Prop :=
  s.postorder root = List.range' 1 (s.nodes.size - 1) ++ [root]

theorem Script.ordered_empty : Script.empty.Ordered := by
  rw [Ordered, shows_empty.rooted.postorder_eq]
  rfl

/-- The places are those of the table, each once. -/
theorem Script.Ordered.perm_range {s : Script} (h : s.Ordered) (hs : 0 < s.nodes.size) :
    (s.preorder root).Perm (List.range s.nodes.size) := by
  have places : List.range s.nodes.size = root :: List.range' 1 (s.nodes.size - 1) := by
    conv_lhs => rw [show s.nodes.size = s.nodes.size - 1 + 1 by omega]
    rw [List.range_eq_range', List.range'_succ]
    rfl
  refine (s.perm_postorder root).symm.trans ?_
  rw [h, places]
  exact List.perm_append_singleton ..

namespace Builder

variable {b b' : Builder} {id : NodeId}

/-- A statement that enters the program is behind the statements that were there. -/
theorem Steady.ordered_entered (hs : b.Steady) (stays : b.Stays b') (h : b.Leads b') {t : Reading}
    (hp : Plants t id ⟨b.script.nodes, b'.script.names⟩ b'.script) (ho : b.script.Ordered) :
    (b'.entered id).script.Ordered := by
  obtain ⟨hs', -⟩ := hs.leads stays h
  obtain ⟨planted, apart⟩ := hs.planted h hp
  have run : Script.plant t ⟨b.script.nodes, b'.script.names⟩ = (id, b'.script) := hp
  have size := Script.size_plant t ⟨b.script.nodes, b'.script.names⟩
  have new := Script.postorder_plant t ⟨b.script.nodes, b'.script.names⟩
  rw [run] at size new
  change b'.script.nodes.size = b.script.nodes.size + t.size at size
  change b'.script.postorder id = List.range' b.script.nodes.size t.size at new
  have old : b'.script.postorder root = b.script.postorder root := by
    rw [Script.postorder, Script.postorder, (h.tree_eq hs.rooted).2]
  -- the statements in front of the new one fill the table as far as it went
  have front : b'.script.body.flatMap b'.script.postorder =
      List.range' 1 (b.script.nodes.size - 1) := by
    rw [ho, hs'.rooted.postorder_eq, hs'.program] at old
    exact List.append_cancel_right old
  have grown : (b'.script.push id).nodes.size = b'.script.nodes.size := by
    rw [Script.push_eq hs'.program, Script.setNode, Array.size_setIfInBounds]
  have pos : 1 ≤ b.script.nodes.size := hs.rooted.lt
  change (b'.script.push id).postorder root = List.range' 1 ((b'.script.push id).nodes.size - 1) ++ _
  rw [Script.postorder_push hs'.program hs'.rooted planted.rooted apart, front, new, grown, size]
  congr 1
  have next : List.range' (1 + (b.script.nodes.size - 1)) t.size =
      List.range' b.script.nodes.size t.size := by rw [Nat.add_sub_cancel' pos]
  rw [← next, List.range'_append_1]
  congr 1
  exact (Nat.sub_add_comm pos).symm

end Builder

open Builder

variable {b b' : Builder} {ids : List NodeId}

/-- Statements are completed in the order of the table. -/
theorem Completes.ordered {inner' : BuildRules} {inner : Rules} {most : Nat}
    (hc : Completes inner' b ids b') (h : Mirrored b.tokens most inner' inner) (hs : b.Steady)
    (hl : b.ahead.length < most) (ho : b.script.Ordered) : b'.script.Ordered := by
  induction hc with
  | none b => exact ho
  | @more b b₁ b₂ id ids _ hb _ ih =>
    have run := builds_statement h hs.inBounds hs.noIn hl
    rw [hb] at run
    obtain ⟨stays, leads, -, t, hp⟩ := run
    exact ih (stays.tokens ▸ h) (hs.entered stays leads hp).1
      (Nat.lt_of_le_of_lt stays.length_ahead_le hl) (hs.ordered_entered stays leads hp ho)

/-- A program that is built from tokens hangs under the root and fills the table in postorder. -/
theorem ordered_build {tokens : Tokens} (h : Build.program (.ofTokens tokens) = .ok () b) :
    b.Steady ∧ b.script.Ordered := by
  have hs := steady_ofTokens tokens
  obtain ⟨ids, b₁, hc, he⟩ := exists_completes hs.inBounds hs.noIn
  rw [h] at he
  obtain ⟨_⟩ := he
  have rules := mirrored_ahead (ofTokens tokens)
  have room := Nat.lt_succ_self (ofTokens tokens).ahead.length
  exact ⟨(hc.grows rules hs room).1, hc.ordered rules hs room Script.ordered_empty⟩

/-- The script of a source text is what a builder makes of the tokens. -/
theorem exists_build {source : String} {s : Script} (h : Script.read source = .ok s) :
    ∃ tokens b, scan source = .ok tokens ∧
      Build.program (.ofTokens tokens) = .ok () b ∧ b.script = s := by
  obtain ⟨tokens, c, ht, hc, rfl⟩ := read_eq_ok.1 h
  have agree := program_agrees tokens
  rw [show Read.program (.ofTokens tokens) = .ok () c from hc] at agree
  cases hb : Build.program (.ofTokens tokens) with
  | ok u b =>
    rw [hb] at agree
    exact ⟨tokens, b, ht, hb, agree.2.symm⟩
  | error e b =>
    rw [hb] at agree
    exact agree.elim

/-- A source text that is read is built as one tree in postorder. What hangs under the root is a
tree in which every place of the table occurs exactly once; the places behind that of the root are,
one after the other, the postorder of the tree, in which the root comes last; and the table of names
holds exactly the names that occur in the tree, each of them once. -/
theorem read_in_postorder {source : String} {s : Script} (h : Script.read source = .ok s) :
    ∃ tokens b, scan source = .ok tokens ∧ Build.program (.ofTokens tokens) = .ok () b ∧
      b.script = s ∧ s.Rooted root ∧ (s.preorder root).Perm (List.range s.nodes.size) ∧
      s.postorder root = List.range' 1 (s.nodes.size - 1) ++ [root] ∧
      s.names.spellings.toList.Nodup ∧
      ∀ name, name ∈ s.names.spellings ↔
        ∃ id ∈ s.preorder root, ∃ x ∈ (s.node id).names, s.names.text? x = some name := by
  obtain ⟨tokens, b, ht, hb, rfl⟩ := exists_build h
  obtain ⟨hs, ho⟩ := ordered_build hb
  obtain ⟨body, shows, -⟩ := shows_read h
  refine ⟨tokens, b, ht, hb, rfl, hs.rooted, ho.perm_range hs.rooted.lt, ho, ?_, fun name => ?_⟩
  · rw [shows.names_eq]
    exact Names.distinct_empty.mentionAll _
  · have same : (b.script.tree root).mentions = body.flatMap Tree.mentions := by
      rw [← Tree.mentions_erase, shows.erase_eq, Reading.mentions_of]
      exact Reading.flatMap_inl body
    rw [← hs.rooted.mem_mentions, same, shows.names_eq]
    exact Names.has_mentionAll_iff.trans (by simp [Names.Has, Names.empty])

/-- In a loop over the members of an object, the two sides of its head are in front of its body. -/
theorem read_in_postorder_forOf : ∃ s, Script.read "for (x of o) x(o);" = .ok s ∧
    s.postorder root = [1, 2, 3, 4, 5, 6, 7, root] ∧ s.node 7 = .forOf 1 2 6 ∧
    ∃ tokens b, scan "for (x of o) x(o);" = .ok tokens ∧
      Build.program (.ofTokens tokens) = .ok () b ∧ b.script = s ∧ s.Rooted root ∧
      (s.preorder root).Perm (List.range s.nodes.size) ∧
      s.postorder root = List.range' 1 (s.nodes.size - 1) ++ [root] ∧
      s.names.spellings.toList.Nodup ∧
      ∀ name, name ∈ s.names.spellings ↔
        ∃ id ∈ s.preorder root, ∃ x ∈ (s.node id).names, s.names.text? x = some name := by
  obtain ⟨s, hs, shown⟩ : ∃ s, Script.read "for (x of o) x(o);" = .ok s ∧
      decide (s.postorder root = [1, 2, 3, 4, 5, 6, 7, root] ∧ s.node 7 = .forOf 1 2 6) = true :=
    exists_read (by decide +kernel)
  obtain ⟨places, loop⟩ := of_decide_eq_true shown
  exact ⟨s, hs, places, loop, read_in_postorder hs⟩

end Graft
