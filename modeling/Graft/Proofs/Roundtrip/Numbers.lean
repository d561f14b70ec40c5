import Graft.Proofs.Printing.Numbers
import Graft.Proofs.Roundtrip.Reread

/-!
# Scripts with other numbers are read back

A pass over numbers puts nothing but edge numbers in the place of numbers. Two of these have a sign,
which a reader takes for an operator; the tree with the operators in the place of the signs is
printed with the same characters and obeys the grammar, and its slashes divide as those of the
program did. So the text is read back, and the operators are printed like the signs.

* `Script.Renumbered` - what passes over numbers leave alone
* `reread_numbers` - the text of a program after passes over its numbers
-/

namespace Graft

open Chance (Stream Probability)
open Layout Graft.Tree
open Reading (numeral signed)
open Script (root)

/-- Every edge number is one without a sign or has a plus in front of one. -/
theorem isNumeral_of_edge {raw : String} (h : raw ∈ NodeChange.edgeNumbers) : IsNumeral raw := by
  have all : ∀ raw ∈ NodeChange.edgeNumbers,
      (Lexeme.number raw).Spelled ∨ raw = "+0" ∨ raw = "+0.0" := by
    unfold Lexeme.Spelled
    decide +kernel
  have digits : (Lexeme.number "0").Spelled ∧ (Lexeme.number "0.0").Spelled := by
    unfold Lexeme.Spelled
    decide +kernel
  rcases all raw h with hs | rfl | rfl
  · exact .bare hs
  · exact @IsNumeral.withSign .plus "0" (by decide) digits.1
  · exact @IsNumeral.withSign .plus "0.0" (by decide) digits.2

/-- A tree whose numbers do not tell anything. -/
abbrev Tree.numberless {τ : Type} (t : Tree τ) : Reading :=
  t.withNumbers fun _ => numeral "0"

/-! ## Passes over numbers -/

/-- A script that differs from another in the spelling of numbers alone: those of the program give
way to edge numbers, and everything else stays. -/
structure Script.Renumbered (s s' : Script) : Prop where
  names : s'.names = s.names
  size : s'.nodes.size = s.nodes.size
  nodes : ∀ i, s'.nodes[i]? = s.nodes[i]? ∨ i ∈ s.preorder root ∧
    ∃ raw, ∃ raw' ∈ NodeChange.edgeNumbers, s.nodes[i]? = some (.literal (.number raw)) ∧
      s'.nodes[i]? = some (.literal (.number raw'))
  listed : s'.preorder root = s.preorder root
  regular : s'.Regular
  numerals : (s'.tree root).Each Node.Numeral
  numberless : (s'.tree root).numberless = (s.tree root).numberless

namespace Script.Renumbered

variable {s s' : Script} {i : NodeId} {raw raw' : String}

/-- A script that was read as it is. -/
theorem refl {source : String} (h : Script.read source = .ok s) : s.Renumbered s where
  names := rfl
  size := rfl
  nodes := fun _ => .inl rfl
  listed := rfl
  regular := regular_read h
  numerals := fun u hu => .inl (spelled_read h u hu)
  numberless := rfl

/-- One number of the program gives way to an edge number. -/
theorem setNode (h : s.Renumbered s') (hi : i ∈ s'.preorder root)
    (hnode : s'.node i = .literal (.number raw)) (hraw : raw' ∈ NodeChange.edgeNumbers) :
    s.Renumbered (s'.setNode i (.literal (.number raw'))) := by
  have rooted := h.regular.wellformed.rooted
  have hlt := rooted.places_lt i hi
  have before := (rooted.of_mem_preorder hi).node?
  rw [hnode] at before
  have named : s'.Named (.literal (.number raw')) := nofun
  have children : (Node.literal (.number raw') : Node NodeId Sym).children =
      (s'.node i).children := by
    rw [hnode]
    rfl
  refine ⟨h.names, ?_, fun j => ?_, ?_, ?_, ?_, ?_⟩
  · rw [← h.size]
    exact Array.size_setIfInBounds
  · by_cases hj : i = j
    · -- the place may have got an edge number before; what it had at first is told by that
      subst hj
      refine .inr ⟨h.listed ▸ hi, ?_⟩
      rcases h.nodes i with same | ⟨-, raw₀, raw₁, -, old, -⟩
      · exact ⟨raw, raw', hraw, same ▸ before, Script.node?_setNode hlt⟩
      · exact ⟨raw₀, raw', hraw, old, Script.node?_setNode hlt⟩
    · rw [Script.setNode, Array.getElem?_setIfInBounds_ne hj]
      exact h.nodes j
  · rw [(Script.setNode_spec rooted named children).2, h.listed]
  · refine NodeChange.regular_setNode h.regular ?_ ?_
    · rw [hnode]
      exact ⟨rfl, rfl, rfl⟩
    · rw [hnode]
      exact ⟨rfl, rfl, fun _ _ _ => .of_slots trivial rfl⟩
  · refine Script.each_setNode Node.stable_numeral rooted ⟨named, children, ?_, ?_⟩ ?_ h.numerals
    · rw [hnode]
      rfl
    · rw [hnode]
      exact .inl rfl
    · exact fun _ => .inr ⟨raw', rfl, isNumeral_of_edge hraw⟩
  · -- without their numbers the old node and the new one are the same
    rw [← h.numberless]
    refine Script.fold_setNode rooted named children fun k => ?_
    rw [hnode]
    rfl

theorem everywhere (h : s.Renumbered s') (chance : Probability) (stream : Stream) :
    s.Renumbered (NodeChange.everywhere (NodeChange.number chance) s' stream).1.2 := by
  refine NodeChange.atEach_induct (P := fun s₁ => s.Renumbered s₁) ?_ h stream
  intro s₁ h₁ i hi stream new hnew
  obtain ⟨raw, raw', hraw, hnode, rfl⟩ := NodeChange.numbers_of_mem hnew
  rw [h.listed, ← h₁.listed] at hi
  exact h₁.setNode hi hnode hraw

/-- A run of passes. -/
theorem passes (h : s.Renumbered s') (ms : List Local) :
    s.Renumbered (ms.foldl (fun s m => (m.run NodeChange.number s).2.1) s') := by
  induction ms generalizing s' with
  | nil => exact h
  | cons m ms ih => exact ih (h.everywhere m.chance m.stream)

/-- The slashes of a program do not depend on its numbers. -/
theorem divisible_iff (h : s.Renumbered s') :
    (s'.tree root).Divisible ↔ (s.tree root).Divisible := by
  rw [← divisible_withNumbers (endless_numeral "0") (s'.tree root),
    ← divisible_withNumbers (endless_numeral "0") (s.tree root)]
  exact iff_of_eq (congrArg Divisible h.numberless)

/-- The text of a script with other numbers is read and printed the same if the slashes of the
program divide. -/
theorem reread (h : s.Renumbered s') (hd : (s.tree root).Divisible) :
    ∃ s'', Script.read s'.text = .ok s'' ∧ s''.text = s'.text := by
  -- the signs stay where they are; the tree that is read has operators in their places
  have alike := (signed_alike h.numerals).statement .outer false
  have program : ((s'.tree root).withNumbers signed).kind = .program :=
    ((kind_signed _).eq_iff (m := .program) nofun nofun).1 h.regular.kind_root
  refine (read_back_of_grammatical program (grammatical_signed h.regular.grammatical)
    (spelled_signed h.numerals) alike).1 ?_
  rw [divisible_withNumbers endless_signed, h.divisible_iff]
  exact hd

end Script.Renumbered

/-- The text of a program that was read and went through passes over its numbers is read and printed
the same if the text of the program itself is read. The script differs in the numbers of the program
alone, and those that changed are edge numbers. -/
theorem reread_numbers {source : String} {s s₁ : Script} (h : Script.read source = .ok s)
    (h₁ : Script.read s.text = .ok s₁) (passes : List Local) :
    let s' := passes.foldl (fun s m => (m.run NodeChange.number s).2.1) s
    (∃ s'', Script.read s'.text = .ok s'' ∧ s''.text = s'.text) ∧
      s'.names = s.names ∧ s'.nodes.size = s.nodes.size ∧
      ∀ i, s'.nodes[i]? = s.nodes[i]? ∨ i ∈ s.preorder root ∧
        ∃ raw, ∃ raw' ∈ NodeChange.edgeNumbers, s.nodes[i]? = some (.literal (.number raw)) ∧
          s'.nodes[i]? = some (.literal (.number raw')) := by
  intro s'
  have renumbered : s.Renumbered s' := (Script.Renumbered.refl h).passes passes
  have divisible := divisible_of_read h h₁
  exact ⟨renumbered.reread divisible, renumbered.names, renumbered.size, renumbered.nodes⟩

/-- Numbers with signs as the base of a power and behind an operator. -/
theorem reread_numbers_signed : ∃ s s₁, Script.read "1 ** 2; (3).m; +4" = .ok s ∧
    Script.read s.text = .ok s₁ ∧
      let passes : List Local := [⟨.always, .seeded 276⟩, ⟨.always, .seeded 482⟩]
      let s' := passes.foldl (fun s m => (m.run NodeChange.number s).2.1) s
      s'.text = "(+0.0) ** +0;\n(1.00).m;\n+ +0;\n" ∧
      (∃ s'', Script.read s'.text = .ok s'' ∧ s''.text = s'.text) ∧
      s'.names = s.names ∧ s'.nodes.size = s.nodes.size ∧
      ∀ i, s'.nodes[i]? = s.nodes[i]? ∨ i ∈ s.preorder root ∧
        ∃ raw, ∃ raw' ∈ NodeChange.edgeNumbers, s.nodes[i]? = some (.literal (.number raw)) ∧
          s'.nodes[i]? = some (.literal (.number raw')) := by
  let passes : List Local := [⟨.always, .seeded 276⟩, ⟨.always, .seeded 482⟩]
  obtain ⟨s, hs, ht⟩ : ∃ s, Script.read "1 ** 2; (3).m; +4" = .ok s ∧
      ((Script.read s.text).toOption.isSome && (passes.foldl (fun s m =>
        (m.run NodeChange.number s).2.1) s).text == "(+0.0) ** +0;\n(1.00).m;\n+ +0;\n") = true :=
    exists_read (by decide +kernel)
  obtain ⟨before, text⟩ := Bool.and_eq_true_iff.1 ht
  obtain ⟨s₁, h₁⟩ := exists_of_isSome before
  exact ⟨s, s₁, hs, h₁, eq_of_beq text, reread_numbers hs h₁ passes⟩

end Graft
