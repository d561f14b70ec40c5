import Graft.Proofs.Grammar.Stored
import Graft.Proofs.Printing.Emitter
import Graft.Proofs.Printing.Text

/-!
# Printing statement by statement

What is put out for a program is what is put out for each of its statements alone, with the end of
a line behind each. A statement does not see the text in front of it: it is put out with the
indentation that is there, in the head of a `for` or not, and on a line of its own or on the one
that is there, and nothing else decides its text.

* `Script.emitted_eq_text` - an emitter puts out the text of a script
* `emitted_by_statements` - the text of a program from those of its statements
-/

namespace Graft

open Piece Emit Graft.Tree

variable {τ : Type}

/-! ## The layout of a script -/

namespace Script

variable (s : Script) (id : NodeId)

/-- A statement is put out behind the start of its line. -/
theorem begins_statement {id : NodeId} (h : s.kind id ≠ .program) :
    Begins (s.printer id).statement fun setting =>
      ((s.tree id).form.statement setting false).tail := by
  have kind : (s.tree id).form.kind = s.kind id := by
    rw [← s.kind_tree]
    cases s.tree id
    exact kind_form ..
  exact ((s.tree id).prints.states (kind ▸ h)).begins

theorem emittedAt_eq_textAt : s.emittedAt id = s.textAt id := by
  have output : ((s.printer id).statement.after .new).output = "" ++ textOf (s.tree id).pieces :=
    congrArg Emitter.output ((s.tree id).prints.statement .new rfl)
  rw [emittedAt, Emitter.text, output, String.empty_append, textOf, String.toList_ofList]
  rfl

theorem emitted_eq_text : s.emitted = s.text := by
  unfold emitted
  rw [emittedAt_eq_textAt]
  rfl

end Script

/-! ## Lines -/

/-- A statement is put out on a line of its own. -/
theorem textOf_statement {t : Tree τ} (hs : t.Shaped) (h : t.IsStmt) :
    textOf (t.form.statement .outer false) = "\n" ++ t.text := by
  obtain ⟨qs, hqs, hsentence⟩ := ((written hs).sentence h .outer false).exists_eq
  have left := dropWhile_sentence hsentence []
  rw [List.append_nil, List.append_nil, ← hqs] at left
  rw [Tree.text, pieces, left, hqs]
  exact textOf_append [Setting.outer.line] qs

/-- Statements in a row end with the end of the last line: the end of any other line is the start
of the next one. -/
theorem textOf_statements {body : List (Tree τ)} (hs : ∀ c ∈ body, c.Shaped ∧ c.IsStmt) :
    textOf (body.flatMap (fun c => c.form.statement .outer false) ++ [.line 0]) =
      "\n" ++ String.join (body.map fun c => c.text ++ "\n") := by
  induction body with
  | nil => rfl
  | cons c cs ih =>
    obtain ⟨hc, hcs⟩ := List.forall_mem_cons.1 hs
    rw [List.flatMap_cons, List.append_assoc, textOf_append, textOf_statement hc.1 hc.2, ih hcs,
      List.map_cons, String.join_cons]
    simp only [String.append_assoc]

/-- The lines of statements are their texts with the end of a line behind each. -/
theorem textOf_linesOf {body : List (Tree τ)} (hs : ∀ c ∈ body, c.Shaped ∧ c.IsStmt) :
    textOf (linesOf body) = String.join (body.map fun c => c.text ++ "\n") := by
  cases body with
  | nil => rfl
  | cons c cs =>
    obtain ⟨hc, hstmt⟩ := hs c (List.mem_cons_self ..)
    obtain ⟨qs, hqs, -⟩ := ((written hc).sentence hstmt .outer false).exists_eq
    have first : (c :: cs).flatMap (fun c => c.form.statement .outer false) ++ [.line 0] =
        Setting.outer.line :: linesOf (c :: cs) := by
      rw [linesOf, statements_map, List.flatMap_cons, hqs]
      rfl
    have all := textOf_statements hs
    rw [first] at all
    have split := textOf_append [Setting.outer.line] (linesOf (c :: cs))
    exact (String.append_right_inj "\n").1 (split.symm.trans all)

/-- The text of a program is made of the texts of its statements. -/
theorem Script.text_eq_join {source : String} {s : Script} (h : Script.read source = .ok s) :
    s.text = String.join (s.body.map fun id => s.textAt id ++ "\n") := by
  obtain ⟨body, shows, hs⟩ := shows_read h
  obtain ⟨ids, hroot, hbody⟩ := shows.rooted.exists_body shows.erase_eq
  have statements : ∀ t ∈ ids.map s.tree, t.Shaped ∧ t.IsStmt := by
    rw [List.forall_mem_map]
    intro id hid
    have hmem : (s.tree id).erase ∈ body := hbody ▸ List.mem_map_of_mem hid
    refine ⟨shaped_read h id, ?_⟩
    rw [IsStmt, ← kind_erase]
    exact (hs _ hmem).2
  have chars : charsOf (s.tree root).pieces =
      charsOf (Form.statements ((ids.map s.tree).map form) .outer) := by
    rw [shows.rooted.tree_eq, hroot, pieces, form_mk]
    rfl
  have body_eq : s.body = ids := by rw [Script.body, hroot]
  rw [text_eq_of_chars chars statements, textOf_linesOf statements, List.map_map, body_eq]
  rfl

/-! ## Statement by statement -/

/-- The text put out for a program that was read is that of its statements one by one, each put out
alone, with the end of a line behind each. What is put out for a statement is a text that follows
from the indentation, the head of a `for` and whether the statement goes on a line, with whatever
stands in front; the indentation and the flag for the head are afterwards what they were, and the
next statement does not go on the line. -/
theorem emitted_by_statements {source : String} {s : Script} (h : Script.read source = .ok s) :
    s.emitted = String.join (s.body.map fun id => s.emittedAt id ++ "\n") ∧
    ∀ id, s.kind id ≠ .program → ∃ text : Setting → (inline : Bool) → String, ∀ e : Emitter,
      (s.printer id).statement.after e =
        { e with output := e.output ++ text e.setting e.inlineNext, inlineNext := false } := by
  constructor
  · simp only [Script.emitted_eq_text, Script.emittedAt_eq_textAt]
    exact Script.text_eq_join h
  · intro id hid
    exact ⟨fun setting inline => textOf ((if inline then [] else [setting.line]) ++
      ((s.tree id).form.statement setting false).tail), s.begins_statement hid⟩

/-- A choice and a loop with a function in its head. Behind any text, one step further in, the loop
is put out on the line that is there. -/
theorem emitted_by_statements_loop : ∃ s,
    Script.read "if (a) b(); else if (c) d();\nfor (i = function () \x7b x in y; \x7d;;) z();" =
      .ok s ∧
    s.emitted = "if (a) \x7b\n  b();\n\x7d else if (c)\n  d();\n" ++
      "for (i = function() \x7b\n  (x in y);\n\x7d;;)\n  z();\n" ∧
    ∃ loop ∈ s.body, ∃ text, ∀ front,
      (s.printer loop).statement.after ⟨1, front, true, false⟩ =
        ⟨1, front ++ text, false, false⟩ := by
  obtain ⟨s, hs, shown⟩ : ∃ s,
      Script.read "if (a) b(); else if (c) d();\nfor (i = function () \x7b x in y; \x7d;;) z();" =
        .ok s ∧
      decide (s.body = [10, 22] ∧ s.kind 22 = .forStmt ∧
        s.textAt 10 = "if (a) \x7b\n  b();\n\x7d else if (c)\n  d();" ∧
        s.textAt 22 = "for (i = function() \x7b\n  (x in y);\n\x7d;;)\n  z();") = true :=
    exists_read (by decide +kernel)
  obtain ⟨body, kind, choice, loop⟩ := of_decide_eq_true shown
  obtain ⟨lines, single⟩ := emitted_by_statements hs
  refine ⟨s, hs, ?_, 22, by simp [body], ?_⟩
  · rw [lines, body]
    simp only [Script.emittedAt_eq_textAt, List.map_cons, List.map_nil, choice, loop]
    decide +kernel
  · obtain ⟨text, runs⟩ := single 22 (by rw [kind]; decide)
    exact ⟨text ⟨1, false⟩ true, fun front => runs ⟨1, front, true, false⟩⟩

end Graft
