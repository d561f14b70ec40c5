import Graft.Proofs.Printing.Text
import Graft.Proofs.Roundtrip.Whole

/-!
# Scripts are read back

The lines of a program are read back statement by statement, and each statement enters the script
as it is read. So the text of a program of shaped statements is read as the same program, with
blocks in front of every `else`, wherever it is scanned at all.

* `shows_of_text` - what the text of shaped statements is read as
* `read_text` - the text of a script that was read
-/

namespace Graft

open Piece Layout Graft.Tree Read Grammar
open Reading (of)

variable {τ : Type}

/-- A layout of a statement together with what it is read back as. -/
structure Entered (item : List Piece × Reading) : Prop where
  readBack : ReadBack statement Ends item.1 item.2
  begins : ∀ fresh, ∃ m ms, marks fresh item.1 = m :: ms ∧ m.1.Begins

/-- A step that succeeds. -/
theorem bind_ok {α β : Type} {p : Read α} {f : α → Read β} {c c' : Cursor} {a : α}
    (h : p c = .ok a c') : (p >>= f) c = f a c' := by
  change EStateM.bind p f c = _
  rw [EStateM.bind, h]

theorem discard_ok {α : Type} {p : Read α} {c c' : Cursor} {a : α} (h : p c = .ok a c') :
    discard p c = .ok () c' := by
  change EStateM.map _ p c = _
  rw [EStateM.map, h]

/-- A statement that is read enters the script. -/
theorem shows_of_statement {rules : Rules} (sound : rules.Sound) {c c₁ : Cursor} {t : Reading}
    {shown : List Reading} (hs : c.Spelled) (hb : c.script.Shows shown) (hne : c.ahead ≠ [])
    (h : rules.statement c = .ok t c₁) :
    ∃ c', programItem rules c = .ok (some ()) c' ∧ c'.marks = c₁.marks ∧ c'.Spelled ∧
      c'.script.Shows (shown ++ [t]) := by
  obtain ⟨names, hr, rfl, -⟩ := sound.statement c t c₁ h hs
  have shows := hb.push t
  rw [← hr.script] at shows
  refine ⟨{ c₁ with script := (Script.plant t c₁.script).2.push (Script.plant t c₁.script).1 }, ?_,
    rfl, hr.spelled hs, shows⟩
  have hend : atEnd c = .ok false c := by
    have : c.ahead.isEmpty = false := by simpa using hne
    exact congrArg (fun b => EStateM.Result.ok b c) this
  rw [programItem, bind_ok hend, if_neg nofun, bind_ok h]
  rfl

/-- Statements that are read one after the other enter the script one after the other. -/
theorem shows_of_items {items : List (List Piece × Reading)} (h : ∀ x ∈ items, Entered x)
    {d rounds : Nat} {fresh : Bool} {c : Cursor} {shown : List Reading}
    (hm : c.marks = marks fresh (items.flatMap Prod.fst)) (hs : c.Spelled)
    (hb : c.script.Shows shown) (hd : c.marks.length ≤ d) (hr : c.marks.length < rounds) :
    ∃ found c', manyWithin (programItem (rules (d + 1))) rounds c = .ok found c' ∧
      c'.script.Shows (shown ++ items.map Prod.snd) := by
  induction items generalizing rounds fresh c shown with
  | nil =>
    obtain ⟨rounds, rfl⟩ := Nat.exists_eq_succ_of_ne_zero (Nat.ne_of_gt (Nat.zero_lt_of_lt hr))
    have hend : atEnd c = .ok true c := by
      have : c.ahead.isEmpty = true := by
        rw [← List.isEmpty_map (f := Token.mark)]
        exact congrArg List.isEmpty hm
      exact congrArg (fun b => EStateM.Result.ok b c) this
    have item : programItem (rules (d + 1)) c = .ok none c := by
      rw [programItem, bind_ok hend, if_pos rfl]
      rfl
    refine ⟨[], c, ?_, by simpa using hb⟩
    rw [manyWithin, bind_ok item]
    rfl
  | cons x xs ih =>
    obtain ⟨rounds, rfl⟩ := Nat.exists_eq_succ_of_ne_zero (Nat.ne_of_gt (Nat.zero_lt_of_lt hr))
    obtain ⟨hx, hxs⟩ := List.forall_mem_cons.1 h
    obtain ⟨m, ms, hfirst, -⟩ := hx.begins fresh
    rw [List.flatMap_cons, marks_append] at hm
    have ends : Ends (marks (freshBehind fresh x.1) (xs.flatMap Prod.fst)) := by
      cases xs with
      | nil => exact fun w _ => nofun
      | cons y ys =>
        obtain ⟨m, ms, hy, hl⟩ := (hxs y (List.mem_cons_self ..)).begins (freshBehind fresh x.1)
        rw [List.flatMap_cons, marks_append, hy]
        exact .of_front rfl hl
    obtain ⟨c₁, hc₁, hm₁⟩ := hx.readBack d fresh _ ends (hm ▸ hd) c hm
    have hne : c.ahead ≠ [] := by
      rintro he
      rw [Cursor.marks, he, hfirst] at hm
      cases hm
    obtain ⟨c₂, item, hm₂, hs₂, hb₂⟩ := shows_of_statement (rules_sound (d + 1)) hs hb hne hc₁
    have shorter : c₂.marks.length < c.marks.length := by
      rw [hm₂, hm₁, hm, List.length_append, hfirst, List.length_cons]
      omega
    have less : c₂.marks.length < rounds := by omega
    obtain ⟨found, c', hc', hb'⟩ := ih hxs (hm₂.trans hm₁) hs₂ hb₂ (shorter.le.trans hd) less
    refine ⟨() :: found, c', ?_, by simpa using hb'⟩
    rw [manyWithin, bind_ok item]
    change (manyWithin _ rounds >>= fun more => pure (() :: more)) c₂ = _
    rw [bind_ok hc']
    rfl

/-! ## Programs -/

/-- A shaped statement on a line of its own. -/
theorem entered_statement {c : Tree τ} (hs : c.Shaped ∧ c.IsStmt) :
    ∃ ps, c.form.statement .outer false = Setting.outer.line :: ps ∧ Entered (ps, c.wrapped) ∧
      Entered (c.form.statement .outer false, c.wrapped) := by
  have hchildren := ((shaped_iff c).1 hs.1).2
  have readOnLine :=
    readBack_statement hs.2 ⟨hs.1, fun x hx => readsBack (hchildren x hx)⟩ .outer false
  obtain ⟨ps, readBack, layout⟩ := readOnLine
  replace layout := layout.resolve_right nofun
  obtain ⟨qs, hqs, sentence⟩ := ((written hs.1).sentence hs.2 .outer false).exists_eq
  obtain rfl : ps = qs := List.cons_inj_right _ |>.1 (layout.symm.trans hqs)
  obtain ⟨l, more, hl, begins⟩ := sentence.first
  refine ⟨ps, layout, ⟨readBack, fun fresh => ?_⟩,
    ⟨layout ▸ readBack.behind_line .outer, fun fresh => ?_⟩⟩
  · exact ⟨(l, fresh), marks false more, by rw [hl]; rfl, begins⟩
  · exact ⟨(l, true), marks false more, by rw [layout, hl]; rfl, begins⟩

/-- The lines of a program as the layouts of its statements. -/
theorem exists_items {body : List (Tree τ)} (hs : ∀ c ∈ body, c.Shaped ∧ c.IsStmt) :
    ∃ items : List (List Piece × Reading), (∀ x ∈ items, Entered x) ∧
      items.map Prod.snd = body.map wrapped ∧
        marks false (linesOf body) = marks false (items.flatMap Prod.fst) := by
  cases body with
  | nil => exact ⟨[], nofun, rfl, rfl⟩
  | cons c cs =>
    obtain ⟨hc, hcs⟩ := List.forall_mem_cons.1 hs
    obtain ⟨ps, layout, entered, -⟩ := entered_statement hc
    refine ⟨(ps, c.wrapped) :: cs.map fun x => (x.form.statement .outer false, x.wrapped),
      ?_, ?_, ?_⟩
    · refine List.forall_mem_cons.2 ⟨entered, List.forall_mem_map.2 fun x hx => ?_⟩
      obtain ⟨-, -, -, entered⟩ := entered_statement (hcs x hx)
      exact entered
    · simp
    · have lines : linesOf (c :: cs) =
          ps ++ cs.flatMap (fun x => x.form.statement .outer false) ++ [.line 0] := by
        rw [linesOf, statements_map, List.flatMap_cons, layout]
        rfl
      rw [lines, List.flatMap_cons, List.flatMap_map, marks_append]
      exact List.append_nil _

/-- The text of shaped statements is read as these statements, with blocks in front of `else`. -/
theorem shows_of_text {body : List (Tree τ)} (hs : ∀ c ∈ body, c.Shaped ∧ c.IsStmt)
    {tokens : Tokens} (ht : scan (textOf (linesOf body)) = .ok tokens) :
    ∃ s, Script.read (textOf (linesOf body)) = .ok s ∧ s.Shows (body.map wrapped) := by
  have hmarks : (Cursor.ofTokens tokens).marks = marks false (linesOf body) := by
    obtain ⟨hyes, hno⟩ := scan_pieces (strip_linesOf hs).legible
    by_cases divides : DividesBehind none (linesOf body)
    · obtain ⟨tokens', ht', hm⟩ := hyes divides
      obtain rfl := Except.ok.inj (ht.symm.trans ht')
      exact hm
    · obtain ⟨spot, he⟩ := hno divides
      rw [ht] at he
      cases he
  obtain ⟨items, entered, hbody, hlines⟩ := exists_items hs
  have hlength : (Cursor.ofTokens tokens).marks.length = tokens.list.length := List.length_map ..
  have less : (Cursor.ofTokens tokens).marks.length < tokens.list.length + 1 := by omega
  obtain ⟨found, c, hc, shows⟩ := shows_of_items entered (hmarks.trans hlines)
    (spelled_of_scan ht) Script.shows_empty hlength.le less
  have run : Read.program.run (.ofTokens tokens) = .ok () c :=
    discard_ok (p := many (programItem (rules (tokens.list.length + 1)))) hc
  exact ⟨c.script, read_eq_ok.2 ⟨tokens, c, ht, run, rfl⟩, by simpa [hbody] using shows⟩

/-! ## Scripts -/

/-- The text of a script depends on the layout of its tree alone. -/
theorem text_congr {s s' : Script} (h : (s'.tree Script.root).form = (s.tree Script.root).form) :
    s'.text = s.text := by
  rw [Script.text, Script.text, Script.textAt, Script.textAt, Tree.text, Tree.text, pieces, pieces,
    h]

/-- The text of a script that was read, if it is scanned at all, is read as the same program with
blocks in front of every `else`, with the same names in the same order, and printed the same. -/
theorem read_text {source : String} {s : Script} (h : Script.read source = .ok s)
    {tokens : Tokens} (ht : scan s.text = .ok tokens) :
    ∃ s', Script.read s.text = .ok s' ∧
      (s'.tree Script.root).erase = (s.tree Script.root).wrapped ∧
        s'.names = s.names ∧ s'.text = s.text := by
  obtain ⟨body, shows, hs⟩ := shows_read h
  have text := text_eq shows.form_eq hs
  rw [text] at ht
  obtain ⟨s', reads, shows'⟩ := shows_of_text hs ht
  have erase : (s'.tree Script.root).erase = (s.tree Script.root).wrapped := by
    rw [shows'.erase_eq, ← wrapped_erase, shows.erase_eq]
    exact (wrapped_mk () (.program body)).symm
  refine ⟨s', text ▸ reads, erase, ?_, text_congr ?_⟩
  · have mentions : (body.map wrapped).flatMap mentions = body.flatMap mentions := by
      rw [List.flatMap_map]
      exact List.flatMap_congr fun t _ => mentions_wrapped t
    rw [shows'.names_eq, shows.names_eq, mentions]
  · rw [← form_erase, erase, form_wrapped]

/-- A statement in front of `else` that is no block. -/
theorem read_text_of_else : ∃ s tokens, Script.read "if (a) b\nelse (c)" = .ok s ∧
    scan s.text = .ok tokens ∧ ∃ s', Script.read s.text = .ok s' ∧
      (s'.tree Script.root).erase = (s.tree Script.root).wrapped ∧
        s'.names = s.names ∧ s'.text = s.text := by
  obtain ⟨s, hs, hd⟩ : ∃ s, Script.read "if (a) b\nelse (c)" = .ok s ∧
      (scan s.text).toOption.isSome = true := exists_read (by decide +kernel)
  obtain ⟨tokens, ht⟩ := exists_of_isSome hd
  exact ⟨s, tokens, hs, ht, read_text hs ht⟩

end Graft
