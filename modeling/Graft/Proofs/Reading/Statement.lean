import Graft.Proofs.Reading.Expression

/-!
# The statements that the grammar gives

The rules for statements, followed like those for expressions.

* `rules_sound` - the rules of every depth give trees of their classes
-/

namespace Graft

namespace Grammar

open Read Graft.Tree Reading
open Reading (of)

variable {inner : Rules}

theorem silent_atStatementEnd : Silent atStatementEnd :=
  .skip (silent_isPunct _) fun _ => .skip (silent_isPunct _) fun _ => .skip silent_atEnd fun _ =>
    .skip silent_newlineAhead fun _ => .pure rfl

theorem silent_semicolon : Silent semicolon :=
  .skip (silent_eatPunct _) fun _ => .ite (fun _ => .pure rfl) fun _ =>
    .skip silent_atStatementEnd fun _ => .ite (fun _ => .pure rfl) fun _ => ensures_refuse

theorem gives_parenthesized (sound : inner.Sound) : Gives (parenthesized inner) IsExpr := by
  refine .skip (silent_expectPunct _) fun _ => (sound.expression false).bind fun names e he => ?_
  exact .skip (silent_expectPunct _) fun _ => .pure (by simpa using he)

/-- A round that gives trees of a class. -/
theorem ensures_rounds {round : Read (Option Reading)} {good : Reading → Prop}
    (h : Ensures round fun names found =>
      names = found.toList.flatMap mentions ∧ ∀ t ∈ found, t.Shaped ∧ good t) :
    Ensures (many round) fun names ts =>
      names = ts.flatMap mentions ∧ (∀ t ∈ ts, t.Shaped) ∧ ∀ t ∈ ts, good t :=
  (ensures_many h).mono fun _ _ ⟨hn, ht⟩ =>
    ⟨hn, fun t hm => (ht t hm).1, fun t hm => (ht t hm).2⟩

/-- The last step of a round. -/
theorem found_some {names : List String} {good : Reading → Prop} {t : Reading}
    (h : names = t.mentions ∧ t.Shaped ∧ good t) :
    names = (some t).toList.flatMap mentions ∧ ∀ u ∈ some t, u.Shaped ∧ good u := by
  simpa using h

/-! ## Blocks and declarations -/

theorem gives_block (sound : inner.Sound) : Gives (block inner) IsBlock := by
  have item : Ensures (blockItem inner) fun names found =>
      names = found.toList.flatMap mentions ∧ ∀ t ∈ found, t.Shaped ∧ t.IsStmt := by
    refine .skip (silent_isPunct _) fun _ => .ite (fun _ => .pure (by simp)) fun _ => ?_
    refine .skip silent_atEnd fun _ => .check fun _ => ?_
    exact sound.statement.bind fun names t h => .pure (by simpa using h)
  refine .skip (silent_expectPunct _) fun _ => ?_
  refine (ensures_rounds item).bind fun names ts ⟨hn, hs, hk⟩ => ?_
  refine .skip silent_discard_next fun _ => .pure ⟨?_, shaped_of.2 ⟨hk, hs⟩, rfl⟩
  simp [hn, mentions_of, Node.parts, flatMap_inl]

theorem silent_varKind : Silent varKind := by
  refine .look fun found _ => ?_
  split
  · split
    · exact .skip silent_discard_next fun _ => .pure rfl
    · exact ensures_refuse
  · exact ensures_refuse

/-- What holds of a declared name with its value. -/
def GoodDeclarator (d : Declarator Reading String) : Prop :=
  IsName d.name ∧ ∀ e ∈ d.init, e.Shaped ∧ e.IsExpr

/-- The names of a declared name with its value. -/
def declaratorNames (d : Declarator Reading String) : List String :=
  d.parts.flatMap (Sum.elim mentions fun name => [name])

theorem ensures_declarator (sound : inner.Sound) {noIn : Bool} {name : String} (hx : IsName name) :
    Ensures (declarator inner noIn name) fun names d =>
      name :: names = declaratorNames d ∧ GoodDeclarator d := by
  refine .skip (silent_eatPunct _) fun _ => .ite (fun _ => ?_) fun _ => .pure ?_
  · refine (sound.assignment noIn).bind fun names e ⟨hn, he⟩ => .pure ?_
    simpa [hn, declaratorNames, Declarator.parts, GoodDeclarator] using ⟨hx, he⟩
  · simpa [declaratorNames, Declarator.parts, GoodDeclarator] using hx

theorem ensures_furtherItem {α : Type} {item : Read α} {names : α → List String} {good : α → Prop}
    (h : Ensures item fun new a => new = names a ∧ good a) :
    Ensures (furtherItem item) fun new found =>
      new = found.toList.flatMap names ∧ ∀ a ∈ found, good a := by
  refine .skip (silent_eatPunct _) fun _ => .ite (fun _ => ?_) fun _ => .pure (by simp)
  exact h.bind fun new a ha => .pure (by simpa using ha)

theorem ensures_namedDeclarator (sound : inner.Sound) {noIn : Bool} :
    Ensures (do declarator inner noIn (← identifier)) fun names d =>
      names = declaratorNames d ∧ GoodDeclarator d := by
  refine ensures_identifier.bind fun names w ⟨hn, hw⟩ => ?_
  exact (ensures_declarator sound hw).mono fun more d h => by simpa [hn] using h

theorem ensures_declaredName (sound : inner.Sound) :
    Ensures (declaredName inner) fun names d => names = declaratorNames d ∧ GoodDeclarator d :=
  .skip (silent_isPunct _) fun _ => .skip (silent_isPunct _) fun _ =>
    .guard (ensures_namedDeclarator sound)

/-- A declaration of names that were read. -/
theorem declared (kind : VarKind) {d : Declarator Reading String}
    {ds : List (Declarator Reading String)} (h : ∀ e ∈ d :: ds, GoodDeclarator e) :
    (d :: ds).flatMap declaratorNames = (of (.varDecl kind (d :: ds))).mentions ∧
      (of (.varDecl kind (d :: ds))).Shaped := by
  refine ⟨by rw [mentions_of, Node.parts, List.flatMap_assoc]; rfl, shaped_of.2 ⟨⟨by simp, ?_⟩, ?_⟩⟩
  · exact fun e he => ⟨(h e he).1, fun i hi => ((h e he).2 i hi).2⟩
  · intro c hc
    obtain ⟨e, he, hi⟩ := List.mem_filterMap.1 hc
    exact ((h e he).2 c hi).1

theorem gives_varDecl (sound : inner.Sound) :
    Gives (varDecl inner) fun t => t.kind = .varDecl := by
  refine .skip silent_varKind fun kind => ?_
  refine (ensures_declaredName sound).bind fun names d ⟨hn, hd⟩ => ?_
  refine (ensures_many (ensures_furtherItem (ensures_declaredName sound))).bind
    fun more ds ⟨hm, hds⟩ => .pure ?_
  have h := declared kind (List.forall_mem_cons.2 ⟨hd, hds⟩)
  rw [List.append_nil, hn, hm, ← List.flatMap_cons]
  exact ⟨h.1, h.2, rfl⟩

theorem gives_functionDecl (sound : inner.Sound) : Gives (functionDecl inner) IsStmt := by
  refine .skip (silent_expectWord _) fun _ => .skip (silent_isPunct _) fun _ => .guard ?_
  refine ensures_identifier.bind fun names w ⟨hn, hw⟩ => ?_
  refine (ensures_functionParts sound).bind fun more (params, body) ⟨hm, hp, hb, hk⟩ => .pure ?_
  refine ⟨?_, shaped_of.2 ⟨⟨hw, hp, hk⟩, by simpa [Node.children] using hb⟩, rfl⟩
  simp [hn, hm, mentions_of, Node.parts, flatMap_inr]

/-- What holds of a method. -/
def GoodMethod (m : Method Reading String) : Prop :=
  IsWord m.name ∧ m.function.Shaped ∧ m.function.IsMethod

/-- The names of a method. -/
def methodNames (m : Method Reading String) : List String :=
  m.parts.flatMap (Sum.elim mentions fun name => [name])

theorem silent_atAccessor : Silent atAccessor := by
  refine .skip (silent_isWord _) fun _ => .skip (silent_isWord _) fun _ => .skip silent_second? ?_
  intro found
  split <;> exact .pure rfl

theorem ensures_method (sound : inner.Sound) :
    Ensures (method inner) fun names m => names = methodNames m ∧ GoodMethod m := by
  have behind : ∀ isStatic : Bool, Ensures (do
      if ← atAccessor then unsupported .accessor
      let name ← propertyName
      return ⟨name, isStatic, ← bareFunction inner⟩) fun names m =>
        names = methodNames m ∧ GoodMethod m := by
    intro isStatic
    refine .skip silent_atAccessor fun _ => .guard ?_
    refine ensures_propertyName.bind fun names w ⟨hn, hw⟩ => ?_
    refine (gives_bareFunction sound).bind fun more t ⟨hm, ht, hk⟩ => .pure ⟨?_, hw, ht, hk.1⟩
    simp [hn, hm, methodNames, Method.parts]
  refine .skip (silent_isWord _) fun _ => .skip silent_second? fun _ => ?_
  refine .ite (fun _ => ?_) fun _ => ?_
  · exact .skip silent_discard_next fun _ => behind _
  · exact behind _

theorem ensures_classItem (sound : inner.Sound) :
    Ensures (classItem inner) fun names found =>
      names = found.toList.flatMap (fun m => m.toList.flatMap methodNames) ∧
        ∀ m ∈ found, ∀ x ∈ m, GoodMethod x := by
  refine .skip (silent_eatPunct _) fun _ => .ite (fun _ => .pure (by simp)) fun _ => ?_
  refine .skip (silent_eatPunct _) fun _ => .ite (fun _ => .pure (by simp)) fun _ => ?_
  exact (ensures_method sound).bind fun names m h => .pure (by simpa using h)

theorem methodNames_filterMap (items : List (Option (Method Reading String))) :
    items.flatMap (fun m => m.toList.flatMap methodNames) =
      (items.filterMap id).flatMap methodNames := by
  induction items with
  | nil => rfl
  | cons m items ih =>
    rw [List.flatMap_cons, ih]
    cases m with
    | none => rfl
    | some m =>
      change _ = (m :: items.filterMap id).flatMap methodNames
      rw [List.flatMap_cons, Option.toList_some, List.flatMap_singleton]

theorem gives_classDecl (sound : inner.Sound) : Gives (classDecl inner) IsStmt := by
  have body : ∀ (name : String) (superclass : Option Reading), IsName name →
      (∀ e ∈ superclass, e.Shaped ∧ e.IsExpr) → Ensures (do
        expectPunct "\x7b"
        let items ← many (classItem inner)
        return of (.classDecl name superclass (items.filterMap id))) fun names t =>
          name :: (superclass.toList.flatMap mentions ++ names) = t.mentions ∧ t.Shaped ∧
            t.IsStmt := by
    intro name superclass hx he
    refine .skip (silent_expectPunct _) fun _ => ?_
    refine (ensures_many (ensures_classItem sound)).bind ?_
    rintro names items ⟨hn, hi⟩
    refine .pure ?_
    have good : ∀ m ∈ items.filterMap id, GoodMethod m := fun m hm => by
      obtain ⟨o, ho, rfl⟩ := List.mem_filterMap.1 hm
      exact hi _ ho m rfl
    refine ⟨?_, shaped_of.2 ⟨⟨hx, fun e hm => (he e hm).2, fun m hm => ?_⟩, fun c hc => ?_⟩, rfl⟩
    · rw [hn, methodNames_filterMap, mentions_of, Node.parts, List.flatMap_cons,
        List.flatMap_append, flatMap_inl, List.flatMap_assoc, List.append_nil]
      rfl
    · exact ⟨(good m hm).1, (good m hm).2.2⟩
    · rcases List.mem_append.1 hc with hc | hc
      · exact (he c (by simpa using hc)).1
      · obtain ⟨m, hm, rfl⟩ := List.mem_map.1 hc
        exact (good m hm).2.1
  refine .skip (silent_expectWord _) fun _ => ensures_identifier.bind ?_
  rintro names w ⟨hn, hw⟩
  refine .skip (silent_eatWord _) fun _ => .ite (fun _ => ?_) fun _ => ?_
  · refine ((gives_access sound).map (f := some) (Q := fun more found =>
      more = found.toList.flatMap mentions ∧ ∀ e ∈ found, e.Shaped ∧ e.IsExpr)
      fun more e h => by simpa using h).bind ?_
    rintro more found ⟨hm, he⟩
    exact (body w found hw he).mono fun most t h => by simpa [hn, hm] using h
  · exact (body w none hw (by simp)).mono fun most t h => by simpa [hn] using h

/-! ## Choices -/

theorem gives_ifStmt (sound : inner.Sound) : Gives (ifStmt inner) IsStmt := by
  refine .skip (silent_expectWord _) fun _ => ?_
  refine (gives_parenthesized sound).bind fun names test ⟨hn, ht, hk⟩ => ?_
  refine sound.statement.bind fun more consequent ⟨hm, hc, hkc⟩ => ?_
  refine .skip (silent_eatWord _) fun _ => .ite (fun _ => ?_) fun _ => .pure ?_
  · refine (sound.statement.map (f := some) (Q := fun more found => ∃ t, found = some t ∧
      more = t.mentions ∧ t.Shaped ∧ t.IsStmt) fun more t h => ⟨t, rfl, h⟩).bind ?_
    rintro most _ ⟨t, rfl, hmm, ha, hka⟩
    refine .pure ⟨?_, shaped_of.2 ⟨⟨hk, hkc, by simpa using hka⟩, ?_⟩, rfl⟩
    · simp [hn, hm, hmm, mentions_of, Node.parts]
    · simpa [Node.children] using ⟨ht, hc, ha⟩
  · refine ⟨?_, shaped_of.2 ⟨⟨hk, hkc, by simp⟩, by simpa [Node.children] using ⟨ht, hc⟩⟩, rfl⟩
    simp [hn, hm, mentions_of, Node.parts]

theorem ensures_caseItem (sound : inner.Sound) :
    Ensures (caseItem inner) fun names found =>
      names = found.toList.flatMap mentions ∧ ∀ t ∈ found, t.Shaped ∧ t.IsStmt := by
  refine .skip (silent_isWord _) fun _ => .skip (silent_isWord _) fun _ =>
    .skip (silent_isPunct _) fun _ => .ite (fun _ => .pure (by simp)) fun _ => ?_
  refine .skip silent_atEnd fun _ => .check fun _ => ?_
  exact sound.statement.bind fun names t h => .pure (by simpa using h)

theorem ensures_caseLabel (sound : inner.Sound) :
    Ensures (caseLabel inner) fun names found =>
      names = found.toList.flatMap mentions ∧ ∀ t ∈ found, t.Shaped ∧ t.IsExpr := by
  refine .skip (silent_eatWord _) fun _ => .ite (fun _ => ?_) fun _ => ?_
  · exact (sound.expression false).bind fun names t h => .pure (by simpa using h)
  · exact .skip (silent_eatWord _) fun _ => .ite (fun _ => .pure (by simp)) fun _ => ensures_refuse

theorem ensures_switchCase (sound : inner.Sound) :
    Ensures (switchCase inner) fun names found =>
      names = found.toList.flatMap mentions ∧ ∀ t ∈ found, t.Shaped ∧ t.kind = .switchCase := by
  refine .skip (silent_eatPunct _) fun _ => .ite (fun _ => .pure (by simp)) fun _ => ?_
  refine (ensures_caseLabel sound).bind fun names test ⟨hn, ht⟩ => ?_
  refine .skip (silent_expectPunct _) fun _ => ?_
  refine (ensures_rounds (ensures_caseItem sound)).bind fun more ts ⟨hm, hs, hk⟩ =>
    .pure (found_some ⟨?_, shaped_of.2 ⟨⟨fun e he => (ht e he).2, hk⟩, ?_⟩, rfl⟩)
  · simp [hn, hm, mentions_of, Node.parts, flatMap_inl]
  · intro c hc
    rcases List.mem_append.1 hc with hc | hc
    · exact (ht c (by simpa using hc)).1
    · exact hs c hc

theorem gives_switchStmt (sound : inner.Sound) : Gives (switchStmt inner) IsStmt := by
  refine .skip (silent_expectWord _) fun _ => ?_
  refine (gives_parenthesized sound).bind fun names e ⟨hn, he, hk⟩ => ?_
  refine .skip (silent_expectPunct _) fun _ => ?_
  refine (ensures_rounds (ensures_switchCase sound)).bind fun more ts ⟨hm, hs, hks⟩ =>
    .pure ⟨?_, shaped_of.2 ⟨⟨hk, hks⟩, List.forall_mem_cons.2 ⟨he, hs⟩⟩, rfl⟩
  simp [hn, hm, mentions_of, Node.parts, flatMap_inl]

/-- What holds of a clause that catches. -/
def GoodCatch (h : Catch Reading String) : Prop :=
  (∀ p ∈ h.param, IsName p) ∧ h.body.Shaped ∧ h.body.IsBlock

/-- The names of a clause that catches. -/
def catchNames (h : Catch Reading String) : List String :=
  h.parts.flatMap (Sum.elim mentions fun name => [name])

theorem ensures_catchClause (sound : inner.Sound) :
    Ensures (catchClause inner) fun names found =>
      names = found.toList.flatMap catchNames ∧ ∀ h ∈ found, GoodCatch h := by
  refine .skip (silent_eatWord _) fun _ => .ite (fun _ => ?_) fun _ => .pure (by simp)
  refine .skip (silent_eatPunct _) fun _ => .ite (fun _ => ?_) fun _ => ?_
  · refine ensures_identifier.bind fun names w ⟨hn, hw⟩ => .skip (silent_expectPunct _) fun _ => ?_
    refine sound.block.bind fun more t ⟨hm, ht, hk⟩ => .pure ?_
    simpa [hn, hm, catchNames, Catch.parts, GoodCatch] using ⟨hw, ht, hk⟩
  · refine sound.block.bind fun more t ⟨hm, ht, hk⟩ => .pure ?_
    simpa [hm, catchNames, Catch.parts, GoodCatch] using ⟨ht, hk⟩

theorem gives_tryStmt (sound : inner.Sound) : Gives (tryStmt inner) IsStmt := by
  have close : ∀ (body : Reading) (handler : Option (Catch Reading String))
      (finalizer : Option Reading), body.Shaped → body.IsBlock → (∀ h ∈ handler, GoodCatch h) →
      (∀ f ∈ finalizer, f.Shaped ∧ f.IsBlock) → Ensures (do
        if handler.isNone && finalizer.isNone then refuse .catchOrFinally
        return of (.tryStmt body handler finalizer)) fun names t =>
          body.mentions ++ (handler.toList.flatMap catchNames ++
            (finalizer.toList.flatMap mentions ++ names)) = t.mentions ∧ t.Shaped ∧ t.IsStmt := by
    intro body handler finalizer hb hk hh hf
    refine .check fun hne => .pure ?_
    refine ⟨?_, shaped_of.2 ⟨⟨hk, ?_, fun f hm => (hf f hm).2, ?_⟩, ?_⟩, rfl⟩
    · rw [mentions_of, Node.parts, List.flatMap_cons, List.flatMap_append, flatMap_inl,
        List.flatMap_assoc, List.append_nil]
      rfl
    · exact fun h hm => ⟨(hh h hm).1, (hh h hm).2.2⟩
    · cases handler <;> cases finalizer <;> simp_all
    · intro c hc
      simp only [Node.children, List.mem_cons, List.mem_append, Option.mem_toList,
        Option.map_eq_some_iff] at hc
      rcases hc with rfl | ⟨h, hm, rfl⟩ | hc
      · exact hb
      · exact (hh h hm).2.1
      · exact (hf c hc).1
  refine .skip (silent_expectWord _) fun _ => sound.block.bind ?_
  rintro names body ⟨hn, hb, hk⟩
  refine (ensures_catchClause sound).bind ?_
  rintro more handler ⟨hm, hh⟩
  refine .skip (silent_eatWord _) fun _ => .ite (fun _ => ?_) fun _ => ?_
  · refine (sound.block.map (f := some) (Q := fun more found =>
      more = found.toList.flatMap mentions ∧ ∀ f ∈ found, f.Shaped ∧ f.IsBlock)
      fun more e h => by simpa using h).bind ?_
    rintro most finalizer ⟨hmm, hf⟩
    exact (close body handler finalizer hb hk hh hf).mono fun _ t h => by
      simpa [hn, hm, hmm] using h
  · exact (close body handler none hb hk hh (by simp)).mono fun _ t h => by
      simpa [hn, hm] using h

/-! ## Loops -/

theorem silent_atEach : Silent atEach :=
  .skip (silent_isWord _) fun _ => .skip (silent_isWord _) fun _ => .pure rfl

/-- What holds of the start of a `for` and of the names in it. -/
def GoodHead (names : List String) : ForHead → Prop
  | .each left => names = left.mentions ∧ left.Shaped ∧ left.IsForLeft
  | .start init =>
    names = init.toList.flatMap mentions ∧ ∀ e ∈ init, e.Shaped ∧ e.IsForStart

theorem ensures_forVarHead (sound : inner.Sound) : Ensures (forVarHead inner) GoodHead := by
  refine .skip silent_varKind fun kind => ensures_identifier.bind fun names w ⟨hn, hw⟩ => ?_
  refine .skip silent_atEach fun _ => .ite (fun _ => .pure ?_) fun _ => ?_
  · refine ⟨by simp [hn, mentions_of, Node.parts, Declarator.parts], shaped_of.2 ⟨?_, ?_⟩,
      .inr ⟨kind, w, rfl⟩⟩
    · simpa [Node.Shaped] using hw
    · simp [Node.children]
  · refine (ensures_declarator sound hw).bind ?_
    rintro more d ⟨hm, hd⟩
    refine (ensures_many (ensures_furtherItem (ensures_namedDeclarator sound))).bind ?_
    rintro most ds ⟨hmm, hds⟩
    refine .pure ?_
    have h := declared kind (List.forall_mem_cons.2 ⟨hd, hds⟩)
    refine ⟨?_, fun e he => ?_⟩
    · rw [List.append_nil, hn, hmm, ← List.append_assoc, List.singleton_append, hm,
        ← List.flatMap_cons, h.1]
      simp
    · obtain rfl := Option.some.inj he
      exact ⟨h.2, .inr rfl⟩

theorem ensures_forHead (sound : inner.Sound) : Ensures (forHead inner) GoodHead := by
  refine .skip (silent_isPunct _) fun _ => .ite (fun _ => .pure (by simp [GoodHead])) fun _ => ?_
  refine .skip silent_lexeme? fun _ => ?_
  split
  · exact ensures_forVarHead sound
  · exact ensures_forVarHead sound
  · exact ensures_forVarHead sound
  · refine (sound.expression true).bind fun names e ⟨hn, he, hk⟩ => ?_
    refine .skip silent_atEach fun _ => .ite (fun _ => .pure ?_) fun _ => .pure ?_
    · exact ⟨by simp [hn], he, .inl hk⟩
    · exact ⟨by simp [hn], fun t ht => Option.some.inj ht ▸ ⟨he, .inl hk⟩⟩

theorem gives_forEach (sound : inner.Sound) {left : Reading} (hl : left.Shaped)
    (hk : left.IsForLeft) :
    Ensures (forEach inner left) fun names t =>
      left.mentions ++ names = t.mentions ∧ t.Shaped ∧ t.IsStmt := by
  have behind : ∀ (isOf : Bool) (right : Reading), right.Shaped → right.IsExpr → Ensures (do
      expectPunct ")"
      let body ← inner.statement
      return of (if isOf then .forOf left right body else .forIn left right body)) fun names t =>
        left.mentions ++ (right.mentions ++ names) = t.mentions ∧ t.Shaped ∧ t.IsStmt := by
    intro isOf right hr hkr
    refine .skip (silent_expectPunct _) fun _ => ?_
    refine sound.statement.bind ?_
    rintro names body ⟨hn, hb, hkb⟩
    refine .pure ?_
    cases isOf <;>
      exact ⟨by simp [hn, mentions_of, Node.parts],
        shaped_of.2 ⟨⟨hk, hkr, hkb⟩, by simpa [Node.children] using ⟨hl, hr, hb⟩⟩, rfl⟩
  refine .skip (silent_isWord _) fun isOf => .skip silent_discard_next fun _ => ?_
  refine .ite (fun _ => ?_) fun _ => ?_
  · refine (sound.assignment false).bind ?_
    rintro names right ⟨hn, hr, hkr⟩
    exact (behind isOf right hr hkr).mono fun more t h => by simpa [hn] using h
  · refine (sound.expression false).bind ?_
    rintro names right ⟨hn, hr, hkr⟩
    exact (behind isOf right hr hkr).mono fun more t h => by simpa [hn] using h

theorem ensures_forPart (sound : inner.Sound) {close : String} :
    Ensures (forPart inner close) fun names found =>
      names = found.toList.flatMap mentions ∧ ∀ t ∈ found, t.Shaped ∧ t.IsExpr := by
  refine .skip (silent_isPunct _) fun _ => .ite (fun _ => .pure (by simp)) fun _ => ?_
  exact (sound.expression false).bind fun names t h => .pure (by simpa using h)

theorem gives_forStmt (sound : inner.Sound) : Gives (forStmt inner) IsStmt := by
  refine .skip (silent_expectWord _) fun _ => .skip (silent_isWord _) fun _ => .guard ?_
  refine .skip (silent_expectPunct _) fun _ => ?_
  refine (ensures_forHead sound).bind fun names head hh => ?_
  rcases head with left | init
  · obtain ⟨hn, hl, hk⟩ := hh
    exact hn ▸ gives_forEach sound hl hk
  · obtain ⟨hn, hi⟩ := hh
    refine .skip (silent_expectPunct _) fun _ => ?_
    refine (ensures_forPart sound).bind fun more test ⟨hm, ht⟩ => ?_
    refine .skip (silent_expectPunct _) fun _ => ?_
    refine (ensures_forPart sound).bind fun most step ⟨hmm, hs⟩ => ?_
    refine .skip (silent_expectPunct _) fun _ => ?_
    refine sound.statement.bind fun last body ⟨hl, hb, hk⟩ => .pure ?_
    refine ⟨?_, shaped_of.2 ⟨⟨?_, ?_, ?_, hk⟩, ?_⟩, rfl⟩
    · simp [hn, hm, hmm, hl, mentions_of, Node.parts, flatMap_inl]
    · exact fun e he => (hi e he).2
    · exact fun e he => (ht e he).2
    · exact fun e he => (hs e he).2
    · intro c hc
      simp only [Node.children, List.mem_append, Option.mem_toList, List.mem_singleton] at hc
      rcases hc with hc | hc | hc | rfl
      · exact (hi c hc).1
      · exact (ht c hc).1
      · exact (hs c hc).1
      · exact hb

theorem gives_whileStmt (sound : inner.Sound) : Gives (whileStmt inner) IsStmt := by
  refine .skip (silent_expectWord _) fun _ => ?_
  refine (gives_parenthesized sound).bind fun names test ⟨hn, ht, hk⟩ => ?_
  refine sound.statement.bind fun more body ⟨hm, hb, hkb⟩ => .pure ?_
  refine ⟨?_, shaped_of.2 ⟨⟨hk, hkb⟩, ?_⟩, rfl⟩
  · simp [hn, hm, mentions_of, Node.parts]
  · simpa [Node.children] using ⟨ht, hb⟩

theorem gives_doWhile (sound : inner.Sound) : Gives (doWhile inner) IsStmt := by
  refine .skip (silent_expectWord _) fun _ => ?_
  refine sound.statement.bind fun names body ⟨hn, hb, hkb⟩ => ?_
  refine .skip (silent_expectWord _) fun _ => ?_
  refine (gives_parenthesized sound).bind fun more test ⟨hm, ht, hk⟩ => ?_
  refine .skip ((silent_eatPunct _).map fun _ _ h => h) fun _ =>
    .pure ⟨?_, shaped_of.2 ⟨⟨hk, hkb⟩, ?_⟩, rfl⟩
  · simp [hn, hm, mentions_of, Node.parts]
  · simpa [Node.children] using ⟨hb, ht⟩

theorem gives_withStmt (sound : inner.Sound) : Gives (withStmt inner) IsStmt := by
  refine .skip (silent_expectWord _) fun _ => ?_
  refine (gives_parenthesized sound).bind fun names scope ⟨hn, hs, hk⟩ => ?_
  refine sound.statement.bind fun more body ⟨hm, hb, hkb⟩ => .pure ?_
  refine ⟨?_, shaped_of.2 ⟨⟨hk, hkb⟩, ?_⟩, rfl⟩
  · simp [hn, hm, mentions_of, Node.parts]
  · simpa [Node.children] using ⟨hs, hb⟩

/-! ## Transfers of control -/

theorem gives_transfer {node : Node Reading String} (hp : node.parts = []) (hs : node.Shaped)
    (hk : node.kind.isStatement) : Gives (transfer node) IsStmt := by
  have close : Ensures (do semicolon; return of node) fun names t =>
      names = t.mentions ∧ t.Shaped ∧ t.IsStmt := by
    refine .skip silent_semicolon fun _ => .pure ?_
    refine ⟨by simp [mentions_of, hp], shaped_of.2 ⟨hs, ?_⟩, hk⟩
    simp [Node.children_eq_lefts, hp, lefts]
  refine .skip silent_discard_next fun _ => .skip silent_lexeme? fun _ => ?_
  split
  · refine .skip silent_newlineAhead fun _ => .ite (fun _ => close) fun _ => ?_
    exact ensures_unsupported.bind (P := fun _ _ => False) fun _ _ => False.elim
  · exact close

theorem gives_returnStmt (sound : inner.Sound) : Gives (returnStmt inner) IsStmt := by
  have close : ∀ arg : Option Reading, (∀ e ∈ arg, e.Shaped ∧ e.IsExpr) → Ensures (do
      semicolon
      return of (.returnStmt arg)) fun names t =>
        arg.toList.flatMap mentions ++ names = t.mentions ∧ t.Shaped ∧ t.IsStmt := by
    intro arg he
    refine .skip silent_semicolon fun _ => .pure ?_
    refine ⟨?_, shaped_of.2 ⟨fun e hm => (he e hm).2, ?_⟩, rfl⟩
    · simp [mentions_of, Node.parts, flatMap_inl]
    · exact fun c hc => (he c (by simpa [Node.children] using hc)).1
  refine .skip (silent_expectWord _) fun _ => .skip silent_atStatementEnd fun _ => ?_
  refine .ite (fun _ => ?_) fun _ => ?_
  · exact close none (by simp)
  · refine ((sound.expression false).map (f := some) (Q := fun more found =>
      more = found.toList.flatMap mentions ∧ ∀ e ∈ found, e.Shaped ∧ e.IsExpr)
      fun more e h => by simpa using h).bind ?_
    rintro names arg ⟨hn, he⟩
    exact hn ▸ close arg he

theorem gives_throwStmt (sound : inner.Sound) : Gives (throwStmt inner) IsStmt := by
  refine .skip (silent_expectWord _) fun _ => ?_
  refine (sound.expression false).bind fun names e ⟨hn, he, hk⟩ => ?_
  refine .skip silent_semicolon fun _ => .pure ⟨?_, shaped_of.2 ⟨hk, ?_⟩, rfl⟩
  · simp [hn, mentions_of, Node.parts]
  · simpa [Node.children] using he

/-! ## Statements -/

theorem gives_exprStmt (sound : inner.Sound) : Gives (exprStmt inner) IsStmt := by
  refine (gives_expression sound).bind fun names e ⟨hn, he, hk⟩ => ?_
  refine .skip silent_semicolon fun _ => .pure ⟨?_, shaped_of.2 ⟨hk, ?_⟩, rfl⟩
  · simp [hn, mentions_of, Node.parts]
  · simpa [Node.children] using he

theorem gives_varStmt (sound : inner.Sound) : Gives (varStmt inner) IsStmt := by
  refine (gives_varDecl sound).bind fun names e ⟨hn, he, hk⟩ => ?_
  refine .skip silent_semicolon fun _ => .pure ?_
  exact ⟨by simp [hn], he, by rw [IsStmt, hk]; rfl⟩

theorem gives_wordStatement (sound : inner.Sound) (word : String) :
    Gives (wordStatement inner word) IsStmt := by
  unfold wordStatement
  split
  · exact gives_varStmt sound
  · exact gives_varStmt sound
  · exact gives_varStmt sound
  · exact gives_functionDecl sound
  · exact gives_classDecl sound
  · exact gives_ifStmt sound
  · exact gives_forStmt sound
  · exact gives_whileStmt sound
  · exact gives_doWhile sound
  · exact gives_switchStmt sound
  · exact gives_withStmt sound
  · exact gives_transfer rfl trivial rfl
  · exact gives_transfer rfl trivial rfl
  · exact gives_returnStmt sound
  · exact gives_throwStmt sound
  · exact gives_tryStmt sound
  · exact ensures_unsupported
  · exact ensures_unsupported
  · exact ensures_unsupported
  · exact gives_exprStmt sound

theorem gives_statement (sound : inner.Sound) : Gives (statement inner) IsStmt := by
  refine .skip silent_lexeme? fun _ => ?_
  split
  · refine (gives_block sound).mono fun names t ⟨hn, ht, hk⟩ => ⟨hn, ht, ?_⟩
    rw [IsStmt, show t.kind = .block from hk]
    rfl
  · refine .skip silent_discard_next fun _ => .pure ⟨by simp [mentions_of, Node.parts], ?_, rfl⟩
    exact shaped_of.2 ⟨trivial, by simp [Node.children]⟩
  · exact gives_wordStatement sound _
  · exact gives_exprStmt sound

/-- The rules of every depth give trees of their classes. -/
theorem rules_sound (depth : Nat) : (rules depth).Sound := by
  induction depth with
  | zero =>
    exact ⟨ensures_tooDeep, ensures_tooDeep, fun _ => ensures_tooDeep, fun _ => ensures_tooDeep,
      fun _ _ => ensures_tooDeep, ensures_tooDeep, ensures_tooDeep⟩
  | succ depth ih =>
    exact ⟨gives_statement ih, gives_block ih, fun _ => gives_expression ih,
      fun _ => gives_assignment ih, fun _ _ => gives_binary ih, gives_unary ih,
      gives_construction ih⟩

end Grammar

end Graft
