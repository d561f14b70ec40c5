import Graft.Proofs.Reading.Trace

/-!
# The expressions that the grammar gives

Every rule of the grammar gives trees of the shape that the grammar asks for, and mentions exactly
the names of the tree that it gives, in source order. What is nested is read by the rules of the
next depth, so that all rules are followed once, under the assumption that the nested ones do the
same.

* `Rules.Sound` - what is asked of the nested rules
* `gives_expression` - the loosest level, which rests on all others
-/

namespace Graft

open Read Graft.Tree
open Reading (of)

namespace Read

/-- A reader whose trees are shaped, whose names are those of the tree and whose tree is of a
class. -/
def Gives (p : Read Reading) (good : Reading → Prop) : Prop :=
  Ensures p fun names t => names = t.mentions ∧ t.Shaped ∧ good t

end Read

/-- Rules that give trees of their classes. -/
structure Rules.Sound (r : Rules) : Prop where
  statement : Gives r.statement IsStmt
  block : Gives r.block IsBlock
  expression : ∀ noIn, Gives (r.expression noIn) IsExpr
  assignment : ∀ noIn, Gives (r.assignment noIn) IsExpr
  binary : ∀ noIn level, Gives (r.binary noIn level) IsExpr
  unary : Gives r.unary IsExpr
  construction : Gives r.construction IsExpr

namespace Reading

variable {node : Node Reading String}

theorem mentions_of :
    (of node).mentions = node.parts.flatMap (Sum.elim mentions fun name => [name]) :=
  mentions_mk () node

theorem shaped_of : (of node).Shaped ↔ node.Shaped ∧ ∀ c ∈ node.children, c.Shaped :=
  shaped_mk

theorem flatMap_inl (ts : List Reading) :
    (ts.map .inl).flatMap (Sum.elim mentions fun name => [name]) = ts.flatMap mentions :=
  List.flatMap_map _ _ _

theorem flatMap_inr (names : List String) :
    (names.map .inr).flatMap (Sum.elim (mentions (τ := Unit)) fun name => [name]) = names := by
  rw [List.flatMap_map]
  exact List.flatMap_singleton' names

end Reading

namespace Grammar

open Reading

variable {inner : Rules}

/-! ## Names and functions -/

theorem ensures_identifier : Ensures identifier fun names w => names = [w] ∧ IsName w := by
  refine .look fun found hf => ?_
  split
  · rename_i w
    refine .check fun hr => .skip silent_discard_next fun _ => .named (.pure ⟨rfl, hf _ rfl, ?_⟩)
    simpa using hr
  · exact ensures_refuse

theorem ensures_propertyName : Ensures propertyName fun names w => names = [w] ∧ IsWord w := by
  refine .look fun found hf => ?_
  split
  · exact .skip silent_discard_next fun _ => .named (.pure ⟨rfl, hf _ rfl⟩)
  · exact ensures_refuse

theorem ensures_parameter : Ensures parameter fun names w => names = [w] ∧ IsName w := by
  refine .skip (silent_isPunct _) fun _ => .guard (ensures_identifier.bind fun names w h => ?_)
  exact .skip (silent_isPunct _) fun _ => .guard (.pure (by simpa using h))

/-- The names of parameters in a row are the parameters themselves. -/
theorem ensures_names {close : String} {item : Read String}
    (h : Ensures item fun names w => names = [w] ∧ IsName w) :
    Ensures (commaList close item) fun names ws => names = ws ∧ ∀ w ∈ ws, IsName w :=
  (ensures_commaList h).mono fun names ws h => ⟨by rw [h.1, List.flatMap_singleton'], h.2⟩

theorem ensures_functionParts (sound : inner.Sound) :
    Ensures (functionParts inner) fun names (params, body) =>
      names = params ++ body.mentions ∧ (∀ p ∈ params, IsName p) ∧ body.Shaped ∧ body.IsBlock := by
  refine .skip (silent_expectPunct _) fun _ => ?_
  refine (ensures_names ensures_parameter).bind fun names params ⟨hn, hp⟩ => ?_
  refine .skip (silent_expectPunct _) fun _ => sound.block.bind fun more body ⟨hm, hb⟩ => .pure ?_
  exact ⟨by rw [hn, hm, List.append_nil], hp, hb⟩

theorem gives_bareFunction (sound : inner.Sound) :
    Gives (bareFunction inner) fun t => t.IsMethod ∧ t.IsExpr := by
  refine (ensures_functionParts sound).bind fun names (params, body) ⟨hn, hp, hb, hk⟩ => .pure ?_
  refine ⟨?_, shaped_of.2 ⟨⟨by simp, hp, hk⟩, by simpa [Node.children] using hb⟩,
    ⟨params, body, rfl⟩, rfl⟩
  simp [hn, mentions_of, Node.parts, flatMap_inr]

/-! ## Operands -/

theorem ensures_arrowParameters :
    Ensures arrowParameters fun names found =>
      names = found.getD [] ∧ ∀ ps ∈ found, ∀ p ∈ ps, IsName p := by
  refine .look fun found hf => ?_
  split
  · refine .skip silent_second? fun _ => .ite (fun _ => ?_) fun _ => .pure (by simp)
    exact ensures_identifier.bind fun names w h => .pure (by simpa using h)
  · refine .skip silent_get fun c => .ite (fun _ => ?_) fun _ => .pure (by simp)
    refine .skip silent_discard_next fun _ => ?_
    have item : Ensures arrowParameter fun names w => names = [w] ∧ IsName w := by
      refine ensures_identifier.bind fun names w h => .skip (silent_isPunct _) fun _ => ?_
      exact .skip (silent_isPunct _) fun _ => .guard (.pure (by simpa using h))
    refine (ensures_names item).bind fun names ps ⟨hn, hp⟩ => ?_
    exact .skip (silent_expectPunct _) fun _ => .pure (by simpa [hn] using hp)
  · exact .pure (by simp)

theorem gives_arrowBody (sound : inner.Sound) {noIn : Bool} {params : List String}
    (hp : ∀ p ∈ params, IsName p) :
    Ensures (arrowBody inner noIn params) fun names t =>
      params ++ names = t.mentions ∧ t.Shaped ∧ t.IsExpr := by
  refine .skip (silent_expectPunct _) fun _ => .skip (silent_isPunct _) fun _ => .ite (fun _ => ?_)
    fun _ => ?_
  · refine sound.block.bind fun names body ⟨hn, hb, hk⟩ => .pure ?_
    refine ⟨?_, shaped_of.2 ⟨⟨hp, hk⟩, ?_⟩, rfl⟩
    · simp [hn, mentions_of, Node.parts, flatMap_inr]
    · simpa [Node.children] using hb
  · refine (sound.assignment noIn).bind ?_
    rintro names body ⟨hn, hb, hk⟩
    refine .pure ⟨?_, shaped_of.2 ⟨⟨hp, hk⟩, ?_⟩, rfl⟩
    · simp [hn, mentions_of, Node.parts, flatMap_inr]
    · simpa [Node.children] using hb

/-- A list of trees that were read. -/
theorem ensures_trees {close : String} {item : Read Reading} {good : Reading → Prop}
    (h : Gives item good) :
    Ensures (commaList close item) fun names ts =>
      names = ts.flatMap mentions ∧ (∀ t ∈ ts, t.Shaped) ∧ ∀ t ∈ ts, good t :=
  (ensures_commaList h).mono fun _ _ ⟨hn, ht⟩ =>
    ⟨hn, fun t hm => (ht t hm).1, fun t hm => (ht t hm).2⟩

theorem gives_array (sound : inner.Sound) : Gives (array inner) IsExpr := by
  have item : Gives (arrayItem inner) IsExpr :=
    .skip (silent_isPunct _) fun _ => .guard (.skip (silent_isPunct _) fun _ =>
      .guard (sound.assignment false))
  refine (ensures_trees item).bind fun names ts ⟨hn, hs, hk⟩ => ?_
  refine .skip (silent_expectPunct _) fun _ => .pure ⟨?_, shaped_of.2 ⟨hk, hs⟩, rfl⟩
  simp [hn, mentions_of, Node.parts, flatMap_inl]

theorem gives_propertyValue (sound : inner.Sound) {shorthand : Option String} :
    Ensures (propertyValue inner shorthand) fun names t =>
      (names = t.mentions ∨ names = [] ∧ ∃ w ∈ shorthand, t = of (.ident w)) ∧
        ((∀ w ∈ shorthand, IsName w) → t.Shaped) ∧ t.IsExpr := by
  refine .skip (silent_eatPunct _) fun _ => .ite (fun _ => ?_) fun _ => ?_
  · exact (sound.assignment false).mono fun names t h => ⟨.inl h.1, fun _ => h.2.1, h.2.2⟩
  · refine .skip (silent_isPunct _) fun _ => .ite (fun _ => ?_) fun _ => ?_
    · exact (gives_bareFunction sound).mono fun names t h => ⟨.inl h.1, fun _ => h.2.1, h.2.2.2⟩
    · rcases shorthand with _ | w
      · exact ensures_refuse
      · refine .pure ⟨.inr ⟨rfl, w, rfl, rfl⟩, fun hw => shaped_of.2 ⟨hw w rfl, ?_⟩, rfl⟩
        simp [Node.children]

/-- A property that stands for a name and its value mentions the name once, which is as good as
mentioning it twice. -/
theorem ensures_property (sound : inner.Sound) :
    Ensures (property inner) fun names p =>
      names = p.parts.flatMap (Sum.elim mentions fun name => [name]) ∧
        p.value.Shaped ∧ p.key.Spelled ∧ p.value.IsExpr := by
  refine .skip (.skip (silent_isWord _) fun _ => .skip (silent_isWord _) fun _ => ?_) fun _ =>
    .guard (.take fun spot hs => ?_)
  · refine .skip silent_second? fun _ => ?_
    split <;> exact .pure rfl
  split
  · rename_i w hw
    have hword : IsWord w := hs _ hw
    refine .same (P := fun names p => ∃ value, p = ⟨.word w, value⟩ ∧
      (names = w :: value.mentions ∨ names = [w] ∧ value = of (.ident w)) ∧
      value.Shaped ∧ value.IsExpr) (.named ?_) ?_
    · refine (gives_propertyValue sound).bind fun names value ⟨hn, hv, he⟩ => .pure ?_
      refine ⟨value, rfl, ?_, hv fun x hx => ?_, he⟩
      · rcases hn with rfl | ⟨rfl, x, hx, rfl⟩
        · simp
        · refine .inr ⟨rfl, ?_⟩
          split at hx
          · cases hx
          · rw [Option.some.inj hx]
      · split at hx
        · cases hx
        · obtain rfl := Option.some.inj hx
          exact ⟨hword, by simpa using ‹¬ isReserved w = true›⟩
    · rintro names _ ⟨value, rfl, rfl | ⟨rfl, rfl⟩, hv, he⟩
      · exact ⟨_, fun _ => rfl, by simp [Property.parts, Key.parts], hv, hword, he⟩
      · refine ⟨_, fun known => ?_, rfl, hv, hword, he⟩
        exact (Names.mentionAll_of_subset (l := [w]) (by simp [mentions_of, Node.parts])).symm
  · rename_i raw hw
    refine (gives_propertyValue sound).bind ?_
    rintro names value ⟨hn, hv, he⟩
    exact .pure ⟨by simpa [Property.parts, Key.parts] using hn, hv (by simp), hs _ hw, he⟩
  · rename_i raw hw
    refine (gives_propertyValue sound).bind ?_
    rintro names value ⟨hn, hv, he⟩
    exact .pure ⟨by simpa [Property.parts, Key.parts] using hn, hv (by simp), hs _ hw, he⟩
  · exact .throw
  · exact .throw
  · exact ensures_refuseAt

theorem gives_object (sound : inner.Sound) : Gives (object inner) IsExpr := by
  refine (ensures_commaList (ensures_property sound)).bind fun names ps ⟨hn, hp⟩ => ?_
  refine .skip (silent_expectPunct _) fun _ =>
    .pure ⟨?_, shaped_of.2 ⟨fun p hm => (hp p hm).2, fun c hc => ?_⟩, rfl⟩
  · simp [hn, mentions_of, Node.parts, List.flatMap_assoc]
  · obtain ⟨p, hm, rfl⟩ := List.mem_map.1 hc
    exact (hp p hm).1

theorem gives_functionExpr (sound : inner.Sound) : Gives (functionExpr inner) IsExpr := by
  have parts : ∀ name : Option String, (∀ x ∈ name, IsName x) → Ensures (do
      let (params, body) ← functionParts inner
      return of (.functionExpr name params body)) fun names t =>
        name.toList ++ names = t.mentions ∧ t.Shaped ∧ t.IsExpr := by
    intro name hx
    refine (ensures_functionParts sound).bind fun names (params, body) ⟨hn, hp, hb, hk⟩ => .pure ?_
    refine ⟨?_, shaped_of.2 ⟨⟨hx, hp, hk⟩, by simpa [Node.children] using hb⟩, rfl⟩
    simp [hn, mentions_of, Node.parts, flatMap_inr]
  refine .skip (silent_isPunct _) fun _ => .guard (.skip (silent_isPunct _) fun _ => ?_)
  refine .ite (fun _ => ?_) fun _ => ?_
  · exact parts none (by simp)
  · refine (ensures_identifier.map (f := some) (Q := fun names name =>
      names = name.toList ∧ ∀ x ∈ name, IsName x) fun names w h => ?_).bind fun names name h => ?_
    · simpa using h
    · exact h.1 ▸ parts name h.2

theorem gives_wordOperand (sound : inner.Sound) {spot : Spot} {word : String} (hw : IsWord word) :
    Gives (wordOperand inner spot word) IsExpr := by
  have leaf : ∀ node : Node Reading String, node.parts = [] → node.Shaped → node.kind.isExpression →
      Gives (pure (of node)) IsExpr := by
    intro node hp hs hk
    refine .pure ⟨by simp [mentions_of, hp], shaped_of.2 ⟨hs, ?_⟩, hk⟩
    simp [Node.children_eq_lefts, hp, lefts]
  unfold wordOperand
  split
  · exact leaf _ rfl trivial rfl
  · exact leaf _ rfl trivial rfl
  · exact leaf _ rfl trivial rfl
  · exact leaf _ rfl trivial rfl
  · exact gives_functionExpr sound
  · exact .throw
  · exact .throw
  · refine .ite (fun _ => ensures_refuseAt.bind (P := fun _ _ => False) fun _ _ => False.elim)
      fun hr => .named (.pure ?_)
    refine ⟨?_, shaped_of.2 ⟨⟨hw, by simpa using hr⟩, by simp [Node.children]⟩, rfl⟩
    simp [mentions_of, Node.parts]

theorem gives_primary (sound : inner.Sound) : Gives (primary inner) IsExpr := by
  have leaf : ∀ value : Literal, value.Spelled → Gives (pure (of (.literal value))) IsExpr :=
    fun value hv => .pure ⟨by simp [mentions_of, Node.parts],
      shaped_of.2 ⟨hv, by simp [Node.children]⟩, rfl⟩
  refine .take fun spot hs => ?_
  split
  · exact gives_wordOperand sound (hs _ ‹_›)
  · exact leaf (.number _) (show (Lexeme.number _).Spelled from hs _ ‹_›)
  · exact leaf (.quoted _) (show (Lexeme.quoted _).Spelled from hs _ ‹_›)
  · refine (sound.expression false).bind fun names e he => ?_
    refine .skip (silent_expectPunct _) fun _ => .pure ?_
    simpa using he
  · exact gives_array sound
  · exact gives_object sound
  · exact .throw
  · exact .throw
  · exact ensures_refuseAt

/-! ## Members, calls and constructions -/

theorem ensures_arguments (sound : inner.Sound) :
    Ensures (arguments inner) fun names ts =>
      names = ts.flatMap mentions ∧ (∀ t ∈ ts, t.Shaped) ∧ ∀ t ∈ ts, t.IsExpr := by
  have item : Gives (argument inner) IsExpr :=
    .skip (silent_isPunct _) fun _ => .guard (sound.assignment false)
  refine .skip (silent_expectPunct _) fun _ => (ensures_trees item).bind fun names ts h => ?_
  exact .skip (silent_expectPunct _) fun _ => .pure (by simpa using h)

/-- What holds while a tree grows at its end. -/
def Grown (base : Reading) (names : List String) (found : Option Reading) : Prop :=
  (found = none → names = []) ∧
    ∀ t ∈ found, base.mentions ++ names = t.mentions ∧ t.Shaped ∧ t.IsExpr

theorem grown_some {base t : Reading} {names : List String}
    (h : base.mentions ++ names = t.mentions ∧ t.Shaped ∧ t.IsExpr) : Grown base names (some t) :=
  ⟨by simp, fun _ ht => Option.some.inj ht ▸ h⟩

theorem grown_none (base : Reading) : Grown base [] none :=
  ⟨fun _ => rfl, by simp⟩

theorem ensures_memberSuffix (sound : inner.Sound) {base : Reading} (hb : base.Shaped)
    (hk : base.IsExpr) : Ensures (memberSuffix inner base) (Grown base) := by
  refine .skip (silent_eatPunct _) fun _ => .ite (fun _ => ?_) fun _ => ?_
  · refine ensures_propertyName.bind fun names w ⟨hn, hw⟩ => .pure (grown_some ⟨?_, ?_, rfl⟩)
    · simp [hn, mentions_of, Node.parts]
    · exact shaped_of.2 ⟨⟨hk, hw⟩, by simpa [Node.children] using hb⟩
  · refine .skip (silent_eatPunct _) fun _ => .ite (fun _ => ?_) fun _ => .pure (grown_none base)
    refine (sound.expression false).bind ?_
    rintro names key ⟨hn, hs, he⟩
    refine .skip (silent_expectPunct _) fun _ => .pure (grown_some ⟨?_, ?_, rfl⟩)
    · simp [hn, mentions_of, Node.parts]
    · exact shaped_of.2 ⟨⟨hk, he⟩, by simpa [Node.children] using ⟨hb, hs⟩⟩

theorem ensures_accessSuffix (sound : inner.Sound) {base : Reading} (hb : base.Shaped)
    (hk : base.IsExpr) : Ensures (accessSuffix inner base) (Grown base) := by
  refine (ensures_memberSuffix sound hb hk).bind fun names found hg => ?_
  rcases found with _ | t
  · rw [hg.1 rfl]
    refine .skip (silent_isPunct _) fun _ => .ite (fun _ => ?_) fun _ => .pure (grown_none base)
    refine (ensures_arguments sound).bind fun names args ⟨hn, hs, he⟩ =>
      .pure (grown_some ⟨?_, ?_, rfl⟩)
    · simp [hn, mentions_of, Node.parts, flatMap_inl]
    · exact shaped_of.2 ⟨⟨hk, he⟩, by simpa [Node.children] using ⟨hb, hs⟩⟩
  · exact .pure (by simpa using hg)

theorem ensures_growing {round : Reading → Read (Option Reading)}
    (h : ∀ base : Reading, base.Shaped → base.IsExpr → Ensures (round base) (Grown base))
    {base : Reading} (hb : base.Shaped) (hk : base.IsExpr) :
    Ensures (grow round base) fun names t =>
      base.mentions ++ names = t.mentions ∧ t.Shaped ∧ t.IsExpr :=
  ensures_grow (G := fun t : Reading => t.Shaped ∧ t.IsExpr) (N := mentions)
    (fun a ha => h a ha.1 ha.2) ⟨hb, hk⟩

theorem gives_construction (sound : inner.Sound) : Gives (construction inner) IsExpr := by
  have behind : ∀ base : Reading, base.Shaped → base.IsExpr → Ensures (do
      let callee ← grow (memberSuffix inner) base
      let args ← if ← isPunct "(" then arguments inner else pure []
      return of (.newExpr callee args)) fun names t =>
        base.mentions ++ names = t.mentions ∧ t.Shaped ∧ t.IsExpr := by
    intro base hb hk
    have suffix := ensures_growing (fun base => ensures_memberSuffix sound) hb hk
    refine suffix.bind fun names callee ⟨hn, hc, hk⟩ => ?_
    have close : ∀ args : List Reading, (∀ t ∈ args, t.Shaped) → (∀ t ∈ args, t.IsExpr) →
        callee.mentions ++ args.flatMap mentions = (of (.newExpr callee args)).mentions ∧
          (of (.newExpr callee args)).Shaped ∧ (of (.newExpr callee args)).IsExpr := by
      intro args hs he
      refine ⟨?_, shaped_of.2 ⟨⟨hk, he⟩, by simpa [Node.children] using ⟨hc, hs⟩⟩, rfl⟩
      simp [mentions_of, Node.parts, flatMap_inl]
    refine .skip (silent_isPunct _) fun _ => .ite (fun _ => ?_) fun _ => .pure ?_
    · refine (ensures_arguments sound).bind ?_
      rintro more args ⟨hm, hs, he⟩
      refine .pure ?_
      rw [List.append_nil, hm, ← List.append_assoc, hn]
      exact close args hs he
    · rw [List.append_nil, hn, ← List.append_nil callee.mentions]
      exact close [] (by simp) (by simp)
  refine .skip (silent_expectWord _) fun _ => .skip (silent_isPunct _) fun _ => .guard ?_
  refine .skip (silent_isWord _) fun _ => .ite (fun _ => ?_) fun _ => ?_
  · refine sound.construction.bind ?_
    rintro names base ⟨hn, hb, hk⟩
    exact hn ▸ behind base hb hk
  · refine (gives_primary sound).bind ?_
    rintro names base ⟨hn, hb, hk⟩
    exact hn ▸ behind base hb hk

theorem gives_access (sound : inner.Sound) : Gives (access inner) IsExpr := by
  have behind : ∀ base : Reading, base.Shaped → base.IsExpr →
      Ensures (grow (accessSuffix inner) base) fun names t =>
        base.mentions ++ names = t.mentions ∧ t.Shaped ∧ t.IsExpr :=
    fun base hb hk => ensures_growing (fun base => ensures_accessSuffix sound) hb hk
  refine .skip (silent_isWord _) fun _ => .ite (fun _ => ?_) fun _ => ?_
  · exact (gives_construction sound).bind fun names base ⟨hn, hb, hk⟩ => hn ▸ behind base hb hk
  · exact (gives_primary sound).bind fun names base ⟨hn, hb, hk⟩ => hn ▸ behind base hb hk

/-! ## Operators -/

theorem gives_unary (sound : inner.Sound) : Gives (unary inner) IsExpr := by
  have operand : ∀ make : Reading → Node Reading String,
      (∀ t : Reading, (make t).parts = [.inl t] ∧ ((make t).Shaped ↔ t.IsExpr) ∧
        (make t).kind.isExpression) →
      ∀ t : Reading, t.Shaped → t.IsExpr → t.mentions = (of (make t)).mentions ∧
        (of (make t)).Shaped ∧ (of (make t)).IsExpr := by
    intro make hm t hs hk
    obtain ⟨hp, hn, he⟩ := hm t
    refine ⟨by simp [mentions_of, hp], shaped_of.2 ⟨hn.2 hk, ?_⟩, he⟩
    simpa [Node.children_eq_lefts, hp, lefts] using hs
  refine .look fun found _ => ?_
  split
  · refine .skip silent_discard_next fun _ => sound.unary.bind ?_
    rintro names t ⟨hn, hs, hk⟩
    refine .pure ?_
    rw [List.append_nil, hn]
    exact operand _ (fun t => ⟨rfl, Iff.rfl, rfl⟩) t hs hk
  · split
    · refine .skip silent_discard_next fun _ => sound.unary.bind ?_
      rintro names t ⟨hn, hs, hk⟩
      refine .pure ?_
      rw [List.append_nil, hn]
      exact operand _ (fun t => ⟨rfl, Iff.rfl, rfl⟩) t hs hk
    · refine (gives_access sound).bind ?_
      rintro names t ⟨hn, hs, hk⟩
      refine .skip silent_lexeme? fun _ => ?_
      split
      · refine .skip silent_newlineAhead fun _ => .ite (fun _ => ?_) fun _ => .pure ?_
        · refine .skip silent_discard_next fun _ => .pure ?_
          rw [List.append_nil, hn]
          exact operand _ (fun t => ⟨rfl, Iff.rfl, rfl⟩) t hs hk
        · simpa [hn] using ⟨hs, hk⟩
      · exact .pure (by simpa [hn] using ⟨hs, hk⟩)

/-- Two trees under a node of two children. -/
theorem joined {lhs rhs : Reading} {node : Node Reading String} (hl : lhs.Shaped) (hr : rhs.Shaped)
    (hp : node.parts = [.inl lhs, .inl rhs]) (hn : node.Shaped) (hk : node.kind.isExpression) :
    lhs.mentions ++ rhs.mentions = (of node).mentions ∧ (of node).Shaped ∧ (of node).IsExpr := by
  refine ⟨by simp [mentions_of, hp], shaped_of.2 ⟨hn, ?_⟩, hk⟩
  simpa [Node.children_eq_lefts, hp, lefts] using ⟨hl, hr⟩

theorem gives_binary (sound : inner.Sound) {noIn : Bool} {level : Precedence} :
    Gives (binary inner noIn level) IsExpr := by
  have suffix : ∀ lhs : Reading, lhs.Shaped → lhs.IsExpr →
      Ensures (infixSuffix inner noIn level lhs) (Grown lhs) := by
    intro lhs hl hk
    refine .skip silent_lexeme? fun _ => ?_
    split
    · rename_i op _
      refine .ite (fun _ => .pure (grown_none lhs)) fun _ => .skip silent_discard_next fun _ => ?_
      refine (sound.binary _ _).bind fun names rhs ⟨hn, hr, he⟩ => .pure (grown_some ?_)
      rw [List.append_nil, hn]
      cases op with
      | binary op => exact joined hl hr rfl ⟨hk, he⟩ rfl
      | logical op => exact joined hl hr rfl ⟨hk, he⟩ rfl
    · exact .pure (grown_none lhs)
  refine (gives_unary sound).bind fun names lhs ⟨hn, hl, hk⟩ => hn ▸ ?_
  exact ensures_growing suffix hl hk

theorem gives_conditional (sound : inner.Sound) {noIn : Bool} :
    Gives (conditional inner noIn) IsExpr := by
  refine (gives_binary sound).bind fun names test ⟨hn, ht, hk⟩ => ?_
  refine .skip (silent_eatPunct _) fun _ => .ite (fun _ => ?_) fun _ => .pure ?_
  · refine (sound.assignment false).bind fun more consequent ⟨hm, hc, hkc⟩ => ?_
    refine .skip (silent_expectPunct _) fun _ => ?_
    refine (sound.assignment noIn).bind fun most alternate ⟨hmm, ha, hka⟩ => .pure ⟨?_, ?_, rfl⟩
    · simp [hn, hm, hmm, mentions_of, Node.parts]
    · exact shaped_of.2 ⟨⟨hk, hkc, hka⟩, by simpa [Node.children] using ⟨ht, hc, ha⟩⟩
  · simpa [hn] using ⟨ht, hk⟩

theorem gives_assignment (sound : inner.Sound) {noIn : Bool} :
    Gives (assignment inner noIn) IsExpr := by
  refine ensures_arrowParameters.bind fun names found ⟨hn, hp⟩ => ?_
  rcases found with _ | params
  · rw [hn]
    refine (gives_conditional sound).bind fun names target ⟨hn, ht, hk⟩ => ?_
    refine .skip silent_lexeme? fun _ => ?_
    split
    · refine .ite (fun href => ?_) fun _ => ?_
      · refine .skip silent_discard_next fun _ => ?_
        refine (sound.assignment noIn).bind fun more value ⟨hm, hv, hkv⟩ => .pure ?_
        rw [Option.getD_none, List.nil_append, hn, hm, List.append_nil]
        refine joined ht hv rfl ⟨hk, ?_, hkv⟩ rfl
        simpa [isReference, IsReference] using href
      · exact ensures_unsupported.bind (P := fun _ _ => False) fun _ _ => False.elim
    · exact .pure (by simpa [hn] using ⟨ht, hk⟩)
  · rw [hn]
    exact gives_arrowBody sound (hp params rfl)

theorem gives_expression (sound : inner.Sound) {noIn : Bool} :
    Gives (expression inner noIn) IsExpr := by
  refine (gives_assignment sound).bind fun names first ⟨hn, hf, hk⟩ => ?_
  have item : Ensures (sequenceItem inner noIn) fun names found =>
      names = found.toList.flatMap mentions ∧ ∀ t ∈ found, t.Shaped ∧ t.IsExpr := by
    refine .skip (silent_eatPunct _) fun _ => .ite (fun _ => ?_) fun _ => .pure (by simp)
    exact (sound.assignment noIn).bind fun names t h => .pure (by simpa using h)
  refine (ensures_many item).bind fun more ts ⟨hm, hts⟩ => ?_
  rcases ts with _ | ⟨t, ts⟩
  · exact .pure (by simpa [hn, hm] using ⟨hf, hk⟩)
  · refine .pure ⟨?_, shaped_of.2 ⟨⟨by simp, ?_⟩, ?_⟩, rfl⟩
    · simp [hn, hm, mentions_of, Node.parts, flatMap_inl]
    · exact List.forall_mem_cons.2 ⟨hk, fun e he => (hts e he).2⟩
    · exact List.forall_mem_cons.2 ⟨hf, fun e he => (hts e he).1⟩

end Grammar

end Graft
