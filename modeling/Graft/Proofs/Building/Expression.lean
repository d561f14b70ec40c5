import Graft.Proofs.Building.Mirror

/-!
# Expressions, built and read

Every rule for expressions takes the same steps on both sides, given that the nested rules do so.

* `Mirrored` - nested rules that take the same steps
* `mirrors_expression` - the loosest level, which rests on all others
-/

namespace Graft

open Reading (of)

/-- Rules of a builder and of a reader that take the same steps, where fewer than `most` tokens are
ahead. Statements are read only where `in` is an operator. -/
structure Mirrored (ts : Tokens) (most : Nat) (inner' : BuildRules) (inner : Rules) : Prop where
  statement : Mirrors ts false most false Anywhere inner'.statement inner.statement always Plants
  block : Mirrors ts false most false Anywhere inner'.block inner.block always Plants
  expression : ∀ noIn, Mirrors ts noIn most false Anywhere inner'.expression
    (inner.expression noIn) always Plants
  assignment : ∀ noIn, Mirrors ts noIn most false Anywhere inner'.assignment
    (inner.assignment noIn) always Plants
  binary : ∀ noIn level, Mirrors ts noIn most false Anywhere (inner'.binary level)
    (inner.binary noIn level) always Plants
  unary : ∀ noIn, Mirrors ts noIn most false Anywhere inner'.unary inner.unary always Plants
  construction : ∀ noIn, Mirrors ts noIn most false Anywhere inner'.construction
    inner.construction always Plants

variable {ts : Tokens} {noIn fresh : Bool} {most : Nat} {pre : Builder → Prop}
  {inner' : BuildRules} {inner : Rules}

namespace Building

/-! ## Names and functions -/

theorem mirrors_identifier :
    Mirrors ts noIn most fresh pre identifier Grammar.identifier always (Via Script.intern) := by
  refine .look fun found => ?_
  rcases found with _ | w | _ | _ | _
  case some.word => exact .check fun _ => .takeFront (mirrors_intern w rfl)
  all_goals exact mirrors_refuse _

theorem mirrors_propertyName :
    Mirrors ts noIn most fresh pre propertyName Grammar.propertyName always
      (Via Script.intern) := by
  refine .look fun found => ?_
  rcases found with _ | w | _ | _ | _
  case some.word => exact .takeFront (mirrors_intern w rfl)
  all_goals exact mirrors_refuse _

theorem mirrors_parameter :
    Mirrors ts noIn most true Anywhere parameter Grammar.parameter always (Via Script.intern) := by
  refine (mirrors_isPunct _).skip fun _ => .guard (mirrors_identifier.bind fun x y => ?_)
  exact (mirrors_isPunct _).skip fun _ => .guard (.pure rfl fun _ _ h => h)

theorem mirrors_functionParts (h : Mirrored ts most inner' inner) :
    Mirrors ts noIn most false pre (functionParts inner') (Grammar.functionParts inner) always
      fun x y s s' => ∃ s₁, Via (List.mapM Script.intern) x.1 y.1 s s₁ ∧ Plants x.2 y.2 s₁ s' := by
  refine (mirrors_expectPunct _).skip fun _ => ?_
  refine (mirrors_commaList mirrors_parameter.behind).bind fun params params' => ?_
  refine (mirrors_expectPunct _).skip fun _ => ?_
  refine h.block.allowed.bind fun body body' => .pure rfl fun s _ hb s₀ hp => ?_
  exact ⟨_, hp, hb⟩

/-- Parameters and body of a function, which become part of a node. -/
theorem mirrors_function {γ δ : Type} {takes' : γ → Bool}
    {R' : γ → δ → Script → Script → Prop} {f : List Sym × NodeId → Build δ}
    {g : List String × Reading → Read γ} (h : Mirrored ts most inner' inner)
    (hf : ∀ params params' body body', Mirrors ts noIn most false Anywhere (f (params', body'))
      (g (params, body)) never fun z w s₂ s' => ∀ s s₁,
        Via (List.mapM Script.intern) params params' s s₁ → Plants body body' s₁ s₂ →
          R' z w s s') :
    Mirrors ts noIn most false pre (functionParts inner' >>= f) (Grammar.functionParts inner >>= g)
      takes' R' := by
  refine (mirrors_functionParts h).bind fun ⟨params, body⟩ ⟨params', body'⟩ b c hb _ hn hl => ?_
  refine (hf params params' body body' b c hb trivial hn hl).imp fun z w b' c' _ hg =>
    ⟨hg.1, fun names hw s ⟨s₁, hp, hb⟩ => hg.2 names hw s s₁ hp hb⟩

theorem mirrors_bareFunction (h : Mirrored ts most inner' inner) :
    Mirrors ts noIn most false pre (bareFunction inner') (Grammar.bareFunction inner) always
      Plants := by
  refine mirrors_function h fun params params' body body' => ?_
  refine mirrors_store rfl fun s s₀ s₁ hp hb => plants_of ?_
  simp only [Node.traverse, Option.mapM_none, run_bind, run_pure, hp, hb]

/-! ## Arrow functions -/

theorem mirrors_arrowParameter :
    Mirrors ts noIn most true Anywhere arrowParameter Grammar.arrowParameter always
      (Via Script.intern) := by
  refine mirrors_identifier.bind fun x y => ?_
  refine (mirrors_isPunct _).skip fun _ => (mirrors_isPunct _).skip fun _ => ?_
  exact .guard (.pure rfl fun _ _ h => h)

theorem mirrors_arrowParameters :
    Mirrors ts noIn most true Anywhere arrowParameters Grammar.arrowParameters Option.isSome
      (Optional (Via (List.mapM Script.intern))) := by
  refine .look fun found => ?_
  split
  · refine mirrors_second?.skip fun _ => .ite (fun _ => ?_) fun _ => .pure rfl .missing
    exact mirrors_identifier.bind fun x y => .pure rfl fun s _ hx => .found (via_cons hx via_nil)
  · refine .ifAhead (.takeFront ?_) (.pure rfl .missing)
    refine (mirrors_commaList mirrors_arrowParameter.behind).bind fun params params' => ?_
    exact (mirrors_expectPunct _).skip fun _ => .pure rfl fun s _ hp => .found hp
  · try simp only [*]
    exact .pure rfl .missing

theorem mirrors_arrowBody (h : Mirrored ts most inner' inner) (params : List String)
    (params' : List Sym) :
    Mirrors ts noIn most false pre (arrowBody inner' params') (Grammar.arrowBody inner noIn params)
      never fun t id s₁ s' => ∀ s, Via (List.mapM Script.intern) params params' s s₁ →
        Plants t id s s' := by
  refine (mirrors_expectPunct _).skip fun _ => (mirrors_isPunct _).skip fun _ => .ite (fun _ => ?_)
    fun _ => ?_
  · refine h.block.allowed.bind fun body body' => mirrors_store rfl fun s s₀ hb s₁ hp =>
      plants_of ?_
    simp only [Node.traverse, run_bind, run_pure, hp, hb]
  · refine (h.assignment noIn).bind fun body body' => mirrors_store rfl fun s s₀ hb s₁ hp =>
      plants_of ?_
    simp only [Node.traverse, run_bind, run_pure, hp, hb]

/-! ## Operands -/

theorem mirrors_arrayItem (h : Mirrored ts most inner' inner) :
    Mirrors ts false most false Anywhere (arrayItem inner') (Grammar.arrayItem inner) always
      Plants := by
  refine (mirrors_isPunct _).skip fun _ => .guard ((mirrors_isPunct _).skip fun _ => .guard ?_)
  exact h.assignment false

theorem mirrors_array (h : Mirrored ts most inner' inner) :
    Mirrors ts noIn most false pre (array inner') (Grammar.array inner) never Plants := by
  refine (mirrors_commaList (mirrors_arrayItem h)).allowed.bind fun items items' => ?_
  refine (mirrors_expectPunct _).skip fun _ => mirrors_store rfl fun s s₀ hi => plants_of ?_
  simp only [Node.traverse, run_bind, run_pure, hi]

theorem mirrors_atAccessor :
    Mirrors ts noIn most fresh pre atAccessor Grammar.atAccessor never Same := by
  refine (mirrors_isWord _).skip fun _ => (mirrors_isWord _).skip fun _ => ?_
  refine mirrors_second?.skip fun second => ?_
  split
  · exact .pure rfl fun _ => ⟨rfl, rfl⟩
  · try simp only [*]
    exact .pure rfl fun _ => ⟨rfl, rfl⟩

/-- A name that has got a symbol gets it again. -/
theorem intern_again {name : String} {y : Sym} {s s₁ : Script}
    (h : Script.intern name s = (y, s₁)) : Script.intern name s₁ = (y, s₁) := by
  obtain ⟨rfl, rfl⟩ : (s.names.intern name).1 = y ∧ { s with names := _ } = s₁ := Prod.mk.inj h
  exact Script.intern_of_lookup (Names.lookup_intern s.names name)

/-- A key that stands alone is a name that has been mentioned. -/
theorem mirrors_propertyValue (h : Mirrored ts most inner' inner) {shorthand : Option String}
    {shorthand' : Option Sym} (both : shorthand.isSome = shorthand'.isSome) :
    Mirrors ts false most false pre (propertyValue inner' shorthand')
      (Grammar.propertyValue inner shorthand) never fun t id s s' =>
        (∀ x ∈ shorthand, ∀ y ∈ shorthand', Script.intern x s = (y, s)) → Plants t id s s' := by
  refine (mirrors_eatPunct _).eaten ?_ ((mirrors_isPunct _).skip fun _ => .ite (fun _ => ?_)
    fun _ => ?_)
  · exact .last (.imp (h.assignment false) fun _ _ _ _ hR _ => hR)
  · exact .last (.imp (mirrors_bareFunction h) fun _ _ _ _ hR _ => hR)
  · rcases shorthand with _ | x <;> rcases shorthand' with _ | y
    · exact mirrors_refuse _
    · cases both
    · cases both
    · refine mirrors_store rfl fun s hs => plants_of ?_
      simp only [Node.traverse, run_bind, run_pure, hs x rfl y rfl]

theorem mirrors_property (h : Mirrored ts most inner' inner) :
    Mirrors ts false most true Anywhere (property inner') (Grammar.property inner) always
      (Via (Property.traverse Script.plant Script.intern)) := by
  have value : ∀ {key : Key String} {key' : Key Sym},
      (∀ s, key.traverse Script.intern s = (key', s)) →
      Mirrors ts false most false Anywhere
        (propertyValue inner' none >>= fun v => pure ⟨key', v⟩)
        (Grammar.propertyValue inner none >>= fun v => pure ⟨key, v⟩) never
        (Via (Property.traverse Script.plant Script.intern)) := by
    intro key key' hkey
    refine (mirrors_propertyValue h rfl).bind fun v v' => .pure rfl fun s s₀ hv => ?_
    have hv : Script.plant v s₀ = (v', s) := hv nofun
    simp only [Via, Property.traverse, run_bind, run_pure, hkey, hv]
  refine mirrors_atAccessor.skip fun _ => .guard (.take fun spot hspot => ?_)
  obtain ⟨found, place⟩ := spot
  dsimp only
  split
  · rename_i w
    refine .bind (mirrors_mention w) fun _ y => ?_
    refine (mirrors_propertyValue h ?_).bind fun v v' => .pure rfl fun s s₁ hv s₀ hy => ?_
    · cases Grammar.isReserved w <;> rfl
    · have again : Script.intern w s₁ = (y, s₁) := intern_again hy
      have hv : Script.plant v s₁ = (v', s) := hv fun x hx y' hy' => by
        cases hr : Grammar.isReserved w <;> simp only [hr] at hx hy'
        · cases hx
          cases hy'
          exact again
        · cases hx
      simp only [Via, Property.traverse, Key.traverse, run_bind, run_pure, hy, hv]
  · exact value fun _ => rfl
  · exact value fun _ => rfl
  · exact .throw ⟨_, hspot⟩
  · exact .throw ⟨_, hspot⟩
  · try simp only [*]
    exact mirrors_refuseAt hspot _

theorem mirrors_object (h : Mirrored ts most inner' inner) :
    Mirrors ts noIn most false pre (object inner') (Grammar.object inner) never Plants := by
  refine (mirrors_commaList (mirrors_property h).behind).allowed.bind fun items items' => ?_
  refine (mirrors_expectPunct _).skip fun _ => mirrors_store rfl fun s s₀ hi => plants_of ?_
  simp only [Node.traverse, run_bind, run_pure, hi]

/-- A function behind the name it may have. -/
theorem mirrors_functionRest (h : Mirrored ts most inner' inner) (name : Option String)
    (name' : Option Sym) : Mirrors ts noIn most false Anywhere
      (functionParts inner' >>= fun (params, body) => Build.store (.functionExpr name' params body))
      (Grammar.functionParts inner >>= fun (params, body) =>
        pure (of (.functionExpr name params body))) never
      fun t id s₁ s' => ∀ s, Optional (Via Script.intern) name name' s s₁ → Plants t id s s' := by
  refine mirrors_function h fun params params' body body' => mirrors_store rfl ?_
  refine fun s s₁ s₂ hp hb s₀ hx => plants_of ?_
  have hx : name.mapM Script.intern s₀ = _ := hx.via
  simp only [Node.traverse, run_bind, run_pure, hp, hb, hx]

theorem mirrors_functionExpr (h : Mirrored ts most inner' inner) :
    Mirrors ts noIn most false pre (functionExpr inner') (Grammar.functionExpr inner) never
      Plants := by
  refine (mirrors_isPunct _).skip fun _ => .guard ((mirrors_isPunct _).skip fun _ => ?_)
  refine .ite (fun _ => .absent fun name name' _ => mirrors_functionRest h name name') fun _ => ?_
  exact .present (fun name name' _ => mirrors_functionRest h name name') mirrors_identifier

theorem mirrors_wordOperand (h : Mirrored ts most inner' inner) {spot : Spot}
    (hspot : spot ∈ ts.spots) (word : String) :
    Mirrors ts noIn most false pre (wordOperand inner' spot word)
      (Grammar.wordOperand inner spot word) never Plants := by
  unfold wordOperand
  split
  · exact mirrors_store rfl fun s => plants_of rfl
  · exact mirrors_store rfl fun s => plants_of rfl
  · exact mirrors_store rfl fun s => plants_of rfl
  · exact mirrors_store rfl fun s => plants_of rfl
  · exact mirrors_functionExpr h
  · exact .throw ⟨_, hspot⟩
  · exact .throw ⟨_, hspot⟩
  · rw [Grammar.wordOperand] <;> try assumption
    refine .ite (fun _ => (mirrors_refuseAt hspot _).unreached) fun _ => ?_
    refine (mirrors_mention word).bind fun _ y => mirrors_store rfl fun s s₀ hy => plants_of ?_
    simp only [Node.traverse, run_bind, run_pure, hy]

theorem mirrors_primary (h : Mirrored ts most inner' inner) :
    Mirrors ts noIn most true Anywhere (primary inner') (Grammar.primary inner) always Plants := by
  refine .take fun spot hspot => ?_
  obtain ⟨found, place⟩ := spot
  dsimp only
  split
  · exact mirrors_wordOperand h hspot _
  · exact mirrors_store rfl fun s => plants_of rfl
  · exact mirrors_store rfl fun s => plants_of rfl
  · refine (h.expression false).allowed.bind fun e e' => (mirrors_expectPunct _).skip fun _ => ?_
    exact .pure rfl fun s _ he => he
  · exact mirrors_array h
  · exact mirrors_object h
  · exact .throw ⟨_, hspot⟩
  · exact .throw ⟨_, hspot⟩
  · try simp only [*]
    exact mirrors_refuseAt hspot _

/-! ## Members, calls and constructions -/

theorem mirrors_argument (h : Mirrored ts most inner' inner) :
    Mirrors ts false most false Anywhere (argument inner') (Grammar.argument inner) always
      Plants := by
  refine (mirrors_isPunct _).skip fun _ => .guard ?_
  exact h.assignment false

theorem mirrors_arguments (h : Mirrored ts most inner' inner) :
    Mirrors ts noIn most false pre (arguments inner') (Grammar.arguments inner) always
      (Via (List.mapM Script.plant)) := by
  refine (mirrors_expectPunct _).skip fun _ => ?_
  refine (mirrors_commaList (mirrors_argument h)).allowed.bind fun args args' => ?_
  exact (mirrors_expectPunct _).skip fun _ => .pure rfl fun s _ ha => ha

theorem mirrors_memberSuffix (h : Mirrored ts most inner' inner) (base : Reading)
    (base' : NodeId) :
    Mirrors ts noIn most false Anywhere (memberSuffix inner' base')
      (Grammar.memberSuffix inner base) Option.isSome (Optional (Becomes base base')) := by
  refine (mirrors_eatPunct _).eaten ?_ ((mirrors_eatPunct _).eaten ?_ (.pure rfl .missing))
  · refine mirrors_propertyName.bind fun name name' => .stored fun id => .pure rfl ?_
    refine fun s s₁ hs s₀ hn => .found fun s₂ hb => plants_stored ?_ hs
    simp only [Node.traverse, run_bind, run_pure, hb, hn]
  · refine (h.expression false).allowed.bind fun key key' => ?_
    refine (mirrors_expectPunct _).skip fun _ => .stored fun id => .pure rfl ?_
    refine fun s s₁ hs s₀ hk => .found fun s₂ hb => plants_stored ?_ hs
    simp only [Node.traverse, run_bind, run_pure, hb, hk]

theorem mirrors_accessSuffix (h : Mirrored ts most inner' inner) (base : Reading)
    (base' : NodeId) :
    Mirrors ts noIn most false Anywhere (accessSuffix inner' base')
      (Grammar.accessSuffix inner base) Option.isSome (Optional (Becomes base base')) := by
  refine (mirrors_memberSuffix h base base').bind_found ?_ fun x y =>
    .pure rfl fun s s₀ hx => .found hx
  refine (mirrors_isPunct _).skip fun _ => .ite (fun _ => ?_) fun _ => .pure rfl .missing
  refine (mirrors_arguments h).bind fun args args' => .stored fun id => .pure rfl ?_
  refine fun s s₁ hs s₀ ha => .found fun s₂ hb => plants_stored ?_ hs
  simp only [Node.traverse, run_bind, run_pure, hb, ha]

theorem mirrors_construction (h : Mirrored ts most inner' inner) :
    Mirrors ts noIn most true Anywhere (construction inner') (Grammar.construction inner) always
      Plants := by
  have rest : ∀ callee callee' args args', Mirrors ts noIn most false Anywhere
      (Build.store (.newExpr callee' args')) (pure (of (.newExpr callee args))) never
      fun t id s₂ s' => ∀ s₁, Via (List.mapM Script.plant) args args' s₁ s₂ →
        ∀ s, Plants callee callee' s s₁ → Plants t id s s' := by
    refine fun callee callee' args args' => mirrors_store rfl fun s s₁ ha s₀ hc => plants_of ?_
    simp only [Node.traverse, run_bind, run_pure, hc, ha]
  have behind : ∀ {base base'}, Mirrors ts noIn most false Anywhere
      (do
        let callee ← Build.grow (memberSuffix inner') base'
        let args ← if ← Build.isPunct "(" then arguments inner' else pure []
        Build.store (.newExpr callee args))
      (do
        let callee ← Read.grow (Grammar.memberSuffix inner) base
        let args ← if ← Read.isPunct "(" then Grammar.arguments inner else pure []
        return of (.newExpr callee args)) never
      fun t id s₁ s' => ∀ s, Plants base base' s s₁ → Plants t id s s' := by
    intro base base'
    refine (mirrors_grow (mirrors_memberSuffix h) base base').bind fun callee callee' => ?_
    refine (mirrors_isPunct _).skip fun _ => .ite (fun _ => ?_) fun _ => ?_
    · refine (mirrors_arguments h).bind fun args args' => ?_
      refine (rest callee callee' args args').here.imp ?_
      exact fun t id s s' ht s₁ ha s₂ hc s₀ hb => ht s₁ ha s₀ (hc s₀ hb)
    · refine (rest callee callee' [] []).here.imp fun t id s s' ht s₁ hc s₀ hb => ?_
      exact ht s via_nil s₀ (hc s₀ hb)
  refine (mirrors_expectWord _).skip fun _ => (mirrors_isPunct _).skip fun _ => .guard ?_
  refine (mirrors_isWord _).skip fun _ => .ite (fun _ => ?_) fun _ => ?_
  · exact (h.construction noIn).bind fun base base' => behind.here
  · exact (mirrors_primary h).behind.bind fun base base' => behind.here

theorem mirrors_access (h : Mirrored ts most inner' inner) :
    Mirrors ts noIn most true Anywhere (access inner') (Grammar.access inner) always
      Plants := by
  have rest : ∀ base base', Mirrors ts noIn most false Anywhere
      (Build.grow (accessSuffix inner') base') (Read.grow (Grammar.accessSuffix inner) base) never
      (Becomes base base') := mirrors_grow (mirrors_accessSuffix h)
  refine (mirrors_isWord _).skip fun _ => .ite (fun _ => ?_) fun _ => ?_
  · exact (mirrors_construction h).bind fun base base' => (rest base base').here
  · exact (mirrors_primary h).bind fun base base' => (rest base base').here

/-! ## Operators -/

theorem mirrors_unary (h : Mirrored ts most inner' inner) :
    Mirrors ts noIn most true Anywhere (unary inner') (Grammar.unary inner) always Plants := by
  refine .look fun front => ?_
  rcases hprefix : front.bind Grammar.unaryOp? with _ | op
  case some =>
    obtain ⟨l, rfl, -⟩ := Option.bind_eq_some_iff.1 hprefix
    refine .takeFront ((h.unary noIn).bind fun e e' => mirrors_store rfl fun s s₀ he => ?_)
    refine plants_of ?_
    simp only [Node.traverse, run_bind, run_pure, he]
  rcases hprefix : front.bind Grammar.updateOp? with _ | op
  case some =>
    obtain ⟨l, rfl, -⟩ := Option.bind_eq_some_iff.1 hprefix
    refine .takeFront ((h.unary noIn).bind fun e e' => mirrors_store rfl fun s s₀ he => ?_)
    refine plants_of ?_
    simp only [Node.traverse, run_bind, run_pure, he]
  refine (mirrors_access h).here.bind fun e e' => .look fun behind => ?_
  rcases hsuffix : behind.bind Grammar.updateOp? with _ | op
  · exact .pure rfl fun s s₀ he => he
  refine mirrors_newlineAhead.skip fun _ => .ite (fun _ => ?_) fun _ => .pure rfl fun s s₀ he => he
  refine mirrors_discard_next.skip fun _ => mirrors_store rfl fun s s₀ he => plants_of ?_
  simp only [Node.traverse, run_bind, run_pure, he]

theorem mirrors_infixSuffix (h : Mirrored ts most inner' inner) (level : Precedence)
    (lhs : Reading) (lhs' : NodeId) :
    Mirrors ts noIn most false Anywhere (infixSuffix inner' level lhs')
      (Grammar.infixSuffix inner noIn level lhs) Option.isSome (Optional (Becomes lhs lhs')) := by
  refine .asks (f := infixSuffixFor inner' level lhs') (.look fun front => ?_)
  rcases hop : front.bind (Grammar.Infix.ofLexeme? noIn) with _ | op
  · exact .pure rfl .missing
  obtain ⟨l, rfl, -⟩ := Option.bind_eq_some_iff.1 hop
  refine .ite (fun _ => .pure rfl .missing) fun _ => .takeFront ?_
  refine (h.binary noIn op.rightLevel).bind fun rhs rhs' => .stored fun id => .pure rfl ?_
  refine fun s s₁ hs s₀ hr => .found fun s₂ hl => ?_
  cases op
  all_goals
    refine plants_stored ?_ hs
    simp only [Node.traverse, run_bind, run_pure, hl, hr, infixNode]

theorem mirrors_binary (h : Mirrored ts most inner' inner) (level : Precedence) :
    Mirrors ts noIn most true Anywhere (binary inner' level) (Grammar.binary inner noIn level)
      always Plants := by
  refine (mirrors_unary h).bind fun first first' => ?_
  exact (mirrors_grow (mirrors_infixSuffix h level) first first').here

theorem mirrors_conditional (h : Mirrored ts most inner' inner) :
    Mirrors ts noIn most true Anywhere (conditional inner') (Grammar.conditional inner noIn)
      always Plants := by
  refine (mirrors_binary h _).bind fun test test' => ?_
  refine (mirrors_eatPunct _).eaten ?_ (.pure rfl fun s s₀ ht => ht)
  refine (h.assignment false).allowed.bind fun cons cons' => ?_
  refine (mirrors_expectPunct _).skip fun _ => .bind (h.assignment noIn) fun alt alt' => ?_
  refine mirrors_store rfl fun s s₂ ha s₁ hc s₀ ht => plants_of ?_
  simp only [Node.traverse, run_bind, run_pure, ht, hc, ha]

theorem mirrors_sequenceItem (h : Mirrored ts most inner' inner) :
    Mirrors ts noIn most false Anywhere (sequenceItem inner') (Grammar.sequenceItem inner noIn)
      Option.isSome (Optional Plants) := by
  refine (mirrors_eatPunct _).eaten ?_ (.pure rfl .missing)
  exact (h.assignment noIn).bind fun x y => .pure rfl fun s s₀ hx => .found hx

/-- A planted tree has the kind of its node. -/
theorem kind_of_plants {t : Reading} {id : NodeId} {s s' : Script} (h : Plants t id s s') :
    s'.kind id = t.kind := by
  have hp : Script.Planted t s id s' := by
    have hp := Script.plant_spec t s
    rwa [show Script.plant t s = (id, s') from h] at hp
  have kinds : (s'.tree id).erase.kind = t.erase.kind := congrArg Tree.kind hp.erase_eq
  rw [← hp.rooted.kind_eq]
  rwa [Tree.kind_erase, Tree.kind_erase] at kinds

/-- Both sides find the same targets of assignments. -/
theorem isReference_of_plants {t : Reading} {id : NodeId} {s s' : Script} (h : Plants t id s s') :
    isReference s' id = Grammar.isReference t := by
  rw [isReference, Grammar.isReference, kind_of_plants h]

/-- What stands behind an operand that may be the target of an assignment. -/
theorem mirrors_assigned (h : Mirrored ts most inner' inner) {target : Reading} {isTarget : Bool}
    (same : isTarget = Grammar.isReference target) (target' : NodeId) :
    Mirrors ts noIn most false Anywhere
      (do
        match (← Build.lexeme?).bind Grammar.assignOp? with
        | some op =>
          unless isTarget do Build.unsupported .assignmentToValue
          discard Build.next
          Build.store (.assign op target' (← inner'.assignment))
        | none => return target')
      (do
        match (← Read.lexeme?).bind Grammar.assignOp? with
        | some op =>
          unless Grammar.isReference target do Read.unsupported .assignmentToValue
          discard Read.next
          return of (.assign op target (← inner.assignment noIn))
        | none => return target) never (Becomes target target') := by
  subst same
  refine .look fun behind => ?_
  rcases behind.bind Grammar.assignOp? with _ | op
  · exact .pure rfl fun s s₀ ht => ht
  refine .ite (fun _ => ?_) fun _ => (mirrors_unsupported _).unreached
  refine mirrors_discard_next.skip fun _ => .last ?_
  refine (h.assignment noIn).bind fun value value' => mirrors_store rfl ?_
  refine fun s s₁ hv s₀ ht => plants_of ?_
  simp only [Node.traverse, run_bind, run_pure, ht, hv]

theorem mirrors_assignment (h : Mirrored ts most inner' inner) :
    Mirrors ts noIn most true Anywhere (assignment inner') (Grammar.assignment inner noIn)
      always Plants := by
  refine mirrors_arrowParameters.bind_found ?_ fun params params' => mirrors_arrowBody h _ _
  refine (mirrors_conditional h).bind fun target target' b c hb planted hn hl => ?_
  obtain ⟨_, planted⟩ := planted
  exact mirrors_assigned h (isReference_of_plants planted) target' b c hb trivial hn hl

/-- The items of a sequence, where a single one stands for itself. -/
theorem mirrors_sequence (first : Reading) (first' : NodeId) {rest : List Reading}
    {rest' : List NodeId} (same : rest'.length = rest.length) :
    Mirrors ts noIn most false Anywhere
      (match rest' with
        | [] => pure first'
        | rest' => Build.store (.sequence (first' :: rest')))
      (match rest with
        | [] => pure first
        | rest => pure (of (.sequence (first :: rest)))) never
      fun t id s₁ s' => ∀ s, Via (List.mapM Script.plant) rest rest' s s₁ →
        Becomes first first' t id s s' := by
  rcases rest with _ | ⟨x, xs⟩ <;> rcases rest' with _ | ⟨y, ys⟩
  case nil.nil =>
    refine .pure rfl fun s s₀ hr s₁ hf => ?_
    obtain rfl := (nil_of_via hr).2
    exact hf
  case cons.cons =>
    refine mirrors_store rfl fun s s₁ hr s₀ hf => plants_of ?_
    have all := via_cons hf hr
    simp only [Node.traverse, run_bind, run_pure, all]
  all_goals cases same

theorem mirrors_expression (h : Mirrored ts most inner' inner) :
    Mirrors ts noIn most true Anywhere (expression inner') (Grammar.expression inner noIn)
      always Plants := by
  refine (mirrors_assignment h).bind fun first first' => ?_
  refine (mirrors_many (mirrors_sequenceItem h)).bind fun rest rest' => ?_
  exact .given (fun _ hr => hr.elim fun _ => length_of_via) (mirrors_sequence first first')

end Building

end Graft
