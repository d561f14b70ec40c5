import Graft.Syntax.Script

/-!
# The parts of a node

The children and the names of a node stand in one list, in source order. What `map` and `traverse`
do to a node is told by what they do to its parts, so that no later proof has to go through the
constructors again.

* `map_congr_parts` - `map` depends on the images of the parts alone
* `traverse_map` - going through an image is going through the original
* `exists_runs_traverse` - `traverse` meets the parts one after the other and puts the results
  where the parts were
-/

namespace Graft

variable {α β γ ν μ ρ S : Type}

/-! ## The list of parts -/

/-- A child or a name. -/
abbrev Part (α ν : Type) := α ⊕ ν

def Declarator.parts (d : Declarator α ν) : List (Part α ν) :=
  .inr d.name :: d.init.toList.map .inl

def Method.parts (m : Method α ν) : List (Part α ν) :=
  [.inr m.name, .inl m.function]

def Catch.parts (h : Catch α ν) : List (Part α ν) :=
  h.param.toList.map .inr ++ [.inl h.body]

def Key.parts : Key ν → List (Part α ν)
  | word name => [.inr name]
  | quoted _ | number _ => []

def Property.parts (p : Property α ν) : List (Part α ν) :=
  p.key.parts ++ [.inl p.value]

/-- The children in a list of parts. -/
def lefts : List (Part α ν) → List α
  | [] => []
  | .inl a :: ps => a :: lefts ps
  | .inr _ :: ps => lefts ps

/-- The names in a list of parts. -/
def rights : List (Part α ν) → List ν
  | [] => []
  | .inl _ :: ps => rights ps
  | .inr x :: ps => x :: rights ps

namespace Node

/-- The children and the names of a node in source order. -/
def parts : Node α ν → List (Part α ν)
  | program body | block body | array body | sequence body => body.map .inl
  | varDecl _ declarators => declarators.flatMap (·.parts)
  | functionDecl name params body => .inr name :: (params.map .inr ++ [.inl body])
  | classDecl name superclass methods =>
    .inr name :: (superclass.toList.map .inl ++ methods.flatMap (·.parts))
  | returnStmt arg => arg.toList.map .inl
  | ifStmt test consequent alternate =>
    .inl test :: .inl consequent :: alternate.toList.map .inl
  | forStmt init test step body =>
    init.toList.map .inl ++ (test.toList.map .inl ++ (step.toList.map .inl ++ [.inl body]))
  | forIn left right body | forOf left right body => [.inl left, .inl right, .inl body]
  | whileStmt test body => [.inl test, .inl body]
  | doWhile body test => [.inl body, .inl test]
  | switchStmt discriminant cases => .inl discriminant :: cases.map .inl
  | switchCase test consequent => test.toList.map .inl ++ consequent.map .inl
  | withStmt scope body => [.inl scope, .inl body]
  | throwStmt arg | exprStmt arg => [.inl arg]
  | tryStmt body handler finalizer =>
    .inl body :: (handler.toList.flatMap (·.parts) ++ finalizer.toList.map .inl)
  | breakStmt | continueStmt | empty | literal _ | thisExpr => []
  | ident name => [.inr name]
  | object properties => properties.flatMap (·.parts)
  | functionExpr name params body =>
    name.toList.map .inr ++ (params.map .inr ++ [.inl body])
  | arrow params body _ => params.map .inr ++ [.inl body]
  | unary _ arg | update _ _ arg => [.inl arg]
  | binary _ lhs rhs | logical _ lhs rhs => [.inl lhs, .inl rhs]
  | assign _ target value => [.inl target, .inl value]
  | conditional test consequent alternate => [.inl test, .inl consequent, .inl alternate]
  | call callee args | newExpr callee args => .inl callee :: args.map .inl
  | member base name => [.inl base, .inr name]
  | index base key => [.inl base, .inl key]

/-- The names of a node in source order. -/
def names (n : Node α ν) : List ν :=
  rights n.parts

end Node

/-! ## Lists of parts -/

section Lists

variable (ps qs : List (Part α ν))

@[simp] theorem lefts_append : lefts (ps ++ qs) = lefts ps ++ lefts qs := by
  induction ps with
  | nil => rfl
  | cons p ps ih => cases p <;> simp [lefts, ih]

@[simp] theorem rights_append : rights (ps ++ qs) = rights ps ++ rights qs := by
  induction ps with
  | nil => rfl
  | cons p ps ih => cases p <;> simp [rights, ih]

@[simp] theorem lefts_map_inl (xs : List α) : lefts (xs.map (.inl : α → Part α ν)) = xs := by
  induction xs with
  | nil => rfl
  | cons x xs ih => simp [lefts, ih]

@[simp] theorem lefts_map_inr (xs : List ν) : lefts (xs.map (.inr : ν → Part α ν)) = [] := by
  induction xs with
  | nil => rfl
  | cons x xs ih => simp [lefts, ih]

theorem mem_lefts {a : α} : a ∈ lefts ps ↔ .inl a ∈ ps := by
  induction ps with
  | nil => simp [lefts]
  | cons p ps ih => cases p <;> simp [lefts, ih]

theorem mem_rights {x : ν} : x ∈ rights ps ↔ .inr x ∈ ps := by
  induction ps with
  | nil => simp [rights]
  | cons p ps ih => cases p <;> simp [rights, ih]

theorem rights_map (f : α → β) (g : ν → μ) :
    rights (ps.map (Sum.map f g)) = (rights ps).map g := by
  induction ps with
  | nil => rfl
  | cons p ps ih => cases p <;> simp [rights, ih]

end Lists

namespace Node

theorem children_eq_lefts (n : Node α ν) : n.children = lefts n.parts := by
  cases n with
  | varDecl kind ds =>
    induction ds with
    | nil => rfl
    | cons d ds ih =>
      obtain ⟨name, init⟩ := d
      cases init <;> simp_all [children, parts, Declarator.parts, lefts]
  | classDecl name superclass ms =>
    have h : lefts (ms.flatMap (·.parts)) = ms.map (·.function) := by
      induction ms with
      | nil => rfl
      | cons m ms ih =>
        rw [List.flatMap_cons, lefts_append, ih]
        rfl
    simp [children, parts, lefts, h]
  | object ps =>
    induction ps with
    | nil => rfl
    | cons p ps ih =>
      obtain ⟨key, value⟩ := p
      cases key <;> simp_all [children, parts, Property.parts, Key.parts, lefts]
  | tryStmt body handler finalizer =>
    rcases handler with _ | ⟨param, body⟩
    · simp [children, parts, lefts]
    · cases param <;> simp [children, parts, Catch.parts, lefts]
  | functionExpr name params body => cases name <;> simp [children, parts, lefts]
  | _ => simp [children, parts, lefts]

theorem mem_children {n : Node α ν} {a : α} : a ∈ n.children ↔ .inl a ∈ n.parts := by
  rw [children_eq_lefts, mem_lefts]

theorem mem_names {n : Node α ν} {x : ν} : x ∈ n.names ↔ .inr x ∈ n.parts :=
  mem_rights _

/-! ## Mapping -/

theorem parts_map (f : α → β) (g : ν → μ) (n : Node α ν) :
    (n.map f g).parts = n.parts.map (Sum.map f g) := by
  cases n with
  | varDecl kind ds =>
    have h : ∀ d : Declarator α ν, (d.map f g).parts = d.parts.map (Sum.map f g) := by
      rintro ⟨name, _ | init⟩ <;> rfl
    simp [map, parts, List.flatMap_map, List.map_flatMap, h]
  | classDecl name superclass ms =>
    have h : ∀ m : Method α ν, (m.map f g).parts = m.parts.map (Sum.map f g) := fun m => rfl
    simp [map, parts, List.flatMap_map, List.map_flatMap, h, Function.comp_def, Option.toList_map]
  | object ps =>
    have h : ∀ p : Property α ν, (p.map f g).parts = p.parts.map (Sum.map f g) := by
      rintro ⟨_ | _ | _, value⟩ <;> rfl
    simp [map, parts, List.flatMap_map, List.map_flatMap, h]
  | tryStmt body handler finalizer =>
    rcases handler with _ | ⟨param, body⟩ <;>
      simp [map, parts, Catch.map, Catch.parts, Function.comp_def, Option.toList_map]
  | _ => simp [map, parts, Function.comp_def, Option.toList_map]

theorem names_map (f : α → β) (g : ν → μ) (n : Node α ν) :
    (n.map f g).names = n.names.map g := by
  rw [names, parts_map, rights_map, names]

theorem map_map (f : α → β) (g : ν → μ) (f' : β → γ) (g' : μ → ρ) (n : Node α ν) :
    (n.map f g).map f' g' = n.map (fun a => f' (f a)) (fun x => g' (g x)) := by
  have hk : ∀ k : Key ν, (k.map g).map g' = k.map fun x => g' (g x) := by
    rintro (_ | _ | _) <;> rfl
  cases n <;>
    simp [map, Declarator.map, Method.map, Catch.map, Property.map, hk, Function.comp_def]

theorem map_id (n : Node α ν) : n.map (fun a => a) (fun x => x) = n := by
  have hk : ∀ k : Key ν, k.map (fun x => x) = k := by
    rintro (_ | _ | _) <;> rfl
  cases n <;> simp [map, Declarator.map, Method.map, Catch.map, Property.map, hk]

/-- Where two pairs of functions agree on the parts, they give the same node. -/
theorem map_congr_parts {f f' : α → β} {g g' : ν → μ} {n : Node α ν}
    (hf : ∀ a ∈ n.children, f a = f' a) (hg : ∀ x ∈ n.names, g x = g' x) :
    n.map f g = n.map f' g' := by
  have options : ∀ o : Option α, (∀ a ∈ o, f a = f' a) → o.map f = o.map f' := by
    rintro (_ | a) h
    · rfl
    · rw [Option.map_some, Option.map_some, h a rfl]
  simp only [mem_children, mem_names] at hf hg
  cases n with
  | varDecl kind ds =>
    refine congrArg (Node.varDecl kind) (List.map_congr_left fun d hd => ?_)
    simp only [parts, List.mem_flatMap] at hf hg
    rw [Declarator.map, Declarator.map, hg d.name ⟨d, hd, by simp [Declarator.parts]⟩,
      options d.init fun a ha => hf a ⟨d, hd, by simpa [Declarator.parts] using ha⟩]
  | classDecl name superclass ms =>
    simp only [parts, List.mem_cons, List.mem_append, List.mem_flatMap] at hf hg
    have hm : ms.map (·.map f g) = ms.map (·.map f' g') := by
      refine List.map_congr_left fun m hm => ?_
      rw [Method.map, Method.map, hg m.name (.inr (.inr ⟨m, hm, by simp [Method.parts]⟩)),
        hf m.function (.inr (.inr ⟨m, hm, by simp [Method.parts]⟩))]
    rw [map, map, hm, hg name (.inl rfl),
      options superclass fun a ha => hf a (.inr (.inl (by simpa using ha)))]
  | object ps =>
    refine congrArg Node.object (List.map_congr_left fun p hp => ?_)
    simp only [parts, List.mem_flatMap] at hf hg
    have hk : p.key.map g = p.key.map g' := by
      rcases hkey : p.key with name | raw | raw
      · rw [Key.map, Key.map, hg name ⟨p, hp, by simp [Property.parts, hkey, Key.parts]⟩]
      · rfl
      · rfl
    rw [Property.map, Property.map, hk, hf p.value ⟨p, hp, by simp [Property.parts]⟩]
  | tryStmt body handler finalizer =>
    simp only [parts, List.mem_cons, List.mem_append, List.mem_flatMap] at hf hg
    have hh : handler.map (·.map f g) = handler.map (·.map f' g') := by
      rcases handler with _ | ⟨param, inside⟩
      · rfl
      · have hp : param.map g = param.map g' := by
          rcases param with _ | x
          · rfl
          · rw [Option.map_some, Option.map_some,
              hg x (.inr (.inl ⟨⟨some x, inside⟩, by simp, by simp [Catch.parts]⟩))]
        rw [Option.map_some, Option.map_some, Catch.map, Catch.map, hp,
          hf inside (.inr (.inl ⟨⟨param, inside⟩, by simp, by simp [Catch.parts]⟩))]
    rw [map, map, hh, hf body (.inl rfl),
      options finalizer fun a ha => hf a (.inr (.inr (by simpa using ha)))]
  | functionExpr name params body =>
    simp only [parts, List.mem_append, List.mem_singleton] at hf hg
    have hn : name.map g = name.map g' := by
      rcases name with _ | x
      · rfl
      · rw [Option.map_some, Option.map_some, hg x (.inl (by simp))]
    have hp : params.map g = params.map g' :=
      List.map_congr_left fun x hx => hg x (.inr (.inl (by simpa using hx)))
    rw [map, map, hn, hp, hf body (.inr (.inr rfl))]
  | forStmt init test step body =>
    simp only [parts, List.mem_append] at hf
    rw [map, map, options init fun a ha => hf a (.inl (by simpa using ha)),
      options test fun a ha => hf a (.inr (.inl (by simpa using ha))),
      options step fun a ha => hf a (.inr (.inr (.inl (by simpa using ha)))),
      hf body (.inr (.inr (.inr (by simp))))]
  | _ => simp_all [map, parts]

theorem option_mapM_map {M : Type → Type} [Monad M] (f : α → β) (h : β → M γ) (o : Option α) :
    (o.map f).mapM h = o.mapM fun a => h (f a) := by
  cases o <;> rfl

/-- Going through an image is going through the original. -/
theorem traverse_map {M : Type → Type} [Monad M] [LawfulMonad M] (f : α → β) (g : ν → μ)
    (h : β → M γ) (k : μ → M ρ) (n : Node α ν) :
    (n.map f g).traverse h k = n.traverse (fun a => h (f a)) fun x => k (g x) := by
  have declarators : ∀ d : Declarator α ν,
      (d.map f g).traverse h k = d.traverse (fun a => h (f a)) fun x => k (g x) := by
    intro d
    rw [Declarator.traverse, Declarator.map, option_mapM_map]
    rfl
  have methods : ∀ m : Method α ν,
      (m.map f g).traverse h k = m.traverse (fun a => h (f a)) fun x => k (g x) := fun _ => rfl
  have catches : ∀ c : Catch α ν,
      (c.map f g).traverse h k = c.traverse (fun a => h (f a)) fun x => k (g x) := by
    intro c
    rw [Catch.traverse, Catch.map, option_mapM_map]
    rfl
  have properties : ∀ p : Property α ν,
      (p.map f g).traverse h k = p.traverse (fun a => h (f a)) fun x => k (g x) := by
    rintro ⟨_ | _ | _, value⟩ <;> rfl
  cases n <;>
    simp only [map, traverse, List.mapM_map, option_mapM_map, declarators, methods, catches,
      properties, Function.comp_def]

end Node

/-! ## Going through the parts with a state -/

section Runs

variable (f : α → StateM S β) (g : ν → StateM S μ)

/-- What happens to a state while `f` is run on the children and `g` on the names of a list of
parts, one after the other; each part stands next to its result. -/
inductive Runs : List (Part (α × β) (ν × μ)) → S → S → Prop where
  | nil (s : S) : Runs [] s s
  | child {a : α} {ps : List (Part (α × β) (ν × μ))} {s s' : S} :
    Runs ps (f a s).2 s' → Runs (.inl (a, (f a s).1) :: ps) s s'
  | name {x : ν} {ps : List (Part (α × β) (ν × μ))} {s s' : S} :
    Runs ps (g x s).2 s' → Runs (.inr (x, (g x s).1) :: ps) s s'

variable {f g}

namespace Runs

theorem one_child (a : α) (s : S) : Runs f g [.inl (a, (f a s).1)] s (f a s).2 :=
  .child (.nil _)

theorem one_name (x : ν) (s : S) : Runs f g [.inr (x, (g x s).1)] s (g x s).2 :=
  .name (.nil _)

theorem append {ps qs : List (Part (α × β) (ν × μ))} {s s' s'' : S} (h : Runs f g ps s s')
    (h' : Runs f g qs s' s'') : Runs f g (ps ++ qs) s s'' := by
  induction h with
  | nil => exact h'
  | child _ ih => exact .child (ih h')
  | name _ ih => exact .name (ih h')

/-- A list whose members are gone through one after the other: each of them stands for a list of
parts, and its results stand in its own place. -/
theorem exists_mapM {X Y Z : Type} {F : X → StateM S Y} {p : Z → List (Part (α × β) (ν × μ))}
    {l : Z → X} {r : Z → Y}
    (h : ∀ x s, ∃ z, l z = x ∧ r z = (F x s).1 ∧ Runs f g (p z) s (F x s).2) (xs : List X) (s : S) :
    ∃ zs : List Z, zs.map l = xs ∧ zs.map r = (xs.mapM F s).1 ∧
      Runs f g (zs.flatMap p) s (xs.mapM F s).2 := by
  induction xs generalizing s with
  | nil => exact ⟨[], rfl, rfl, .nil s⟩
  | cons x xs ih =>
    obtain ⟨z, hl, hr, hz⟩ := h x s
    obtain ⟨zs, hls, hrs, hzs⟩ := ih (F x s).2
    rw [List.mapM_cons]
    refine ⟨z :: zs, by rw [List.map_cons, hl, hls], ?_, ?_⟩
    · rw [List.map_cons, hr, hrs]
      rfl
    · rw [List.flatMap_cons]
      exact hz.append hzs

/-- The same of what may be missing. -/
theorem exists_mapM_option {X Y Z : Type} {F : X → StateM S Y}
    {p : Z → List (Part (α × β) (ν × μ))} {l : Z → X} {r : Z → Y}
    (h : ∀ x s, ∃ z, l z = x ∧ r z = (F x s).1 ∧ Runs f g (p z) s (F x s).2) (o : Option X)
    (s : S) :
    ∃ z : Option Z, z.map l = o ∧ z.map r = (o.mapM F s).1 ∧
      Runs f g (z.toList.flatMap p) s (o.mapM F s).2 := by
  rcases o with _ | x
  · exact ⟨none, rfl, rfl, .nil s⟩
  · obtain ⟨z, hl, hr, hz⟩ := h x s
    refine ⟨some z, by rw [Option.map_some, hl], by rw [Option.map_some, hr]; rfl, ?_⟩
    rw [Option.toList_some, List.flatMap_singleton]
    exact hz

theorem exists_children (xs : List α) (s : S) :
    ∃ zs : List (α × β), zs.map Prod.fst = xs ∧ zs.map Prod.snd = (xs.mapM f s).1 ∧
      Runs f g (zs.map .inl) s (xs.mapM f s).2 := by
  have h := exists_mapM (f := f) (g := g) (F := f) (p := fun z => [.inl z]) (l := Prod.fst)
    (r := Prod.snd) (fun x s => ⟨(x, (f x s).1), rfl, rfl, one_child x s⟩) xs s
  simpa only [← List.map_eq_flatMap] using h

theorem exists_names (xs : List ν) (s : S) :
    ∃ zs : List (ν × μ), zs.map Prod.fst = xs ∧ zs.map Prod.snd = (xs.mapM g s).1 ∧
      Runs f g (zs.map .inr) s (xs.mapM g s).2 := by
  have h := exists_mapM (f := f) (g := g) (F := g) (p := fun z => [.inr z]) (l := Prod.fst)
    (r := Prod.snd) (fun x s => ⟨(x, (g x s).1), rfl, rfl, one_name x s⟩) xs s
  simpa only [← List.map_eq_flatMap] using h

theorem exists_child? (o : Option α) (s : S) :
    ∃ z : Option (α × β), z.map Prod.fst = o ∧ z.map Prod.snd = (o.mapM f s).1 ∧
      Runs f g (z.toList.map .inl) s (o.mapM f s).2 := by
  have h := exists_mapM_option (f := f) (g := g) (F := f) (p := fun z => [.inl z])
    (l := Prod.fst) (r := Prod.snd) (fun x s => ⟨(x, (f x s).1), rfl, rfl, one_child x s⟩) o s
  simpa only [← List.map_eq_flatMap] using h

theorem exists_name? (o : Option ν) (s : S) :
    ∃ z : Option (ν × μ), z.map Prod.fst = o ∧ z.map Prod.snd = (o.mapM g s).1 ∧
      Runs f g (z.toList.map .inr) s (o.mapM g s).2 := by
  have h := exists_mapM_option (f := f) (g := g) (F := g) (p := fun z => [.inr z])
    (l := Prod.fst) (r := Prod.snd) (fun x s => ⟨(x, (g x s).1), rfl, rfl, one_name x s⟩) o s
  simpa only [← List.map_eq_flatMap] using h

theorem exists_declarators (ds : List (Declarator α ν)) (s : S) :
    ∃ zs : List (Declarator (α × β) (ν × μ)), zs.map (·.map Prod.fst Prod.fst) = ds ∧
      zs.map (·.map Prod.snd Prod.snd) = (ds.mapM (·.traverse f g) s).1 ∧
      Runs f g (zs.flatMap (·.parts)) s (ds.mapM (·.traverse f g) s).2 := by
  refine exists_mapM (fun d s => ?_) ds s
  obtain ⟨init, hl, hr, hi⟩ := exists_child? (f := f) (g := g) d.init (g d.name s).2
  refine ⟨⟨(d.name, (g d.name s).1), init⟩, ?_, ?_, .name hi⟩
  · rw [Declarator.map, hl]
  · rw [Declarator.map, hr]
    rfl

theorem exists_methods (ms : List (Method α ν)) (s : S) :
    ∃ zs : List (Method (α × β) (ν × μ)), zs.map (·.map Prod.fst Prod.fst) = ms ∧
      zs.map (·.map Prod.snd Prod.snd) = (ms.mapM (·.traverse f g) s).1 ∧
      Runs f g (zs.flatMap (·.parts)) s (ms.mapM (·.traverse f g) s).2 := by
  refine exists_mapM (fun m s => ?_) ms s
  exact ⟨⟨(m.name, _), m.isStatic, (m.function, _)⟩, rfl, rfl, .name (one_child _ _)⟩

theorem exists_catch? (o : Option (Catch α ν)) (s : S) :
    ∃ z : Option (Catch (α × β) (ν × μ)), z.map (·.map Prod.fst Prod.fst) = o ∧
      z.map (·.map Prod.snd Prod.snd) = (o.mapM (·.traverse f g) s).1 ∧
      Runs f g (z.toList.flatMap (·.parts)) s (o.mapM (·.traverse f g) s).2 := by
  refine exists_mapM_option (fun h s => ?_) o s
  obtain ⟨param, hl, hr, hp⟩ := exists_name? (f := f) (g := g) h.param s
  refine ⟨⟨param, (h.body, _)⟩, ?_, ?_, hp.append (one_child _ _)⟩
  · rw [Catch.map, hl]
  · rw [Catch.map, hr]
    rfl

theorem exists_properties (ps : List (Property α ν)) (s : S) :
    ∃ zs : List (Property (α × β) (ν × μ)), zs.map (·.map Prod.fst Prod.fst) = ps ∧
      zs.map (·.map Prod.snd Prod.snd) = (ps.mapM (·.traverse f g) s).1 ∧
      Runs f g (zs.flatMap (·.parts)) s (ps.mapM (·.traverse f g) s).2 := by
  refine exists_mapM (fun p s => ?_) ps s
  obtain ⟨key, value⟩ := p
  rcases key with name | raw | raw
  · exact ⟨⟨.word (name, _), (value, _)⟩, rfl, rfl, .name (one_child _ _)⟩
  · exact ⟨⟨.quoted raw, (value, _)⟩, rfl, rfl, one_child _ _⟩
  · exact ⟨⟨.number raw, (value, _)⟩, rfl, rfl, one_child _ _⟩

end Runs

open Runs in
/-- Going through a node runs `f` on the children and `g` on the names in source order; the results
stand where the parts stood. -/
theorem exists_runs_traverse (n : Node α ν) (s : S) :
    ∃ z : Node (α × β) (ν × μ), z.map Prod.fst Prod.fst = n ∧
      z.map Prod.snd Prod.snd = (n.traverse f g s).1 ∧
      Runs f g z.parts s (n.traverse f g s).2 := by
  cases n with
  | program body =>
    obtain ⟨zs, hl, hr, h⟩ := exists_children (f := f) (g := g) body s
    exact ⟨.program zs, congrArg Node.program hl, congrArg Node.program hr, h⟩
  | block body =>
    obtain ⟨zs, hl, hr, h⟩ := exists_children (f := f) (g := g) body s
    exact ⟨.block zs, congrArg Node.block hl, congrArg Node.block hr, h⟩
  | array items =>
    obtain ⟨zs, hl, hr, h⟩ := exists_children (f := f) (g := g) items s
    exact ⟨.array zs, congrArg Node.array hl, congrArg Node.array hr, h⟩
  | sequence items =>
    obtain ⟨zs, hl, hr, h⟩ := exists_children (f := f) (g := g) items s
    exact ⟨.sequence zs, congrArg Node.sequence hl, congrArg Node.sequence hr, h⟩
  | varDecl kind ds =>
    obtain ⟨zs, hl, hr, h⟩ := exists_declarators (f := f) (g := g) ds s
    exact ⟨.varDecl kind zs, congrArg (Node.varDecl kind) hl, congrArg (Node.varDecl kind) hr, h⟩
  | object ps =>
    obtain ⟨zs, hl, hr, h⟩ := exists_properties (f := f) (g := g) ps s
    exact ⟨.object zs, congrArg Node.object hl, congrArg Node.object hr, h⟩
  | functionDecl name params body =>
    obtain ⟨zs, hl, hr, h⟩ := exists_names (f := f) (g := g) params (g name s).2
    exact ⟨.functionDecl (name, _) zs (body, _),
      congrArg (fun ps => Node.functionDecl name ps body) hl,
      congrArg (fun ps => Node.functionDecl _ ps _) hr, .name (h.append (one_child _ _))⟩
  | classDecl name superclass ms =>
    obtain ⟨z, hl, hr, h⟩ := exists_child? (f := f) (g := g) superclass (g name s).2
    obtain ⟨zs, hls, hrs, hs⟩ := exists_methods (f := f) (g := g) ms
      (superclass.mapM f (g name s).2).2
    refine ⟨.classDecl (name, _) z zs, ?_, ?_, .name (h.append hs)⟩
    · rw [Node.map, hl, hls]
    · rw [Node.map, hr, hrs]
      rfl
  | returnStmt arg =>
    obtain ⟨z, hl, hr, h⟩ := exists_child? (f := f) (g := g) arg s
    exact ⟨.returnStmt z, congrArg Node.returnStmt hl, congrArg Node.returnStmt hr, h⟩
  | ifStmt test consequent alternate =>
    obtain ⟨z, hl, hr, h⟩ := exists_child? (f := f) (g := g) alternate (f consequent (f test s).2).2
    exact ⟨.ifStmt (test, _) (consequent, _) z, congrArg (Node.ifStmt test consequent) hl,
      congrArg (Node.ifStmt _ _) hr, .child (.child h)⟩
  | forStmt init test step body =>
    obtain ⟨i, hil, hir, hi⟩ := exists_child? (f := f) (g := g) init s
    obtain ⟨t, htl, htr, ht⟩ := exists_child? (f := f) (g := g) test (init.mapM f s).2
    obtain ⟨u, hul, hur, hu⟩ := exists_child? (f := f) (g := g) step
      (test.mapM f (init.mapM f s).2).2
    refine ⟨.forStmt i t u (body, _), ?_, ?_, hi.append (ht.append (hu.append (one_child _ _)))⟩
    · rw [Node.map, hil, htl, hul]
    · rw [Node.map, hir, htr, hur]
      rfl
  | switchStmt discriminant cases =>
    obtain ⟨zs, hl, hr, h⟩ := exists_children (f := f) (g := g) cases (f discriminant s).2
    exact ⟨.switchStmt (discriminant, _) zs, congrArg (Node.switchStmt discriminant) hl,
      congrArg (Node.switchStmt _) hr, .child h⟩
  | switchCase test consequent =>
    obtain ⟨z, hl, hr, h⟩ := exists_child? (f := f) (g := g) test s
    obtain ⟨zs, hls, hrs, hs⟩ := exists_children (f := f) (g := g) consequent (test.mapM f s).2
    refine ⟨.switchCase z zs, ?_, ?_, h.append hs⟩
    · rw [Node.map, hl, hls]
    · rw [Node.map, hr, hrs]
      rfl
  | tryStmt body handler finalizer =>
    obtain ⟨z, hl, hr, h⟩ := exists_catch? (f := f) (g := g) handler (f body s).2
    obtain ⟨u, hul, hur, hu⟩ := exists_child? (f := f) (g := g) finalizer
      (handler.mapM (·.traverse f g) (f body s).2).2
    refine ⟨.tryStmt (body, _) z u, ?_, ?_, .child (h.append hu)⟩
    · rw [Node.map, hl, hul]
    · rw [Node.map, hr, hur]
      rfl
  | functionExpr name params body =>
    obtain ⟨z, hl, hr, h⟩ := exists_name? (f := f) (g := g) name s
    obtain ⟨zs, hls, hrs, hs⟩ := exists_names (f := f) (g := g) params (name.mapM g s).2
    refine ⟨.functionExpr z zs (body, _), ?_, ?_, h.append (hs.append (one_child _ _))⟩
    · rw [Node.map, hl, hls]
    · rw [Node.map, hr, hrs]
      rfl
  | arrow params body isExpression =>
    obtain ⟨zs, hl, hr, h⟩ := exists_names (f := f) (g := g) params s
    exact ⟨.arrow zs (body, _) isExpression,
      congrArg (fun ps => Node.arrow ps body isExpression) hl,
      congrArg (fun ps => Node.arrow ps _ _) hr, h.append (one_child _ _)⟩
  | call callee args =>
    obtain ⟨zs, hl, hr, h⟩ := exists_children (f := f) (g := g) args (f callee s).2
    exact ⟨.call (callee, _) zs, congrArg (Node.call callee) hl, congrArg (Node.call _) hr,
      .child h⟩
  | newExpr callee args =>
    obtain ⟨zs, hl, hr, h⟩ := exists_children (f := f) (g := g) args (f callee s).2
    exact ⟨.newExpr (callee, _) zs, congrArg (Node.newExpr callee) hl, congrArg (Node.newExpr _) hr,
      .child h⟩
  | forIn left right body =>
    exact ⟨.forIn (left, _) (right, _) (body, _), rfl, rfl, .child (.child (one_child _ _))⟩
  | forOf left right body =>
    exact ⟨.forOf (left, _) (right, _) (body, _), rfl, rfl, .child (.child (one_child _ _))⟩
  | whileStmt test body => exact ⟨.whileStmt (test, _) (body, _), rfl, rfl, .child (one_child _ _)⟩
  | doWhile body test => exact ⟨.doWhile (body, _) (test, _), rfl, rfl, .child (one_child _ _)⟩
  | withStmt scope body => exact ⟨.withStmt (scope, _) (body, _), rfl, rfl, .child (one_child _ _)⟩
  | throwStmt arg => exact ⟨.throwStmt (arg, _), rfl, rfl, one_child _ _⟩
  | exprStmt arg => exact ⟨.exprStmt (arg, _), rfl, rfl, one_child _ _⟩
  | breakStmt => exact ⟨.breakStmt, rfl, rfl, .nil s⟩
  | continueStmt => exact ⟨.continueStmt, rfl, rfl, .nil s⟩
  | empty => exact ⟨.empty, rfl, rfl, .nil s⟩
  | thisExpr => exact ⟨.thisExpr, rfl, rfl, .nil s⟩
  | literal value => exact ⟨.literal value, rfl, rfl, .nil s⟩
  | ident name => exact ⟨.ident (name, _), rfl, rfl, one_name _ _⟩
  | unary op arg => exact ⟨.unary op (arg, _), rfl, rfl, one_child _ _⟩
  | update op leading arg => exact ⟨.update op leading (arg, _), rfl, rfl, one_child _ _⟩
  | binary op lhs rhs => exact ⟨.binary op (lhs, _) (rhs, _), rfl, rfl, .child (one_child _ _)⟩
  | logical op lhs rhs => exact ⟨.logical op (lhs, _) (rhs, _), rfl, rfl, .child (one_child _ _)⟩
  | assign op target value =>
    exact ⟨.assign op (target, _) (value, _), rfl, rfl, .child (one_child _ _)⟩
  | conditional test consequent alternate =>
    exact ⟨.conditional (test, _) (consequent, _) (alternate, _), rfl, rfl,
      .child (.child (one_child _ _))⟩
  | member base name => exact ⟨.member (base, _) (name, _), rfl, rfl, .child (one_name _ _)⟩
  | index base key => exact ⟨.index (base, _) (key, _), rfl, rfl, .child (one_child _ _)⟩

end Runs

end Graft
