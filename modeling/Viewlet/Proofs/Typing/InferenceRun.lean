import Viewlet.Typing.Infer

namespace Viewlet

/-- The name under which the scheme of a unit is entered. -/
def Node.entry? : Node → Option String
  | .typeDefinition .. => none
  | .declaration name _ => some name
  | expression => some expression.render

namespace Infer

/-- The inference succeeds from a counter, with a result and a new counter. -/
def Yields {α : Type} (x : Infer α) (next : TyVar) (a : α) (next' : TyVar) : Prop :=
  x.run.run next = (.ok a, next')

/-- The inference fails from a counter, with an error and a new counter. -/
def Fails {α : Type} (x : Infer α) (next : TyVar) (error : TypeError) (next' : TyVar) : Prop :=
  x.run.run next = (.error error, next')

theorem run_bind {σ α β : Type} (x : ExceptT TypeError (StateM σ) α)
    (f : α → ExceptT TypeError (StateM σ) β) (state : σ) :
    (x >>= f).run.run state = match x.run.run state with
      | (.ok a, middle) => (f a).run.run middle
      | (.error error, middle) => (.error error, middle) := by
  change (match x state with | (result, middle) => ExceptT.bindCont f result middle) =
    match x state with
      | (.ok a, middle) => (f a).run.run middle
      | (.error error, middle) => (.error error, middle)
  rcases x state with ⟨_ | _, middle⟩ <;> rfl

theorem run_bind_of_ok {σ α β : Type} {x : ExceptT TypeError (StateM σ) α}
    {f : α → ExceptT TypeError (StateM σ) β} {state middle : σ} {a : α}
    (h : x.run.run state = (.ok a, middle)) :
    (x >>= f).run.run state = (f a).run.run middle := by
  rw [run_bind, h]

@[simp] theorem yields_pure {α : Type} {a b : α} {next next' : TyVar} :
    (pure a : Infer α).Yields next b next' ↔ b = a ∧ next' = next := by
  constructor
  · intro h
    cases h
    exact ⟨rfl, rfl⟩
  · rintro ⟨rfl, rfl⟩
    rfl

@[simp] theorem yields_bind {α β : Type} {x : Infer α} {f : α → Infer β} {next next' : TyVar}
    {b : β} : (x >>= f).Yields next b next' ↔
      ∃ a middle, x.Yields next a middle ∧ (f a).Yields middle b next' := by
  simp only [Yields, run_bind]
  rcases x.run.run next with ⟨error | a, middle⟩
  · constructor
    · intro h
      cases h
    · rintro ⟨a, middle', h, -⟩
      cases h
  · constructor
    · intro h
      exact ⟨a, middle, rfl, h⟩
    · rintro ⟨a', middle', h, hf⟩
      cases h
      exact hf

@[simp] theorem yields_throw {α : Type} {error : TypeError} {a : α} {next next' : TyVar} :
    ¬(throw error : Infer α).Yields next a next' := by
  intro h
  cases h

@[simp] theorem yields_fresh {v next next' : TyVar} :
    fresh.Yields next v next' ↔ v = next ∧ next' = next + 1 := by
  constructor
  · intro h
    cases h
    exact ⟨rfl, rfl⟩
  · rintro ⟨rfl, rfl⟩
    rfl

@[simp] theorem yields_instantiate {scheme : Scheme} {ty : Ty} {next next' : TyVar} :
    (instantiate scheme).Yields next ty next' ↔
      ty = scheme.instanceFrom next ∧ next' = next + scheme.vars.length := by
  constructor
  · intro h
    cases h
    exact ⟨rfl, rfl⟩
  · rintro ⟨rfl, rfl⟩
    rfl

@[simp] theorem yields_unify {note : Note} {left right : Ty} {s : Subst} {next next' : TyVar} :
    (unify note left right).Yields next s next' ↔
      Viewlet.unify left right = .ok s ∧ next' = next := by
  rw [unify]
  cases Viewlet.unify left right with
  | ok t => simp [eq_comm]
  | error error => simp

section Failing

variable {α β : Type} {x : Infer α} {f : α → Infer β} {next next' middle : TyVar}
  {error : TypeError} {a : α}

theorem fails_bind (h : x.Fails next error next') : (x >>= f).Fails next error next' := by
  rw [Fails, run_bind, h]

theorem fails_bind_of_yields (hx : x.Yields next a middle) (h : (f a).Fails middle error next') :
    (x >>= f).Fails next error next' :=
  (run_bind_of_ok hx).trans h

theorem fails_unify {left right : Ty} {error : UnifyError}
    (h : Viewlet.unify left right = .error error) (note : Note) (next : TyVar) :
    (Holding.composed.unify note left right).Fails next (.ofUnifyError (some note) error) next := by
  rw [composed_unify, unify, h]
  rfl

end Failing

attribute [local simp] nodeBy conditionsBy branchesBy

variable {env : TypeEnv} {next next' : TyVar} {s : Subst} {ty : Ty}

theorem yields_integer {value : Int64} : (node env (.integer value)).Yields next (s, ty) next' ↔
    s = .empty ∧ ty = .number next ∧ next' = next + 1 := by
  rw [node, nodeBy]
  simp only [composed_infer, composed_nothing, yields_bind, yields_fresh, yields_pure,
    Prod.mk.injEq]
  constructor
  · rintro ⟨v, middle, ⟨rfl, rfl⟩, ⟨rfl, rfl⟩, rfl⟩
    exact ⟨rfl, rfl, rfl⟩
  · rintro ⟨rfl, rfl, rfl⟩
    exact ⟨next, next + 1, ⟨rfl, rfl⟩, ⟨rfl, rfl⟩, rfl⟩

theorem yields_float {value : Float} : (node env (.float value)).Yields next (s, ty) next' ↔
    s = .empty ∧ ty = .float ∧ next' = next := by
  rw [node, nodeBy, yields_pure, composed_nothing, Prod.mk.injEq, and_assoc]

theorem yields_boolean {value : Bool} : (node env (.boolean value)).Yields next (s, ty) next' ↔
    s = .empty ∧ ty = .bool ∧ next' = next := by
  rw [node, nodeBy, yields_pure, composed_nothing, Prod.mk.injEq, and_assoc]

theorem yields_var {name : String} : (node env (.var name)).Yields next (s, ty) next' ↔
    ∃ scheme, env.get? name = some scheme ∧ s = .empty ∧ ty = scheme.instanceFrom next ∧
      next' = next + scheme.vars.length := by
  rw [node, nodeBy]
  cases env.get? name with
  | none => simp
  | some scheme =>
      simp only [composed_infer, composed_nothing, yields_bind, yields_instantiate, yields_pure,
        Prod.mk.injEq, Option.some.injEq, exists_eq_left']
      constructor
      · rintro ⟨instance', middle, ⟨rfl, rfl⟩, ⟨rfl, rfl⟩, rfl⟩
        exact ⟨rfl, rfl, rfl⟩
      · rintro ⟨rfl, rfl, rfl⟩
        exact ⟨_, _, ⟨rfl, rfl⟩, ⟨rfl, rfl⟩, rfl⟩

theorem yields_function {parameter : String} {body : Node} :
    (node env (.function parameter body)).Yields next (s, ty) next' ↔
      ∃ bodyTy, (node (env.insert parameter ⟨[], .var next⟩) body).Yields (next + 1)
        (s, bodyTy) next' ∧ ty = .func (s.apply (.var next)) bodyTy := by
  rw [node, nodeBy]
  simp only [composed_infer, composed_apply, yields_bind, yields_fresh, yields_pure, Prod.exists,
    Prod.mk.injEq]
  constructor
  · rintro ⟨v, middle, ⟨rfl, rfl⟩, s', bodyTy, middle', hbody, ⟨rfl, rfl⟩, rfl⟩
    exact ⟨bodyTy, hbody, rfl⟩
  · rintro ⟨bodyTy, hbody, rfl⟩
    exact ⟨next, next + 1, ⟨rfl, rfl⟩, s, bodyTy, next', hbody, ⟨rfl, rfl⟩, rfl⟩

theorem yields_apply {callee argument : Node} :
    (node env (.apply callee argument)).Yields next (s, ty) next' ↔
      ∃ s₁ calleeTy next₁ s₂ argumentTy next₂ s₃,
        (node env callee).Yields next (s₁, calleeTy) next₁ ∧
        (node (env.subst s₁) argument).Yields next₁ (s₂, argumentTy) next₂ ∧
        Viewlet.unify (s₂.apply calleeTy) (.func argumentTy (.var next₂)) = .ok s₃ ∧
        s = (s₃.compose s₂).compose s₁ ∧ ty = s.apply (.var next₂) ∧ next' = next₂ + 1 := by
  rw [node, nodeBy]
  simp only [composed_infer, composed_subst, composed_unify, composed_compose, composed_apply,
    pure_bind, yields_bind, yields_fresh, yields_unify, yields_pure, Prod.exists, Prod.mk.injEq]
  constructor
  · rintro ⟨s₁, calleeTy, next₁, hcallee, s₂, argumentTy, next₂, hargument, v, middle,
      ⟨rfl, rfl⟩, s₃, last, ⟨hunify, rfl⟩, ⟨rfl, rfl⟩, rfl⟩
    exact ⟨s₁, calleeTy, next₁, s₂, argumentTy, v, s₃, hcallee, hargument, hunify, rfl, rfl, rfl⟩
  · rintro ⟨s₁, calleeTy, next₁, s₂, argumentTy, next₂, s₃, hcallee, hargument, hunify, rfl, rfl,
      rfl⟩
    exact ⟨s₁, calleeTy, next₁, hcallee, s₂, argumentTy, next₂, hargument, next₂, next₂ + 1,
      ⟨rfl, rfl⟩, s₃, next₂ + 1, ⟨hunify, rfl⟩, ⟨rfl, rfl⟩, rfl⟩

theorem yields_logical {op : BinOp} {left right : Node} (hop : op.isLogical = true) :
    (node env (.binary op left right)).Yields next (s, ty) next' ↔
      ∃ s₁ leftTy next₁ s₂ rightTy s₃ s₄,
        (node env left).Yields next (s₁, leftTy) next₁ ∧
        (node (env.subst s₁) right).Yields next₁ (s₂, rightTy) next' ∧
        Viewlet.unify (s₂.apply leftTy) .bool = .ok s₃ ∧
        Viewlet.unify (s₃.apply rightTy) .bool = .ok s₄ ∧
        s = ((s₄.compose s₃).compose s₂).compose s₁ ∧ ty = .bool := by
  rw [node, nodeBy]
  simp only [hop, if_true, composed_subst, composed_unify, composed_compose, composed_apply,
    pure_bind, yields_bind, yields_unify, yields_pure, Prod.exists, Prod.mk.injEq]
  constructor
  · rintro ⟨s₁, leftTy, next₁, hleft, s₂, rightTy, next₂, hright, s₃, middle, ⟨hfirst, rfl⟩, s₄,
      last, ⟨hsecond, rfl⟩, ⟨rfl, rfl⟩, rfl⟩
    exact ⟨s₁, leftTy, next₁, s₂, rightTy, s₃, s₄, hleft, hright, hfirst, hsecond, rfl, rfl⟩
  · rintro ⟨s₁, leftTy, next₁, s₂, rightTy, s₃, s₄, hleft, hright, hfirst, hsecond, rfl, rfl⟩
    exact ⟨s₁, leftTy, next₁, hleft, s₂, rightTy, next', hright, s₃, next', ⟨hfirst, rfl⟩, s₄,
      next', ⟨hsecond, rfl⟩, ⟨rfl, rfl⟩, rfl⟩

theorem yields_numeric {op : BinOp} {left right : Node} (hop : op.isLogical = false) :
    (node env (.binary op left right)).Yields next (s, ty) next' ↔
      ∃ s₁ leftTy next₁ s₂ rightTy next₂ s₃ s₄,
        (node env left).Yields next (s₁, leftTy) next₁ ∧
        (node (env.subst s₁) right).Yields next₁ (s₂, rightTy) next₂ ∧
        Viewlet.unify (s₂.apply leftTy) rightTy = .ok s₃ ∧
        Viewlet.unify (s₃.apply rightTy) (.number next₂) = .ok s₄ ∧
        s = ((s₄.compose s₃).compose s₂).compose s₁ ∧
        ty = (if op.isComparison then .bool else s.apply (s₃.apply rightTy)) ∧
        next' = next₂ + 1 := by
  rw [node, nodeBy]
  simp only [hop, Bool.false_eq_true, if_false, composed_infer, composed_subst, composed_unify,
    composed_compose, composed_apply, pure_bind, yields_bind, yields_fresh, yields_unify,
    yields_pure, Prod.exists, Prod.mk.injEq]
  constructor
  · rintro ⟨s₁, leftTy, next₁, hleft, s₂, rightTy, next₂, hright, s₃, middle, ⟨hfirst, rfl⟩, v,
      middle', ⟨rfl, rfl⟩, s₄, last, ⟨hsecond, rfl⟩, ⟨rfl, rfl⟩, rfl⟩
    exact ⟨s₁, leftTy, next₁, s₂, rightTy, v, s₃, s₄, hleft, hright, hfirst, hsecond, rfl, rfl,
      rfl⟩
  · rintro ⟨s₁, leftTy, next₁, s₂, rightTy, next₂, s₃, s₄, hleft, hright, hfirst, hsecond, rfl,
      rfl, rfl⟩
    exact ⟨s₁, leftTy, next₁, hleft, s₂, rightTy, next₂, hright, s₃, next₂, ⟨hfirst, rfl⟩, next₂,
      next₂ + 1, ⟨rfl, rfl⟩, s₄, next₂ + 1, ⟨hsecond, rfl⟩, ⟨rfl, rfl⟩, rfl⟩

theorem yields_negation {operand : Node} :
    (node env (.negation operand)).Yields next (s, ty) next' ↔
      ∃ s₁ operandTy s₂, (node env operand).Yields next (s₁, operandTy) next' ∧
        Viewlet.unify operandTy .bool = .ok s₂ ∧ s = s₂.compose s₁ ∧ ty = .bool := by
  rw [node, nodeBy]
  simp only [composed_unify, composed_compose, yields_bind, yields_unify, yields_pure, Prod.exists,
    Prod.mk.injEq]
  constructor
  · rintro ⟨s₁, operandTy, next₁, hoperand, s₂, middle, ⟨hunify, rfl⟩, ⟨rfl, rfl⟩, rfl⟩
    exact ⟨s₁, operandTy, s₂, hoperand, hunify, rfl, rfl⟩
  · rintro ⟨s₁, operandTy, s₂, hoperand, hunify, rfl, rfl⟩
    exact ⟨s₁, operandTy, next', hoperand, s₂, next', ⟨hunify, rfl⟩, ⟨rfl, rfl⟩, rfl⟩

theorem yields_ifElse {conditions branches : List Node} :
    (node env (.ifElse conditions branches)).Yields next (s, ty) next' ↔
      ∃ s₁ next₁,
        (conditionsFrom env (.expression (.ifElse conditions branches)) .empty
          conditions).Yields (next + 1) s₁ next₁ ∧
        (branchesFrom env (.expression (.ifElse conditions branches)) (.var next) s₁
          branches).Yields next₁ s next' ∧
        ty = s.apply (.var next) := by
  rw [node, nodeBy]
  simp only [composed_infer, composed_nothing, composed_apply, yields_bind, yields_fresh,
    yields_pure, Prod.mk.injEq]
  constructor
  · rintro ⟨v, middle, ⟨rfl, rfl⟩, s₁, next₁, hconditions, s₂, next₂, hbranches, ⟨rfl, rfl⟩, rfl⟩
    exact ⟨s₁, next₁, hconditions, hbranches, rfl⟩
  · rintro ⟨s₁, next₁, hconditions, hbranches, rfl⟩
    exact ⟨next, next + 1, ⟨rfl, rfl⟩, s₁, next₁, hconditions, s, next', hbranches, ⟨rfl, rfl⟩,
      rfl⟩

theorem yields_conditions_nil {note : Note} {t : Subst} :
    (conditionsFrom env note t []).Yields next s next' ↔ s = t ∧ next' = next := by
  rw [conditionsFrom, conditionsBy, yields_pure]

theorem yields_conditions_cons {note : Note} {condition : Node} {rest : List Node} {t : Subst} :
    (conditionsFrom env note t (condition :: rest)).Yields next s next' ↔
      ∃ s₁ conditionTy next₁ s₂,
        (node (env.subst t) condition).Yields next (s₁, conditionTy) next₁ ∧
        Viewlet.unify conditionTy .bool = .ok s₂ ∧
        (conditionsFrom env note (s₂.compose (s₁.compose t)) rest).Yields next₁ s next' := by
  rw [conditionsFrom, conditionsBy]
  simp only [composed_subst, composed_unify, composed_compose, pure_bind, yields_bind, yields_unify,
    Prod.exists]
  constructor
  · rintro ⟨s₁, conditionTy, next₁, hcondition, s₂, middle, ⟨hunify, rfl⟩, hrest⟩
    exact ⟨s₁, conditionTy, _, s₂, hcondition, hunify, hrest⟩
  · rintro ⟨s₁, conditionTy, next₁, s₂, hcondition, hunify, hrest⟩
    exact ⟨s₁, conditionTy, next₁, hcondition, s₂, next₁, ⟨hunify, rfl⟩, hrest⟩

theorem yields_branches_nil {note : Note} {t : Subst} {resultTy : Ty} :
    (branchesFrom env note resultTy t []).Yields next s next' ↔ s = t ∧ next' = next := by
  rw [branchesFrom, branchesBy, yields_pure]

theorem yields_branches_cons {note : Note} {branch : Node} {rest : List Node} {t : Subst}
    {resultTy : Ty} :
    (branchesFrom env note resultTy t (branch :: rest)).Yields next s next' ↔
      ∃ s₁ branchTy next₁ s₂,
        (node (env.subst t) branch).Yields next (s₁, branchTy) next₁ ∧
        Viewlet.unify ((s₁.compose t).apply resultTy) branchTy = .ok s₂ ∧
        (branchesFrom env note resultTy (s₂.compose (s₁.compose t)) rest).Yields next₁ s
          next' := by
  rw [branchesFrom, branchesBy]
  simp only [composed_subst, composed_unify, composed_compose, composed_apply, pure_bind,
    yields_bind, yields_unify, Prod.exists]
  constructor
  · rintro ⟨s₁, branchTy, next₁, hbranch, s₂, middle, ⟨hunify, rfl⟩, hrest⟩
    exact ⟨s₁, branchTy, _, s₂, hbranch, hunify, hrest⟩
  · rintro ⟨s₁, branchTy, next₁, s₂, hbranch, hunify, hrest⟩
    exact ⟨s₁, branchTy, next₁, hbranch, s₂, next₁, ⟨hunify, rfl⟩, hrest⟩

theorem yields_declaration {name : String} {body : Node} :
    (node env (.declaration name body)).Yields next (s, ty) next' ↔
      ∃ s₁ bodyTy s₂, (node (env.insert name ⟨[], .var next⟩) body).Yields (next + 1)
          (s₁, bodyTy) next' ∧
        Viewlet.unify (s₁.apply (.var next)) bodyTy = .ok s₂ ∧
        s = s₂.compose s₁ ∧ ty = s.apply bodyTy := by
  rw [node, nodeBy]
  simp only [composed_infer, composed_unify, composed_compose, composed_apply, yields_bind,
    yields_fresh, yields_unify, yields_pure, Prod.exists, Prod.mk.injEq]
  constructor
  · rintro ⟨v, middle, ⟨rfl, rfl⟩, s₁, bodyTy, next₁, hbody, s₂, last, ⟨hunify, rfl⟩, ⟨rfl, rfl⟩,
      rfl⟩
    exact ⟨s₁, bodyTy, s₂, hbody, hunify, rfl, rfl⟩
  · rintro ⟨s₁, bodyTy, s₂, hbody, hunify, rfl, rfl⟩
    exact ⟨next, next + 1, ⟨rfl, rfl⟩, s₁, bodyTy, next', hbody, s₂, next', ⟨hunify, rfl⟩,
      ⟨rfl, rfl⟩, rfl⟩

theorem yields_unit {unit : Node} {env' : TypeEnv} :
    (Infer.unit env unit).Yields next env' next' ↔
      (unit.entry? = none ∧ env' = env ∧ next' = next) ∨
      ∃ name s ty, unit.entry? = some name ∧ (node env unit).Yields next (s, ty) next' ∧
        env' = env.insert name (env.generalize ty) := by
  cases unit with
  | typeDefinition name parameters constructors => simp [Infer.unit, unitBy, Node.entry?]
  | _ =>
      simp only [Infer.unit, unitBy, Node.entry?, yields_bind, yields_pure, Prod.exists,
        Option.some.injEq, reduceCtorEq, false_and, false_or]
      constructor
      · rintro ⟨s, ty, middle, hnode, rfl, rfl⟩
        exact ⟨_, s, ty, rfl, hnode, rfl⟩
      · rintro ⟨name, s, ty, rfl, hnode, rfl⟩
        exact ⟨s, ty, next', hnode, rfl, rfl⟩

theorem yields_units_cons {first : Node} {rest : List Node} {env' : TypeEnv} :
    (units env (first :: rest)).Yields next env' next' ↔
      ∃ env₁ next₁, (Infer.unit env first).Yields next env₁ next₁ ∧
        (units env₁ rest).Yields next₁ env' next' := by
  rw [units, yields_bind]

theorem units_append (env : TypeEnv) (before after : List Node) :
    units env (before ++ after) = units env before >>= fun env' => units env' after := by
  induction before generalizing env with
  | nil => rfl
  | cons first rest ih => simp only [List.cons_append, units, ih, bind_assoc]

theorem units_singleton (env : TypeEnv) (node : Node) : units env [node] = unit env node :=
  bind_pure _

theorem exists_failing_unit {nodes : List Node} {error : TypeError}
    (h : (units env nodes).Fails next error next') :
    ∃ before node after env' middle, nodes = before ++ node :: after ∧
      (units env before).Yields next env' middle ∧
      (unit env' node).Fails middle error next' := by
  induction nodes generalizing env next with
  | nil => cases h
  | cons first rest ih =>
      rw [units, Fails, run_bind] at h
      cases hfirst : (unit env first).run.run next with
      | mk result middle =>
        rw [hfirst] at h
        cases result with
        | error error' => exact ⟨[], first, rest, env, next, rfl, rfl, hfirst.trans h⟩
        | ok env₁ =>
            obtain ⟨before, node, after, env', middle', rfl, hbefore, hfails⟩ := ih h
            exact ⟨first :: before, node, after, env', middle', rfl,
              yields_units_cons.mpr ⟨env₁, middle, hfirst, hbefore⟩, hfails⟩

end Infer

theorem inferTop_eq_ok {nodes : List Node} {env : TypeEnv} :
    inferTop nodes = .ok env ↔ ∃ next, (Infer.units .empty nodes).Yields 0 env next := by
  simp only [inferTop, Infer.Yields]
  rcases (Infer.units .empty nodes).run.run 0 with ⟨result, next⟩
  constructor
  · rintro rfl
    exact ⟨next, rfl⟩
  · rintro ⟨next', h⟩
    exact (Prod.mk.inj h).1

theorem inferTop_eq_error {nodes : List Node} {error : TypeError} :
    inferTop nodes = .error error ↔
      ∃ next, (Infer.units .empty nodes).Fails 0 error next := by
  simp only [inferTop, Infer.Fails]
  rcases (Infer.units .empty nodes).run.run 0 with ⟨result, next⟩
  constructor
  · rintro rfl
    exact ⟨next, rfl⟩
  · rintro ⟨next', h⟩
    exact (Prod.mk.inj h).1

end Viewlet
