import Viewlet.Typing.TypeEnv
import Viewlet.Typing.TypeError

/-!
Type inference. Variables are drawn from a counter that no failure sets back. Inferring a
node gives its type and the substitution that its parts require of the environment. The
rules are written once for every way of holding the unifiers that are found; inference
holds them as one substitution, their composition.
-/

namespace Viewlet

/-- An inference: draws variables from a counter, and gives a result or a type error. -/
abbrev Infer (α : Type) : Type := ExceptT TypeError (StateM TyVar) α

/-- The type of a scheme with its variables replaced by those from `next` on. Numeric
variables stay numeric. -/
def Scheme.instanceFrom (scheme : Scheme) (next : TyVar) : Ty :=
  let fresh := scheme.vars.zipIdx next
  let bindings := fresh.map fun (v, w) =>
    (v, if scheme.ty.numericVars.contains v then Ty.number w else Ty.var w)
  (Subst.ofList bindings).apply scheme.ty

/-- The scheme of a type, general over the variables that the environment leaves free. -/
def TypeEnv.generalize (env : TypeEnv) (ty : Ty) : Scheme :=
  ⟨Ty.ordered (ty.vars.filter fun v => !env.freeVars.contains v), ty⟩

namespace Infer

/-- Draws a variable. -/
def fresh : Infer TyVar :=
  modifyGet fun next => (next, next + 1)

/-- Draws variables for those of a scheme. -/
def instantiate (scheme : Scheme) : Infer Ty :=
  modifyGet fun next => (scheme.instanceFrom next, next + scheme.vars.length)

/-- Makes two types agree. -/
def unify (note : Note) (left right : Ty) : Infer Subst :=
  match Viewlet.unify left right with
  | .ok s => return s
  | .error error => throw (.ofUnifyError (some note) error)

/-- How the unifiers that inference finds are held together, and how what is held is applied
to types and environments. Everything else is inferred as it is. -/
structure Holding (m : Type → Type) (σ : Type) where
  infer : {α : Type} → Infer α → m α
  nothing : σ
  unifier : Subst → σ
  compose : σ → σ → σ
  apply : σ → Ty → Ty
  subst : TypeEnv → σ → m TypeEnv

/-- Makes two types agree, and holds the unifier. -/
def Holding.unify {m : Type → Type} {σ : Type} [Monad m] (held : Holding m σ) (note : Note)
    (left right : Ty) : m σ := do
  return held.unifier (← held.infer (Infer.unify note left right))

/-- The unifiers as one substitution. -/
def Holding.composed : Holding Infer Subst where
  infer := id
  nothing := .empty
  unifier := id
  compose := Subst.compose
  apply := Subst.apply
  subst env s := pure (env.subst s)

@[simp] theorem composed_infer {α : Type} (x : Infer α) : Holding.composed.infer x = x := rfl

@[simp] theorem composed_nothing : Holding.composed.nothing = .empty := rfl

@[simp] theorem composed_compose (s t : Subst) : Holding.composed.compose s t = s.compose t := rfl

@[simp] theorem composed_apply (s : Subst) (ty : Ty) :
    Holding.composed.apply s ty = s.apply ty := rfl

@[simp] theorem composed_subst (env : TypeEnv) (s : Subst) :
    Holding.composed.subst env s = pure (env.subst s) := rfl

@[simp] theorem composed_unify (note : Note) (left right : Ty) :
    Holding.composed.unify note left right = Infer.unify note left right :=
  bind_pure _

section Rules

variable {m : Type → Type} {σ : Type} [Monad m] (held : Holding m σ)

mutual

/-- Infers the type of a node. -/
def nodeBy (env : TypeEnv) : Node → m (σ × Ty)
  | .integer _ => do
      return (held.nothing, .number (← held.infer fresh))
  | .float _ => return (held.nothing, .float)
  | .boolean _ => return (held.nothing, .bool)
  | .var name =>
      match env.get? name with
      | some scheme => do
          return (held.nothing, ← held.infer (instantiate scheme))
      | none => held.infer (throw (.unbound name))
  | .function parameter body => do
      let parameterTy := Ty.var (← held.infer fresh)
      let (s, bodyTy) ← nodeBy (env.insert parameter ⟨[], parameterTy⟩) body
      return (s, .func (held.apply s parameterTy) bodyTy)
  | .apply callee argument => do
      let (s₁, calleeTy) ← nodeBy env callee
      let (s₂, argumentTy) ← nodeBy (← held.subst env s₁) argument
      let resultTy := Ty.var (← held.infer fresh)
      let s₃ ← held.unify (.expression (.apply callee argument)) (held.apply s₂ calleeTy)
        (.func argumentTy resultTy)
      let s := held.compose (held.compose s₃ s₂) s₁
      return (s, held.apply s resultTy)
  | .binary op left right => do
      let note := Note.expression (.binary op left right)
      let (s₁, leftTy) ← nodeBy env left
      let (s₂, rightTy) ← nodeBy (← held.subst env s₁) right
      if op.isLogical then
        let s₃ ← held.unify note (held.apply s₂ leftTy) .bool
        let s₄ ← held.unify note (held.apply s₃ rightTy) .bool
        return (held.compose (held.compose (held.compose s₄ s₃) s₂) s₁, .bool)
      else
        let s₃ ← held.unify note (held.apply s₂ leftTy) rightTy
        let operandTy := held.apply s₃ rightTy
        let s₄ ← held.unify note operandTy (.number (← held.infer fresh))
        let s := held.compose (held.compose (held.compose s₄ s₃) s₂) s₁
        return (s, if op.isComparison then .bool else held.apply s operandTy)
  | .negation operand => do
      let (s₁, operandTy) ← nodeBy env operand
      let s₂ ← held.unify (.expression (.negation operand)) operandTy .bool
      return (held.compose s₂ s₁, .bool)
  | .ifElse conditions branches => do
      let note := Note.expression (.ifElse conditions branches)
      let resultTy := Ty.var (← held.infer fresh)
      let s ← conditionsBy env note held.nothing conditions
      let s ← branchesBy env note resultTy s branches
      return (s, held.apply s resultTy)
  | .declaration name body => do
      let selfTy := Ty.var (← held.infer fresh)
      let (s₁, bodyTy) ← nodeBy (env.insert name ⟨[], selfTy⟩) body
      let s₂ ← held.unify (.declaration name) (held.apply s₁ selfTy) bodyTy
      let s := held.compose s₂ s₁
      return (s, held.apply s bodyTy)
  | .noValue => held.infer (throw (.unsupported .noValue))
  | .typeName name => held.infer (throw (.unsupported (.typeName name)))
  | .typeDefinition name parameters constructors =>
      held.infer (throw (.unsupported (.typeDefinition name parameters constructors)))
  | .construction constructor arguments =>
      held.infer (throw (.unsupported (.construction constructor arguments)))

/-- Infers conditions one after the other, each of which has to be a truth value, and adds
what they require to what is held. -/
def conditionsBy (env : TypeEnv) (note : Note) : σ → List Node → m σ
  | s, [] => return s
  | s, condition :: rest => do
      let (s₁, ty) ← nodeBy (← held.subst env s) condition
      let s₂ ← held.unify note ty .bool
      conditionsBy env note (held.compose s₂ (held.compose s₁ s)) rest

/-- Infers branches one after the other, each of which has to be of the type of the
result, and adds what they require to what is held. -/
def branchesBy (env : TypeEnv) (note : Note) (resultTy : Ty) : σ → List Node → m σ
  | s, [] => return s
  | s, branch :: rest => do
      let (s₁, ty) ← nodeBy (← held.subst env s) branch
      let s := held.compose s₁ s
      let s₂ ← held.unify note (held.apply s resultTy) ty
      branchesBy env note resultTy (held.compose s₂ s) rest

end

/-- The environment after a unit: a declaration is entered under its name, an expression
under its text, and a type definition not at all. -/
def unitBy (env : TypeEnv) : Node → m TypeEnv
  | .typeDefinition .. => return env
  | .declaration name body => do
      let (_, ty) ← nodeBy held env (.declaration name body)
      return env.insert name (env.generalize ty)
  | expression => do
      let (_, ty) ← nodeBy held env expression
      return env.insert expression.render (env.generalize ty)

end Rules

/-- Infers the type of a node. -/
def node (env : TypeEnv) (node : Node) : Infer (Subst × Ty) :=
  nodeBy .composed env node

/-- Infers conditions, and extends a substitution by what they require. -/
def conditionsFrom (env : TypeEnv) (note : Note) (s : Subst) (conditions : List Node) :
    Infer Subst :=
  conditionsBy .composed env note s conditions

/-- Infers branches, and extends a substitution by what they require. -/
def branchesFrom (env : TypeEnv) (note : Note) (resultTy : Ty) (s : Subst)
    (branches : List Node) : Infer Subst :=
  branchesBy .composed env note resultTy s branches

/-- The environment after a unit. -/
def unit (env : TypeEnv) (unit : Node) : Infer TypeEnv :=
  unitBy .composed env unit

/-- The environment after units, up to the first that fails. -/
def units (env : TypeEnv) : List Node → Infer TypeEnv
  | [] => return env
  | first :: rest => do units (← unit env first) rest

end Infer

/-- The environment of a program, or the type error of its first unit that fails. -/
def inferTop (nodes : List Node) : Except TypeError TypeEnv :=
  ((Infer.units .empty nodes).run.run 0).1

/-- Infers all units, and gives after each of them its type error, if it fails, and the
environment. A unit that fails leaves the environment as it was. -/
def traceUnits (env : TypeEnv) (next : TyVar) : List Node → List (Option TypeError × TypeEnv)
  | [] => []
  | first :: rest =>
      match (Infer.unit env first).run.run next with
      | (.ok env', next') => (none, env') :: traceUnits env' next' rest
      | (.error error, next') => (some error, env) :: traceUnits env next' rest

/-- The environment of a program, or the type errors of all its units that fail. -/
def inferProgram (nodes : List Node) : Except (List TypeError) TypeEnv :=
  let trace := traceUnits .empty 0 nodes
  match trace.filterMap (·.1) with
  | [] => .ok ((trace.getLast?.map (·.2)).getD .empty)
  | errors => .error errors

end Viewlet
