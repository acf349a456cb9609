import Viewlet.Proofs.Syntax
import Viewlet.Proofs.Typing.Declarative
import Viewlet.Typing.Infer

/-!
What composing substitutions means. Substitutions that do the same to every type are the same
maps, as a type may use a variable at either kind, so that what a composition does to types says
what it binds. How the parts of a composition are paired does not matter, and inference, which
pairs them in one way at a call and in another way at a conditional, finds what it would find if
it composed nothing and applied one unifier after the other.
-/

namespace Viewlet

namespace Subst

theorem apply_eq_iff_get?_eq {s t : Subst} :
    (∀ ty, s.apply ty = t.apply ty) ↔ ∀ v, s.get? v = t.get? v := by
  constructor
  · intro h v
    -- A variable at one kind is not enough: bound to itself, it is as if it were not bound.
    have hplain := h (.var v)
    have hnumeric := h (.number v)
    simp only [apply] at hplain hnumeric
    cases hs : s.get? v with
    | none =>
        cases ht : t.get? v with
        | none => rfl
        | some image =>
            rw [hs, ht] at hplain hnumeric
            cases hplain.trans hnumeric.symm
    | some image =>
        cases ht : t.get? v with
        | none =>
            rw [hs, ht] at hplain hnumeric
            cases hplain.symm.trans hnumeric
        | some image' =>
            rw [hs, ht] at hplain
            exact congrArg some hplain
  · intro h ty
    exact apply_congr fun v _ => h v

/-- The substitution that makes the steps one after the other, the first one first. -/
def ofSteps : List Subst → Subst
  | [] => empty
  | s :: later => (ofSteps later).compose s

@[simp] theorem ofSteps_singleton (s : Subst) : ofSteps [s] = s :=
  empty_compose s

@[simp] theorem ofSteps_append (earlier later : List Subst) :
    ofSteps (earlier ++ later) = (ofSteps later).compose (ofSteps earlier) := by
  induction earlier with
  | nil => simp [ofSteps]
  | cons s rest ih => rw [List.cons_append, ofSteps, ih, compose_assoc, ofSteps]

/-- A way to put substitutions together in pairs. -/
inductive Bracketing where
  | nothing
  | step (s : Subst)
  | followed (earlier later : Bracketing)
  deriving DecidableEq, Repr

namespace Bracketing

/-- The substitution composed as the brackets say. -/
def subst : Bracketing → Subst
  | .nothing => .empty
  | .step s => s
  | .followed earlier later => later.subst.compose earlier.subst

/-- The substitutions without the brackets, the first one to be applied first. -/
def steps : Bracketing → List Subst
  | .nothing => []
  | .step s => [s]
  | .followed earlier later => earlier.steps ++ later.steps

theorem subst_eq_ofSteps (bracketing : Bracketing) :
    bracketing.subst = ofSteps bracketing.steps := by
  induction bracketing with
  | nothing => rfl
  | step s => exact (ofSteps_singleton s).symm
  | followed earlier later ihe ihl => rw [subst, steps, ofSteps_append, ihe, ihl]

end Bracketing

end Subst

/-- Replaces variables in one step after the other. -/
def Ty.inSteps (ty : Ty) : List Subst → Ty
  | [] => ty
  | s :: later => (s.apply ty).inSteps later

/-- Replaces variables in every scheme in one step after the other. -/
def TypeEnv.inSteps (env : TypeEnv) : List Subst → TypeEnv
  | [] => env
  | s :: later => (env.subst s).inSteps later

theorem Ty.inSteps_eq_apply (ty : Ty) (steps : List Subst) :
    ty.inSteps steps = (Subst.ofSteps steps).apply ty := by
  induction steps generalizing ty with
  | nil => exact (Subst.apply_empty ty).symm
  | cons s later ih => rw [inSteps, ih, Subst.ofSteps, Subst.apply_compose]

theorem TypeEnv.inSteps_eq_subst (env : TypeEnv) (steps : List Subst) :
    env.inSteps steps = env.subst (Subst.ofSteps steps) := by
  induction steps generalizing env with
  | nil => exact (subst_empty env).symm
  | cons s later ih => rw [inSteps, ih, Subst.ofSteps, subst_compose]

namespace Infer

/-- What is held in one way is translated to what is held in another way. -/
structure Holding.Translates {m : Type → Type} {σ σ' : Type} [Monad m] (held : Holding m σ)
    (held' : Holding m σ') (φ : σ → σ') : Prop where
  infer : ∀ {α} (x : Infer α), held'.infer x = held.infer x
  infer_map : ∀ {α β} (f : α → β) (x : Infer α), held.infer (f <$> x) = f <$> held.infer x
  nothing : held'.nothing = φ held.nothing
  unifier : ∀ s, held'.unifier s = φ (held.unifier s)
  compose : ∀ s t, held'.compose (φ s) (φ t) = φ (held.compose s t)
  apply : ∀ s ty, held'.apply (φ s) ty = held.apply s ty
  subst : ∀ env s, held'.subst env (φ s) = held.subst env s

section Translation

attribute [local simp] nodeBy conditionsBy branchesBy

variable {m : Type → Type} {σ σ' : Type} [Monad m] {held : Holding m σ} {held' : Holding m σ'}
  {φ : σ → σ'} {α β : Type} {part : Node}

theorem Holding.Translates.throw (h : held.Translates held' φ) (f : α → β) (error : TypeError) :
    held'.infer (throw error) = f <$> held.infer (throw error) := by
  rw [h.infer, ← h.infer_map]
  rfl

variable [LawfulMonad m]

theorem Holding.Translates.unify (h : held.Translates held' φ) (note : Note) (left right : Ty) :
    held'.unify note left right = φ <$> held.unify note left right := by
  simp only [Holding.unify, h.infer, h.unifier, map_bind, map_pure]

/-- Inferring the node in the second way gives the translation of what the first way gives, in
every environment. -/
def TranslatedAt (held : Holding m σ) (held' : Holding m σ') (φ : σ → σ') (node : Node) : Prop :=
  ∀ env, nodeBy held' env node = Prod.map φ id <$> nodeBy held env node

theorem TranslatedAt.bind {f : σ' × Ty → m β} {g : σ × Ty → m α} {translate : α → β}
    (h : TranslatedAt held held' φ part)
    (hrest : ∀ s ty, f (φ s, ty) = translate <$> g (s, ty)) (env : TypeEnv) :
    nodeBy held' env part >>= f = translate <$> (nodeBy held env part >>= g) := by
  rw [h, bind_map_left, map_bind]
  exact bind_congr fun found => hrest found.1 found.2

theorem TranslatedAt.bind_after {f : σ' × Ty → m β} {g : σ × Ty → m α} {translate : α → β}
    (h : TranslatedAt held held' φ part) (hφ : held.Translates held' φ)
    (hrest : ∀ s ty, f (φ s, ty) = translate <$> g (s, ty)) (env : TypeEnv) (s : σ) :
    (held'.subst env (φ s) >>= fun env' => nodeBy held' env' part >>= f) =
      translate <$> (held.subst env s >>= fun env' => nodeBy held env' part >>= g) := by
  rw [hφ.subst, map_bind]
  exact bind_congr (h.bind hrest)

theorem translated_conditions {conditions : List Node} (hφ : held.Translates held' φ)
    (h : ∀ condition ∈ conditions, TranslatedAt held held' φ condition) (env : TypeEnv)
    (note : Note) (s : σ) :
    conditionsBy held' env note (φ s) conditions =
      φ <$> conditionsBy held env note s conditions := by
  induction conditions generalizing s with
  | nil => rw [conditionsBy, conditionsBy, map_pure]
  | cons condition rest ih =>
      rw [conditionsBy, conditionsBy]
      refine (h condition List.mem_cons_self).bind_after hφ (fun s₁ ty => ?_) env s
      simp only [hφ.unify, hφ.compose, bind_map_left, map_bind]
      refine bind_congr fun s₂ => ?_
      exact ih (fun condition hmem => h condition (List.mem_cons_of_mem _ hmem)) _

theorem translated_branches {branches : List Node} (hφ : held.Translates held' φ)
    (h : ∀ branch ∈ branches, TranslatedAt held held' φ branch) (env : TypeEnv) (note : Note)
    (resultTy : Ty) (s : σ) :
    branchesBy held' env note resultTy (φ s) branches =
      φ <$> branchesBy held env note resultTy s branches := by
  induction branches generalizing s with
  | nil => rw [branchesBy, branchesBy, map_pure]
  | cons branch rest ih =>
      rw [branchesBy, branchesBy]
      refine (h branch List.mem_cons_self).bind_after hφ (fun s₁ ty => ?_) env s
      simp only [hφ.compose, hφ.apply, hφ.unify, bind_map_left, map_bind]
      refine bind_congr fun s₂ => ?_
      exact ih (fun branch hmem => h branch (List.mem_cons_of_mem _ hmem)) _

theorem Holding.Translates.translatedAt (hφ : held.Translates held' φ) (node : Node) :
    TranslatedAt held held' φ node := by
  induction node with
  | noValue | typeName | typeDefinition | construction =>
      intro env
      rw [nodeBy, nodeBy]
      exact hφ.throw _ _
  | integer value =>
      intro env
      simp [hφ.infer, hφ.nothing]
  | float value =>
      intro env
      simp [hφ.nothing]
  | boolean value =>
      intro env
      simp [hφ.nothing]
  | var name =>
      intro env
      rw [nodeBy, nodeBy]
      cases env.get? name with
      | none => exact hφ.throw _ _
      | some scheme => simp [hφ.infer, hφ.nothing]
  | function parameter body ih =>
      intro env
      rw [nodeBy, nodeBy, hφ.infer, map_bind]
      refine bind_congr fun v => ih.bind (fun s bodyTy => ?_) _
      simp [hφ.apply]
  | apply callee argument ihc iha =>
      intro env
      rw [nodeBy, nodeBy]
      refine ihc.bind (fun s₁ calleeTy => ?_) env
      refine iha.bind_after hφ (fun s₂ argumentTy => ?_) env s₁
      simp [hφ.infer, hφ.unify, hφ.compose, hφ.apply]
  | binary op left right ihl ihr =>
      intro env
      rw [nodeBy, nodeBy]
      refine ihl.bind (fun s₁ leftTy => ?_) env
      refine ihr.bind_after hφ (fun s₂ rightTy => ?_) env s₁
      cases op.isLogical with
      | true => simp [hφ.unify, hφ.compose, hφ.apply]
      | false => simp [hφ.infer, hφ.unify, hφ.compose, hφ.apply]
  | negation operand ih =>
      intro env
      rw [nodeBy, nodeBy]
      refine ih.bind (fun s operandTy => ?_) env
      simp [hφ.unify, hφ.compose]
  | ifElse conditions branches ihc ihb =>
      intro env
      rw [nodeBy, nodeBy, hφ.infer, map_bind]
      refine bind_congr fun v => ?_
      simp only [hφ.nothing, translated_conditions hφ ihc, translated_branches hφ ihb, hφ.apply,
        bind_map_left, map_bind, map_pure, Prod.map_apply, id_eq]
  | declaration name body ih =>
      intro env
      rw [nodeBy, nodeBy, hφ.infer, map_bind]
      refine bind_congr fun v => ih.bind (fun s bodyTy => ?_) _
      simp [hφ.unify, hφ.compose, hφ.apply]

end Translation

end Infer

namespace Stepwise

/-- The unifiers in the order in which they were found, none of them composed with another. -/
def listed : Infer.Holding Infer (List Subst) where
  infer := id
  nothing := []
  unifier s := [s]
  compose later earlier := earlier ++ later
  apply steps ty := ty.inSteps steps
  subst env steps := pure (env.inSteps steps)

/-- Infers the type of a node, and gives the unifiers it took in the order in which they were
found. -/
def node (env : TypeEnv) (node : Node) : Infer (List Subst × Ty) :=
  Infer.nodeBy listed env node

/-- What was found in steps, with the steps composed. -/
def composed (found : List Subst × Ty) : Subst × Ty :=
  (.ofSteps found.1, found.2)

theorem listed_translates : listed.Translates .composed Subst.ofSteps where
  infer _ := rfl
  infer_map _ _ := rfl
  nothing := rfl
  unifier s := (Subst.ofSteps_singleton s).symm
  compose later earlier := (Subst.ofSteps_append earlier later).symm
  apply steps ty := (ty.inSteps_eq_apply steps).symm
  subst env steps := congrArg pure (env.inSteps_eq_subst steps).symm

end Stepwise

/-- A composition does what its parts do one after the other, and no other map does that. It is
associative, and the empty substitution is its identity on both sides. So brackets do not matter:
each composition is that of its steps in order, and what inference composes, in a bracketing of its
own at each form of a node, is the composition of the unifiers in the order in which it finds
them. -/
theorem composition_lawful (s t u : Subst) :
    (∀ ty, (s.compose t).apply ty = s.apply (t.apply ty)) ∧
    (∀ r : Subst, (∀ ty, r.apply ty = s.apply (t.apply ty)) ↔
      ∀ v, r.get? v = (s.compose t).get? v) ∧
    (s.compose t).compose u = s.compose (t.compose u) ∧
    Subst.empty.compose s = s ∧ s.compose .empty = s ∧
    (∀ bracketing : Subst.Bracketing, bracketing.subst = .ofSteps bracketing.steps) ∧
    ∀ env node, Infer.node env node = Stepwise.composed <$> Stepwise.node env node := by
  refine ⟨Subst.apply_compose s t, fun r => ?_, Subst.compose_assoc s t u, Subst.empty_compose s,
    Subst.compose_empty s, Subst.Bracketing.subst_eq_ofSteps, fun env node => ?_⟩
  · rw [← Subst.apply_eq_iff_get?_eq]
    simp only [Subst.apply_compose]
  · exact Stepwise.listed_translates.translatedAt node env

-- What the earlier substitution puts in is replaced, and what it binds keeps its binding.
example : (Subst.single 1 .bool).compose ⟨[(0, .func (.var 1) (.number 1)), (1, .float)]⟩ =
    ⟨[(0, .func .bool .bool), (1, .float)]⟩ := by
  decide

end Viewlet
