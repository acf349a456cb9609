import Viewlet.Node
import Viewlet.Proofs.Typing.Kinds
import Viewlet.Typing.TypeEnv

namespace Viewlet

namespace BinOp

/-- Whether the operator combines two numbers to a number. -/
def isArithmetic : BinOp → Bool
  | add | sub | mul | div => true
  | _ => false

theorem isArithmetic_of_not {op : BinOp} (hlogical : op.isLogical = false)
    (hcomparison : op.isComparison = false) : op.isArithmetic = true := by
  cases op <;> simp_all [isLogical, isComparison, isArithmetic]

end BinOp

namespace Scheme

/-- A scheme stands for the types that arise from its type when the variables over which it
is general are replaced, numeric ones by numeric types. -/
def HasInstance (scheme : Scheme) (ty : Ty) : Prop :=
  ∃ s : Subst, (∀ v image, s.get? v = some image → v ∈ scheme.vars) ∧
    (∀ v ∈ scheme.ty.numericVars, (s.apply (.number v)).isNumeric = true) ∧
    s.apply scheme.ty = ty

theorem hasInstance_self (scheme : Scheme) : scheme.HasInstance scheme.ty :=
  ⟨.empty, fun v image h => by simp at h, fun v _ => by simp [Ty.isNumeric], by simp⟩

theorem hasInstance_mono {ty ty' : Ty} : HasInstance ⟨[], ty⟩ ty' ↔ ty' = ty := by
  constructor
  · rintro ⟨s, hbound, -, rfl⟩
    refine Subst.apply_eq_self fun v _ => ?_
    cases hv : s.get? v with
    | none => rfl
    | some image => exact absurd (hbound v image hv) List.not_mem_nil
  · rintro rfl
    exact hasInstance_self _

end Scheme

/-- `HasType env node ty`: under the schemes of the environment the node has the type. -/
inductive HasType : TypeEnv → Node → Ty → Prop where
  | integer {env value ty} : ty.isNumeric = true → HasType env (.integer value) ty
  | float {env value} : HasType env (.float value) .float
  | boolean {env value} : HasType env (.boolean value) .bool
  | var {env name scheme ty} : env.get? name = some scheme → scheme.HasInstance ty →
      HasType env (.var name) ty
  | function {env parameter body parameterTy bodyTy} :
      HasType (env.insert parameter ⟨[], parameterTy⟩) body bodyTy →
      HasType env (.function parameter body) (.func parameterTy bodyTy)
  | apply {env callee argument argumentTy resultTy} :
      HasType env callee (.func argumentTy resultTy) → HasType env argument argumentTy →
      HasType env (.apply callee argument) resultTy
  | arithmetic {env op left right ty} : op.isArithmetic = true → ty.isNumeric = true →
      HasType env left ty → HasType env right ty → HasType env (.binary op left right) ty
  | comparison {env op left right ty} : op.isComparison = true → ty.isNumeric = true →
      HasType env left ty → HasType env right ty → HasType env (.binary op left right) .bool
  | logical {env op left right} : op.isLogical = true →
      HasType env left .bool → HasType env right .bool → HasType env (.binary op left right) .bool
  | negation {env operand} : HasType env operand .bool → HasType env (.negation operand) .bool
  | ifElse {env conditions branches ty} :
      (∀ condition ∈ conditions, HasType env condition .bool) →
      (∀ branch ∈ branches, HasType env branch ty) →
      HasType env (.ifElse conditions branches) ty
  | declaration {env name body ty} : HasType (env.insert name ⟨[], ty⟩) body ty →
      HasType env (.declaration name body) ty

namespace TypeEnv

theorem get?_insert (env : TypeEnv) (name other : String) (scheme : Scheme) :
    (env.insert name scheme).get? other = if other = name then some scheme else env.get? other :=
  lookup_replace name other scheme env.bindings

theorem get?_subst (env : TypeEnv) (s : Subst) (name : String) :
    (env.subst s).get? name =
      (env.get? name).map fun scheme => { scheme with ty := s.apply scheme.ty } :=
  lookup_map (fun scheme : Scheme => Scheme.mk scheme.vars (s.apply scheme.ty)) name env.bindings

theorem subst_insert (env : TypeEnv) (s : Subst) (name : String) (ty : Ty) :
    (env.insert name ⟨[], ty⟩).subst s = (env.subst s).insert name ⟨[], s.apply ty⟩ := by
  simp [subst, insert, List.filter_map, Function.comp_def]

@[simp] theorem subst_empty (env : TypeEnv) : env.subst .empty = env := by
  obtain ⟨bindings⟩ := env
  simp [subst]

theorem subst_compose (env : TypeEnv) (s t : Subst) :
    env.subst (s.compose t) = (env.subst t).subst s := by
  simp [subst]

theorem subst_congr {env : TypeEnv} {s t : Subst}
    (h : ∀ binding ∈ env.bindings, s.apply binding.2.ty = t.apply binding.2.ty) :
    env.subst s = env.subst t := by
  simp only [subst, mk.injEq]
  refine List.map_congr_left fun binding hmem => ?_
  rw [h binding hmem]

theorem mem_of_get? {env : TypeEnv} {name : String} {scheme : Scheme}
    (h : env.get? name = some scheme) : (name, scheme) ∈ env.bindings :=
  mem_of_lookup h

theorem mem_freeVars {env : TypeEnv} {v : TyVar} :
    v ∈ env.freeVars ↔ ∃ binding ∈ env.bindings, v ∈ binding.2.ty.vars ∧ v ∉ binding.2.vars := by
  simp [freeVars, List.mem_flatMap]

theorem mem_insert {env : TypeEnv} {name : String} {scheme : Scheme} {binding : String × Scheme}
    (h : binding ∈ (env.insert name scheme).bindings) :
    binding = (name, scheme) ∨ binding ∈ env.bindings := by
  rcases List.mem_cons.mp h with h | h
  · exact .inl h
  · exact .inr (List.mem_filter.mp h).1

theorem mem_subst {env : TypeEnv} {s : Subst} {binding : String × Scheme} :
    binding ∈ (env.subst s).bindings ↔ ∃ source ∈ env.bindings,
      binding = (source.1, { source.2 with ty := s.apply source.2.ty }) := by
  simp only [subst, List.mem_map]
  constructor
  · rintro ⟨source, hsource, rfl⟩
    exact ⟨source, hsource, rfl⟩
  · rintro ⟨source, hsource, rfl⟩
    exact ⟨source, hsource, rfl⟩

end TypeEnv

end Viewlet
