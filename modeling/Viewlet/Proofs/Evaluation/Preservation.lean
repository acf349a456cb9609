import Viewlet.Proofs.Evaluation.Renaming
import Viewlet.Proofs.Typing.Declarative

namespace Viewlet

section Variables

variable {env env' : TypeEnv} {name x : String} {scheme : Scheme} {ty : Ty}

theorem hasType_var :
    HasType env (.var x) ty ↔ ∃ scheme, env.get? x = some scheme ∧ scheme.HasInstance ty := by
  constructor
  · intro h
    cases h with
    | var hget hinstance => exact ⟨_, hget, hinstance⟩
  · rintro ⟨scheme, hget, hinstance⟩
    exact .var hget hinstance

theorem hasType_var_insert : HasType (env.insert name scheme) (.var x) ty ↔
    (x = name ∧ scheme.HasInstance ty) ∨ (x ≠ name ∧ HasType env (.var x) ty) := by
  rw [hasType_var, hasType_var, TypeEnv.get?_insert]
  by_cases hx : x = name
  · simp [hx]
  · simp [hx]

/-- The environment without the names that are not to be kept. -/
def TypeEnv.restrict (env : TypeEnv) (keep : String → Bool) : TypeEnv :=
  ⟨env.bindings.filter fun binding => keep binding.1⟩

theorem hasType_var_restrict {keep : String → Bool} :
    HasType (env.restrict keep) (.var x) ty ↔ keep x = true ∧ HasType env (.var x) ty := by
  have hget : (env.restrict keep).get? x = if keep x then env.get? x else none :=
    lookup_filter keep x env.bindings
  rw [hasType_var, hasType_var, hget]
  by_cases hx : keep x = true
  · simp [hx]
  · simp [hx]

theorem HasType.operands {op : BinOp} {left right : Node}
    (h : HasType env (.binary op left right) ty) :
    ∃ operandTy, HasType env left operandTy ∧ HasType env right operandTy ∧
      ∀ {env' left' right'}, HasType env' left' operandTy → HasType env' right' operandTy →
        HasType env' (.binary op left' right') ty := by
  cases h with
  | arithmetic hop hnumeric hl hr => exact ⟨_, hl, hr, .arithmetic hop hnumeric⟩
  | comparison hop hnumeric hl hr => exact ⟨_, hl, hr, .comparison hop hnumeric⟩
  | logical hop hl hr => exact ⟨_, hl, hr, .logical hop⟩

/-- A renamed expression has the types of the expression, if its free variables have. -/
theorem HasType.of_rename {ρ : String → String} {node : Node} (hnode : node.Respects ρ)
    (h : HasType env (node.rename ρ) ty)
    (henv : ∀ x ∈ node.freeNames [], ∀ ty, HasType env (.var (ρ x)) ty → HasType env' (.var x) ty) :
    HasType env' node ty := by
  induction hnode generalizing env env' ty with
  | @inert node hinert =>
      cases node with
      | integer =>
          cases h with
          | integer hnumeric => exact .integer hnumeric
      | float =>
          cases h with
          | float => exact .float
      | boolean =>
          cases h with
          | boolean => exact .boolean
      | noValue | typeName | typeDefinition | construction => cases h
      | _ => cases hinert
  | var name => exact henv name (Node.mem_freeNames_var.mpr rfl) ty h
  | negation _ ih =>
      cases h with
      | negation h => exact .negation (ih h fun x hx => henv x (Node.mem_freeNames_negation.mpr hx))
  | binary _ _ ihl ihr =>
      obtain ⟨operandTy, hl, hr, hrule⟩ := HasType.operands h
      exact hrule (ihl hl fun x hx => henv x (Node.mem_freeNames_binary.mpr (.inl hx)))
        (ihr hr fun x hx => henv x (Node.mem_freeNames_binary.mpr (.inr hx)))
  | function _ hapart ih =>
      cases h with
      | function h =>
          refine .function (ih h fun x hx ty hvar => ?_)
          rw [hasType_var_insert] at hvar ⊢
          rcases hvar with ⟨heq, hinstance⟩ | ⟨hne, hvar⟩
          · exact .inl ⟨hapart x hx heq, hinstance⟩
          · have hne : x ≠ _ := fun heq => hne (congrArg ρ heq)
            exact .inr ⟨hne, henv x (Node.mem_freeNames_function.mpr ⟨hx, hne⟩) ty hvar⟩
  | apply _ _ ihc iha =>
      cases h with
      | apply hc ha =>
          exact .apply (ihc hc fun x hx => henv x (Node.mem_freeNames_apply.mpr (.inl hx)))
            (iha ha fun x hx => henv x (Node.mem_freeNames_apply.mpr (.inr hx)))
  | ifElse _ _ _ ihc ihb =>
      rw [Node.rename_ifElse] at h
      cases h with
      | ifElse hc hb =>
          refine .ifElse (fun node hmem => ?_) fun node hmem => ?_
          · exact ihc node hmem (hc _ (List.mem_map_of_mem hmem)) fun x hx =>
              henv x (Node.mem_freeNames_ifElse.mpr (.inl ⟨node, hmem, hx⟩))
          · exact ihb node hmem (hb _ (List.mem_map_of_mem hmem)) fun x hx =>
              henv x (Node.mem_freeNames_ifElse.mpr (.inr ⟨node, hmem, hx⟩))

/-- The type of an expression depends on the types of its free variables only. -/
theorem HasType.transfer {admits : String → Prop} {node : Node} (hformed : node.Formed admits)
    (h : HasType env node ty)
    (henv : ∀ x ∈ node.freeNames [], ∀ ty, HasType env (.var x) ty → HasType env' (.var x) ty) :
    HasType env' node ty := by
  have hid : node.rename id = node := Node.rename_eq_self fun _ _ => rfl
  exact .of_rename (Node.respects_id hformed) (hid.symm ▸ h) henv

end Variables

/-- The values of a type: a number variable stands for integers, and there is no value whose
type is a plain variable. -/
def Ty.Describes : Ty → Node → Prop
  | .bool, .boolean _ => True
  | .number _, .integer _ | .float, .integer _ | .float, .float _ => True
  | .func _ _, .function _ _ => True
  | _, _ => False

theorem HasType.describes {env : TypeEnv} {value : Node} {ty : Ty} (h : HasType env value ty)
    (hvalue : value.isValue = true) : ty.Describes value := by
  cases h with
  | integer hnumeric =>
      cases ty with
      | number | float => trivial
      | _ => cases hnumeric
  | float | boolean | function => trivial
  | _ => cases hvalue

theorem HasType.exists_boolean {env : TypeEnv} {value : Node} (h : HasType env value .bool)
    (hvalue : value.isValue = true) : ∃ b, value = .boolean b := by
  have hdescribes := h.describes hvalue
  cases value with
  | boolean b => exact ⟨b, rfl⟩
  | _ => cases hdescribes

theorem HasType.exists_function {env : TypeEnv} {value : Node} {parameterTy bodyTy : Ty}
    (h : HasType env value (.func parameterTy bodyTy)) (hvalue : value.isValue = true) :
    ∃ parameter body, value = .function parameter body := by
  have hdescribes := h.describes hvalue
  cases value with
  | function parameter body => exact ⟨parameter, body, rfl⟩
  | _ => cases hdescribes

/-- The result satisfies a condition, or it is the error of a division by zero. -/
def Result {α : Type} (condition : α → Prop) : Except EvalError α → Prop
  | .ok result => condition result
  | .error error => error = .divisionByZero

theorem Result.of_error {α β : Type} {condition : α → Prop} {condition' : β → Prop}
    {error : EvalError} (h : Result condition (.error error)) :
    Result condition' (.error error) :=
  h

theorem Result.map {α β : Type} {f : α → β} {condition : β → Prop} {result : Except EvalError α}
    (h : Result (fun a => condition (f a)) result) : Result condition (result.map f) := by
  cases result with
  | ok a => exact h
  | error error => exact h

namespace BinOp

variable {env : TypeEnv} {op : BinOp} {left right : Node} {ty : Ty}

/-- The type of what an operator gives for two numbers of a type. -/
def resultTy (op : BinOp) (operandTy : Ty) : Ty :=
  if op.isComparison then .bool else operandTy

theorem onIntegers_hasType (hop : op.isLogical = false) (hty : ty.isNumeric = true) (a b : Int64) :
    Result (HasType env · (op.resultTy ty)) (op.onIntegers a b) := by
  cases op with
  | and | or => cases hop
  | add | sub | mul => exact .integer hty
  | eq | ne | lt | gt | le | ge => exact .boolean
  | div =>
      rw [onIntegers]
      by_cases hb : b = 0
      · rw [if_pos hb]
        rfl
      · rw [if_neg hb]
        exact .integer hty

theorem onFloats_hasType (hop : op.isLogical = false) (a b : Float) :
    Result (HasType env · (op.resultTy .float)) (op.onFloats left right a b) := by
  cases op with
  | and | or => cases hop
  | add | sub | mul => exact .float
  | eq | ne | lt | gt | le | ge => exact .boolean
  | div =>
      rw [onFloats]
      by_cases hb : (b == 0.0) = true
      · rw [if_pos hb]
        rfl
      · rw [if_neg hb]
        exact .float

theorem operate_numbers_hasType (hop : op.isLogical = false) (hty : ty.isNumeric = true)
    (hleft : HasType env left ty) (hright : HasType env right ty) (hvalue : left.isValue = true)
    (hvalue' : right.isValue = true) :
    Result (HasType env · (op.resultTy ty)) (op.operate left right) := by
  cases hleft with
  | integer =>
      cases hright with
      | integer => exact onIntegers_hasType hop hty _ _
      | float => exact onFloats_hasType hop _ _
      | boolean | function => cases hty
      | _ => cases hvalue'
  | float =>
      cases hright with
      | integer => exact onFloats_hasType hop _ _
      | float => exact onFloats_hasType hop _ _
      | _ => cases hvalue'
  | boolean | function => cases hty
  | _ => cases hvalue

theorem operate_hasType (h : HasType env (.binary op left right) ty)
    (hvalue : left.isValue = true) (hvalue' : right.isValue = true) :
    Result (HasType env · ty) (op.operate left right) := by
  cases h with
  | arithmetic hop hty hleft hright =>
      have hlogical : op.isLogical = false := by cases op <;> simp_all [isLogical, isArithmetic]
      have hcomparison : ¬op.isComparison = true := by
        cases op <;> simp_all [isComparison, isArithmetic]
      have hresult := operate_numbers_hasType hlogical hty hleft hright hvalue hvalue'
      rwa [resultTy, if_neg hcomparison] at hresult
  | comparison hop hty hleft hright =>
      have hlogical : op.isLogical = false := by cases op <;> simp_all [isLogical, isComparison]
      have hresult := operate_numbers_hasType hlogical hty hleft hright hvalue hvalue'
      rwa [resultTy, if_pos hop] at hresult
  | logical hop hleft hright =>
      cases hleft with
      | boolean =>
          cases hright with
          | boolean =>
              cases op with
              | and | or => exact .boolean
              | _ => cases hop
          | integer hnumeric => cases hnumeric
          | _ => cases hvalue'
      | integer hnumeric => cases hnumeric
      | _ => cases hvalue

end BinOp

/-- The environment without the names that the scope has values for. -/
def TypeEnv.residual (env : TypeEnv) (scope : Scope) : TypeEnv :=
  env.restrict fun x => (scope.value? x).isNone

theorem hasType_var_residual {env : TypeEnv} {scope : Scope} {x : String} {ty : Ty} :
    HasType (env.residual scope) (.var x) ty ↔ scope.value? x = none ∧ HasType env (.var x) ty := by
  rw [TypeEnv.residual, hasType_var_restrict, Option.isNone_iff_eq_none]

theorem TypeEnv.residual_insert (env : TypeEnv) (scope : Scope) (name : String) (scheme : Scheme) :
    (env.insert name scheme).residual (scope.bindUnresolved name) =
      (env.residual scope).insert name scheme := by
  simp only [residual, restrict, insert, List.filter_cons, Scope.value?_bindUnresolved, if_true,
    Option.isNone_none, List.filter_filter, mk.injEq, List.cons.injEq, true_and]
  refine List.filter_congr fun binding _ => ?_
  by_cases hname : binding.1 = name
  · simp [hname]
  · simp [hname, Bool.and_comm]

/-- The names that the scope does not bind have the types of declarations, and the scope binds
no declared name. Under the declarations, the values in scope have the types of their names. -/
structure Agrees (globals env : TypeEnv) (scope : Scope) : Prop where
  unbound : ∀ {x ty}, scope.get? x = none → HasType env (.var x) ty → HasType globals (.var x) ty
  global : ∀ {x ty}, HasType globals (.var x) ty →
    scope.get? x = none ∧ HasType env (.var x) ty
  resolved : ∀ {x value ty}, scope.value? x = some value → HasType env (.var x) ty →
    HasType globals value ty

namespace Agrees

variable {admits : String → Prop} {globals env : TypeEnv} {scope : Scope} {node : Node} {ty : Ty}
  {parameter : String}

protected theorem nil (globals : TypeEnv) : Agrees globals globals [] where
  unbound _ h := h
  global h := ⟨rfl, h⟩
  resolved h := by cases h

theorem bindUnresolved (h : Agrees globals env scope)
    (hparameter : ∀ {ty}, ¬HasType globals (.var parameter) ty) (parameterTy : Ty) :
    Agrees globals (env.insert parameter ⟨[], parameterTy⟩) (scope.bindUnresolved parameter) where
  unbound {x ty} hunbound hvar := by
    rw [Scope.bindUnresolved, Scope.get?_bind] at hunbound
    rcases hasType_var_insert.mp hvar with ⟨hx, -⟩ | ⟨hx, hvar⟩
    · rw [if_pos hx] at hunbound
      cases hunbound
    · rw [if_neg hx] at hunbound
      exact h.unbound hunbound hvar
  global {x ty} hvar := by
    have hx : x ≠ parameter := by
      rintro rfl
      exact hparameter hvar
    obtain ⟨hunbound, hvar⟩ := h.global hvar
    exact ⟨by rw [Scope.bindUnresolved, Scope.get?_bind, if_neg hx, hunbound],
      hasType_var_insert.mpr (.inr ⟨hx, hvar⟩)⟩
  resolved {x value ty} hvalue hvar := by
    rcases hasType_var_insert.mp hvar with ⟨hx, -⟩ | ⟨-, hvar⟩
    · rw [Scope.value?_bindUnresolved, if_pos hx] at hvalue
      cases hvalue
    · exact h.resolved (Scope.value?_of_bindUnresolved hvalue) hvar

theorem single {value : Node} (hparameter : ∀ {ty}, ¬HasType globals (.var parameter) ty)
    (hvalue : HasType globals value ty) :
    Agrees globals (globals.insert parameter ⟨[], ty⟩) (Scope.bind [] parameter value) where
  unbound {x ty} hunbound hvar := by
    rw [Scope.get?_bind] at hunbound
    rcases hasType_var_insert.mp hvar with ⟨hx, -⟩ | ⟨-, hvar⟩
    · rw [if_pos hx] at hunbound
      cases hunbound
    · exact hvar
  global {x ty} hvar := by
    have hx : x ≠ parameter := by
      rintro rfl
      exact hparameter hvar
    exact ⟨by rw [Scope.get?_bind, if_neg hx, Scope.get?_nil],
      hasType_var_insert.mpr (.inr ⟨hx, hvar⟩)⟩
  resolved {x found ty} hfound hvar := by
    obtain ⟨rfl, rfl⟩ := Scope.eq_of_value?_single hfound
    rcases hasType_var_insert.mp hvar with ⟨-, hinstance⟩ | ⟨hne, -⟩
    · rw [Scheme.hasInstance_mono.mp hinstance]
      exact hvalue
    · exact absurd rfl hne

theorem weaken (h : Agrees globals env scope) (hformed : node.Formed admits)
    (hnode : HasType globals node ty) : HasType (env.residual scope) node ty := by
  refine .transfer hformed hnode fun x _ ty hvar => ?_
  obtain ⟨hunbound, hvar⟩ := h.global hvar
  exact hasType_var_residual.mpr ⟨Scope.value?_eq_none.mpr (.inl hunbound), hvar⟩

theorem restrict (h : Agrees globals env scope) {keep : String → Bool}
    (hkeep : ∀ {x ty}, HasType globals (.var x) ty → keep x = true) :
    Agrees globals (env.restrict keep) scope where
  unbound hunbound hvar := h.unbound hunbound (hasType_var_restrict.mp hvar).2
  global hvar := ⟨(h.global hvar).1, hasType_var_restrict.mpr ⟨hkeep hvar, (h.global hvar).2⟩⟩
  resolved hvalue hvar := h.resolved hvalue (hasType_var_restrict.mp hvar).2

theorem substitute (h : Agrees globals env scope) (hformed : node.Formed admits)
    (hadmits : ∀ {x ty}, admits x → ¬HasType globals (.var x) ty)
    (hscope : HoldsValues admits scope.value?) (hnode : HasType env node ty) :
    HasType (env.residual scope) (node.substitute scope) ty := by
  induction hformed generalizing env scope ty with
  | inert hinert =>
      rw [Node.substitute_of_isInert hinert]
      have hformed : Node.Formed admits _ := .inert hinert
      refine .transfer hformed hnode fun x hx => ?_
      rw [Node.freeNames_of_isInert hinert] at hx
      cases hx
  | var name =>
      rw [Node.substitute_var]
      cases hvalue : scope.value? name with
      | none => exact hasType_var_residual.mpr ⟨hvalue, hnode⟩
      | some value => exact h.weaken (hscope name value hvalue).2 (h.resolved hvalue hnode)
  | negation _ ih =>
      cases hnode with
      | negation hnode => exact .negation (ih h hscope hnode)
  | binary _ _ ihl ihr =>
      obtain ⟨operandTy, hl, hr, hrule⟩ := hnode.operands
      exact hrule (ihl h hscope hl) (ihr h hscope hr)
  | function hparameter _ ih =>
      cases hnode with
      | function hnode =>
          have hbody := ih (h.bindUnresolved (hadmits hparameter) _) (hscope.bindUnresolved _) hnode
          rw [TypeEnv.residual_insert] at hbody
          exact .function hbody
  | apply _ _ ihc iha =>
      cases hnode with
      | apply hc ha => exact .apply (ihc h hscope hc) (iha h hscope ha)
  | ifElse _ _ _ ihc ihb =>
      cases hnode with
      | ifElse hc hb =>
          rw [Node.substitute_ifElse]
          refine .ifElse (fun node hnode => ?_) fun node hnode => ?_
          · obtain ⟨condition, hmem, rfl⟩ := List.mem_map.mp hnode
            exact ihc condition hmem h hscope (hc condition hmem)
          · obtain ⟨branch, hmem, rfl⟩ := List.mem_map.mp hnode
            exact ihb branch hmem h hscope (hb branch hmem)

end Agrees

/-- The table has values of the right types for all declared names, and these are no
parameters. -/
structure Provides (admits : String → Prop) (globals : TypeEnv) (table : Table) : Prop where
  values : HoldsValues admits (fun name => table.lookup name)
  declared : ∀ {x ty}, HasType globals (.var x) ty →
    ∃ value, table.lookup x = some value ∧ HasType globals value ty
  apart : ∀ {x ty}, admits x → ¬HasType globals (.var x) ty

/-- The evaluation gives nodes of the right types, with the declarations of a table. -/
def Eval.IsSafe (admits : String → Prop) (globals : TypeEnv) (table : Table)
    (E : Scope → Node → Eval Evaluated) : Prop :=
  ∀ {scope env node ty result table'}, node.Formed admits →
    HoldsValues admits (Scope.value? scope) → Agrees globals env scope → HasType env node ty →
    (E scope node).Gives table result table' →
    Result (fun outcome => HasType (env.residual scope) (Evaluated.node outcome) ty) result

section Expressions

variable {admits : String → Prop} {globals env : TypeEnv} {table table' : Table}
  {E : Scope → Node → Eval Evaluated} {scope : Scope} {ty : Ty}
  {result : Except EvalError Evaluated}

namespace Eval.IsSafe

theorem globally (hE : IsSafe admits globals table E) (htidy : IsTidy admits E)
    (htable : Provides admits globals table) {node : Node} (hformed : node.Formed admits)
    (hscope : HoldsValues admits scope.value?) (hagrees : Agrees globals env scope)
    (hnode : HasType env node ty) (hresolved : node.mentionsUnresolved scope = false)
    {outcome : Evaluated} (h : (E scope node).Gives table (.ok outcome) table') :
    HasType globals outcome.node ty := by
  have hknown : HasType (env.restrict fun x => !scope.isUnresolved x) node ty := by
    refine .transfer hformed hnode fun x hx ty hvar => hasType_var_restrict.mpr ⟨?_, hvar⟩
    simp [Node.mentionsUnresolved_eq_false.mp hresolved x hx]
  have hagrees' : Agrees globals (env.restrict fun x => !scope.isUnresolved x) scope :=
    hagrees.restrict fun hvar => by simp [Scope.isUnresolved, (hagrees.global hvar).1]
  have hresult := hE hformed hscope hagrees' hknown h
  refine .transfer ((htidy hformed hscope htable.values h).formed rfl) hresult fun x _ ty hvar => ?_
  obtain ⟨hvalue, hvar⟩ := hasType_var_residual.mp hvar
  obtain ⟨hknown, hvar⟩ := hasType_var_restrict.mp hvar
  rcases Scope.value?_eq_none.mp hvalue with hunbound | hunresolved
  · exact hagrees.unbound hunbound hvar
  · simp [hunresolved] at hknown

theorem call (hE : IsSafe admits globals table E) (htidy : IsTidy admits E)
    (htable : Provides admits globals table) {parameter : String} {body value : Node}
    (hformed : (Node.function parameter body).Formed admits) {argumentTy : Ty}
    (hfunction : HasType globals (.function parameter body) (.func argumentTy ty))
    (hvalue : value.isValue = true) (hformed' : value.Formed admits)
    (hargument : HasType globals value argumentTy)
    (h : (E (Scope.bind [] parameter value) body).Gives table result table') :
    Result (fun outcome => outcome.node.Formed admits ∧ HasType globals outcome.node ty)
      result := by
  have hvalues : HoldsValues admits (Scope.bind [] parameter value).value? :=
    holdsValues_bind hvalue hformed'
  cases hformed with
  | inert hinert => cases hinert
  | function hparameter hformed =>
      cases hfunction with
      | function hbody =>
          have hsingle := Agrees.single (htable.apart hparameter) hargument
          cases result with
          | error error => exact .of_error (hE hformed hvalues hsingle hbody h)
          | ok outcome =>
              have hresolved : body.mentionsUnresolved (Scope.bind [] parameter value) = false :=
                Node.mentionsUnresolved_single (Node.ne_noValue_of_isValue hvalue)
              exact ⟨(htidy hformed hvalues htable.values h).formed rfl,
                hE.globally htidy htable hformed hvalues hsingle hbody hresolved h⟩

theorem operand {source outcome kept : Node} (h : Operand scope table source outcome kept)
    (hsource : HasType env source ty) (houtcome : HasType (env.residual scope) outcome ty) :
    HasType (env.residual scope) kept ty := by
  rcases h with ⟨rfl, -⟩ | ⟨name, rfl, rfl, hunbound⟩
  · exact houtcome
  · exact hasType_var_residual.mpr ⟨Scope.value?_eq_none.mpr (.inl hunbound), hsource⟩

theorem application (hE : IsSafe admits globals table E) (htidy : IsTidy admits E)
    (htable : Provides admits globals table) {callee argument : Node}
    (hformed : callee.Formed admits) (hformed' : argument.Formed admits)
    (hscope : HoldsValues admits scope.value?) (hagrees : Agrees globals env scope)
    {argumentTy : Ty} (hcallee : HasType env callee (.func argumentTy ty))
    (hargument : HasType env argument argumentTy)
    (h : (application E scope callee argument).Gives table result table') :
    Result (fun outcome => HasType (env.residual scope) outcome.node ty) result := by
  rcases application_cases h with ⟨error, hfirst, rfl⟩ | ⟨first, middle, hfirst, hrest⟩
  · exact .of_error (hE hformed hscope hagrees hcallee hfirst)
  · have hfirst' := htidy hformed hscope htable.values hfirst
    have hfunction : HasType (env.residual scope) first.node (.func argumentTy ty) :=
      hE hformed hscope hagrees hcallee hfirst
    obtain rfl := hfirst'.table_eq
    rcases hrest with ⟨error, hsecond, rfl⟩ | ⟨second, last, hsecond, hcases⟩
    · exact .of_error (hE hformed' hscope hagrees hargument hsecond)
    · have hsecond' := htidy hformed' hscope htable.values hsecond
      have hvalue : HasType (env.residual scope) second.node argumentTy :=
        hE hformed' hscope hagrees hargument hsecond
      obtain rfl := hsecond'.table_eq
      rcases hcases with ⟨parameter, body, -, heq, hcomplete, hresolved, hresolved', hbody⟩ |
        ⟨-, hcomplete, hother, -⟩ | ⟨-, -, kept, kept', rfl, hkept, hkept'⟩
      · have hglobal := hE.globally htidy htable hformed hscope hagrees hcallee hresolved hfirst
        have hglobal' := hE.globally htidy htable hformed' hscope hagrees hargument hresolved'
          hsecond
        have hcall := hE.call htidy htable (heq ▸ hfirst'.formed rfl) (heq ▸ hglobal)
          (hsecond'.isValue rfl hcomplete) (hsecond'.formed rfl) hglobal' hbody
        cases result with
        | error error => exact .of_error hcall
        | ok outcome => exact hagrees.weaken hcall.1 hcall.2
      · obtain ⟨parameter, body, hnode⟩ :=
          hfunction.exists_function (hfirst'.isValue rfl hcomplete)
        exact absurd hnode (hother parameter body)
      · exact .apply (operand hkept hcallee hfunction) (operand hkept' hargument hvalue)

theorem chain (hE : IsSafe admits globals table E) (htidy : IsTidy admits E)
    (htable : Provides admits globals table) (hscope : HoldsValues admits scope.value?)
    (hagrees : Agrees globals env scope) {whole : Node}
    (hwhole : HasType (env.residual scope) (whole.substitute scope) ty)
    {conditions branches : List Node} (hlength : branches.length = conditions.length + 1)
    (hconditions : ∀ condition ∈ conditions, condition.Formed admits ∧ HasType env condition .bool)
    (hbranches : ∀ branch ∈ branches, branch.Formed admits ∧ HasType env branch ty)
    (h : (chain E scope whole conditions branches).Gives table result table') :
    Result (fun outcome => HasType (env.residual scope) outcome.node ty) result := by
  induction conditions generalizing branches with
  | nil =>
      obtain ⟨branch, rfl⟩ := List.length_eq_one_iff.mp hlength
      obtain ⟨hformed, hbranch⟩ := hbranches branch List.mem_cons_self
      rcases chain_nil_cases h with ⟨error, hvalue, rfl⟩ | ⟨value, hvalue, hcases⟩
      · exact .of_error (hE hformed hscope hagrees hbranch hvalue)
      · rcases hcases with ⟨-, rfl⟩ | ⟨-, rfl⟩
        · exact hwhole
        · exact hE hformed hscope hagrees hbranch hvalue
  | cons condition conditions ih =>
      obtain ⟨branch, branches, rfl⟩ := List.exists_cons_of_length_eq_add_one hlength
      obtain ⟨hformed, hcondition⟩ := hconditions condition List.mem_cons_self
      obtain ⟨hformed', hbranch⟩ := hbranches branch List.mem_cons_self
      rcases chain_cons_cases h with ⟨error, htest, rfl⟩ | ⟨test, middle, htest, hrest⟩
      · exact .of_error (hE hformed hscope hagrees hcondition htest)
      · have htest' := htidy hformed hscope htable.values htest
        have hbool : HasType (env.residual scope) test.node .bool :=
          hE hformed hscope hagrees hcondition htest
        obtain rfl := htest'.table_eq
        rcases hrest with ⟨error, hvalue, rfl⟩ | ⟨value, last, hvalue, hcases⟩
        · exact .of_error (hE hformed' hscope hagrees hbranch hvalue)
        · obtain rfl := (htidy hformed' hscope htable.values hvalue).table_eq
          rcases hcases with ⟨-, -, rfl⟩ | ⟨hcomplete, -, hselect⟩
          · exact hwhole
          · rcases hselect with ⟨-, -, rfl⟩ | ⟨-, hothers⟩ | ⟨-, hother, -⟩
            · exact hE hformed' hscope hagrees hbranch hvalue
            · exact ih (by simpa using hlength)
                (fun node hmem => hconditions node (List.mem_cons_of_mem _ hmem))
                (fun node hmem => hbranches node (List.mem_cons_of_mem _ hmem)) hothers
            · obtain ⟨value, hnode⟩ := hbool.exists_boolean (htest'.isValue rfl hcomplete)
              exact absurd hnode (hother value)

theorem step (hE : IsSafe admits globals table E) (htidy : IsTidy admits E)
    (htable : Provides admits globals table) : IsSafe admits globals table (step E) := by
  intro scope env node ty result table' hformed hscope hagrees hnode h
  have hsubstitute := hagrees.substitute hformed htable.apart hscope hnode
  cases hformed with
  | inert hinert =>
      cases hnode with
      | integer hnumeric =>
          obtain ⟨rfl, -⟩ := gives_pure.mp h
          exact .integer hnumeric
      | float =>
          obtain ⟨rfl, -⟩ := gives_pure.mp h
          exact .float
      | boolean =>
          obtain ⟨rfl, -⟩ := gives_pure.mp h
          exact .boolean
      | _ => cases hinert
  | var name =>
      obtain ⟨-, hcases⟩ := variableValue_cases h
      rcases hcases with ⟨hunresolved, rfl⟩ | ⟨value, hvalue, rfl⟩ | ⟨hunbound, hdeclared⟩
      · exact hasType_var_residual.mpr ⟨Scope.value?_eq_none.mpr (.inr hunresolved), hnode⟩
      · exact hagrees.weaken (hscope name value hvalue).2 (hagrees.resolved hvalue hnode)
      · obtain ⟨value, hvalue, hglobal⟩ := htable.declared (hagrees.unbound hunbound hnode)
        obtain ⟨hisValue, hformed⟩ := htable.values name value hvalue
        rw [hvalue] at hdeclared
        rcases hdeclared with ⟨hnone, -⟩ | ⟨heq, -⟩ | ⟨found, heq, -, rfl⟩
        · cases hnone
        · exact absurd (Option.some.inj heq) (Node.ne_noValue_of_isValue hisValue)
        · obtain rfl := Option.some.inj heq
          exact hagrees.weaken hformed hglobal
  | negation hformed =>
      cases hnode with
      | negation hnode =>
          rcases negation_cases h with ⟨error, hfirst, rfl⟩ | ⟨first, hfirst, hcases⟩
          · exact .of_error (hE hformed hscope hagrees hnode hfirst)
          · have hfirst' := htidy hformed hscope htable.values hfirst
            have hbool : HasType (env.residual scope) first.node .bool :=
              hE hformed hscope hagrees hnode hfirst
            rcases hcases with ⟨-, rfl⟩ | ⟨hcomplete, ⟨value, -, rfl⟩ | ⟨hother, -⟩⟩
            · exact .negation hbool
            · exact .boolean
            · obtain ⟨value, hnode⟩ := hbool.exists_boolean (hfirst'.isValue rfl hcomplete)
              exact absurd hnode (hother value)
  | binary hformed hformed' =>
      obtain ⟨operandTy, hleft, hright, hrule⟩ := hnode.operands
      rcases binary_cases h with ⟨error, hfirst, rfl⟩ | ⟨first, middle, hfirst, hrest⟩
      · exact .of_error (hE hformed hscope hagrees hleft hfirst)
      · have hfirst' := htidy hformed hscope htable.values hfirst
        have htyped : HasType (env.residual scope) first.node operandTy :=
          hE hformed hscope hagrees hleft hfirst
        obtain rfl := hfirst'.table_eq
        rcases hrest with ⟨error, hsecond, rfl⟩ | ⟨second, hsecond, hcases⟩
        · exact .of_error (hE hformed' hscope hagrees hright hsecond)
        · have hsecond' := htidy hformed' hscope htable.values hsecond
          have htyped' : HasType (env.residual scope) second.node operandTy :=
            hE hformed' hscope hagrees hright hsecond
          rcases hcases with ⟨-, rfl⟩ | ⟨hcomplete, hcomplete', rfl⟩
          · exact hrule htyped htyped'
          · exact .map (BinOp.operate_hasType (hrule htyped htyped')
              (hfirst'.isValue rfl hcomplete) (hsecond'.isValue rfl hcomplete'))
  | function hparameter hformed =>
      cases hnode with
      | @function _ _ _ parameterTy _ hnode =>
          have hagrees' := hagrees.bindUnresolved (htable.apart hparameter) parameterTy
          rcases function_cases h with ⟨error, hfirst, rfl⟩ | ⟨first, hfirst, rfl⟩
          · exact .of_error (hE hformed (hscope.bindUnresolved _) hagrees' hnode hfirst)
          · have hbody := hE hformed (hscope.bindUnresolved _) hagrees' hnode hfirst
            rw [TypeEnv.residual_insert] at hbody
            exact .function hbody
  | apply hformed hformed' =>
      cases hnode with
      | apply hcallee hargument =>
          exact hE.application htidy htable hformed hformed' hscope hagrees hcallee hargument h
  | ifElse hlength hformed hformed' =>
      cases hnode with
      | ifElse hconditions hbranches =>
          exact hE.chain htidy htable hscope hagrees hsubstitute hlength
            (fun node hmem => ⟨hformed node hmem, hconditions node hmem⟩)
            (fun node hmem => ⟨hformed' node hmem, hbranches node hmem⟩) h

end Eval.IsSafe

/-- Evaluation is safe at every depth. -/
theorem isSafe_evaluate (htable : Provides admits globals table) (depth : Nat) :
    Eval.IsSafe admits globals table (evaluate depth) := by
  induction depth with
  | zero =>
      intro scope env node ty result table' _ _ _ _ h
      cases h
  | succ depth ih => exact ih.step (isTidy_evaluate admits depth) htable

end Expressions

end Viewlet
