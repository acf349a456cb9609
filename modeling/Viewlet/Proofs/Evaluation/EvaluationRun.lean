import Viewlet.Proofs.Evaluation.Scoping
import Viewlet.Session

/-!
Runs of evaluation. `x.Gives table result table'` says that an evaluation started with a table
ends, with a result and a table. For each form of a node it is said once how a run of the node
is made up from runs of its parts.
-/

namespace Viewlet

namespace Eval

/-- The evaluation ends, with a result or an error and a new table. -/
def Gives {α : Type} (x : Eval α) (table : Table) (result : Except EvalError α) (table' : Table) :
    Prop :=
  x.run.run table = some (result, table')

section Monad

variable {α β : Type} {table table' : Table}

theorem run_bind (x : Eval α) (f : α → Eval β) (table : Table) :
    (x >>= f).run.run table = match x.run.run table with
      | some (.ok a, middle) => (f a).run.run middle
      | some (.error error, middle) => some (.error error, middle)
      | none => none := by
  change (x table).bind (fun (outcome, middle) => ExceptT.bindCont f outcome middle) =
    match x table with
      | some (.ok a, middle) => (f a).run.run middle
      | some (.error error, middle) => some (.error error, middle)
      | none => none
  rcases x table with _ | ⟨error | a, middle⟩ <;> rfl

theorem gives_bind {x : Eval α} {f : α → Eval β} {result : Except EvalError β} :
    (x >>= f).Gives table result table' ↔
      (∃ a middle, x.Gives table (.ok a) middle ∧ (f a).Gives middle result table') ∨
        ∃ error, x.Gives table (.error error) table' ∧ result = .error error := by
  simp only [Gives, run_bind]
  rcases x.run.run table with _ | ⟨error | a, middle⟩
  · simp
  · constructor
    · intro h
      cases h
      exact .inr ⟨error, rfl, rfl⟩
    · rintro (⟨a, middle', h, -⟩ | ⟨error', h, rfl⟩)
      · cases h
      · cases h
        rfl
  · constructor
    · intro h
      exact .inl ⟨a, middle, rfl, h⟩
    · rintro (⟨a', middle', h, hf⟩ | ⟨error', h, -⟩)
      · cases h
        exact hf
      · cases h

@[simp] theorem gives_pure {a : α} {result : Except EvalError α} :
    (pure a : Eval α).Gives table result table' ↔ result = .ok a ∧ table' = table := by
  constructor
  · intro h
    cases h
    exact ⟨rfl, rfl⟩
  · rintro ⟨rfl, rfl⟩
    rfl

@[simp] theorem gives_throw {error : EvalError} {result : Except EvalError α} :
    (throw error : Eval α).Gives table result table' ↔ result = .error error ∧ table' = table := by
  constructor
  · intro h
    cases h
    exact ⟨rfl, rfl⟩
  · rintro ⟨rfl, rfl⟩
    rfl

@[simp] theorem gives_declared? {name : String} {result : Except EvalError (Option Node)} :
    (declared? name).Gives table result table' ↔
      result = .ok (table.lookup name) ∧ table' = table := by
  constructor
  · intro h
    cases h
    exact ⟨rfl, rfl⟩
  · rintro ⟨rfl, rfl⟩
    rfl

theorem gives_declared?_bind {name : String} {f : Option Node → Eval α}
    {result : Except EvalError α} :
    (declared? name >>= f).Gives table result table' ↔
      (f (table.lookup name)).Gives table result table' := by
  rw [gives_bind]
  constructor
  · rintro (⟨found, middle, hfound, h⟩ | ⟨error, hfound, -⟩)
    · obtain ⟨heq, rfl⟩ := gives_declared?.mp hfound
      exact Except.ok.inj heq ▸ h
    · cases (gives_declared?.mp hfound).1
  · exact fun h => .inl ⟨_, table, gives_declared?.mpr ⟨rfl, rfl⟩, h⟩

@[simp] theorem gives_modify {f : Table → Table} {result : Except EvalError PUnit} :
    (modify f : Eval PUnit).Gives table result table' ↔ result = .ok ⟨⟩ ∧ table' = f table := by
  constructor
  · intro h
    cases h
    exact ⟨rfl, rfl⟩
  · rintro ⟨rfl, rfl⟩
    rfl

end Monad

theorem gives_of_evaluate {depth : Nat} {session session' : Session} {scope : Scope} {node : Node}
    {result : Except EvalError Evaluated}
    (h : session.evaluate depth scope node = some (result, session')) :
    (evaluate depth scope node).Gives session.table result session'.table ∧
      session'.root = session.root := by
  obtain ⟨⟨found, table⟩, hrun, heq⟩ := Option.bind_eq_some_iff.mp h
  cases heq
  exact ⟨hrun, rfl⟩

section Forms

attribute [local simp] variableValue declaration negation binary function operand suspended
  application arms conditional

variable {E : Scope → Node → Eval Evaluated} {scope : Scope} {table table' : Table}
  {result : Except EvalError Evaluated}

theorem variableValue_cases {name : String}
    (h : (variableValue scope name).Gives table result table') :
    table' = table ∧
      ((scope.isUnresolved name = true ∧ result = .ok ⟨.var name, false⟩) ∨
        (∃ value, scope.value? name = some value ∧ result = .ok ⟨value, true⟩) ∨
        (scope.get? name = none ∧
          ((table.lookup name = none ∧ result = .error (.unknownIdentifier name)) ∨
            (table.lookup name = some .noValue ∧ result = .ok ⟨.var name, false⟩) ∨
            ∃ value, table.lookup name = some value ∧ value ≠ .noValue ∧
              result = .ok ⟨value, true⟩))) := by
  rw [variableValue, gives_declared?_bind] at h
  split at h
  · next hnone =>
      obtain ⟨hscope, htable⟩ := Option.or_eq_none_iff.mp hnone
      obtain ⟨rfl, rfl⟩ := gives_throw.mp h
      exact ⟨rfl, .inr (.inr ⟨hscope, .inl ⟨htable, rfl⟩⟩)⟩
  · next hsome =>
      obtain ⟨rfl, rfl⟩ := gives_pure.mp h
      refine ⟨rfl, ?_⟩
      rcases Option.or_eq_some_iff.mp hsome with hscope | ⟨hscope, htable⟩
      · exact .inl ⟨by simp [Scope.isUnresolved, hscope], rfl⟩
      · exact .inr (.inr ⟨hscope, .inr (.inl ⟨htable, rfl⟩)⟩)
  · next value hne hsome =>
      obtain ⟨rfl, rfl⟩ := gives_pure.mp h
      refine ⟨rfl, .inr ?_⟩
      rcases Option.or_eq_some_iff.mp hsome with hscope | ⟨hscope, htable⟩
      · exact .inl ⟨value, Scope.value?_of_get? hscope hne, rfl⟩
      · exact .inr ⟨hscope, .inr (.inr ⟨value, htable, hne, rfl⟩)⟩

theorem declaration_cases {name : String} {body : Node}
    (h : (declaration E name body).Gives table result table') :
    (table' = table ∧ result = .error (.alreadyDeclared name)) ∨
      (table.lookup name = none ∧
        ((∃ error, (E (Scope.bindUnresolved [] name) body).Gives table (.error error) table' ∧
            result = .error error) ∨
          ∃ outcome middle,
            (E (Scope.bindUnresolved [] name) body).Gives table (.ok outcome) middle ∧
            ((outcome.complete = true ∧ table' = middle.declare name outcome.node ∧
                result = .ok ⟨.declaration name outcome.node, true⟩) ∨
              (outcome.complete = false ∧ table' = middle ∧
                result = .error (.unresolvedDeclaration name outcome.node))))) := by
  rw [declaration, gives_declared?_bind] at h
  split at h
  · rcases gives_bind.mp h with ⟨a, middle, hthrow, -⟩ | ⟨error, hthrow, rfl⟩
    · cases (gives_throw.mp hthrow).1
    · obtain ⟨heq, rfl⟩ := gives_throw.mp hthrow
      exact .inl ⟨rfl, congrArg _ (Except.error.inj heq)⟩
  · next hnone =>
      refine .inr ⟨Option.not_isSome_iff_eq_none.mp hnone, ?_⟩
      rcases gives_bind.mp h with ⟨outcome, middle, hbody, h⟩ | ⟨error, hbody, rfl⟩
      · refine .inr ⟨outcome, middle, hbody, ?_⟩
        split at h
        · next hcomplete =>
            rcases gives_bind.mp h with ⟨a, last, hmodify, h⟩ | ⟨error, hmodify, -⟩
            · obtain ⟨-, rfl⟩ := gives_modify.mp hmodify
              obtain ⟨rfl, rfl⟩ := gives_pure.mp h
              exact .inl ⟨hcomplete, rfl, rfl⟩
            · cases (gives_modify.mp hmodify).1
        · next hcomplete =>
            obtain ⟨rfl, rfl⟩ := gives_throw.mp h
            exact .inr ⟨by simpa using hcomplete, rfl, rfl⟩
      · exact .inl ⟨error, hbody, rfl⟩

theorem negation_cases {operand : Node} (h : (negation E scope operand).Gives table result table') :
    (∃ error, (E scope operand).Gives table (.error error) table' ∧ result = .error error) ∨
      ∃ first, (E scope operand).Gives table (.ok first) table' ∧
        ((first.complete = false ∧ result = .ok ⟨.negation first.node, false⟩) ∨
          (first.complete = true ∧
            ((∃ value, first.node = .boolean value ∧ result = .ok ⟨.boolean !value, true⟩) ∨
              ((∀ value, first.node ≠ .boolean value) ∧
                result = .error (.unsupportedNegation first.node))))) := by
  rw [negation, gives_bind] at h
  rcases h with ⟨first, middle, hfirst, h⟩ | ⟨error, hfirst, rfl⟩
  · refine .inr ⟨first, ?_⟩
    split at h
    · next hcomplete =>
        split at h
        · next value hvalue =>
            obtain ⟨rfl, rfl⟩ := gives_pure.mp h
            exact ⟨hfirst, .inr ⟨hcomplete, .inl ⟨value, hvalue, rfl⟩⟩⟩
        · next hother =>
            obtain ⟨rfl, rfl⟩ := gives_throw.mp h
            exact ⟨hfirst, .inr ⟨hcomplete, .inr ⟨hother, rfl⟩⟩⟩
    · next hcomplete =>
        obtain ⟨rfl, rfl⟩ := gives_pure.mp h
        exact ⟨hfirst, .inl ⟨by simpa using hcomplete, rfl⟩⟩
  · exact .inl ⟨error, hfirst, rfl⟩

theorem binary_cases {op : BinOp} {left right : Node}
    (h : (binary E scope op left right).Gives table result table') :
    (∃ error, (E scope left).Gives table (.error error) table' ∧ result = .error error) ∨
      ∃ first middle, (E scope left).Gives table (.ok first) middle ∧
        ((∃ error, (E scope right).Gives middle (.error error) table' ∧ result = .error error) ∨
          ∃ second, (E scope right).Gives middle (.ok second) table' ∧
            (((first.complete && second.complete) = false ∧
                result = .ok ⟨.binary op first.node second.node, false⟩) ∨
              (first.complete = true ∧ second.complete = true ∧
                result = (op.operate first.node second.node).map fun value => ⟨value, true⟩))) := by
  rw [binary, gives_bind] at h
  rcases h with ⟨first, middle, hfirst, h⟩ | ⟨error, hfirst, rfl⟩
  · refine .inr ⟨first, middle, hfirst, ?_⟩
    rcases gives_bind.mp h with ⟨second, last, hsecond, h⟩ | ⟨error, hsecond, rfl⟩
    · refine .inr ⟨second, ?_⟩
      split at h
      · next hcomplete =>
          obtain ⟨hcomplete, hcomplete'⟩ := Bool.and_eq_true_iff.mp hcomplete
          split at h
          · next value hvalue =>
              obtain ⟨rfl, rfl⟩ := gives_pure.mp h
              exact ⟨hsecond, .inr ⟨hcomplete, hcomplete', by rw [hvalue]; rfl⟩⟩
          · next error herror =>
              obtain ⟨rfl, rfl⟩ := gives_throw.mp h
              exact ⟨hsecond, .inr ⟨hcomplete, hcomplete', by rw [herror]; rfl⟩⟩
      · next hcomplete =>
          obtain ⟨rfl, rfl⟩ := gives_pure.mp h
          exact ⟨hsecond, .inl ⟨by simpa using hcomplete, rfl⟩⟩
    · exact .inl ⟨error, hsecond, rfl⟩
  · exact .inl ⟨error, hfirst, rfl⟩

theorem function_cases {parameter : String} {body : Node}
    (h : (function E scope parameter body).Gives table result table') :
    (∃ error, (E (scope.bindUnresolved parameter) body).Gives table (.error error) table' ∧
        result = .error error) ∨
      ∃ first, (E (scope.bindUnresolved parameter) body).Gives table (.ok first) table' ∧
        result = .ok ⟨.function parameter first.node, true⟩ := by
  rw [function, gives_bind] at h
  rcases h with ⟨first, middle, hfirst, h⟩ | ⟨error, hfirst, rfl⟩
  · obtain ⟨rfl, rfl⟩ := gives_pure.mp h
    exact .inr ⟨first, hfirst, rfl⟩
  · exact .inl ⟨error, hfirst, rfl⟩

/-- What stands for an operand of an application that is not carried out: its result, or its
name if nothing but a declaration binds that. The name of a declared function always stays. -/
def Operand (scope : Scope) (table : Table) (source result kept : Node) : Prop :=
  (kept = result ∧ ∀ {name parameter body}, source = .var name → scope.get? name = none →
    table.lookup name ≠ some (.function parameter body)) ∨
  ∃ name, source = .var name ∧ kept = source ∧ scope.get? name = none

theorem operand_cases {source outcome : Node} {kept : Except EvalError Node}
    (h : (operand scope source outcome).Gives table kept table') :
    table' = table ∧ ∃ node, kept = .ok node ∧ Operand scope table source outcome node := by
  rw [operand.eq_def] at h
  split at h
  · next name =>
      rw [gives_declared?_bind] at h
      split at h
      · next hscope _ =>
          obtain ⟨rfl, rfl⟩ := gives_pure.mp h
          exact ⟨rfl, _, rfl, .inr ⟨name, rfl, rfl, hscope⟩⟩
      · next hother =>
          obtain ⟨rfl, rfl⟩ := gives_pure.mp h
          refine ⟨rfl, _, rfl, .inl ⟨rfl, fun heq hscope hdeclared => ?_⟩⟩
          obtain rfl := Node.var.inj heq
          exact hother _ _ hscope hdeclared
  · next hother =>
      obtain ⟨rfl, rfl⟩ := gives_pure.mp h
      exact ⟨rfl, _, rfl, .inl ⟨rfl, fun heq _ => absurd heq (hother _)⟩⟩

theorem suspended_cases {callee argument first second : Node}
    (h : (suspended scope callee argument first second).Gives table result table') :
    table' = table ∧ ∃ kept kept', result = .ok ⟨.apply kept kept', false⟩ ∧
      Operand scope table callee first kept ∧ Operand scope table argument second kept' := by
  rw [suspended] at h
  rcases gives_bind.mp h with ⟨kept, middle, hkept, hrest⟩ | ⟨error, hkept, -⟩
  · obtain ⟨rfl, node, heq, hfirst⟩ := operand_cases hkept
    obtain rfl := Except.ok.inj heq
    rcases gives_bind.mp hrest with ⟨kept', last, hkept', hpure⟩ | ⟨error, hkept', -⟩
    · obtain ⟨rfl, node', heq', hsecond⟩ := operand_cases hkept'
      obtain rfl := Except.ok.inj heq'
      obtain ⟨rfl, rfl⟩ := gives_pure.mp hpure
      exact ⟨rfl, kept, kept', rfl, hfirst, hsecond⟩
    · obtain ⟨-, node, heq, -⟩ := operand_cases hkept'
      cases heq
  · obtain ⟨-, node, heq, -⟩ := operand_cases hkept
    cases heq

theorem application_cases {callee argument : Node}
    (h : (application E scope callee argument).Gives table result table') :
    (∃ error, (E scope callee).Gives table (.error error) table' ∧ result = .error error) ∨
      ∃ first middle, (E scope callee).Gives table (.ok first) middle ∧
        ((∃ error, (E scope argument).Gives middle (.error error) table' ∧
            result = .error error) ∨
          ∃ second last, (E scope argument).Gives middle (.ok second) last ∧
            ((∃ parameter body, first.complete = true ∧ first.node = .function parameter body ∧
                second.complete = true ∧ callee.mentionsUnresolved scope = false ∧
                argument.mentionsUnresolved scope = false ∧
                (E (Scope.bind [] parameter second.node) body).Gives last result table') ∨
              (table' = last ∧ first.complete = true ∧
                (∀ parameter body, first.node ≠ .function parameter body) ∧
                ∃ error ∈ [.tooManyArguments first.node, .notAFunction first.node],
                  result = .error error) ∨
              (table' = last ∧ (first.complete = false ∨ second.complete = false ∨
                  callee.mentionsUnresolved scope = true ∨
                  argument.mentionsUnresolved scope = true) ∧
                ∃ kept kept', result = .ok ⟨.apply kept kept', false⟩ ∧
                  Operand scope last callee first.node kept ∧
                  Operand scope last argument second.node kept'))) := by
  rw [application, gives_bind] at h
  rcases h with ⟨first, middle, hfirst, h⟩ | ⟨error, hfirst, rfl⟩
  · refine .inr ⟨first, middle, hfirst, ?_⟩
    rcases gives_bind.mp h with ⟨second, last, hsecond, h⟩ | ⟨error, hsecond, rfl⟩
    · refine .inr ⟨second, last, hsecond, ?_⟩
      split at h
      · next hcomplete =>
          split at h
          · next parameter body hfunction =>
              split at h
              · next hresolved =>
                  simp only [Bool.and_eq_true, Bool.not_eq_eq_eq_not, Bool.not_true] at hresolved
                  exact .inl ⟨parameter, body, hcomplete, hfunction, hresolved.1.1, hresolved.1.2,
                    hresolved.2, h⟩
              · next hresolved =>
                  obtain ⟨rfl, kept, kept', hresult, hkept, hkept'⟩ := suspended_cases h
                  refine .inr (.inr ⟨rfl, .inr ?_, kept, kept', hresult, hfunction ▸ hkept, hkept'⟩)
                  cases hsecond' : second.complete <;>
                    cases hcallee : callee.mentionsUnresolved scope <;>
                    simp_all
          · next hother =>
              refine .inr (.inl ?_)
              split at h
              · obtain ⟨rfl, rfl⟩ := gives_throw.mp h
                exact ⟨rfl, hcomplete, hother, _, List.mem_cons_self, rfl⟩
              · obtain ⟨rfl, rfl⟩ := gives_throw.mp h
                exact ⟨rfl, hcomplete, hother, _, List.mem_cons_of_mem _ List.mem_cons_self, rfl⟩
      · next hcomplete =>
          obtain ⟨rfl, kept, kept', hresult, hkept, hkept'⟩ := suspended_cases h
          exact .inr (.inr ⟨rfl, .inl (by simpa using hcomplete), kept, kept', hresult, hkept,
            hkept'⟩)
    · exact .inl ⟨error, hsecond, rfl⟩
  · exact .inl ⟨error, hfirst, rfl⟩

/-- The branch for the case that no condition of a chain holds, if there is one. -/
def otherwise (E : Scope → Node → Eval Evaluated) (scope : Scope) (whole : Node)
    (branch? : Option Node) : Eval Evaluated :=
  match branch? with
  | none => throw (.noValueFor whole)
  | some branch => do
      let value ← E scope branch
      if value.complete then return value else return ⟨whole.substitute scope, false⟩

theorem otherwise_cases {whole branch : Node}
    (h : (otherwise E scope whole (some branch)).Gives table result table') :
    (∃ error, (E scope branch).Gives table (.error error) table' ∧ result = .error error) ∨
      ∃ value, (E scope branch).Gives table (.ok value) table' ∧
        ((value.complete = false ∧ result = .ok ⟨whole.substitute scope, false⟩) ∨
          (value.complete = true ∧ result = .ok value)) := by
  rw [otherwise] at h
  rcases gives_bind.mp h with ⟨value, middle, hvalue, h⟩ | ⟨error, hvalue, rfl⟩
  · refine .inr ⟨value, ?_⟩
    split at h
    · next hcomplete =>
        obtain ⟨rfl, rfl⟩ := gives_pure.mp h
        exact ⟨hvalue, .inr ⟨hcomplete, rfl⟩⟩
    · next hcomplete =>
        obtain ⟨rfl, rfl⟩ := gives_pure.mp h
        exact ⟨hvalue, .inl ⟨by simpa using hcomplete, rfl⟩⟩
  · exact .inl ⟨error, hvalue, rfl⟩

theorem arms_cons_cases {whole condition branch : Node} {last : Eval Evaluated}
    {rest : List (Node × Node)}
    (h : (arms E scope whole last ((condition, branch) :: rest)).Gives table result table') :
    (∃ error, (E scope condition).Gives table (.error error) table' ∧ result = .error error) ∨
      ∃ test middle, (E scope condition).Gives table (.ok test) middle ∧
        ((∃ error, (E scope branch).Gives middle (.error error) table' ∧ result = .error error) ∨
          ∃ value final, (E scope branch).Gives middle (.ok value) final ∧
            ((table' = final ∧ (test.complete && value.complete) = false ∧
                result = .ok ⟨whole.substitute scope, false⟩) ∨
              (test.complete = true ∧ value.complete = true ∧
                ((table' = final ∧ test.node = .boolean true ∧ result = .ok value) ∨
                  (test.node = .boolean false ∧
                    (arms E scope whole last rest).Gives final result table') ∨
                  (table' = final ∧ (∀ value, test.node ≠ .boolean value) ∧
                    result = .error (.conditionNotBool test.node)))))) := by
  rw [arms, gives_bind] at h
  rcases h with ⟨test, middle, htest, h⟩ | ⟨error, htest, rfl⟩
  · refine .inr ⟨test, middle, htest, ?_⟩
    rcases gives_bind.mp h with ⟨value, final, hvalue, h⟩ | ⟨error, hvalue, rfl⟩
    · refine .inr ⟨value, final, hvalue, ?_⟩
      split at h
      · next hcomplete =>
          obtain ⟨hcomplete, hcomplete'⟩ := Bool.and_eq_true_iff.mp hcomplete
          refine .inr ⟨hcomplete, hcomplete', ?_⟩
          split at h
          · next htrue =>
              obtain ⟨rfl, rfl⟩ := gives_pure.mp h
              exact .inl ⟨rfl, htrue, rfl⟩
          · next hfalse => exact .inr (.inl ⟨hfalse, h⟩)
          · next htrue hfalse =>
              obtain ⟨rfl, rfl⟩ := gives_throw.mp h
              refine .inr (.inr ⟨rfl, fun value hnode => ?_, rfl⟩)
              cases value with
              | true => exact htrue hnode
              | false => exact hfalse hnode
      · next hcomplete =>
          obtain ⟨rfl, rfl⟩ := gives_pure.mp h
          exact .inl ⟨rfl, by simpa using hcomplete, rfl⟩
    · exact .inl ⟨error, hvalue, rfl⟩
  · exact .inl ⟨error, htest, rfl⟩

/-- The rest of a chain, from some condition on. -/
def chain (E : Scope → Node → Eval Evaluated) (scope : Scope) (whole : Node)
    (conditions branches : List Node) : Eval Evaluated :=
  arms E scope whole
    (match branches[conditions.length]? with
      | none => throw (.noValueFor whole)
      | some branch => do
          let value ← E scope branch
          if value.complete then return value else return ⟨whole.substitute scope, false⟩)
    (conditions.zip branches)

theorem chain_eq_arms (whole : Node) (conditions branches : List Node) :
    chain E scope whole conditions branches =
      arms E scope whole (otherwise E scope whole branches[conditions.length]?)
        (conditions.zip branches) :=
  rfl

theorem chain_nil_cases {whole branch : Node}
    (h : (chain E scope whole [] [branch]).Gives table result table') :
    (∃ error, (E scope branch).Gives table (.error error) table' ∧ result = .error error) ∨
      ∃ value, (E scope branch).Gives table (.ok value) table' ∧
        ((value.complete = false ∧ result = .ok ⟨whole.substitute scope, false⟩) ∨
          (value.complete = true ∧ result = .ok value)) :=
  otherwise_cases h

theorem chain_cons_cases {whole condition branch : Node} {conditions branches : List Node}
    (h : (chain E scope whole (condition :: conditions) (branch :: branches)).Gives table result
      table') :
    (∃ error, (E scope condition).Gives table (.error error) table' ∧ result = .error error) ∨
      ∃ test middle, (E scope condition).Gives table (.ok test) middle ∧
        ((∃ error, (E scope branch).Gives middle (.error error) table' ∧ result = .error error) ∨
          ∃ value last, (E scope branch).Gives middle (.ok value) last ∧
            ((table' = last ∧ (test.complete && value.complete) = false ∧
                result = .ok ⟨whole.substitute scope, false⟩) ∨
              (test.complete = true ∧ value.complete = true ∧
                ((table' = last ∧ test.node = .boolean true ∧ result = .ok value) ∨
                  (test.node = .boolean false ∧
                    (chain E scope whole conditions branches).Gives last result table') ∨
                  (table' = last ∧ (∀ value, test.node ≠ .boolean value) ∧
                    result = .error (.conditionNotBool test.node)))))) :=
  arms_cons_cases h

end Forms

end Eval

/-- The nodes that the message of an error shows. -/
def EvalError.nodes : EvalError → List Node
  | .tooManyArguments found | .notAFunction found | .conditionNotBool found
  | .unsupportedNegation found | .noValueFor found | .unresolvedDeclaration _ found => [found]
  | .unsupportedOperation _ left right | .notAnOperand _ left right => [left, right]
  | .divisionByZero | .unknownIdentifier _ | .alreadyDeclared _ | .missingRoot _ => []

theorem BinOp.operate_error {op : BinOp} {left right : Node} {error : EvalError}
    (h : op.operate left right = .error error) :
    (∀ node ∈ error.nodes, node = left ∨ node = right) ∧ ∀ node, error ≠ .noValueFor node := by
  have hoperands : ∀ a b : Node, (∀ node ∈ (EvalError.unsupportedOperation op a b).nodes,
      node = a ∨ node = b) ∧ ∀ node, EvalError.unsupportedOperation op a b ≠ .noValueFor node :=
    fun a b => ⟨by simp [EvalError.nodes], nofun⟩
  have hfloats : ∀ {a b}, op.onFloats left right a b = .error error →
      (∀ node ∈ error.nodes, node = left ∨ node = right) ∧ ∀ node, error ≠ .noValueFor node := by
    intro a b h
    cases op <;> simp only [onFloats] at h
    case div =>
      split at h
      · cases h
        exact ⟨nofun, nofun⟩
      · cases h
    case and | or =>
      cases h
      exact hoperands left right
    all_goals cases h
  rw [operate.eq_def] at h
  split at h
  · cases op <;> cases h
    all_goals exact hoperands _ _
  · cases h
    exact hoperands _ _
  · cases h
    exact hoperands _ _
  · cases op <;> simp only [onIntegers] at h
    case div =>
      split at h
      · cases h
        exact ⟨nofun, nofun⟩
      · cases h
    case and | or =>
      cases h
      exact hoperands _ _
    all_goals cases h
  · exact hfloats h
  · exact hfloats h
  · exact hfloats h
  · cases h
    exact ⟨by simp [EvalError.nodes], nofun⟩

theorem BinOp.isLiteral_of_operate {op : BinOp} {left right value : Node}
    (h : op.operate left right = .ok value) :
    left.isLiteral = true ∧ right.isLiteral = true ∧ value.isLiteral = true := by
  have hintegers : ∀ {a b}, op.onIntegers a b = .ok value → value.isLiteral = true := by
    intro a b h
    cases op <;> simp only [onIntegers] at h
    case div =>
      split at h
      · cases h
      · cases h
        rfl
    all_goals cases h
    all_goals rfl
  have hfloats : ∀ {a b}, op.onFloats left right a b = .ok value → value.isLiteral = true := by
    intro a b h
    cases op <;> simp only [onFloats] at h
    case div =>
      split at h
      · cases h
      · cases h
        rfl
    all_goals cases h
    all_goals rfl
  have hbooleans : ∀ {a b}, op.onBooleans a b = .ok value → value.isLiteral = true := by
    intro a b h
    cases op <;> simp only [onBooleans] at h
    all_goals cases h
    all_goals rfl
  rw [operate.eq_def] at h
  split at h
  · exact ⟨rfl, rfl, hbooleans h⟩
  · cases h
  · cases h
  · exact ⟨rfl, rfl, hintegers h⟩
  · exact ⟨rfl, rfl, hfloats h⟩
  · exact ⟨rfl, rfl, hfloats h⟩
  · exact ⟨rfl, rfl, hfloats h⟩
  · cases h

theorem Node.isValue_of_isLiteral {node : Node} (h : node.isLiteral = true) :
    node.isValue = true := by
  cases node <;> simp_all [isLiteral, isValue]

theorem Node.isInert_of_isLiteral {node : Node} (h : node.isLiteral = true) :
    node.isInert = true := by
  cases node <;> simp_all [isLiteral, isInert]

theorem Node.mentionsUnresolved_eq_false {node : Node} {scope : Scope} :
    node.mentionsUnresolved scope = false ↔
      ∀ x ∈ node.freeNames [], scope.isUnresolved x = false := by
  simp [mentionsUnresolved]

theorem Node.mentionsUnresolved_single {node value : Node} {parameter : String}
    (hvalue : value ≠ .noValue) :
    node.mentionsUnresolved (Scope.bind [] parameter value) = false := by
  refine mentionsUnresolved_eq_false.mpr fun x _ => ?_
  rw [Scope.isUnresolved, Scope.get?_bind]
  split
  · next heq =>
      split at heq
      · exact absurd (Option.some.inj heq) hvalue
      · cases heq
  · rfl

end Viewlet
