import Viewlet.Proofs.Evaluation.Portability

namespace Viewlet

/-- Renames the nodes an error is about. -/
def EvalError.rename (ρ : String → String) : EvalError → EvalError
  | .divisionByZero => .divisionByZero
  | .unknownIdentifier name => .unknownIdentifier (ρ name)
  | .alreadyDeclared name => .alreadyDeclared name
  | .tooManyArguments found => .tooManyArguments (found.rename ρ)
  | .notAFunction found => .notAFunction (found.rename ρ)
  | .conditionNotBool found => .conditionNotBool (found.rename ρ)
  | .unsupportedNegation operand => .unsupportedNegation (operand.rename ρ)
  | .unsupportedOperation op left right =>
      .unsupportedOperation op (left.rename ρ) (right.rename ρ)
  | .notAnOperand op left right => .notAnOperand op (left.rename ρ) (right.rename ρ)
  | .noValueFor node => .noValueFor (node.rename ρ)
  | .missingRoot root => .missingRoot root
  | .unresolvedDeclaration name body => .unresolvedDeclaration name (body.rename ρ)

/-- Renames the result of an evaluation. -/
def Evaluated.rename (ρ : String → String) (outcome : Evaluated) : Evaluated :=
  ⟨outcome.node.rename ρ, outcome.complete⟩

/-- Renames what is declared. The declared names stay. -/
def Table.rename (ρ : String → String) (table : Table) : Table :=
  table.map fun entry => (entry.1, entry.2.rename ρ)

theorem lookup_rename (ρ : String → String) (table : Table) (name : String) :
    (table.rename ρ).lookup name = (table.lookup name).map (Node.rename ρ) :=
  lookup_map (Node.rename ρ) name table

/-- Renames a result by the given map, or an error. -/
def renameResult {α : Type} (ρ : String → String) (f : α → α) :
    Except EvalError α → Except EvalError α
  | .ok a => .ok (f a)
  | .error error => .error (error.rename ρ)

section Operations

variable {ρ : String → String}

theorem BinOp.onIntegers_rename (op : BinOp) (a b : Int64) :
    renameResult ρ (Node.rename ρ) (op.onIntegers a b) = op.onIntegers a b := by
  cases op with
  | div =>
      rw [onIntegers]
      split <;> rfl
  | _ => rfl

theorem BinOp.onFloats_rename (op : BinOp) {left right : Node} (a b : Float)
    (hleft : left.rename ρ = left) (hright : right.rename ρ = right) :
    renameResult ρ (Node.rename ρ) (op.onFloats left right a b) = op.onFloats left right a b := by
  cases op with
  | div =>
      rw [onFloats]
      split <;> rfl
  | and | or => simp only [onFloats, renameResult, EvalError.rename, hleft, hright]
  | _ => rfl

theorem BinOp.onBooleans_rename (op : BinOp) (a b : Bool) :
    renameResult ρ (Node.rename ρ) (op.onBooleans a b) = op.onBooleans a b := by
  cases op <;> rfl

theorem BinOp.operate_rename (op : BinOp) (left right : Node) :
    op.operate (left.rename ρ) (right.rename ρ) =
      renameResult ρ (Node.rename ρ) (op.operate left right) := by
  cases left with
  | boolean a =>
      cases right with
      | boolean b => exact (op.onBooleans_rename a b).symm
      | _ => rfl
  | integer a =>
      cases right with
      | integer b => exact (op.onIntegers_rename a b).symm
      | float b => exact (op.onFloats_rename a.toFloat b rfl rfl).symm
      | _ => rfl
  | float a =>
      cases right with
      | integer b => exact (op.onFloats_rename a b.toFloat rfl rfl).symm
      | float b => exact (op.onFloats_rename a b rfl rfl).symm
      | _ => rfl
  | _ => cases right <;> rfl

end Operations

namespace Eval

/-- The second evaluation runs on the renamed table as the first one does on the table, with the
results renamed. -/
def Mirrors {α : Type} (ρ : String → String) (f : α → α) (table : Table) (x x' : Eval α) : Prop :=
  x'.run.run (table.rename ρ) =
    (x.run.run table).map fun outcome => (renameResult ρ f outcome.1, outcome.2.rename ρ)

section Monad

variable {α β : Type} {ρ : String → String} {f : α → α} {g : β → β} {table : Table}

theorem mirrors_pure (a : α) : Mirrors ρ f table (pure a) (pure (f a)) :=
  rfl

theorem mirrors_throw (error : EvalError) :
    Mirrors ρ f table (throw error) (throw (error.rename ρ)) :=
  rfl

theorem Mirrors.bind {x x' : Eval α} {next next' : α → Eval β} (hx : Mirrors ρ f table x x')
    (hnext : ∀ a middle, x.Gives table (.ok a) middle →
      Mirrors ρ g middle (next a) (next' (f a))) :
    Mirrors ρ g table (x >>= next) (x' >>= next') := by
  rw [Mirrors, run_bind, run_bind, hx]
  rcases hrun : x.run.run table with _ | ⟨error | a, middle⟩
  · rfl
  · rfl
  · exact hnext a middle hrun

theorem mirrors_declared?_bind {name : String} {next next' : Option Node → Eval β}
    (h : Mirrors ρ g table (next (table.lookup name))
      (next' ((table.lookup name).map (Node.rename ρ)))) :
    Mirrors ρ g table (declared? name >>= next) (declared? name >>= next') := by
  rw [← lookup_rename] at h
  exact h

theorem mirrors_modify {change change' : Table → Table}
    (h : (change table).rename ρ = change' (table.rename ρ)) :
    Mirrors ρ id table (modify change) (modify change') :=
  congrArg (fun table => some (Except.ok PUnit.unit, table)) h.symm

end Monad

/-- The renamed evaluation of an expression mirrors its evaluation. -/
def IsMirrored (ρ : String → String) (called : List String)
    (E : Scope → Node → Eval Evaluated) : Prop :=
  ∀ {scope node table}, Scope.Fits ρ called scope node → Table.Portable ρ called table →
    Mirrors ρ (Evaluated.rename ρ) table (E scope node) (E (scope.rename ρ) (node.rename ρ))

section Forms

variable {ρ : String → String} {E : Scope → Node → Eval Evaluated} {scope : Scope} {table : Table}

theorem variableValue_mirrors {name : String} (hnode : scope.Renames ρ (.var name)) :
    Mirrors ρ (Evaluated.rename ρ) table (variableValue scope name)
      (variableValue (scope.rename ρ) (ρ name)) := by
  have htracks := hnode.tracks name (Node.mem_freeNames_var.mpr rfl)
  have hglobal := hnode.global name (Node.mem_freeNames_var.mpr rfl)
  rw [variableValue, variableValue, htracks]
  cases hscope : scope.get? name with
  | some value => cases value <;> rfl
  | none =>
      rw [hglobal hscope]
      refine mirrors_declared?_bind ?_
      cases table.lookup name with
      | none =>
          refine Eq.trans ?_ (mirrors_throw (.unknownIdentifier name))
          rw [EvalError.rename, hglobal hscope]
          rfl
      | some value =>
          cases value with
          | noValue =>
              refine Eq.trans ?_ (mirrors_pure (⟨.var name, false⟩ : Evaluated))
              rw [Evaluated.rename, Node.rename, hglobal hscope]
              rfl
          | _ => rfl

theorem LooksUp.mirrors (hE : LooksUp E) {name : String} (hnode : scope.Renames ρ (.var name)) :
    Mirrors ρ (Evaluated.rename ρ) table (E scope (.var name))
      (E (scope.rename ρ) (.var (ρ name))) := by
  rcases hE with hE | hE
  · rw [hE, hE]
    exact variableValue_mirrors hnode
  · rw [hE, hE]
    rfl

theorem operand_mirrors {source found : Node} (hsource : scope.Renames ρ source) :
    Mirrors ρ (Node.rename ρ) table (operand scope source found)
      (operand (scope.rename ρ) (source.rename ρ) (found.rename ρ)) := by
  cases source with
  | var name =>
      have htracks := hsource.tracks name (Node.mem_freeNames_var.mpr rfl)
      have hglobal := hsource.global name (Node.mem_freeNames_var.mpr rfl)
      rw [Node.rename, operand, operand, htracks]
      cases hscope : scope.get? name with
      | some value => rfl
      | none =>
          rw [hglobal hscope]
          refine mirrors_declared?_bind ?_
          cases table.lookup name with
          | none => rfl
          | some value =>
              cases value with
              | function parameter body =>
                  refine Eq.trans ?_ (mirrors_pure (Node.var name))
                  rw [Node.rename, hglobal hscope]
                  rfl
              | _ => rfl
  | _ => rfl

theorem suspended_mirrors {callee argument first second : Node}
    (hcallee : scope.Renames ρ callee) (hargument : scope.Renames ρ argument) :
    Mirrors ρ (Evaluated.rename ρ) table (suspended scope callee argument first second)
      (suspended (scope.rename ρ) (callee.rename ρ) (argument.rename ρ) (first.rename ρ)
        (second.rename ρ)) :=
  (operand_mirrors hcallee).bind fun _ _ _ => (operand_mirrors hargument).bind fun _ _ _ =>
    mirrors_pure _

end Forms

namespace IsMirrored

variable {ρ : String → String} {called : List String} {E : Scope → Node → Eval Evaluated}
  {scope : Scope} {table : Table}

theorem negation (hE : IsMirrored ρ called E) (htable : table.Portable ρ called) {operand : Node}
    (hoperand : scope.Fits ρ called operand) :
    Mirrors ρ (Evaluated.rename ρ) table (Eval.negation E scope operand)
      (Eval.negation E (scope.rename ρ) (operand.rename ρ)) := by
  refine (hE hoperand htable).bind fun result middle _ => ?_
  obtain ⟨node, complete⟩ := result
  cases complete with
  | false => rfl
  | true => cases node <;> rfl

theorem binary (hE : IsMirrored ρ called E) (hregular : IsRegular Node.IsExpression E)
    (htable : table.Portable ρ called) (op : BinOp) {left right : Node}
    (hleft : scope.Fits ρ called left) (hright : scope.Fits ρ called right) :
    Mirrors ρ (Evaluated.rename ρ) table (Eval.binary E scope op left right)
      (Eval.binary E (scope.rename ρ) op (left.rename ρ) (right.rename ρ)) := by
  refine (hE hleft htable).bind fun first middle hfirst => ?_
  obtain rfl := (hleft.regular hleft.respects.isExpression htable hregular hfirst).table_eq
  refine (hE hright htable).bind fun second last _ => ?_
  obtain ⟨node, complete⟩ := first
  obtain ⟨node', complete'⟩ := second
  cases hcomplete : complete && complete' with
  | false =>
      simp only [Evaluated.rename, hcomplete, Bool.false_eq_true, if_false]
      rfl
  | true =>
      simp only [Evaluated.rename, hcomplete, BinOp.operate_rename, if_true]
      cases op.operate node node' <;> rfl

theorem function (hE : IsMirrored ρ called E) (htable : table.Portable ρ called)
    {parameter : String} {body : Node}
    (hbody : (scope.bindUnresolved parameter).Fits ρ called body) :
    Mirrors ρ (Evaluated.rename ρ) table (Eval.function E scope parameter body)
      (Eval.function E (scope.rename ρ) (ρ parameter) (body.rename ρ)) :=
  (hE hbody htable).bind fun _ _ _ => mirrors_pure _

theorem application (hE : IsMirrored ρ called E) (hscoped : IsScoped ρ called E)
    (hregular : IsRegular Node.IsExpression E) (hlooksUp : LooksUp E)
    (htable : table.Portable ρ called) {callee argument : Node}
    (hnode : scope.Fits ρ called (.apply callee argument)) :
    Mirrors ρ (Evaluated.rename ρ) table (Eval.application E scope callee argument)
      (Eval.application E (scope.rename ρ) (callee.rename ρ) (argument.rename ρ)) := by
  have hcallee := hnode.toRenames.callee
  have hargument := hnode.argument
  have hmirrors : Mirrors ρ (Evaluated.rename ρ) table (E scope callee)
      (E (scope.rename ρ) (callee.rename ρ)) := by
    cases hvar : callee.isVariable with
    | false => exact hE (hnode.callee hvar) htable
    | true =>
        obtain ⟨name, rfl⟩ := Node.exists_eq_var hvar
        exact hlooksUp.mirrors hcallee
  refine hmirrors.bind fun first middle hfirst => ?_
  obtain rfl := (hnode.regular hcallee.respects.isExpression htable hregular hfirst).table_eq
  refine (hE hargument htable).bind fun second last hsecond => ?_
  obtain rfl := (hargument.regular hargument.respects.isExpression htable hregular
    hsecond).table_eq
  have hcallable := hscoped.callable hregular hlooksUp hnode htable hfirst
  have hportable := hscoped.portable hregular hargument htable hsecond
  obtain ⟨node, complete⟩ := first
  obtain ⟨node', complete'⟩ := second
  cases complete with
  | false => exact suspended_mirrors hcallee hargument.toRenames
  | true =>
      cases node with
      | function parameter body =>
          simp only [Evaluated.rename, Node.rename, if_true,
            hcallee.tracks.mentionsUnresolved hcallee.respects,
            hargument.tracks.mentionsUnresolved hargument.respects]
          cases hready : complete' && !callee.mentionsUnresolved scope &&
              !argument.mentionsUnresolved scope with
          | false =>
              simp only [Bool.false_eq_true, if_false]
              exact suspended_mirrors hcallee hargument.toRenames
          | true =>
              simp only [Bool.and_eq_true, Bool.not_eq_true'] at hready
              obtain ⟨⟨hcomplete, hresolved⟩, hresolved'⟩ := hready
              obtain ⟨hvalue, hportable⟩ := hportable hcomplete hresolved'
              simp only [if_true]
              exact hE (.single (hcallable rfl hresolved) hvalue hportable) htable
      | _ => cases callee <;> rfl

theorem arms (hE : IsMirrored ρ called E) (hregular : IsRegular Node.IsExpression E)
    (htable : table.Portable ρ called) {whole : Node} (hwhole : scope.Fits ρ called whole)
    {last last' : Eval Evaluated} (hlast : Mirrors ρ (Evaluated.rename ρ) table last last')
    {pairs : List (Node × Node)}
    (hpairs : ∀ pair ∈ pairs, scope.Fits ρ called pair.1 ∧ scope.Fits ρ called pair.2) :
    Mirrors ρ (Evaluated.rename ρ) table (Eval.arms E scope whole last pairs)
      (Eval.arms E (scope.rename ρ) (whole.rename ρ) last'
        (pairs.map fun pair => (pair.1.rename ρ, pair.2.rename ρ))) := by
  induction pairs with
  | nil => exact hlast
  | cons pair pairs ih =>
      obtain ⟨condition, branch⟩ := pair
      obtain ⟨hcondition, hbranch⟩ := hpairs _ List.mem_cons_self
      rw [Eval.arms, List.map_cons, Eval.arms]
      refine (hE hcondition htable).bind fun test middle htest => ?_
      obtain rfl := (hcondition.regular hcondition.respects.isExpression htable hregular
        htest).table_eq
      refine (hE hbranch htable).bind fun value final hvalue => ?_
      obtain rfl := (hbranch.regular hbranch.respects.isExpression htable hregular hvalue).table_eq
      obtain ⟨node, complete⟩ := test
      obtain ⟨node', complete'⟩ := value
      simp only [Evaluated.rename, Node.rename_substitute hwhole.respects hwhole.tracks]
      split
      · cases node with
        | boolean selected =>
            cases selected with
            | true => rfl
            | false => exact ih fun pair hmem => hpairs pair (List.mem_cons_of_mem _ hmem)
        | _ => rfl
      · rfl

theorem otherwise (hE : IsMirrored ρ called E) (htable : table.Portable ρ called) {whole : Node}
    (hwhole : scope.Fits ρ called whole) {branch? : Option Node}
    (hbranch : ∀ branch ∈ branch?, scope.Fits ρ called branch) :
    Mirrors ρ (Evaluated.rename ρ) table (Eval.otherwise E scope whole branch?)
      (Eval.otherwise E (scope.rename ρ) (whole.rename ρ) (branch?.map (Node.rename ρ))) := by
  cases branch? with
  | none => rfl
  | some branch =>
      refine (hE (hbranch branch rfl) htable).bind fun value middle _ => ?_
      obtain ⟨node, complete⟩ := value
      simp only [Evaluated.rename, Node.rename_substitute hwhole.respects hwhole.tracks]
      split <;> rfl

theorem conditional (hE : IsMirrored ρ called E) (hregular : IsRegular Node.IsExpression E)
    (htable : table.Portable ρ called) {conditions branches : List Node}
    (hnode : scope.Fits ρ called (.ifElse conditions branches)) :
    Mirrors ρ (Evaluated.rename ρ) table (chain E scope (.ifElse conditions branches) conditions
      branches) (chain E (scope.rename ρ) ((Node.ifElse conditions branches).rename ρ)
        (conditions.map (Node.rename ρ)) (branches.map (Node.rename ρ))) := by
  obtain ⟨hconditions, hbranches⟩ := hnode.arms
  rw [chain_eq_arms, chain_eq_arms, List.length_map, List.getElem?_map, List.zip_map]
  refine hE.arms hregular htable hnode (hE.otherwise htable hnode fun branch hmem =>
    hbranches branch (List.mem_of_getElem? hmem)) fun pair hmem => ?_
  obtain ⟨hfirst, hsecond⟩ := List.of_mem_zip hmem
  exact ⟨hconditions pair.1 hfirst, hbranches pair.2 hsecond⟩

theorem step (hE : IsMirrored ρ called E) (hscoped : IsScoped ρ called E)
    (hregular : IsRegular Node.IsExpression E) (hlooksUp : LooksUp E) :
    IsMirrored ρ called (Eval.step E) := by
  intro scope node table hnode htable
  cases node with
  | integer | float | boolean | noValue | typeName | typeDefinition | construction => rfl
  | declaration =>
      cases hnode.respects with
      | inert hinert => cases hinert
  | var name => exact variableValue_mirrors hnode.toRenames
  | negation operand => exact hE.negation htable hnode.operand
  | binary op left right =>
      exact hE.binary hregular htable op hnode.operands.1 hnode.operands.2
  | function parameter body => exact hE.function htable hnode.opens.body
  | apply callee argument => exact hE.application hscoped hregular hlooksUp htable hnode
  | ifElse conditions branches =>
      have hmirrors := hE.conditional hregular htable hnode
      rw [Node.rename_ifElse] at hmirrors ⊢
      exact hmirrors

end IsMirrored

end Eval

/-- Renamed expressions run as expressions do, at every depth. -/
theorem isMirrored_evaluate (ρ : String → String) (called : List String) (depth : Nat) :
    Eval.IsMirrored ρ called (evaluate depth) := by
  induction depth with
  | zero =>
      intro scope node table _ _
      rfl
  | succ depth ih =>
      exact ih.step (isScoped_evaluate ρ called depth)
        (isRegular_evaluate (Node.hereditary_formed _) depth) (looksUp_evaluate depth)

theorem Scope.Opens.mirrors {ρ : String → String} {called : List String} {scope : Scope}
    {node : Node} {table : Table} (depth : Nat) (hnode : scope.Opens ρ called node)
    (htable : table.Portable ρ called) :
    Eval.Mirrors ρ (Evaluated.rename ρ) table (evaluate depth scope node)
      (evaluate depth (scope.rename ρ) (node.rename ρ)) := by
  cases node with
  | function parameter body =>
      cases depth with
      | zero => rfl
      | succ depth =>
          exact Eval.IsMirrored.function (isMirrored_evaluate ρ called depth) htable hnode.body
  | _ => exact isMirrored_evaluate ρ called depth (hnode.fits hnode.inner) htable

end Viewlet
