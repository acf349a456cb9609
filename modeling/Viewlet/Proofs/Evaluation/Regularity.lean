import Viewlet.Proofs.Evaluation.EvaluationRun

namespace Viewlet

/-- A property of nodes that their parts have too, that rebuilding keeps, and that no declaration
has. -/
structure Node.Hereditary (P : Node → Prop) : Prop where
  undeclared : ∀ {name body}, ¬P (.declaration name body)
  literal : ∀ {node}, node.isLiteral = true → P node
  var : ∀ name, P (.var name)
  negation : ∀ {operand}, P (.negation operand) ↔ P operand
  binary : ∀ {op left right}, P (.binary op left right) ↔ P left ∧ P right
  function : ∀ {parameter body}, P (.function parameter body) →
    P body ∧ ∀ {other}, P other → P (.function parameter other)
  apply : ∀ {callee argument}, P (.apply callee argument) ↔ P callee ∧ P argument
  ifElse : ∀ {conditions branches}, P (.ifElse conditions branches) →
    (∀ condition ∈ conditions, P condition) ∧ ∀ branch ∈ branches, P branch
  substitute : ∀ {scope node}, P node →
    (∀ name value, Scope.value? scope name = some value → P value) → P (node.substitute scope)

/-- What names have as values are literals and functions with a property. -/
def ValuesHave (P : Node → Prop) (value? : String → Option Node) : Prop :=
  ∀ name value, value? name = some value → value.isValue = true ∧ P value

section Values

variable {P : Node → Prop} {scope : Scope}

theorem valuesHave_emptyScope : ValuesHave P (Scope.value? []) := by
  intro name value h
  cases h

theorem valuesHave_emptyTable : ValuesHave P (fun name => List.lookup name ([] : Table)) := by
  intro name value h
  cases h

theorem ValuesHave.bindUnresolved (h : ValuesHave P scope.value?) (parameter : String) :
    ValuesHave P (scope.bindUnresolved parameter).value? :=
  fun name value hvalue => h name value (Scope.value?_of_bindUnresolved hvalue)

theorem valuesHave_single {parameter : String} {value : Node} (hvalue : value.isValue = true)
    (hP : P value) : ValuesHave P (Scope.bind [] parameter value).value? := by
  intro name found hfound
  obtain ⟨rfl, rfl⟩ := Scope.eq_of_value?_single hfound
  exact ⟨hvalue, hP⟩

end Values

/-- The error shows nodes with the property only, and a chain of conditions has no value only if
it has no branch for the case that none holds. -/
structure EvalError.Shows (P : Node → Prop) (error : EvalError) : Prop where
  nodes : ∀ node ∈ error.nodes, P node
  chain : ∀ {conditions branches}, error = .noValueFor (.ifElse conditions branches) →
    branches.length ≤ conditions.length

theorem EvalError.Shows.of_node {P : Node → Prop} {error : EvalError} {node : Node}
    (hnodes : error.nodes = [node]) (hP : P node) (hchain : ∀ found, error ≠ .noValueFor found) :
    error.Shows P :=
  ⟨hnodes ▸ List.forall_mem_singleton.mpr hP, fun h => absurd h (hchain _)⟩

/-- The evaluation of an expression has left the table as it was, and given a node with the
property: a value if it is complete, which it is unless an unresolved name is mentioned. If it
has failed, the error shows nodes with the property. -/
structure Evaluated.Regular (P : Node → Prop) (scope : Scope) (node : Node) (table : Table)
    (result : Except EvalError Evaluated) (table' : Table) : Prop where
  table_eq : table' = table
  kept : ∀ {outcome}, result = .ok outcome → P outcome.node
  isValue : ∀ {outcome}, result = .ok outcome → outcome.complete = true →
    outcome.node.isValue = true
  complete : ∀ {outcome}, result = .ok outcome → node.mentionsUnresolved scope = false →
    outcome.complete = true
  shows : ∀ {error}, result = .error error → error.Shows P

namespace Evaluated.Regular

variable {P : Node → Prop} {scope : Scope} {node part found : Node} {table table' : Table}

theorem failed {error : EvalError} (hshows : error.Shows P) :
    Regular P scope node table (.error error) table where
  table_eq := rfl
  kept h := by cases h
  isValue h := by cases h
  complete h := by cases h
  shows h := by
    cases h
    exact hshows

theorem value (hvalue : found.isValue = true) (hP : P found) :
    Regular P scope node table (.ok ⟨found, true⟩) table where
  table_eq := rfl
  kept h := by
    cases h
    exact hP
  isValue h _ := by
    cases h
    exact hvalue
  complete h _ := by
    cases h
    rfl
  shows h := by cases h

theorem waiting (hP : P found) (hmentions : node.mentionsUnresolved scope = true) :
    Regular P scope node table (.ok ⟨found, false⟩) table where
  table_eq := rfl
  kept h := by
    cases h
    exact hP
  isValue h hcomplete := by
    cases h
    cases hcomplete
  complete _ hnone := by
    rw [hmentions] at hnone
    cases hnone
  shows h := by cases h

theorem mentions {outcome : Evaluated} (h : Regular P scope part table (.ok outcome) table')
    (hcomplete : outcome.complete = false)
    (hpart : ∀ x ∈ part.freeNames [], x ∈ node.freeNames []) :
    node.mentionsUnresolved scope = true := by
  rw [← Bool.not_eq_false]
  intro hnone
  rw [Node.mentionsUnresolved_eq_false] at hnone
  have hpart' := h.complete rfl (Node.mentionsUnresolved_eq_false.mpr fun x hx =>
    hnone x (hpart x hx))
  rw [hcomplete] at hpart'
  cases hpart'

theorem of_error {scope' : Scope} {error : EvalError}
    (h : Regular P scope' part table (.error error) table') :
    Regular P scope node table (.error error) table' := by
  rw [h.table_eq]
  exact failed (h.shows rfl)

theorem of_complete {outcome : Evaluated} {part : Node}
    (h : Regular P scope part table (.ok outcome) table') (hcomplete : outcome.complete = true) :
    Regular P scope node table (.ok outcome) table' := by
  obtain ⟨found, complete⟩ := outcome
  obtain rfl : complete = true := hcomplete
  rw [h.table_eq]
  exact value (h.isValue rfl rfl) (h.kept rfl)

end Evaluated.Regular

/-- The evaluation is regular for every expression with the property, whatever values with the
property are in scope. -/
def Eval.IsRegular (P : Node → Prop) (E : Scope → Node → Eval Evaluated) : Prop :=
  ∀ {scope node table result table'}, P node → ValuesHave P (Scope.value? scope) →
    ValuesHave P (fun name => List.lookup name table) → (E scope node).Gives table result table' →
    Evaluated.Regular P scope node table result table'

namespace Eval.IsRegular

variable {P : Node → Prop} {E : Scope → Node → Eval Evaluated} {scope : Scope}
  {table table' : Table} {result : Except EvalError Evaluated}

theorem otherwise (hE : IsRegular P E) (hscope : ValuesHave P scope.value?)
    (htable : ValuesHave P (fun name => table.lookup name)) {whole : Node}
    (hwhole : P (whole.substitute scope)) {branch? : Option Node}
    (hmissing : branch? = none → (EvalError.noValueFor whole).Shows P)
    (hbranch : ∀ branch ∈ branch?, P branch ∧ ∀ x ∈ branch.freeNames [], x ∈ whole.freeNames [])
    (h : (Eval.otherwise E scope whole branch?).Gives table result table') :
    Evaluated.Regular P scope whole table result table' := by
  cases branch? with
  | none =>
      obtain ⟨rfl, rfl⟩ := gives_throw.mp h
      exact .failed (hmissing rfl)
  | some branch =>
      obtain ⟨hP, hnames⟩ := hbranch branch rfl
      rcases otherwise_cases h with ⟨error, hvalue, rfl⟩ | ⟨value, hvalue, hcases⟩
      · exact (hE hP hscope htable hvalue).of_error
      · have hvalue := hE hP hscope htable hvalue
        rcases hcases with ⟨hcomplete, rfl⟩ | ⟨hcomplete, rfl⟩
        · rw [hvalue.table_eq]
          exact .waiting hwhole (hvalue.mentions hcomplete hnames)
        · exact hvalue.of_complete hcomplete

theorem arms (hE : IsRegular P E) (hscope : ValuesHave P scope.value?)
    (htable : ValuesHave P (fun name => table.lookup name)) {whole : Node}
    (hwhole : P (whole.substitute scope)) {last : Eval Evaluated}
    (hlast : ∀ {result table'}, last.Gives table result table' →
      Evaluated.Regular P scope whole table result table') {pairs : List (Node × Node)}
    (hpairs : ∀ pair ∈ pairs, (P pair.1 ∧ ∀ x ∈ pair.1.freeNames [], x ∈ whole.freeNames []) ∧
      P pair.2 ∧ ∀ x ∈ pair.2.freeNames [], x ∈ whole.freeNames [])
    (h : (Eval.arms E scope whole last pairs).Gives table result table') :
    Evaluated.Regular P scope whole table result table' := by
  induction pairs with
  | nil => exact hlast h
  | cons pair pairs ih =>
      obtain ⟨condition, branch⟩ := pair
      obtain ⟨⟨hcondition, hnames⟩, hbranch, hnames'⟩ := hpairs _ List.mem_cons_self
      rcases arms_cons_cases h with ⟨error, htest, rfl⟩ | ⟨test, middle, htest, hrest⟩
      · exact (hE hcondition hscope htable htest).of_error
      · have htest := hE hcondition hscope htable htest
        obtain rfl := htest.table_eq
        rcases hrest with ⟨error, hvalue, rfl⟩ | ⟨value, final, hvalue, hcases⟩
        · exact (hE hbranch hscope htable hvalue).of_error
        · have hvalue := hE hbranch hscope htable hvalue
          obtain rfl := hvalue.table_eq
          rcases hcases with ⟨rfl, hcomplete, rfl⟩ | ⟨-, hcomplete, hselect⟩
          · refine .waiting hwhole ?_
            rcases Bool.and_eq_false_iff.mp hcomplete with hcomplete | hcomplete
            · exact htest.mentions hcomplete hnames
            · exact hvalue.mentions hcomplete hnames'
          · rcases hselect with ⟨rfl, -, rfl⟩ | ⟨-, hothers⟩ | ⟨rfl, -, rfl⟩
            · exact hvalue.of_complete hcomplete
            · exact ih (fun pair hmem => hpairs pair (List.mem_cons_of_mem _ hmem)) hothers
            · exact .failed (.of_node rfl (htest.kept rfl) nofun)

theorem application (hP : Node.Hereditary P) (hE : IsRegular P E)
    (hscope : ValuesHave P scope.value?) (htable : ValuesHave P (fun name => table.lookup name))
    {callee argument : Node} (hcallee : P callee) (hargument : P argument)
    (h : (Eval.application E scope callee argument).Gives table result table') :
    Evaluated.Regular P scope (.apply callee argument) table result table' := by
  have hnames : ∀ x ∈ callee.freeNames [], x ∈ (Node.apply callee argument).freeNames [] :=
    fun x hx => Node.mem_freeNames_apply.mpr (.inl hx)
  have hnames' : ∀ x ∈ argument.freeNames [], x ∈ (Node.apply callee argument).freeNames [] :=
    fun x hx => Node.mem_freeNames_apply.mpr (.inr hx)
  have hkept : ∀ {source outcome kept : Node}, P source → P outcome →
      Operand scope table source outcome kept → P kept := by
    rintro source outcome kept hsource houtcome (⟨rfl, -⟩ | ⟨name, -, rfl, -⟩)
    · exact houtcome
    · exact hsource
  rcases application_cases h with ⟨error, hfirst, rfl⟩ | ⟨first, middle, hfirst, hrest⟩
  · exact (hE hcallee hscope htable hfirst).of_error
  · have hfirst := hE hcallee hscope htable hfirst
    obtain rfl := hfirst.table_eq
    rcases hrest with ⟨error, hsecond, rfl⟩ | ⟨second, last, hsecond, hcases⟩
    · exact (hE hargument hscope htable hsecond).of_error
    · have hsecond := hE hargument hscope htable hsecond
      obtain rfl := hsecond.table_eq
      rcases hcases with ⟨parameter, body, -, hfunction, hcomplete', -, -, hbody⟩ |
        ⟨rfl, -, -, error, herror, rfl⟩ | ⟨rfl, hwaits, kept, kept', rfl, hoperand, hoperand'⟩
      · have hvalue := hsecond.isValue rfl hcomplete'
        have hrun := hE (hP.function (hfunction ▸ hfirst.kept rfl)).1
          (valuesHave_single hvalue (hsecond.kept rfl)) htable hbody
        exact ⟨hrun.table_eq, hrun.kept, hrun.isValue, fun heq _ => hrun.complete heq
          (Node.mentionsUnresolved_single (Node.ne_noValue_of_isValue hvalue)), hrun.shows⟩
      · have hcallee := hfirst.kept rfl
        simp only [List.mem_cons, List.not_mem_nil, or_false] at herror
        rcases herror with rfl | rfl
        · exact .failed (.of_node rfl hcallee nofun)
        · exact .failed (.of_node rfl hcallee nofun)
      · refine .waiting (hP.apply.mpr ⟨hkept hcallee (hfirst.kept rfl) hoperand,
          hkept hargument (hsecond.kept rfl) hoperand'⟩) ?_
        rcases hwaits with hcomplete | hcomplete | hmentions | hmentions
        · exact hfirst.mentions hcomplete hnames
        · exact hsecond.mentions hcomplete hnames'
        · obtain ⟨x, hx, hunresolved⟩ := List.any_eq_true.mp hmentions
          exact List.any_eq_true.mpr ⟨x, hnames x hx, hunresolved⟩
        · obtain ⟨x, hx, hunresolved⟩ := List.any_eq_true.mp hmentions
          exact List.any_eq_true.mpr ⟨x, hnames' x hx, hunresolved⟩

theorem step (hP : Node.Hereditary P) (hE : IsRegular P E) : IsRegular P (Eval.step E) := by
  intro scope node table result table' hnode hscope htable h
  cases node with
  | integer | float | boolean =>
      obtain ⟨rfl, rfl⟩ := gives_pure.mp h
      exact .value rfl hnode
  | noValue | typeName | typeDefinition | construction =>
      obtain ⟨rfl, rfl⟩ := gives_throw.mp h
      exact .failed ⟨List.forall_mem_singleton.mpr hnode, nofun⟩
  | declaration => exact absurd hnode hP.undeclared
  | var name =>
      obtain ⟨rfl, hcases⟩ := variableValue_cases h
      rcases hcases with ⟨hunresolved, rfl⟩ | ⟨value, hvalue, rfl⟩ |
        ⟨-, ⟨-, rfl⟩ | ⟨hvalue, rfl⟩ | ⟨value, hvalue, -, rfl⟩⟩
      · refine .waiting (hP.var name) ?_
        exact List.any_eq_true.mpr ⟨name, Node.mem_freeNames_var.mpr rfl, hunresolved⟩
      · exact .value (hscope name value hvalue).1 (hscope name value hvalue).2
      · exact .failed ⟨nofun, nofun⟩
      · cases (htable name _ hvalue).1
      · exact .value (htable name value hvalue).1 (htable name value hvalue).2
  | negation operand =>
      have hoperand := hP.negation.mp hnode
      rcases negation_cases h with ⟨error, hfirst, rfl⟩ | ⟨first, hfirst, hcases⟩
      · exact (hE hoperand hscope htable hfirst).of_error
      · have hfirst := hE hoperand hscope htable hfirst
        obtain rfl := hfirst.table_eq
        rcases hcases with ⟨hcomplete, rfl⟩ | ⟨-, ⟨value, -, rfl⟩ | ⟨-, rfl⟩⟩
        · exact .waiting (hP.negation.mpr (hfirst.kept rfl)) (hfirst.mentions hcomplete
            fun x hx => Node.mem_freeNames_negation.mpr hx)
        · exact .value rfl (hP.literal rfl)
        · exact .failed (.of_node rfl (hfirst.kept rfl) nofun)
  | binary op left right =>
      obtain ⟨hleft, hright⟩ := hP.binary.mp hnode
      rcases binary_cases h with ⟨error, hfirst, rfl⟩ | ⟨first, middle, hfirst, hrest⟩
      · exact (hE hleft hscope htable hfirst).of_error
      · have hfirst := hE hleft hscope htable hfirst
        obtain rfl := hfirst.table_eq
        rcases hrest with ⟨error, hsecond, rfl⟩ | ⟨second, hsecond, hcases⟩
        · exact (hE hright hscope htable hsecond).of_error
        · have hsecond := hE hright hscope htable hsecond
          obtain rfl := hsecond.table_eq
          rcases hcases with ⟨hcomplete, rfl⟩ | ⟨-, -, rfl⟩
          · refine .waiting (hP.binary.mpr ⟨hfirst.kept rfl, hsecond.kept rfl⟩) ?_
            rcases Bool.and_eq_false_iff.mp hcomplete with hcomplete | hcomplete
            · exact hfirst.mentions hcomplete fun x hx => Node.mem_freeNames_binary.mpr (.inl hx)
            · exact hsecond.mentions hcomplete fun x hx => Node.mem_freeNames_binary.mpr (.inr hx)
          · cases hvalue : op.operate first.node second.node with
            | error error =>
                obtain ⟨hoperands, hother⟩ := BinOp.operate_error hvalue
                refine .failed ⟨fun node hmem => ?_, fun heq => absurd heq (hother _)⟩
                rcases hoperands node hmem with rfl | rfl
                · exact hfirst.kept rfl
                · exact hsecond.kept rfl
            | ok value =>
                obtain ⟨-, -, hliteral⟩ := BinOp.isLiteral_of_operate hvalue
                exact .value (Node.isValue_of_isLiteral hliteral) (hP.literal hliteral)
  | function parameter body =>
      obtain ⟨hbody, hrebuild⟩ := hP.function hnode
      rcases function_cases h with ⟨error, hfirst, rfl⟩ | ⟨first, hfirst, rfl⟩
      · exact (hE hbody (hscope.bindUnresolved _) htable hfirst).of_error
      · have hfirst := hE hbody (hscope.bindUnresolved _) htable hfirst
        obtain rfl := hfirst.table_eq
        exact .value rfl (hrebuild (hfirst.kept rfl))
  | apply callee argument =>
      obtain ⟨hcallee, hargument⟩ := hP.apply.mp hnode
      exact hE.application hP hscope htable hcallee hargument h
  | ifElse conditions branches =>
      obtain ⟨hconditions, hbranches⟩ := hP.ifElse hnode
      have hwhole : P ((Node.ifElse conditions branches).substitute scope) :=
        hP.substitute hnode fun name value hvalue => (hscope name value hvalue).2
      have hcondition : ∀ node ∈ conditions,
          P node ∧ ∀ x ∈ node.freeNames [], x ∈ (Node.ifElse conditions branches).freeNames [] :=
        fun node hmem => ⟨hconditions node hmem,
          fun x hx => Node.mem_freeNames_ifElse.mpr (.inl ⟨node, hmem, hx⟩)⟩
      have hbranch : ∀ node ∈ branches,
          P node ∧ ∀ x ∈ node.freeNames [], x ∈ (Node.ifElse conditions branches).freeNames [] :=
        fun node hmem => ⟨hbranches node hmem,
          fun x hx => Node.mem_freeNames_ifElse.mpr (.inr ⟨node, hmem, hx⟩)⟩
      change (chain E scope (.ifElse conditions branches) conditions branches).Gives table result
        table' at h
      rw [chain_eq_arms] at h
      have hmissing : branches[conditions.length]? = none →
          (EvalError.noValueFor (.ifElse conditions branches)).Shows P := by
        intro hnone
        refine ⟨List.forall_mem_singleton.mpr hnode, fun heq => ?_⟩
        cases heq
        exact List.getElem?_eq_none_iff.mp hnone
      refine hE.arms hscope htable hwhole
        (hE.otherwise hscope htable hwhole hmissing fun branch hmem =>
          hbranch branch (List.mem_of_getElem? hmem)) (fun pair hmem => ?_) h
      obtain ⟨hfirst, hsecond⟩ := List.of_mem_zip hmem
      exact ⟨hcondition pair.1 hfirst, hbranch pair.2 hsecond⟩

end Eval.IsRegular

/-- Evaluation is regular at every depth. -/
theorem isRegular_evaluate {P : Node → Prop} (hP : Node.Hereditary P) (depth : Nat) :
    Eval.IsRegular P (evaluate depth) := by
  induction depth with
  | zero =>
      intro scope node table result table' _ _ _ h
      cases h
  | succ depth ih => exact ih.step hP

section Formed

variable {admits : String → Prop}

theorem Node.hereditary_formed (admits : String → Prop) :
    Node.Hereditary (Node.Formed admits) where
  undeclared h := by
    cases h with
    | inert hinert => cases hinert
  literal h := .inert (Node.isInert_of_isLiteral h)
  var name := .var name
  negation := by
    refine ⟨fun h => ?_, .negation⟩
    cases h with
    | inert hinert => cases hinert
    | negation h => exact h
  binary := by
    refine ⟨fun h => ?_, fun h => .binary h.1 h.2⟩
    cases h with
    | inert hinert => cases hinert
    | binary hleft hright => exact ⟨hleft, hright⟩
  function h := by
    cases h with
    | inert hinert => cases hinert
    | function hadmits hbody => exact ⟨hbody, .function hadmits⟩
  apply := by
    refine ⟨fun h => ?_, fun h => .apply h.1 h.2⟩
    cases h with
    | inert hinert => cases hinert
    | apply hcallee hargument => exact ⟨hcallee, hargument⟩
  ifElse h := by
    cases h with
    | inert hinert => cases hinert
    | ifElse _ hconditions hbranches => exact ⟨hconditions, hbranches⟩
  substitute h hscope := h.substitute hscope

/-- What names have as values are literals and functions of a form. -/
def HoldsValues (admits : String → Prop) (value? : String → Option Node) : Prop :=
  ∀ name value, value? name = some value → value.isValue = true ∧ value.Formed admits

theorem holdsValues_emptyScope : HoldsValues admits (Scope.value? []) :=
  valuesHave_emptyScope

theorem holdsValues_emptyTable :
    HoldsValues admits (fun name => List.lookup name ([] : Table)) :=
  valuesHave_emptyTable

theorem HoldsValues.bindUnresolved {scope : Scope} (h : HoldsValues admits scope.value?)
    (parameter : String) : HoldsValues admits (scope.bindUnresolved parameter).value? :=
  ValuesHave.bindUnresolved h parameter

theorem holdsValues_unresolved (name : String) :
    HoldsValues admits (Scope.bindUnresolved [] name).value? :=
  holdsValues_emptyScope.bindUnresolved name

theorem holdsValues_bind {parameter : String} {value : Node} (hvalue : value.isValue = true)
    (hformed : value.Formed admits) :
    HoldsValues admits (Scope.bind [] parameter value).value? :=
  valuesHave_single hvalue hformed

/-- The evaluation of an expression has left the table as it was, and given an expression: a
value if it is complete, which it is unless an unresolved name is mentioned. -/
structure Evaluated.Tidy (admits : String → Prop) (scope : Scope) (node : Node) (table : Table)
    (result : Except EvalError Evaluated) (table' : Table) : Prop where
  table_eq : table' = table
  formed : ∀ {outcome}, result = .ok outcome → outcome.node.Formed admits
  isValue : ∀ {outcome}, result = .ok outcome → outcome.complete = true →
    outcome.node.isValue = true
  complete : ∀ {outcome}, result = .ok outcome → node.mentionsUnresolved scope = false →
    outcome.complete = true

/-- The evaluation is tidy for every expression, whatever values are in scope. -/
def Eval.IsTidy (admits : String → Prop) (E : Scope → Node → Eval Evaluated) : Prop :=
  ∀ {scope node table result table'}, node.Formed admits → HoldsValues admits (Scope.value? scope) →
    HoldsValues admits (fun name => List.lookup name table) →
    (E scope node).Gives table result table' →
    Evaluated.Tidy admits scope node table result table'

/-- Evaluation is tidy at every depth. -/
theorem isTidy_evaluate (admits : String → Prop) (depth : Nat) :
    Eval.IsTidy admits (evaluate depth) := by
  intro scope node table result table' hnode hscope htable hrun
  have hregular := isRegular_evaluate (Node.hereditary_formed admits) depth hnode hscope htable hrun
  exact ⟨hregular.table_eq, hregular.kept, hregular.isValue, hregular.complete⟩

end Formed

end Viewlet
