import Viewlet.Proofs.Evaluation.Regularity

namespace Viewlet

/-- An expression that does not refer to the name. -/
def Node.Omits (name : String) (node : Node) : Prop :=
  node.IsExpression ∧ name ∉ node.freeNames []

/-- The scope binds the name if the expression refers to it, and no value in the scope does so. -/
structure Scope.Shields (name : String) (scope : Scope) (node : Node) : Prop where
  isExpression : node.IsExpression
  bound : name ∈ node.freeNames [] → scope.get? name ≠ none
  values : ValuesHave (Node.Omits name) scope.value?

theorem ValuesHave.isExpression {name : String} {value? : String → Option Node}
    (h : ValuesHave (Node.Omits name) value?) : ValuesHave Node.IsExpression value? :=
  fun other value hvalue => (h other value hvalue).imp_right And.left

namespace Scope.Shields

variable {name : String} {scope : Scope} {node part : Node}

theorem of_part (h : scope.Shields name node) (hpart : part.IsExpression)
    (hfree : ∀ x ∈ part.freeNames [], x ∈ node.freeNames []) : scope.Shields name part :=
  ⟨hpart, fun hname => h.bound (hfree name hname), h.values⟩

theorem operand {operand : Node} (h : scope.Shields name (.negation operand)) :
    scope.Shields name operand :=
  h.of_part ((Node.hereditary_formed _).negation.mp h.isExpression)
    fun _ => Node.mem_freeNames_negation.mpr

theorem operands {op : BinOp} {left right : Node} (h : scope.Shields name (.binary op left right)) :
    scope.Shields name left ∧ scope.Shields name right := by
  obtain ⟨hleft, hright⟩ := (Node.hereditary_formed _).binary.mp h.isExpression
  exact ⟨h.of_part hleft fun _ hx => Node.mem_freeNames_binary.mpr (.inl hx),
    h.of_part hright fun _ hx => Node.mem_freeNames_binary.mpr (.inr hx)⟩

theorem applied {callee argument : Node} (h : scope.Shields name (.apply callee argument)) :
    scope.Shields name callee ∧ scope.Shields name argument := by
  obtain ⟨hcallee, hargument⟩ := (Node.hereditary_formed _).apply.mp h.isExpression
  exact ⟨h.of_part hcallee fun _ hx => Node.mem_freeNames_apply.mpr (.inl hx),
    h.of_part hargument fun _ hx => Node.mem_freeNames_apply.mpr (.inr hx)⟩

theorem arms {conditions branches : List Node}
    (h : scope.Shields name (.ifElse conditions branches)) :
    (∀ condition ∈ conditions, scope.Shields name condition) ∧
      ∀ branch ∈ branches, scope.Shields name branch := by
  obtain ⟨hconditions, hbranches⟩ := (Node.hereditary_formed _).ifElse h.isExpression
  exact ⟨fun node hmem => h.of_part (hconditions node hmem) fun _ hx =>
      Node.mem_freeNames_ifElse.mpr (.inl ⟨node, hmem, hx⟩),
    fun node hmem => h.of_part (hbranches node hmem) fun _ hx =>
      Node.mem_freeNames_ifElse.mpr (.inr ⟨node, hmem, hx⟩)⟩

theorem body {parameter : String} {body : Node}
    (h : scope.Shields name (.function parameter body)) :
    (scope.bindUnresolved parameter).Shields name body where
  isExpression := ((Node.hereditary_formed _).function h.isExpression).1
  bound hname := by
    rw [bindUnresolved, get?_bind]
    split
    · exact Option.some_ne_none _
    · next hne => exact h.bound (Node.mem_freeNames_function.mpr ⟨hname, hne⟩)
  values := h.values.bindUnresolved parameter

theorem single {parameter : String} {body value : Node}
    (hfunction : (Node.function parameter body).Omits name) (hvalue : value.isValue = true)
    (homits : value.Omits name) : (Scope.bind [] parameter value).Shields name body where
  isExpression := ((Node.hereditary_formed _).function hfunction.1).1
  bound hname := by
    rw [get?_bind]
    split
    · exact Option.some_ne_none _
    · next hne => exact absurd (Node.mem_freeNames_function.mpr ⟨hname, hne⟩) hfunction.2
  values := valuesHave_single hvalue homits

end Scope.Shields

/-- If the result refers to the name, the expression does, and the name is unresolved. -/
def Evaluated.Leaves (name : String) (scope : Scope) (node : Node) (outcome : Evaluated) : Prop :=
  name ∈ outcome.node.freeNames [] → name ∈ node.freeNames [] ∧ scope.isUnresolved name = true

theorem Evaluated.Leaves.notMem {name : String} {scope : Scope} {node : Node} {outcome : Evaluated}
    (h : outcome.Leaves name scope node) (hresolved : node.mentionsUnresolved scope = false) :
    name ∉ outcome.node.freeNames [] := by
  intro hname
  obtain ⟨hfree, hunresolved⟩ := h hname
  rw [Node.mentionsUnresolved_eq_false.mp hresolved name hfree] at hunresolved
  cases hunresolved

theorem Scope.Shields.leaves_substitute {name : String} {scope : Scope} {node : Node}
    (h : scope.Shields name node) :
    Evaluated.Leaves name scope node ⟨node.substitute scope, false⟩ := by
  intro hname
  have hvalues : ∀ other value, scope.value? other = some value →
      ∀ x ∈ value.freeNames [], x ≠ name := by
    rintro other value hvalue x hx rfl
    exact (h.values other value hvalue).2.2 hx
  rcases Node.mem_freeNames_of_substitute hvalues hname with hne | ⟨hfree, hnone⟩
  · exact absurd rfl hne
  · rcases value?_eq_none.mp hnone with hunbound | hunresolved
    · exact absurd hunbound (h.bound hfree)
    · exact ⟨hfree, hunresolved⟩

namespace Eval

/-- The evaluation runs on both tables in the same way and changes neither, and its results are as
required. -/
structure Coincides {α : Type} (table table' : Table) (holds : α → Prop) (x : Eval α) : Prop where
  run_eq : x.run.run table' = (x.run.run table).map fun outcome => (outcome.1, table')
  ends : ∀ {result middle}, x.Gives table result middle →
    middle = table ∧ ∀ a, result = .ok a → holds a

section Monad

variable {α β : Type} {table table' : Table} {holds : α → Prop} {holds' : β → Prop}

theorem coincides_pure {a : α} (h : holds a) : Coincides table table' holds (pure a) where
  run_eq := rfl
  ends hrun := by
    obtain ⟨rfl, rfl⟩ := gives_pure.mp hrun
    refine ⟨rfl, fun b hb => ?_⟩
    cases hb
    exact h

theorem coincides_throw (error : EvalError) : Coincides table table' holds (throw error) where
  run_eq := rfl
  ends hrun := by
    obtain ⟨rfl, rfl⟩ := gives_throw.mp hrun
    exact ⟨rfl, nofun⟩

theorem Coincides.mono {others : α → Prop} {x : Eval α} (h : Coincides table table' holds x)
    (himp : ∀ a, x.Gives table (.ok a) table → holds a → others a) :
    Coincides table table' others x where
  run_eq := h.run_eq
  ends hrun := by
    obtain ⟨rfl, hholds⟩ := h.ends hrun
    refine ⟨rfl, fun a ha => ?_⟩
    cases ha
    exact himp a hrun (hholds a rfl)

theorem Coincides.gives_iff {x : Eval α} {result : Except EvalError α}
    (h : Coincides table table' holds x) :
    x.Gives table' result table' ↔ x.Gives table result table := by
  rw [Gives, Gives, h.run_eq]
  rcases hrun : x.run.run table with _ | ⟨found, middle⟩
  · simp
  · obtain ⟨rfl, -⟩ := h.ends hrun
    simp

theorem Coincides.bind {x : Eval α} {next : α → Eval β} (hx : Coincides table table' holds x)
    (hnext : ∀ a, x.Gives table (.ok a) table → holds a → Coincides table table' holds' (next a)) :
    Coincides table table' holds' (x >>= next) where
  run_eq := by
    rw [run_bind, run_bind, hx.run_eq]
    rcases hrun : x.run.run table with _ | ⟨error | a, middle⟩
    · rfl
    · rfl
    · obtain ⟨rfl, hholds⟩ := hx.ends hrun
      exact (hnext a hrun (hholds a rfl)).run_eq
  ends hrun := by
    rcases gives_bind.mp hrun with ⟨a, middle, hfirst, hrest⟩ | ⟨error, hfirst, rfl⟩
    · obtain ⟨rfl, hholds⟩ := hx.ends hfirst
      exact (hnext a hfirst (hholds a rfl)).ends hrest
    · exact ⟨(hx.ends hfirst).1, nofun⟩

theorem coincides_declared?_bind {name : String} {next : Option Node → Eval β}
    (hlookup : table'.lookup name = table.lookup name)
    (h : Coincides table table' holds' (next (table.lookup name))) :
    Coincides table table' holds' (declared? name >>= next) where
  run_eq := by
    change (next (table'.lookup name)).run.run table' = _
    rw [hlookup]
    exact h.run_eq
  ends hrun := h.ends (gives_declared?_bind.mp hrun)

end Monad

/-- The evaluation of an expression agrees on tables that differ in a name, as long as the scope and
the table shield the expression from it. -/
def IsShielded (name : String) (E : Scope → Node → Eval Evaluated) : Prop :=
  ∀ {scope node table table'}, Scope.Shields name scope node →
    ValuesHave (Node.Omits name) (fun x => List.lookup x table) →
    (∀ x, x ≠ name → List.lookup x table' = List.lookup x table) →
    Coincides table table' (Evaluated.Leaves name scope node) (E scope node)

section Forms

variable {name : String} {E : Scope → Node → Eval Evaluated} {scope : Scope} {table table' : Table}

theorem variableValue_of_value? {x : String} {value : Node} (h : scope.value? x = some value) :
    variableValue scope x = pure ⟨value, true⟩ := by
  rw [variableValue, Scope.get?_of_value? h]
  cases value with
  | noValue =>
      rw [Scope.value?, Scope.get?_of_value? h] at h
      cases h
  | _ => rfl

theorem variableValue_of_isUnresolved {x : String} (h : scope.isUnresolved x = true) :
    variableValue scope x = pure ⟨.var x, false⟩ := by
  rw [Scope.isUnresolved] at h
  split at h
  · next hscope =>
      rw [variableValue, hscope]
      rfl
  · cases h

theorem variableValue_coincides {x : String} (hnode : scope.Shields name (.var x))
    (htable : ValuesHave (Node.Omits name) (fun x => table.lookup x))
    (hlookup : ∀ x, x ≠ name → table'.lookup x = table.lookup x) :
    Coincides table table' (Evaluated.Leaves name scope (.var x)) (variableValue scope x) := by
  cases hvalue : scope.value? x with
  | some value =>
      rw [variableValue_of_value? hvalue]
      exact coincides_pure fun hname => absurd hname (hnode.values x value hvalue).2.2
  | none =>
      rcases Scope.value?_eq_none.mp hvalue with hunbound | hunresolved
      · have hne : x ≠ name := by
          rintro rfl
          exact hnode.bound (Node.mem_freeNames_var.mpr rfl) hunbound
        rw [variableValue, hunbound]
        refine coincides_declared?_bind (hlookup x hne) ?_
        cases hdeclared : table.lookup x with
        | none => exact coincides_throw _
        | some value =>
            obtain ⟨hvalue, -, homits⟩ := htable x value hdeclared
            cases value with
            | noValue => cases hvalue
            | _ => exact coincides_pure fun hname => absurd hname homits
      · rw [variableValue_of_isUnresolved hunresolved]
        refine coincides_pure fun hname => ⟨hname, ?_⟩
        rwa [Node.mem_freeNames_var.mp hname]

theorem operand_coincides {source found : Node} (hsource : scope.Shields name source)
    (hfound : name ∈ found.freeNames [] →
      name ∈ source.freeNames [] ∧ scope.isUnresolved name = true)
    (hlookup : ∀ x, x ≠ name → table'.lookup x = table.lookup x) :
    Coincides table table'
      (fun kept => name ∈ kept.freeNames [] →
        name ∈ source.freeNames [] ∧ scope.isUnresolved name = true)
      (operand scope source found) := by
  cases source with
  | var x =>
      rw [operand]
      cases hscope : scope.get? x with
      | some value => exact coincides_pure hfound
      | none =>
          have hne : x ≠ name := by
            rintro rfl
            exact hsource.bound (Node.mem_freeNames_var.mpr rfl) hscope
          refine coincides_declared?_bind (hlookup x hne) ?_
          cases table.lookup x with
          | none => exact coincides_pure hfound
          | some value =>
              cases value with
              | function parameter body =>
                  refine coincides_pure fun hname => ?_
                  exact absurd (Node.mem_freeNames_var.mp hname).symm hne
              | _ => exact coincides_pure hfound
  | _ => exact coincides_pure hfound

theorem suspended_coincides {callee argument first second : Node}
    (hnode : scope.Shields name (.apply callee argument))
    (hfirst : name ∈ first.freeNames [] →
      name ∈ callee.freeNames [] ∧ scope.isUnresolved name = true)
    (hsecond : name ∈ second.freeNames [] →
      name ∈ argument.freeNames [] ∧ scope.isUnresolved name = true)
    (hlookup : ∀ x, x ≠ name → table'.lookup x = table.lookup x) :
    Coincides table table' (Evaluated.Leaves name scope (.apply callee argument))
      (suspended scope callee argument first second) := by
  obtain ⟨hcallee, hargument⟩ := hnode.applied
  refine (operand_coincides hcallee hfirst hlookup).bind fun kept _ hkept => ?_
  refine (operand_coincides hargument hsecond hlookup).bind fun kept' _ hkept' => ?_
  refine coincides_pure fun hname => ?_
  rcases Node.mem_freeNames_apply.mp hname with hname | hname
  · exact (hkept hname).imp_left fun hx => Node.mem_freeNames_apply.mpr (.inl hx)
  · exact (hkept' hname).imp_left fun hx => Node.mem_freeNames_apply.mpr (.inr hx)

end Forms

namespace IsShielded

variable {name : String} {E : Scope → Node → Eval Evaluated} {scope : Scope} {table table' : Table}
  (hE : IsShielded name E)
  (htable : ValuesHave (Node.Omits name) (fun x => List.lookup x table))
  (hlookup : ∀ x, x ≠ name → List.lookup x table' = List.lookup x table)
include hE htable hlookup

theorem negation {operand : Node} (hnode : scope.Shields name (.negation operand)) :
    Coincides table table' (Evaluated.Leaves name scope (.negation operand))
      (Eval.negation E scope operand) := by
  refine (hE hnode.operand htable hlookup).bind fun result _ hresult => ?_
  obtain ⟨node, complete⟩ := result
  cases complete with
  | false => exact coincides_pure hresult
  | true =>
      cases node with
      | boolean value => exact coincides_pure nofun
      | _ => exact coincides_throw _

theorem binary {op : BinOp} {left right : Node}
    (hnode : scope.Shields name (.binary op left right)) :
    Coincides table table' (Evaluated.Leaves name scope (.binary op left right))
      (Eval.binary E scope op left right) := by
  obtain ⟨hleft, hright⟩ := hnode.operands
  refine (hE hleft htable hlookup).bind fun first _ hfirst => ?_
  refine (hE hright htable hlookup).bind fun second _ hsecond => ?_
  split
  · cases hvalue : op.operate first.node second.node with
    | error error => exact coincides_throw error
    | ok value =>
        refine coincides_pure fun hname => ?_
        obtain ⟨-, -, hliteral⟩ := BinOp.isLiteral_of_operate hvalue
        rw [Node.freeNames_of_isInert (Node.isInert_of_isLiteral hliteral)] at hname
        cases hname
  · refine coincides_pure fun hname => ?_
    rcases Node.mem_freeNames_binary.mp hname with hname | hname
    · exact (hfirst hname).imp_left fun hx => Node.mem_freeNames_binary.mpr (.inl hx)
    · exact (hsecond hname).imp_left fun hx => Node.mem_freeNames_binary.mpr (.inr hx)

theorem function {parameter : String} {body : Node}
    (hnode : scope.Shields name (.function parameter body)) :
    Coincides table table' (Evaluated.Leaves name scope (.function parameter body))
      (Eval.function E scope parameter body) := by
  refine (hE hnode.body htable hlookup).bind fun result _ hresult => coincides_pure fun hname => ?_
  obtain ⟨hname, hne⟩ := Node.mem_freeNames_function.mp hname
  obtain ⟨hfree, hunresolved⟩ := hresult hname
  refine ⟨Node.mem_freeNames_function.mpr ⟨hfree, hne⟩, ?_⟩
  rwa [Scope.isUnresolved, Scope.bindUnresolved, Scope.get?_bind, if_neg hne] at hunresolved

theorem application (hregular : IsRegular Node.IsExpression E) {callee argument : Node}
    (hnode : scope.Shields name (.apply callee argument)) :
    Coincides table table' (Evaluated.Leaves name scope (.apply callee argument))
      (Eval.application E scope callee argument) := by
  obtain ⟨hcallee, hargument⟩ := hnode.applied
  refine (hE hcallee htable hlookup).bind fun first hrun hfirst => ?_
  refine (hE hargument htable hlookup).bind fun second hrun' hsecond => ?_
  have hcallee' := hregular hcallee.isExpression hnode.values.isExpression htable.isExpression hrun
  have hargument' :=
    hregular hargument.isExpression hnode.values.isExpression htable.isExpression hrun'
  obtain ⟨node, complete⟩ := first
  obtain ⟨node', complete'⟩ := second
  cases complete with
  | false => exact suspended_coincides hnode hfirst hsecond hlookup
  | true =>
      cases node with
      | function parameter body =>
          simp only [if_true]
          split
          · next hready =>
              simp only [Bool.and_eq_true, Bool.not_eq_true'] at hready
              obtain ⟨⟨hcomplete, hresolved⟩, hresolved'⟩ := hready
              have hvalue := hargument'.isValue rfl hcomplete
              have hfunction : (Node.function parameter body).Omits name :=
                ⟨hcallee'.kept rfl, hfirst.notMem hresolved⟩
              refine (hE (.single hfunction hvalue ⟨hargument'.kept rfl, hsecond.notMem hresolved'⟩)
                htable hlookup).mono fun outcome _ hleaves hname => ?_
              exact absurd hname (hleaves.notMem (Node.mentionsUnresolved_single
                (Node.ne_noValue_of_isValue hvalue)))
          · exact suspended_coincides hnode hfirst hsecond hlookup
      | _ => cases callee <;> exact coincides_throw _

theorem arms {whole : Node} (hwhole : scope.Shields name whole) {last : Eval Evaluated}
    (hlast : Coincides table table' (Evaluated.Leaves name scope whole) last)
    {pairs : List (Node × Node)}
    (hpairs : ∀ pair ∈ pairs, scope.Shields name pair.1 ∧ scope.Shields name pair.2 ∧
      ∀ x ∈ pair.2.freeNames [], x ∈ whole.freeNames []) :
    Coincides table table' (Evaluated.Leaves name scope whole)
      (Eval.arms E scope whole last pairs) := by
  induction pairs with
  | nil => exact hlast
  | cons pair pairs ih =>
      obtain ⟨condition, branch⟩ := pair
      obtain ⟨hcondition, hbranch, hfree⟩ := hpairs _ List.mem_cons_self
      refine (hE hcondition htable hlookup).bind fun test _ _ => ?_
      refine (hE hbranch htable hlookup).bind fun value _ hvalue => ?_
      split
      · obtain ⟨node, complete⟩ := test
        cases node with
        | boolean selected =>
            cases selected with
            | true => exact coincides_pure fun hname => (hvalue hname).imp_left (hfree name)
            | false => exact ih fun pair hmem => hpairs pair (List.mem_cons_of_mem _ hmem)
        | _ => exact coincides_throw _
      · exact coincides_pure hwhole.leaves_substitute

theorem otherwise {whole : Node} (hwhole : scope.Shields name whole) {branch? : Option Node}
    (hbranch : ∀ branch ∈ branch?, scope.Shields name branch ∧
      ∀ x ∈ branch.freeNames [], x ∈ whole.freeNames []) :
    Coincides table table' (Evaluated.Leaves name scope whole)
      (Eval.otherwise E scope whole branch?) := by
  cases branch? with
  | none => exact coincides_throw _
  | some branch =>
      obtain ⟨hshields, hfree⟩ := hbranch branch rfl
      refine (hE hshields htable hlookup).bind fun value _ hvalue => ?_
      split
      · exact coincides_pure fun hname => (hvalue hname).imp_left (hfree name)
      · exact coincides_pure hwhole.leaves_substitute

theorem conditional {conditions branches : List Node}
    (hnode : scope.Shields name (.ifElse conditions branches)) :
    Coincides table table' (Evaluated.Leaves name scope (.ifElse conditions branches))
      (chain E scope (.ifElse conditions branches) conditions branches) := by
  obtain ⟨hconditions, hbranches⟩ := hnode.arms
  have hfree : ∀ branch ∈ branches, ∀ x ∈ branch.freeNames [],
      x ∈ (Node.ifElse conditions branches).freeNames [] := fun branch hmem x hx =>
    Node.mem_freeNames_ifElse.mpr (.inr ⟨branch, hmem, hx⟩)
  rw [chain_eq_arms]
  refine hE.arms htable hlookup hnode (hE.otherwise htable hlookup hnode fun branch hmem => ?_)
    fun pair hmem => ?_
  · have hmem := List.mem_of_getElem? hmem
    exact ⟨hbranches branch hmem, hfree branch hmem⟩
  · obtain ⟨hfirst, hsecond⟩ := List.of_mem_zip hmem
    exact ⟨hconditions pair.1 hfirst, hbranches pair.2 hsecond, hfree pair.2 hsecond⟩

omit hE htable hlookup in
theorem step (hE : IsShielded name E) (hregular : IsRegular Node.IsExpression E) :
    IsShielded name (Eval.step E) := by
  intro scope node table table' hnode htable hlookup
  cases node with
  | integer | float | boolean => exact coincides_pure nofun
  | noValue | typeName | typeDefinition | construction => exact coincides_throw _
  | declaration => exact absurd hnode.isExpression (Node.hereditary_formed _).undeclared
  | var x => exact variableValue_coincides hnode htable hlookup
  | negation operand => exact hE.negation htable hlookup hnode
  | binary op left right => exact hE.binary htable hlookup hnode
  | function parameter body => exact hE.function htable hlookup hnode
  | apply callee argument => exact hE.application htable hlookup hregular hnode
  | ifElse conditions branches => exact hE.conditional htable hlookup hnode

end IsShielded

end Eval

/-- What is declared under a name does not matter to expressions that are shielded from it, at any
depth. -/
theorem isShielded_evaluate (name : String) (depth : Nat) :
    Eval.IsShielded name (evaluate depth) := by
  induction depth with
  | zero =>
      intro scope node table table' _ _ _
      exact ⟨rfl, nofun⟩
  | succ depth ih => exact ih.step (isRegular_evaluate (Node.hereditary_formed _) depth)

end Viewlet
