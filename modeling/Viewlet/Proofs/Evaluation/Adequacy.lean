import Mathlib.Logic.Relation
import Viewlet.Proofs.Evaluation.Simplification

/-!
Adequacy. Evaluation does more than call-by-value evaluation: it works under functions, and it
leaves applications and conditions waiting that it takes up later. What it gives still arises
by simplifying again and again, so a closed expression that it gives a value has that value.
-/

namespace Viewlet

/-- Simplification, again and again. -/
abbrev SimplifiesTo : Node → Node → Prop :=
  Relation.ReflTransGen Simplifies

theorem Simplifies.isValue {node node' : Node} (h : Simplifies node node')
    (hnode : node.isValue = true) : node'.isValue = true := by
  cases h with
  | literal _ hliteral => exact Node.isValue_of_isLiteral hliteral
  | function => rfl
  | inert => exact hnode
  | _ => cases hnode

namespace SimplifiesTo

variable {admits : String → Prop} {node node' found value : Node}

theorem freeNames_subset (h : SimplifiesTo node node') {x : String}
    (hx : x ∈ node'.freeNames []) : x ∈ node.freeNames [] := by
  induction h with
  | refl => exact hx
  | tail _ hstep ih => exact ih (hstep.freeNames_subset hx)

section Congruence

variable {op : BinOp} {left left' right right' : Node}

theorem negation (h : SimplifiesTo node node') :
    SimplifiesTo (.negation node) (.negation node') :=
  h.lift Node.negation fun _ _ => .negation

theorem function (h : SimplifiesTo node node') (parameter : String) :
    SimplifiesTo (.function parameter node) (.function parameter node') :=
  h.lift (Node.function parameter) fun _ _ => .function .function

theorem binary (hleft : SimplifiesTo left left') (hright : SimplifiesTo right right')
    (hformed : left'.Formed admits) (hformed' : right.Formed admits) :
    SimplifiesTo (.binary op left right) (.binary op left' right') :=
  .trans (hleft.lift (Node.binary op · right) fun _ _ h => .binary h (.refl hformed'))
    (hright.lift (Node.binary op left') fun _ _ => .binary (.refl hformed))

theorem apply (hleft : SimplifiesTo left left') (hright : SimplifiesTo right right')
    (hformed : left'.Formed admits) (hformed' : right.Formed admits) :
    SimplifiesTo (.apply left right) (.apply left' right') :=
  .trans (hleft.lift (Node.apply · right) fun _ _ h => .apply h (.refl hformed'))
    (hright.lift (Node.apply left') fun _ _ => .apply (.refl hformed))

end Congruence

theorem of_settles (hnode : Settles node found) (h : SimplifiesTo found value)
    (hformed : value.Formed admits) : SimplifiesTo node value := by
  have hsettles : ∀ {other}, Settles found other → Settles node other :=
    fun hother => hother.eq_of_isValue hnode.isValue ▸ hnode
  rcases h.cases_head with rfl | ⟨next, hnext, hrest⟩
  · exact .single ((Simplifies.refl hformed).of_settles hnode.isValue fun _ => hsettles)
  · exact .head (hnext.of_settles (hnext.isValue hnode.isValue) fun _ => hsettles) hrest

theorem simulates (h : SimplifiesTo node node') (hclosed : node.IsClosed)
    (hsettles : Settles node' value) :
    ∃ found, Settles node found ∧ SimplifiesTo found value := by
  induction h using Relation.ReflTransGen.head_induction_on with
  | refl => exact ⟨value, hsettles, .refl⟩
  | head hstep _ ih =>
      obtain ⟨middle, hmiddle, hrest⟩ := ih (hclosed.of_subset fun x => hstep.freeNames_subset)
      obtain ⟨found, hfound, hfirst⟩ := hstep.simulates hclosed hmiddle
      exact ⟨found, hfound, .head hfirst hrest⟩

theorem eq_of_isLiteral (h : SimplifiesTo node value) (hnode : node.isValue = true)
    (hvalue : value.isLiteral = true) : node = value := by
  induction h using Relation.ReflTransGen.head_induction_on with
  | refl => rfl
  | head hstep _ ih =>
      obtain rfl := ih (hstep.isValue hnode)
      exact ((hstep.settles_of_isLiteral hvalue).eq_of_isValue hnode).symm

theorem exists_eq_function {parameter : String} {body' : Node}
    (h : SimplifiesTo node (.function parameter body')) (hnode : node.isValue = true) :
    ∃ body, node = .function parameter body := by
  induction h using Relation.ReflTransGen.head_induction_on with
  | refl => exact ⟨body', rfl⟩
  | head hstep _ ih =>
      obtain ⟨body, rfl⟩ := ih (hstep.isValue hnode)
      obtain ⟨first, hfirst, -⟩ := hstep.exists_settles_function
      exact ⟨first, (hfirst.eq_of_isValue hnode).symm⟩

section Conditions

variable {condition condition' branch branch' : Node} {conditions branches : List Node}

theorem ifElse_cons (hcondition : SimplifiesTo condition condition')
    (hbranch : SimplifiesTo branch branch') (hformed : condition'.Formed admits)
    (hformed' : branch.Formed admits) (hconditions : ∀ node ∈ conditions, node.Formed admits)
    (hbranches : ∀ node ∈ branches, node.Formed admits) :
    SimplifiesTo (.ifElse (condition :: conditions) (branch :: branches))
      (.ifElse (condition' :: conditions) (branch' :: branches)) := by
  have hrefl : List.Forall₂ Simplifies conditions conditions :=
    List.forall₂_same.mpr fun node hmem => .refl (hconditions node hmem)
  have hrefl' : List.Forall₂ Simplifies branches branches :=
    List.forall₂_same.mpr fun node hmem => .refl (hbranches node hmem)
  refine .trans (hcondition.lift (fun node => Node.ifElse (node :: conditions) (branch :: branches))
    fun _ _ h => ?_) (hbranch.lift
      (fun node => Node.ifElse (condition' :: conditions) (node :: branches)) fun _ _ h => ?_)
  · exact .ifElse (.cons h hrefl) (.cons (.refl hformed') hrefl')
  · exact .ifElse (.cons (.refl hformed) hrefl) (.cons h hrefl')

theorem otherwise (h : SimplifiesTo branch branch') :
    SimplifiesTo (.ifElse [] [branch]) (.ifElse [] [branch']) :=
  h.lift (fun node => Node.ifElse [] [node]) fun _ _ h => .ifElse .nil (.cons h .nil)

theorem skipped (h : SimplifiesTo (.ifElse conditions branches) value)
    (hvalue : value.isValue = true) (hformed : branch.Formed admits) :
    SimplifiesTo (.ifElse (.boolean false :: conditions) (branch :: branches)) value := by
  generalize hnode : Node.ifElse conditions branches = node at h
  induction h using Relation.ReflTransGen.head_induction_on generalizing conditions branches with
  | refl =>
      rw [← hnode] at hvalue
      cases hvalue
  | head hstep hrest ih =>
      subst hnode
      cases hstep with
      | literal hsettles hliteral =>
          exact .head (.literal (.skipped (.literal rfl) hsettles) hliteral) hrest
      | function hsettles hbody =>
          exact .head (.function (.skipped (.literal rfl) hsettles) hbody) hrest
      | inert hinert => cases hinert
      | ifElse hconditions hbranches =>
          -- As long as the other conditions are simplified this one stands by.
          exact .head (.ifElse (.cons (.inert rfl) hconditions) (.cons (.refl hformed) hbranches))
            (ih rfl)

end Conditions

end SimplifiesTo

/-- The scope holds closed values, and binds every name that is free in the node. -/
structure Scope.Closes (scope : Scope) (node : Node) : Prop where
  values : HoldsValues (fun _ => True) scope.value?
  closed : ∀ name value, scope.value? name = some value → value.IsClosed
  bound : ∀ x ∈ node.freeNames [], scope.get? x ≠ none

namespace Scope.Closes

variable {scope : Scope} {node part body value : Node} {parameter : String}

theorem of_part (h : scope.Closes node)
    (hpart : ∀ x ∈ part.freeNames [], x ∈ node.freeNames []) : scope.Closes part :=
  ⟨h.values, h.closed, fun x hx => h.bound x (hpart x hx)⟩

theorem bindUnresolved (h : scope.Closes (.function parameter body)) :
    (scope.bindUnresolved parameter).Closes body where
  values := h.values.bindUnresolved parameter
  closed name value hvalue := h.closed name value (value?_of_bindUnresolved hvalue)
  bound x hx := by
    rw [Scope.bindUnresolved, get?_bind]
    split
    · exact Option.some_ne_none _
    · next hne => exact h.bound x (Node.mem_freeNames_function.mpr ⟨hx, hne⟩)

theorem isClosed_substitute (h : scope.Closes node)
    (hresolved : node.mentionsUnresolved scope = false) : (node.substitute scope).IsClosed := by
  refine List.eq_nil_iff_forall_not_mem.mpr fun x hx => ?_
  obtain ⟨hx, hnone⟩ := (Node.mem_freeNames_substitute h.closed).mp hx
  rcases value?_eq_none.mp hnone with hunbound | hunresolved
  · exact h.bound x hx hunbound
  · rw [Node.mentionsUnresolved_eq_false.mp hresolved x hx] at hunresolved
    cases hunresolved

theorem formed_substitute (h : scope.Closes node) (hnode : node.IsExpression) :
    (node.substitute scope).IsExpression :=
  hnode.substitute fun name value hvalue => (h.values name value hvalue).2

theorem single (hfunction : (Node.function parameter body).IsClosed)
    (hvalue : value.isValue = true) (hformed : value.IsExpression) (hclosed : value.IsClosed) :
    Closes (Scope.bind [] parameter value) body where
  values := holdsValues_bind hvalue hformed
  closed name found hfound := (eq_of_value?_single hfound).2 ▸ hclosed
  bound x hx := by
    rw [get?_bind]
    split
    · exact Option.some_ne_none _
    · next hne =>
        have hfree := Node.mem_freeNames_function.mpr ⟨hx, hne⟩
        rw [hfunction] at hfree
        cases hfree

theorem nil (hclosed : node.IsClosed) : Closes [] node where
  values := holdsValues_emptyScope
  closed _ _ hvalue := by cases hvalue
  bound x hx := by
    rw [hclosed] at hx
    cases hx

end Scope.Closes

section Expressions

variable {E : Scope → Node → Eval Evaluated} {scope : Scope} {outcome : Evaluated} {table' : Table}

/-- What the evaluation gives for an expression, with nothing declared, arises by simplifying
it once the values in scope are put in. -/
def Eval.IsAdequate (E : Scope → Node → Eval Evaluated) : Prop :=
  ∀ {scope node outcome table'}, node.IsExpression → Scope.Closes scope node →
    (E scope node).Gives [] (.ok outcome) table' →
    SimplifiesTo (node.substitute scope) outcome.node

theorem Eval.Operand.eq_result {table : Table} {source result kept : Node}
    (h : Operand scope table source result kept) (hscope : scope.Closes source) :
    kept = result := by
  rcases h with ⟨rfl, -⟩ | ⟨name, rfl, -, hunbound⟩
  · rfl
  · exact absurd hunbound (hscope.bound name (Node.mem_freeNames_var.mpr rfl))

theorem Eval.IsAdequate.application (hE : IsAdequate E) (htidy : IsTidy (fun _ => True) E)
    {callee argument : Node} (hcallee : callee.IsExpression) (hargument : argument.IsExpression)
    (hscope : scope.Closes (.apply callee argument))
    (h : (application E scope callee argument).Gives [] (.ok outcome) table') :
    SimplifiesTo ((Node.apply callee argument).substitute scope) outcome.node := by
  have hleft : scope.Closes callee :=
    hscope.of_part fun x hx => Node.mem_freeNames_apply.mpr (.inl hx)
  have hright : scope.Closes argument :=
    hscope.of_part fun x hx => Node.mem_freeNames_apply.mpr (.inr hx)
  rcases application_cases h with ⟨error, -, heq⟩ | ⟨first, middle, hfirst, hrest⟩
  · cases heq
  · have hfirst' := htidy hcallee hscope.values holdsValues_emptyTable hfirst
    obtain rfl := hfirst'.table_eq
    rcases hrest with ⟨error, -, heq⟩ | ⟨second, last, hsecond, hcases⟩
    · cases heq
    · have hsecond' := htidy hargument hscope.values holdsValues_emptyTable hsecond
      obtain rfl := hsecond'.table_eq
      have hoperands : SimplifiesTo ((Node.apply callee argument).substitute scope)
          (.apply first.node second.node) :=
        .apply (hE hcallee hleft hfirst) (hE hargument hright hsecond) (hfirst'.formed rfl)
          (hright.formed_substitute hargument)
      rcases hcases with ⟨parameter, body, -, hfunction, hcomplete, hresolved, hresolved', hbody⟩ |
        ⟨-, -, -, error, -, heq⟩ | ⟨-, -, kept, kept', heq, hkept, hkept'⟩
      · refine hoperands.trans ?_
        have hvalue := hsecond'.isValue rfl hcomplete
        have hclosed : first.node.IsClosed := (hleft.isClosed_substitute hresolved).of_subset
          fun x => (hE hcallee hleft hfirst).freeNames_subset
        have hclosed' : second.node.IsClosed := (hright.isClosed_substitute hresolved').of_subset
          fun x => (hE hargument hright hsecond).freeNames_subset
        have hformed := hfirst'.formed rfl
        rw [hfunction] at hclosed hformed ⊢
        cases hformed with
        | inert hinert => cases hinert
        | function _ hformed =>
            have hsingle := Scope.Closes.single hclosed hvalue (hsecond'.formed rfl) hclosed'
            have hbody' := htidy hformed hsingle.values holdsValues_emptyTable hbody
            have hresult := hbody'.isValue rfl (hbody'.complete rfl
              (Node.mentionsUnresolved_single (Node.ne_noValue_of_isValue hvalue)))
            -- the application settles as the body does, to what simplifies to the result
            obtain ⟨found, hfound, hrest⟩ := (hE hformed hsingle hbody).simulates
              (Node.isClosed_substitute_single hclosed hclosed' (Node.ne_noValue_of_isValue hvalue))
              (.of_isValue hresult)
            exact SimplifiesTo.of_settles (.apply .function (.of_isValue hvalue) hclosed' hfound)
              hrest (hbody'.formed rfl)
      · cases heq
      · obtain rfl := Except.ok.inj heq
        rw [hkept.eq_result hleft, hkept'.eq_result hright]
        exact hoperands

theorem formed_map {nodes : List Node}
    (h : ∀ node ∈ nodes, node.IsExpression ∧ scope.Closes node) :
    ∀ node ∈ nodes.map (Node.substitute scope), node.IsExpression := by
  intro node hnode
  obtain ⟨source, hmem, rfl⟩ := List.mem_map.mp hnode
  exact (h source hmem).2.formed_substitute (h source hmem).1

theorem Eval.IsAdequate.chain (hE : IsAdequate E) (htidy : IsTidy (fun _ => True) E)
    {conditions branches : List Node} (hlength : branches.length = conditions.length + 1)
    {whole : Node}
    (hconditions : ∀ condition ∈ conditions, condition.IsExpression ∧ scope.Closes condition)
    (hbranches : ∀ branch ∈ branches, branch.IsExpression ∧ scope.Closes branch)
    (h : (chain E scope whole conditions branches).Gives [] (.ok outcome) table') :
    outcome.node = whole.substitute scope ∨ (outcome.node.isValue = true ∧
      SimplifiesTo ((Node.ifElse conditions branches).substitute scope) outcome.node) := by
  rw [Node.substitute_ifElse]
  induction conditions generalizing branches with
  | nil =>
      obtain ⟨branch, rfl⟩ := List.length_eq_one_iff.mp hlength
      obtain ⟨hbranch, hscope⟩ := hbranches branch List.mem_cons_self
      rcases chain_nil_cases h with ⟨error, -, heq⟩ | ⟨value, hvalue, hcases⟩
      · cases heq
      · have hvalue' := htidy hbranch hscope.values holdsValues_emptyTable hvalue
        rcases hcases with ⟨-, heq⟩ | ⟨hcomplete, heq⟩
        · exact .inl (congrArg Evaluated.node (Except.ok.inj heq))
        · obtain rfl := Except.ok.inj heq
          have hresult := hvalue'.isValue rfl hcomplete
          exact .inr ⟨hresult, (SimplifiesTo.otherwise (hE hbranch hscope hvalue)).trans
            (SimplifiesTo.of_settles (.otherwise (.of_isValue hresult)) .refl (hvalue'.formed rfl))⟩
  | cons condition conditions ih =>
      obtain ⟨branch, branches, rfl⟩ := List.exists_cons_of_length_eq_add_one hlength
      obtain ⟨hcondition, hscope⟩ := hconditions condition List.mem_cons_self
      obtain ⟨hbranch, hscope'⟩ := hbranches branch List.mem_cons_self
      rcases chain_cons_cases h with ⟨error, -, heq⟩ | ⟨test, middle, htest, hrest⟩
      · cases heq
      · have htest' := htidy hcondition hscope.values holdsValues_emptyTable htest
        obtain rfl := htest'.table_eq
        rcases hrest with ⟨error, -, heq⟩ | ⟨value, last, hvalue, hcases⟩
        · cases heq
        · have hvalue' := htidy hbranch hscope.values holdsValues_emptyTable hvalue
          obtain rfl := hvalue'.table_eq
          rcases hcases with ⟨-, -, heq⟩ | ⟨-, hcomplete, hselect⟩
          · exact .inl (congrArg Evaluated.node (Except.ok.inj heq))
          · have hresult := hvalue'.isValue rfl hcomplete
            have hrest (node) (hmem : node ∈ conditions) :=
              hconditions node (List.mem_cons_of_mem _ hmem)
            have hrest' (node) (hmem : node ∈ branches) :=
              hbranches node (List.mem_cons_of_mem _ hmem)
            have hcongr {branch' : Node}
                (hbranch' : SimplifiesTo (branch.substitute scope) branch') :=
              SimplifiesTo.ifElse_cons (hE hcondition hscope htest) hbranch' (htest'.formed rfl)
                (hscope'.formed_substitute hbranch) (formed_map hrest) (formed_map hrest')
            rcases hselect with ⟨-, htrue, heq⟩ | ⟨hfalse, hothers⟩ | ⟨-, -, heq⟩
            · obtain rfl := Except.ok.inj heq
              refine .inr ⟨hresult, (hcongr (hE hbranch hscope' hvalue)).trans ?_⟩
              rw [htrue]
              exact SimplifiesTo.of_settles (.selected (.literal rfl) (.of_isValue hresult)) .refl
                (hvalue'.formed rfl)
            · refine (ih (by simpa using hlength) hrest hrest' hothers).imp_right ?_
              rintro ⟨hresult, hothers⟩
              refine ⟨hresult, (hcongr .refl).trans ?_⟩
              rw [hfalse]
              exact hothers.skipped hresult (hscope'.formed_substitute hbranch)
            · cases heq

theorem Eval.IsAdequate.step (hE : IsAdequate E) (htidy : IsTidy (fun _ => True) E) :
    IsAdequate (step E) := by
  intro scope node outcome table' hformed hscope h
  cases hformed with
  | inert hinert =>
      rw [Node.substitute_of_isInert hinert]
      cases node with
      | integer | float | boolean =>
          obtain ⟨heq, -⟩ := gives_pure.mp h
          rw [Except.ok.inj heq]
      | noValue | typeName | typeDefinition | construction =>
          cases (gives_throw.mp h).1
      | _ => cases hinert
  | var name =>
      rw [Node.substitute_var]
      obtain ⟨-, hcases⟩ := variableValue_cases h
      rcases hcases with ⟨hunresolved, heq⟩ | ⟨value, hvalue, heq⟩ | ⟨hunbound, -⟩
      · rw [Except.ok.inj heq, Scope.value?_eq_none.mpr (.inr hunresolved), Option.getD_none]
      · rw [Except.ok.inj heq, hvalue, Option.getD_some]
      · exact absurd hunbound (hscope.bound name (Node.mem_freeNames_var.mpr rfl))
  | negation hoperand =>
      have hscope := hscope.of_part fun x hx => Node.mem_freeNames_negation.mpr hx
      rcases negation_cases h with ⟨error, -, heq⟩ | ⟨first, hfirst, hcases⟩
      · cases heq
      · have hoperand' := hE hoperand hscope hfirst
        rcases hcases with ⟨-, heq⟩ | ⟨-, ⟨value, hvalue, heq⟩ | ⟨-, heq⟩⟩
        · obtain rfl := Except.ok.inj heq
          exact hoperand'.negation
        · obtain rfl := Except.ok.inj heq
          rw [hvalue] at hoperand'
          exact hoperand'.negation.tail (.literal (.negation (.literal rfl)) rfl)
        · cases heq
  | @binary op left right hleft hright =>
      have hscope' := hscope.of_part fun x hx => Node.mem_freeNames_binary.mpr (.inl hx)
      have hscope'' := hscope.of_part fun x hx => Node.mem_freeNames_binary.mpr (.inr hx)
      rcases binary_cases h with ⟨error, -, heq⟩ | ⟨first, middle, hfirst, hrest⟩
      · cases heq
      · have hfirst' := htidy hleft hscope.values holdsValues_emptyTable hfirst
        obtain rfl := hfirst'.table_eq
        rcases hrest with ⟨error, -, heq⟩ | ⟨second, hsecond, hcases⟩
        · cases heq
        · have hoperands : SimplifiesTo ((Node.binary op left right).substitute scope)
              (.binary op first.node second.node) :=
            .binary (hE hleft hscope' hfirst) (hE hright hscope'' hsecond) (hfirst'.formed rfl)
              (hscope''.formed_substitute hright)
          rcases hcases with ⟨-, heq⟩ | ⟨-, -, heq⟩
          · obtain rfl := Except.ok.inj heq
            exact hoperands
          · cases hvalue : op.operate first.node second.node with
            | error error =>
                rw [hvalue] at heq
                cases heq
            | ok value =>
                rw [hvalue] at heq
                obtain rfl := Except.ok.inj heq
                obtain ⟨hl, hr, hv⟩ := BinOp.isLiteral_of_operate hvalue
                exact hoperands.tail (.literal (.binary (.literal hl) (.literal hr) hvalue) hv)
  | function _ hbody =>
      rcases function_cases h with ⟨error, -, heq⟩ | ⟨first, hfirst, heq⟩
      · cases heq
      · obtain rfl := Except.ok.inj heq
        exact (hE hbody hscope.bindUnresolved hfirst).function _
  | apply hcallee hargument => exact hE.application htidy hcallee hargument hscope h
  | ifElse hlength hconditions hbranches =>
      rcases hE.chain htidy hlength
        (fun node hmem => ⟨hconditions node hmem, hscope.of_part fun x hx =>
          Node.mem_freeNames_ifElse.mpr (.inl ⟨node, hmem, hx⟩)⟩)
        (fun node hmem => ⟨hbranches node hmem, hscope.of_part fun x hx =>
          Node.mem_freeNames_ifElse.mpr (.inr ⟨node, hmem, hx⟩)⟩) h with heq | ⟨-, hvalue⟩
      · rw [heq]
      · exact hvalue

/-- Evaluation is adequate at every depth. -/
theorem isAdequate_evaluate (depth : Nat) : Eval.IsAdequate (evaluate depth) := by
  induction depth with
  | zero =>
      intro scope node outcome table' _ _ h
      cases h
  | succ depth ih => exact ih.step (isTidy_evaluate _ depth)

end Expressions

/-- If a closed expression is evaluated with nothing declared, what comes out is the literal
that the expression has as its value, or a function where the expression has one. -/
theorem evaluation_adequate {depth : Nat} {session session' : Session} {node : Node}
    {result : Evaluated} (htable : session.table = []) (hnode : node.IsExpression)
    (hclosed : node.IsClosed)
    (h : session.evaluate depth [] node = some (.ok result, session')) :
    (result.node.isLiteral = true ∧ ∀ value, Evaluates node value ↔ value = result.node) ∨
      ∃ parameter body body', result.node = .function parameter body ∧
        ∀ value, Evaluates node value ↔ value = .function parameter body' := by
  obtain ⟨hrun, -⟩ := Eval.gives_of_evaluate h
  rw [htable] at hrun
  have hscope := Scope.Closes.nil hclosed
  have htidy := isTidy_evaluate (fun _ => True) depth hnode hscope.values holdsValues_emptyTable
    hrun
  have hvalue := htidy.isValue rfl (htidy.complete rfl (by simp [Node.mentionsUnresolved, hclosed]))
  have hsimplifies := isAdequate_evaluate depth hnode hscope hrun
  rw [Node.substitute_of_closed hclosed] at hsimplifies
  obtain ⟨found, hfound, hrest⟩ := hsimplifies.simulates hclosed (.of_isValue hvalue)
  have hunique : ∀ value, Evaluates node value ↔ value = found :=
    fun value => ⟨fun h => h.unique hfound.evaluates, fun heq => heq ▸ hfound.evaluates⟩
  obtain ⟨result, complete⟩ := result
  cases result with
  | integer | float | boolean =>
      obtain rfl := hrest.eq_of_isLiteral hfound.isValue rfl
      exact .inl ⟨rfl, hunique⟩
  | function parameter body =>
      obtain ⟨body', rfl⟩ := hrest.exists_eq_function hfound.isValue
      exact .inr ⟨parameter, body, body', rfl, hunique⟩
  | _ => cases hvalue

theorem evaluation_adequate_waiting :
    let node : Node := .apply (.apply (.function "x" (.apply (.function "f" (.function "y"
      (.ifElse [.binary .eq (.var "x") (.var "y")] [.apply (.var "f") (.var "x"), .integer 0])))
      (.function "x" (.binary .add (.var "x") (.integer 1))))) (.integer 2)) (.integer 2)
    Session.evaluate 10 {} [] node = some (.ok ⟨.integer 3, true⟩, {}) ∧
      Evaluates node (.integer 3) := by
  intro node
  have hrun : Session.evaluate 10 {} [] node = some (.ok ⟨.integer 3, true⟩, {}) := by rfl
  have hnode : node.IsExpression := by
    refine .apply (.apply (.function trivial (.apply (.function trivial (.function trivial
      (.ifElse rfl ?_ ?_))) (.function trivial (.binary (.var _) (.inert rfl))))) (.inert rfl))
      (.inert rfl)
    · simpa using .binary (.var _) (.var _)
    · simpa using ⟨.apply (.var _) (.var _), .inert rfl⟩
  refine ⟨hrun, ?_⟩
  rcases evaluation_adequate rfl hnode rfl hrun with ⟨-, hvalue⟩ | ⟨_, _, _, heq, -⟩
  · exact (hvalue _).mpr rfl
  · cases heq

end Viewlet
