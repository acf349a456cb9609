import Mathlib.Order.Filter.AtTopBot.Basic
import Viewlet.Proofs.Evaluation.Coincidence
import Viewlet.Proofs.Sessions.Results

/-!
Partial evaluation by rules. `ResultsIn table scope node outcome` says that the node is simplified
to the outcome where the declarations are those of the table, without a bound on the depth. It
agrees with evaluation for nodes that declare nothing: what evaluation gives follows by the rules,
and what follows by the rules is given at all depths from some depth on.
-/

namespace Viewlet

def Node.isFunction : Node → Bool
  | .function .. => true
  | _ => false

theorem Node.isFunction_iff {node : Node} :
    node.isFunction = true ↔ ∃ parameter body, node = .function parameter body := by
  cases node <;> simp [isFunction]

/-- Whether a node is the name of a function that is declared, and bound by nothing else. -/
def Table.namesFunction (table : Table) (scope : Scope) : Node → Bool
  | .var name => (scope.get? name).isNone && (table.lookup name).any Node.isFunction
  | _ => false

/-- What stands for an operand of an application that is not carried out: its result, or its name
if it is the name of a declared function. -/
def Table.kept (table : Table) (scope : Scope) (source result : Node) : Node :=
  if table.namesFunction scope source then source else result

theorem Table.namesFunction_iff {table : Table} {scope : Scope} {source : Node} :
    table.namesFunction scope source = true ↔ ∃ name parameter body, source = .var name ∧
      scope.get? name = none ∧ table.lookup name = some (.function parameter body) := by
  cases source with
  | var name =>
      simp only [namesFunction, Bool.and_eq_true, Option.isNone_iff_eq_none, Option.any_eq_true,
        Node.isFunction_iff, Node.var.injEq]
      constructor
      · rintro ⟨hnone, _, hlookup, parameter, body, rfl⟩
        exact ⟨name, parameter, body, rfl, hnone, hlookup⟩
      · rintro ⟨_, parameter, body, rfl, hnone, hlookup⟩
        exact ⟨hnone, _, hlookup, parameter, body, rfl⟩
  | _ => simp [namesFunction]

/-- The outcome if it is complete, and otherwise a whole that is incomplete with it. -/
def Evaluated.orWhole (outcome : Evaluated) (whole : Node) : Evaluated :=
  if outcome.complete then outcome else ⟨whole, false⟩

/-- The node is simplified to the outcome, given the declarations and the names in scope. -/
inductive ResultsIn (table : Table) : Scope → Node → Evaluated → Prop where
  | literal {scope node} : node.isLiteral = true → ResultsIn table scope node ⟨node, true⟩
  | unresolved {scope name} : scope.isUnresolved name = true →
      ResultsIn table scope (.var name) ⟨.var name, false⟩
  | bound {scope name value} : scope.value? name = some value →
      ResultsIn table scope (.var name) ⟨value, true⟩
  | declared {scope name value} : scope.get? name = none → table.lookup name = some value →
      value ≠ .noValue → ResultsIn table scope (.var name) ⟨value, true⟩
  | inverted {scope operand value} : ResultsIn table scope operand ⟨.boolean value, true⟩ →
      ResultsIn table scope (.negation operand) ⟨.boolean !value, true⟩
  | negation {scope operand found} : ResultsIn table scope operand ⟨found, false⟩ →
      ResultsIn table scope (.negation operand) ⟨.negation found, false⟩
  | operated {scope op left right first second value} :
      ResultsIn table scope left ⟨first, true⟩ → ResultsIn table scope right ⟨second, true⟩ →
      op.operate first second = .ok value →
      ResultsIn table scope (.binary op left right) ⟨value, true⟩
  | binary {scope op left right first second} : ResultsIn table scope left first →
      ResultsIn table scope right second → (first.complete && second.complete) = false →
      ResultsIn table scope (.binary op left right) ⟨.binary op first.node second.node, false⟩
  | function {scope parameter body result} :
      ResultsIn table (scope.bindUnresolved parameter) body result →
      ResultsIn table scope (.function parameter body) ⟨.function parameter result.node, true⟩
  | called {scope callee argument parameter body value result} :
      ResultsIn table scope callee ⟨.function parameter body, true⟩ →
      ResultsIn table scope argument ⟨value, true⟩ → callee.mentionsUnresolved scope = false →
      argument.mentionsUnresolved scope = false →
      ResultsIn table (Scope.bind [] parameter value) body result →
      ResultsIn table scope (.apply callee argument) result
  | suspended {scope callee argument first second} : ResultsIn table scope callee first →
      ResultsIn table scope argument second →
      (first.complete = true → first.node.isFunction = true) →
      (first.complete = false ∨ second.complete = false ∨
        callee.mentionsUnresolved scope = true ∨ argument.mentionsUnresolved scope = true) →
      ResultsIn table scope (.apply callee argument)
        ⟨.apply (table.kept scope callee first.node) (table.kept scope argument second.node), false⟩
  | selected {scope condition branch value} (conditions branches) :
      ResultsIn table scope condition ⟨.boolean true, true⟩ →
      ResultsIn table scope branch ⟨value, true⟩ →
      ResultsIn table scope (.ifElse (condition :: conditions) (branch :: branches)) ⟨value, true⟩
  | skipped {scope condition branch conditions branches value rest} :
      ResultsIn table scope condition ⟨.boolean false, true⟩ →
      ResultsIn table scope branch ⟨value, true⟩ →
      ResultsIn table scope (.ifElse conditions branches) rest →
      ResultsIn table scope (.ifElse (condition :: conditions) (branch :: branches))
        (rest.orWhole
          (Node.substitute scope (.ifElse (condition :: conditions) (branch :: branches))))
  | waiting {scope condition branch test value} (conditions branches) :
      ResultsIn table scope condition test → ResultsIn table scope branch value →
      (test.complete && value.complete) = false →
      ResultsIn table scope (.ifElse (condition :: conditions) (branch :: branches))
        ⟨Node.substitute scope (.ifElse (condition :: conditions) (branch :: branches)), false⟩
  | otherwise {scope branch value} (branches) : ResultsIn table scope branch value →
      ResultsIn table scope (.ifElse [] (branch :: branches))
        (value.orWhole (Node.substitute scope (.ifElse [] (branch :: branches))))

theorem Scope.isUnresolved_iff {scope : Scope} {name : String} :
    scope.isUnresolved name = true ↔ scope.get? name = some .noValue := by
  rw [isUnresolved]
  cases scope.get? name with
  | none => simp
  | some value => cases value <;> simp

theorem Scope.ne_noValue_of_value? {scope : Scope} {name : String} {value : Node}
    (h : scope.value? name = some value) : value ≠ .noValue := by
  rintro rfl
  rw [value?] at h
  split at h
  · cases h
  · next hne => exact hne h

namespace Node

variable {condition branch : Node} {conditions branches : List Node} {x : String}

theorem mem_freeNames_condition (hx : x ∈ condition.freeNames []) :
    x ∈ freeNames [] (.ifElse (condition :: conditions) branches) :=
  mem_freeNames_ifElse.mpr (.inl ⟨condition, List.mem_cons_self, hx⟩)

theorem mem_freeNames_branch (hx : x ∈ branch.freeNames []) :
    x ∈ freeNames [] (.ifElse conditions (branch :: branches)) :=
  mem_freeNames_ifElse.mpr (.inr ⟨branch, List.mem_cons_self, hx⟩)

end Node

namespace Evaluated

variable {outcome : Evaluated} {whole : Node}

theorem orWhole_of_complete (h : outcome.complete = true) : outcome.orWhole whole = outcome :=
  if_pos h

theorem orWhole_of_incomplete (h : outcome.complete = false) :
    outcome.orWhole whole = ⟨whole, false⟩ :=
  if_neg (by rw [h]; exact Bool.false_ne_true)

@[elab_as_elim] theorem orWhole_cases {motive : Evaluated → Prop}
    (hcomplete : outcome.complete = true → motive outcome)
    (hwhole : outcome.complete = false → motive ⟨whole, false⟩) :
    motive (outcome.orWhole whole) := by
  cases h : outcome.complete with
  | true =>
      rw [orWhole_of_complete h]
      exact hcomplete h
  | false =>
      rw [orWhole_of_incomplete h]
      exact hwhole h

@[simp] theorem orWhole_orWhole (whole' : Node) :
    (outcome.orWhole whole).orWhole whole' = outcome.orWhole whole' := by
  cases h : outcome.complete with
  | true => rw [orWhole_of_complete h]
  | false =>
      rw [orWhole_of_incomplete h, orWhole_of_incomplete h]
      exact orWhole_of_incomplete rfl

end Evaluated

namespace Eval

section Success

variable {E : Scope → Node → Eval Evaluated} {scope : Scope} {table table' : Table}
  {outcome : Evaluated}

theorem gives_ok_bind {α β : Type} {x : Eval α} {f : α → Eval β} {b : β} :
    (x >>= f).Gives table (.ok b) table' ↔
      ∃ a middle, x.Gives table (.ok a) middle ∧ (f a).Gives middle (.ok b) table' := by
  rw [gives_bind]
  constructor
  · rintro (h | ⟨error, -, heq⟩)
    · exact h
    · cases heq
  · exact .inl

theorem gives_negation {operand : Node} :
    (negation E scope operand).Gives table (.ok outcome) table' ↔
      ∃ first, (E scope operand).Gives table (.ok first) table' ∧
        ((first.complete = false ∧ outcome = ⟨.negation first.node, false⟩) ∨
          ∃ value, first = ⟨.boolean value, true⟩ ∧ outcome = ⟨.boolean !value, true⟩) := by
  rw [negation, gives_ok_bind]
  refine exists_congr fun first => ?_
  obtain ⟨found, complete⟩ := first
  cases complete with
  | false => simp
  | true => cases found <;> simp

theorem gives_binary {op : BinOp} {left right : Node} :
    (binary E scope op left right).Gives table (.ok outcome) table' ↔
      ∃ first middle second, (E scope left).Gives table (.ok first) middle ∧
        (E scope right).Gives middle (.ok second) table' ∧
        (((first.complete && second.complete) = false ∧
            outcome = ⟨.binary op first.node second.node, false⟩) ∨
          (first.complete = true ∧ second.complete = true ∧
            ∃ value, op.operate first.node second.node = .ok value ∧ outcome = ⟨value, true⟩)) := by
  rw [binary, gives_ok_bind]
  refine exists_congr fun first => exists_congr fun middle => ?_
  simp only [gives_ok_bind, ← exists_and_left]
  refine exists_congr fun second => ?_
  cases hfirst : first.complete <;> cases hsecond : second.complete <;>
    cases hvalue : op.operate first.node second.node <;> simp

theorem gives_function {parameter : String} {body : Node} :
    (function E scope parameter body).Gives table (.ok outcome) table' ↔
      ∃ first, (E (scope.bindUnresolved parameter) body).Gives table (.ok first) table' ∧
        outcome = ⟨.function parameter first.node, true⟩ := by
  rw [function, gives_ok_bind]
  simp

theorem gives_operand {source result : Node} {kept : Except EvalError Node} :
    (operand scope source result).Gives table kept table' ↔
      kept = .ok (table.kept scope source result) ∧ table' = table := by
  cases source with
  | var name =>
      rw [operand, gives_declared?_bind, Table.kept, Table.namesFunction]
      cases scope.get? name with
      | some => exact gives_pure
      | none =>
          cases table.lookup name with
          | none => exact gives_pure
          | some value => cases value <;> exact gives_pure
  | _ => exact gives_pure

theorem gives_suspended {callee argument first second : Node} :
    (suspended scope callee argument first second).Gives table (.ok outcome) table' ↔
      outcome = ⟨.apply (table.kept scope callee first) (table.kept scope argument second), false⟩ ∧
        table' = table := by
  rw [suspended, gives_ok_bind]
  simp only [gives_operand, gives_ok_bind, gives_pure]
  constructor
  · rintro ⟨kept, _, ⟨hkept, rfl⟩, kept', _, ⟨hkept', rfl⟩, hresult, rfl⟩
    rw [← Except.ok.inj hkept, ← Except.ok.inj hkept']
    exact ⟨Except.ok.inj hresult, rfl⟩
  · rintro ⟨rfl, rfl⟩
    exact ⟨_, _, ⟨rfl, rfl⟩, _, _, ⟨rfl, rfl⟩, rfl, rfl⟩

theorem gives_application {callee argument : Node} :
    (application E scope callee argument).Gives table (.ok outcome) table' ↔
      ∃ first middle second last, (E scope callee).Gives table (.ok first) middle ∧
        (E scope argument).Gives middle (.ok second) last ∧
        ((∃ parameter body, first = ⟨.function parameter body, true⟩ ∧ second.complete = true ∧
            callee.mentionsUnresolved scope = false ∧ argument.mentionsUnresolved scope = false ∧
            (E (Scope.bind [] parameter second.node) body).Gives last (.ok outcome) table') ∨
          ((first.complete = true → first.node.isFunction = true) ∧
            (first.complete = false ∨ second.complete = false ∨
              callee.mentionsUnresolved scope = true ∨
              argument.mentionsUnresolved scope = true) ∧
            outcome = ⟨.apply (last.kept scope callee first.node)
              (last.kept scope argument second.node), false⟩ ∧ table' = last)) := by
  rw [application, gives_ok_bind]
  refine exists_congr fun first => exists_congr fun middle => ?_
  simp only [gives_ok_bind, ← exists_and_left]
  refine exists_congr fun second => exists_congr fun last => and_congr_right fun _ =>
    and_congr_right fun _ => ?_
  obtain ⟨found, complete⟩ := first
  cases complete with
  | false => simp [gives_suspended]
  | true =>
      cases found with
      | function parameter body =>
          cases hsecond : second.complete <;> cases hcallee : callee.mentionsUnresolved scope <;>
            cases hargument : argument.mentionsUnresolved scope <;>
            simp [gives_suspended, Node.isFunction]
      | _ =>
          simp only [if_true]
          constructor
          · intro h
            split at h <;> cases (gives_throw.mp h).1
          · simp [Node.isFunction]

theorem gives_otherwise {whole branch : Node} :
    (otherwise E scope whole (some branch)).Gives table (.ok outcome) table' ↔
      ∃ value, (E scope branch).Gives table (.ok value) table' ∧
        outcome = value.orWhole (whole.substitute scope) := by
  rw [otherwise, gives_ok_bind]
  refine exists_congr fun value => ?_
  cases hcomplete : value.complete with
  | true => simp [Evaluated.orWhole_of_complete hcomplete]
  | false => simp [Evaluated.orWhole_of_incomplete hcomplete]

theorem gives_chain_cons {whole condition branch : Node} {conditions branches : List Node} :
    (chain E scope whole (condition :: conditions) (branch :: branches)).Gives table (.ok outcome)
        table' ↔
      ∃ test middle value last, (E scope condition).Gives table (.ok test) middle ∧
        (E scope branch).Gives middle (.ok value) last ∧
        (((test.complete && value.complete) = false ∧
            outcome = ⟨whole.substitute scope, false⟩ ∧ table' = last) ∨
          (test = ⟨.boolean true, true⟩ ∧ value.complete = true ∧ outcome = value ∧
            table' = last) ∨
          (test = ⟨.boolean false, true⟩ ∧ value.complete = true ∧
            (chain E scope whole conditions branches).Gives last (.ok outcome) table')) := by
  rw [chain_eq_arms, List.zip_cons_cons, arms, gives_ok_bind]
  refine exists_congr fun test => exists_congr fun middle => ?_
  simp only [gives_ok_bind, ← exists_and_left]
  refine exists_congr fun value => exists_congr fun last => and_congr_right fun _ =>
    and_congr_right fun _ => ?_
  obtain ⟨found, complete⟩ := test
  cases complete with
  | false => simp
  | true =>
      cases hvalue : value.complete with
      | false => simp
      | true =>
          cases found with
          | boolean truth =>
              cases truth with
              | true => simp
              | false => simp [chain_eq_arms]
          | _ => simp

end Success

end Eval

/-- No declaration can come to be evaluated with what names have as values. -/
def Undeclaring (value? : String → Option Node) : Prop :=
  ∀ name value, value? name = some value → value.declares = false

theorem Undeclaring.bindUnresolved {scope : Scope} (h : Undeclaring scope.value?)
    (parameter : String) : Undeclaring (scope.bindUnresolved parameter).value? :=
  fun name value hvalue => h name value (Scope.value?_of_bindUnresolved hvalue)

theorem Undeclaring.single {parameter : String} {value : Node} (h : value.declares = false) :
    Undeclaring (Scope.bind [] parameter value).value? := by
  intro name found hfound
  rw [(Scope.eq_of_value?_single hfound).2]
  exact h

namespace ResultsIn

variable {table : Table} {scope : Scope} {node : Node} {outcome : Evaluated}

theorem ne_noValue (h : ResultsIn table scope node outcome) : outcome.node ≠ .noValue := by
  have hwhole : ∀ {scope conditions branches},
      Node.substitute scope (.ifElse conditions branches) ≠ .noValue := by
    intro scope conditions branches
    rw [Node.substitute_ifElse]
    exact Node.noConfusion
  induction h with
  | literal hliteral =>
      rintro rfl
      cases hliteral
  | bound hvalue => exact Scope.ne_noValue_of_value? hvalue
  | declared _ _ hne => exact hne
  | operated _ _ hvalue =>
      exact Node.ne_noValue_of_isValue
        (Node.isValue_of_isLiteral (BinOp.isLiteral_of_operate hvalue).2.2)
  | called _ _ _ _ _ _ _ ihb => exact ihb
  | selected _ _ _ _ _ ihb => exact ihb
  | skipped _ _ _ _ _ ihr => exact Evaluated.orWhole_cases (fun _ => ihr) fun _ => hwhole
  | waiting => exact hwhole
  | otherwise _ _ ih => exact Evaluated.orWhole_cases (fun _ => ih) fun _ => hwhole
  | _ => exact Node.noConfusion

theorem complete (h : ResultsIn table scope node outcome)
    (hresolved : node.mentionsUnresolved scope = false) : outcome.complete = true := by
  rw [Node.mentionsUnresolved_eq_false] at hresolved
  induction h with
  | unresolved hunresolved =>
      rw [hresolved _ (Node.mem_freeNames_var.mpr rfl)] at hunresolved
      cases hunresolved
  | negation _ ih => cases ih fun x hx => hresolved x (Node.mem_freeNames_negation.mpr hx)
  | binary _ _ hincomplete ihl ihr =>
      rw [ihl fun x hx => hresolved x (Node.mem_freeNames_binary.mpr (.inl hx)),
        ihr fun x hx => hresolved x (Node.mem_freeNames_binary.mpr (.inr hx))] at hincomplete
      cases hincomplete
  | called _ hargument _ _ _ _ _ ihb =>
      refine ihb (Node.mentionsUnresolved_eq_false.mp ?_)
      exact Node.mentionsUnresolved_single hargument.ne_noValue
  | suspended _ _ _ hwaits ihc iha =>
      have hcallee := fun x hx => hresolved x (Node.mem_freeNames_apply.mpr (.inl hx))
      have hargument := fun x hx => hresolved x (Node.mem_freeNames_apply.mpr (.inr hx))
      rw [ihc hcallee, iha hargument, Node.mentionsUnresolved_eq_false.mpr hcallee,
        Node.mentionsUnresolved_eq_false.mpr hargument] at hwaits
      simp at hwaits
  | skipped _ _ _ _ _ ihr =>
      have hrest := ihr fun x hx => hresolved x (Node.mem_freeNames_ifElse_cons hx)
      rwa [Evaluated.orWhole_of_complete hrest]
  | waiting _ _ _ _ hincomplete ihc ihb =>
      rw [ihc fun x hx => hresolved x (Node.mem_freeNames_condition hx),
        ihb fun x hx => hresolved x (Node.mem_freeNames_branch hx)] at hincomplete
      cases hincomplete
  | otherwise _ _ ih =>
      have hvalue := ih fun x hx => hresolved x (Node.mem_freeNames_branch hx)
      rwa [Evaluated.orWhole_of_complete hvalue]
  | _ => rfl

theorem mentions (h : ResultsIn table scope node outcome) (hincomplete : outcome.complete = false) :
    node.mentionsUnresolved scope = true := by
  rw [← Bool.not_eq_false]
  intro hresolved
  rw [h.complete hresolved] at hincomplete
  cases hincomplete

theorem orWhole_eq {conditions branches : List Node}
    (h : ResultsIn table scope (.ifElse conditions branches) outcome) :
    outcome.orWhole (Node.substitute scope (.ifElse conditions branches)) = outcome := by
  cases h with
  | literal hliteral => cases hliteral
  | selected => rfl
  | waiting => rfl
  | skipped => exact Evaluated.orWhole_orWhole _
  | otherwise => exact Evaluated.orWhole_orWhole _

theorem hereditary {P : Node → Prop} (hP : Node.Hereditary P)
    (hrest : ∀ {condition branch conditions branches},
      P (.ifElse (condition :: conditions) (branch :: branches)) → P (.ifElse conditions branches))
    (htable : ∀ name value, table.lookup name = some value → P value)
    (h : ResultsIn table scope node outcome) (hnode : P node)
    (hscope : ∀ name value, scope.value? name = some value → P value) : P outcome.node := by
  induction h with
  | literal => exact hnode
  | unresolved => exact hnode
  | bound hvalue => exact hscope _ _ hvalue
  | declared _ hvalue => exact htable _ _ hvalue
  | inverted => exact hP.literal rfl
  | negation _ ih => exact hP.negation.mpr (ih (hP.negation.mp hnode) hscope)
  | operated _ _ hvalue => exact hP.literal (BinOp.isLiteral_of_operate hvalue).2.2
  | binary _ _ _ ihl ihr =>
      obtain ⟨hleft, hright⟩ := hP.binary.mp hnode
      exact hP.binary.mpr ⟨ihl hleft hscope, ihr hright hscope⟩
  | function _ ih =>
      obtain ⟨hbody, hrebuilt⟩ := hP.function hnode
      exact hrebuilt (ih hbody fun name value hvalue =>
        hscope name value (Scope.value?_of_bindUnresolved hvalue))
  | called _ _ _ _ _ ihc iha ihb =>
      obtain ⟨hcallee, hargument⟩ := hP.apply.mp hnode
      refine ihb (hP.function (ihc hcallee hscope)).1 fun name value hvalue => ?_
      rw [(Scope.eq_of_value?_single hvalue).2]
      exact iha hargument hscope
  | suspended _ _ _ _ ihc iha =>
      obtain ⟨hcallee, hargument⟩ := hP.apply.mp hnode
      refine hP.apply.mpr ⟨?_, ?_⟩
      · rw [Table.kept]
        split
        · exact hcallee
        · exact ihc hcallee hscope
      · rw [Table.kept]
        split
        · exact hargument
        · exact iha hargument hscope
  | selected _ _ _ _ _ ihb => exact ihb ((hP.ifElse hnode).2 _ List.mem_cons_self) hscope
  | skipped _ _ _ _ _ ihr =>
      exact Evaluated.orWhole_cases (fun _ => ihr (hrest hnode) hscope)
        fun _ => hP.substitute hnode hscope
  | waiting => exact hP.substitute hnode hscope
  | otherwise _ _ ih =>
      exact Evaluated.orWhole_cases (fun _ => ih ((hP.ifElse hnode).2 _ List.mem_cons_self) hscope)
        fun _ => hP.substitute hnode hscope

end ResultsIn

/-- Every declaration has a value, and none declares anything when it is evaluated. -/
def Table.IsProper (table : Table) : Prop :=
  ∀ name value, table.lookup name = some value → value ≠ .noValue ∧ value.declares = false

section Soundness

/-- What the evaluation gives for nodes that declare nothing follows by the rules, and the table
stays as it is. -/
def Eval.IsRuled (E : Scope → Node → Eval Evaluated) : Prop :=
  ∀ {scope node table outcome table'}, node.declares = false → Undeclaring (Scope.value? scope) →
    Table.IsProper table → (E scope node).Gives table (.ok outcome) table' →
    table' = table ∧ ResultsIn table scope node outcome

theorem ResultsIn.declares_eq_false {table : Table} {scope : Scope} {node : Node}
    {outcome : Evaluated} (h : ResultsIn table scope node outcome) (hnode : node.declares = false)
    (hscope : Undeclaring scope.value?) (htable : table.IsProper) :
    outcome.node.declares = false := by
  refine h.hereditary Node.hereditary_undeclaring (fun hchain => ?_)
    (fun name value hvalue => (htable name value hvalue).2) hnode hscope
  obtain ⟨hconditions, hbranches⟩ := Node.declares_ifElse.mp hchain
  exact Node.declares_ifElse.mpr ⟨(List.forall_mem_cons.mp hconditions).2,
    (List.forall_mem_cons.mp hbranches).2⟩

namespace Eval.IsRuled

variable {E : Scope → Node → Eval Evaluated} {scope : Scope} {table table' : Table}
  {outcome : Evaluated}

theorem application (hE : IsRuled E) {callee argument : Node} (hcallee : callee.declares = false)
    (hargument : argument.declares = false) (hscope : Undeclaring scope.value?)
    (htable : table.IsProper)
    (h : (Eval.application E scope callee argument).Gives table (.ok outcome) table') :
    table' = table ∧ ResultsIn table scope (.apply callee argument) outcome := by
  obtain ⟨first, middle, second, last, hfirst, hsecond, hcases⟩ := gives_application.mp h
  obtain ⟨rfl, hfirst⟩ := hE hcallee hscope htable hfirst
  obtain ⟨rfl, hsecond⟩ := hE hargument hscope htable hsecond
  rcases hcases with ⟨parameter, body, rfl, hcomplete, hnone, hnone', hbody⟩ |
    ⟨hfunction, hwaits, rfl, rfl⟩
  · obtain ⟨value, complete⟩ := second
    obtain rfl : complete = true := hcomplete
    have hvalue := hsecond.declares_eq_false hargument hscope htable
    have hdeclares : body.declares = false := hfirst.declares_eq_false hcallee hscope htable
    obtain ⟨rfl, hbody⟩ := hE hdeclares (.single hvalue) htable hbody
    exact ⟨rfl, .called hfirst hsecond hnone hnone' hbody⟩
  · exact ⟨rfl, .suspended hfirst hsecond hfunction hwaits⟩

theorem chain (hE : IsRuled E) {whole : Node} {conditions branches : List Node}
    (hconditions : ∀ condition ∈ conditions, condition.declares = false)
    (hbranches : ∀ branch ∈ branches, branch.declares = false)
    (hscope : Undeclaring scope.value?) (htable : table.IsProper)
    (h : (Eval.chain E scope whole conditions branches).Gives table (.ok outcome) table') :
    table' = table ∧ ∃ rest, ResultsIn table scope (.ifElse conditions branches) rest ∧
      outcome = rest.orWhole (whole.substitute scope) := by
  induction conditions generalizing branches with
  | nil =>
      cases branches with
      | nil =>
          have hnone : (throw (.noValueFor whole) : Eval Evaluated).Gives table (.ok outcome)
            table' := h
          cases (gives_throw.mp hnone).1
      | cons branch branches =>
          obtain ⟨value, hvalue, rfl⟩ := gives_otherwise.mp h
          obtain ⟨rfl, hvalue⟩ := hE (hbranches branch List.mem_cons_self) hscope htable hvalue
          exact ⟨rfl, _, .otherwise branches hvalue, (Evaluated.orWhole_orWhole _).symm⟩
  | cons condition conditions ih =>
      cases branches with
      | nil =>
          have hnone : (throw (.noValueFor whole) : Eval Evaluated).Gives table (.ok outcome)
            table' := h
          cases (gives_throw.mp hnone).1
      | cons branch branches =>
          rw [List.forall_mem_cons] at hconditions hbranches
          obtain ⟨test, middle, value, last, htest, hvalue, hcases⟩ := gives_chain_cons.mp h
          obtain ⟨rfl, htest⟩ := hE hconditions.1 hscope htable htest
          obtain ⟨rfl, hvalue⟩ := hE hbranches.1 hscope htable hvalue
          rcases hcases with ⟨hincomplete, rfl, rfl⟩ | ⟨rfl, hcomplete, rfl, rfl⟩ |
            ⟨rfl, hcomplete, hrest⟩
          · exact ⟨rfl, _, .waiting conditions branches htest hvalue hincomplete, rfl⟩
          · obtain ⟨found, complete⟩ := outcome
            obtain rfl : complete = true := hcomplete
            exact ⟨rfl, _, .selected conditions branches htest hvalue, rfl⟩
          · obtain ⟨found, complete⟩ := value
            obtain rfl : complete = true := hcomplete
            obtain ⟨rfl, rest, hresults, rfl⟩ := ih hconditions.2 hbranches.2 hrest
            exact ⟨rfl, _, .skipped htest hvalue hresults, (Evaluated.orWhole_orWhole _).symm⟩

theorem step (hE : IsRuled E) : IsRuled (Eval.step E) := by
  intro scope node table outcome table' hnode hscope htable h
  cases node with
  | integer | float | boolean =>
      obtain ⟨heq, rfl⟩ := gives_pure.mp h
      obtain rfl := Except.ok.inj heq
      exact ⟨rfl, .literal rfl⟩
  | negation operand =>
      have hoperand : operand.declares = false := hnode
      obtain ⟨first, hfirst, hcases⟩ := gives_negation.mp h
      obtain ⟨rfl, hfirst⟩ := hE hoperand hscope htable hfirst
      rcases hcases with ⟨hincomplete, rfl⟩ | ⟨value, rfl, rfl⟩
      · obtain ⟨found, complete⟩ := first
        obtain rfl : complete = false := hincomplete
        exact ⟨rfl, .negation hfirst⟩
      · exact ⟨rfl, .inverted hfirst⟩
  | binary op left right =>
      obtain ⟨hleft, hright⟩ := Node.hereditary_undeclaring.binary.mp hnode
      obtain ⟨first, middle, second, hfirst, hsecond, hcases⟩ := gives_binary.mp h
      obtain ⟨rfl, hfirst⟩ := hE hleft hscope htable hfirst
      obtain ⟨rfl, hsecond⟩ := hE hright hscope htable hsecond
      rcases hcases with ⟨hincomplete, rfl⟩ | ⟨hcomplete, hcomplete', value, hvalue, rfl⟩
      · exact ⟨rfl, .binary hfirst hsecond hincomplete⟩
      · obtain ⟨found, complete⟩ := first
        obtain ⟨found', complete'⟩ := second
        obtain rfl : complete = true := hcomplete
        obtain rfl : complete' = true := hcomplete'
        exact ⟨rfl, .operated hfirst hsecond hvalue⟩
  | var name =>
      obtain ⟨rfl, hcases⟩ := variableValue_cases h
      rcases hcases with ⟨hunresolved, heq⟩ | ⟨value, hvalue, heq⟩ | ⟨hnone, hcases⟩
      · obtain rfl := Except.ok.inj heq
        exact ⟨rfl, .unresolved hunresolved⟩
      · obtain rfl := Except.ok.inj heq
        exact ⟨rfl, .bound hvalue⟩
      · rcases hcases with ⟨-, heq⟩ | ⟨hlookup, -⟩ | ⟨value, hlookup, hne, heq⟩
        · cases heq
        · exact absurd rfl (htable name _ hlookup).1
        · obtain rfl := Except.ok.inj heq
          exact ⟨rfl, .declared hnone hlookup hne⟩
  | declaration => cases hnode
  | function parameter body =>
      have hbody : body.declares = false := hnode
      obtain ⟨first, hfirst, rfl⟩ := gives_function.mp h
      obtain ⟨rfl, hfirst⟩ := hE hbody (hscope.bindUnresolved parameter) htable hfirst
      exact ⟨rfl, .function hfirst⟩
  | apply callee argument =>
      obtain ⟨hcallee, hargument⟩ := Node.hereditary_undeclaring.apply.mp hnode
      exact hE.application hcallee hargument hscope htable h
  | ifElse conditions branches =>
      obtain ⟨hconditions, hbranches⟩ := Node.declares_ifElse.mp hnode
      obtain ⟨rfl, rest, hrest, rfl⟩ := hE.chain hconditions hbranches hscope htable h
      exact ⟨rfl, hrest.orWhole_eq.symm ▸ hrest⟩
  | noValue | typeName | typeDefinition | construction => cases (gives_throw.mp h).1

end Eval.IsRuled

theorem isRuled_evaluate (depth : Nat) : Eval.IsRuled (evaluate depth) := by
  induction depth with
  | zero =>
      intro scope node table outcome table' _ _ _ h
      cases h
  | succ depth ih => exact ih.step

end Soundness

section Completeness

variable {table table' : Table} {scope : Scope} {node : Node} {outcome : Evaluated}

theorem Eval.gives_chain_whole {E : Scope → Node → Eval Evaluated} {whole whole' : Node}
    {conditions branches : List Node}
    (h : (chain E scope whole conditions branches).Gives table (.ok outcome) table') :
    (chain E scope whole' conditions branches).Gives table
      (.ok (outcome.orWhole (whole'.substitute scope))) table' := by
  induction conditions generalizing branches table with
  | nil =>
      cases branches with
      | nil =>
          have hnone : (throw (.noValueFor whole) : Eval Evaluated).Gives table (.ok outcome)
            table' := h
          cases (gives_throw.mp hnone).1
      | cons branch branches =>
          obtain ⟨value, hvalue, rfl⟩ := gives_otherwise.mp h
          exact gives_otherwise.mpr ⟨value, hvalue, Evaluated.orWhole_orWhole _⟩
  | cons condition conditions ih =>
      cases branches with
      | nil =>
          have hnone : (throw (.noValueFor whole) : Eval Evaluated).Gives table (.ok outcome)
            table' := h
          cases (gives_throw.mp hnone).1
      | cons branch branches =>
          obtain ⟨test, middle, value, last, htest, hvalue, hcases⟩ := gives_chain_cons.mp h
          refine gives_chain_cons.mpr ⟨test, middle, value, last, htest, hvalue, ?_⟩
          rcases hcases with ⟨hincomplete, rfl, hlast⟩ | ⟨htrue, hcomplete, rfl, hlast⟩ |
            ⟨hfalse, hcomplete, hrest⟩
          · exact .inl ⟨hincomplete, rfl, hlast⟩
          · exact .inr (.inl ⟨htrue, hcomplete, Evaluated.orWhole_of_complete hcomplete, hlast⟩)
          · exact .inr (.inr ⟨hfalse, hcomplete, ih hrest⟩)

/-- One more level of recursion makes no difference in the end. -/
theorem eventually_evaluate {result : Except EvalError Evaluated} :
    (∀ᶠ depth in Filter.atTop, (evaluate depth scope node).Gives table result table') ↔
      ∀ᶠ depth in Filter.atTop,
        (Eval.step (evaluate depth) scope node).Gives table result table' := by
  conv_lhs => rw [← Filter.map_add_atTop_eq_nat 1, Filter.eventually_map]
  rfl

/-- What follows by the rules is given at all depths from some depth on. -/
theorem ResultsIn.eventually_gives (h : ResultsIn table scope node outcome) :
    ∀ᶠ depth in Filter.atTop, (evaluate depth scope node).Gives table (.ok outcome) table := by
  induction h with
  | @literal scope node hliteral =>
      refine eventually_evaluate.mpr (.of_forall fun depth => ?_)
      cases node with
      | integer | float | boolean => exact Eval.gives_pure.mpr ⟨rfl, rfl⟩
      | _ => cases hliteral
  | unresolved hunresolved =>
      refine eventually_evaluate.mpr (.of_forall fun depth => ?_)
      rw [Eval.step, Eval.variableValue_of_isUnresolved hunresolved]
      exact Eval.gives_pure.mpr ⟨rfl, rfl⟩
  | bound hvalue =>
      refine eventually_evaluate.mpr (.of_forall fun depth => ?_)
      rw [Eval.step, Eval.variableValue_of_value? hvalue]
      exact Eval.gives_pure.mpr ⟨rfl, rfl⟩
  | @declared scope name value hnone hlookup hne =>
      refine eventually_evaluate.mpr (.of_forall fun depth => ?_)
      rw [Eval.step, Eval.variableValue, Eval.gives_declared?_bind, hnone, hlookup]
      cases value with
      | noValue => exact absurd rfl hne
      | _ => exact Eval.gives_pure.mpr ⟨rfl, rfl⟩
  | inverted _ ih =>
      refine eventually_evaluate.mpr (ih.mono fun depth hrun => ?_)
      exact Eval.gives_negation.mpr ⟨_, hrun, .inr ⟨_, rfl, rfl⟩⟩
  | negation _ ih =>
      refine eventually_evaluate.mpr (ih.mono fun depth hrun => ?_)
      exact Eval.gives_negation.mpr ⟨_, hrun, .inl ⟨rfl, rfl⟩⟩
  | operated _ _ hvalue ihl ihr =>
      refine eventually_evaluate.mpr ((ihl.and ihr).mono fun depth hrun => ?_)
      exact Eval.gives_binary.mpr ⟨_, _, _, hrun.1, hrun.2, .inr ⟨rfl, rfl, _, hvalue, rfl⟩⟩
  | binary _ _ hincomplete ihl ihr =>
      refine eventually_evaluate.mpr ((ihl.and ihr).mono fun depth hrun => ?_)
      exact Eval.gives_binary.mpr ⟨_, _, _, hrun.1, hrun.2, .inl ⟨hincomplete, rfl⟩⟩
  | function _ ih =>
      refine eventually_evaluate.mpr (ih.mono fun depth hrun => ?_)
      exact Eval.gives_function.mpr ⟨_, hrun, rfl⟩
  | called _ _ hcallee hargument _ ihc iha ihb =>
      refine eventually_evaluate.mpr ((ihc.and (iha.and ihb)).mono fun depth hrun => ?_)
      exact Eval.gives_application.mpr ⟨_, _, _, _, hrun.1, hrun.2.1,
        .inl ⟨_, _, rfl, rfl, hcallee, hargument, hrun.2.2⟩⟩
  | suspended _ _ hfunction hwaits ihc iha =>
      refine eventually_evaluate.mpr ((ihc.and iha).mono fun depth hrun => ?_)
      exact Eval.gives_application.mpr ⟨_, _, _, _, hrun.1, hrun.2,
        .inr ⟨hfunction, hwaits, rfl, rfl⟩⟩
  | selected _ _ _ _ ihc ihb =>
      refine eventually_evaluate.mpr ((ihc.and ihb).mono fun depth hrun => ?_)
      exact Eval.gives_chain_cons.mpr ⟨_, _, _, _, hrun.1, hrun.2, .inr (.inl ⟨rfl, rfl, rfl, rfl⟩)⟩
  | skipped _ _ _ ihc ihb ihr =>
      have hrest := eventually_evaluate.mp ihr
      refine eventually_evaluate.mpr ((ihc.and (ihb.and hrest)).mono fun depth hrun => ?_)
      exact Eval.gives_chain_cons.mpr ⟨_, _, _, _, hrun.1, hrun.2.1,
        .inr (.inr ⟨rfl, rfl, Eval.gives_chain_whole hrun.2.2⟩)⟩
  | waiting _ _ _ _ hincomplete ihc ihb =>
      refine eventually_evaluate.mpr ((ihc.and ihb).mono fun depth hrun => ?_)
      exact Eval.gives_chain_cons.mpr ⟨_, _, _, _, hrun.1, hrun.2, .inl ⟨hincomplete, rfl, rfl⟩⟩
  | otherwise _ _ ih =>
      refine eventually_evaluate.mpr (ih.mono fun depth hrun => ?_)
      exact Eval.gives_otherwise.mpr ⟨_, hrun, rfl⟩

end Completeness

end Viewlet
