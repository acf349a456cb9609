import Viewlet.Proofs.Sessions.Reachability

namespace Viewlet

namespace Node

mutual

/-- Whether a declaration can come to be evaluated with the node. What stands in a construction
or in a type definition is never evaluated. -/
def declares : Node → Bool
  | .declaration .. => true
  | .negation operand => declares operand
  | .binary _ left right => declares left || declares right
  | .function _ body => declares body
  | .apply callee argument => declares callee || declares argument
  | .ifElse conditions branches => anyDeclares conditions || anyDeclares branches
  | _ => false

/-- Whether a declaration can come to be evaluated with one of the nodes. -/
def anyDeclares : List Node → Bool
  | [] => false
  | node :: nodes => declares node || anyDeclares nodes

end

attribute [local simp] declares anyDeclares

theorem anyDeclares_eq_false {nodes : List Node} :
    anyDeclares nodes = false ↔ ∀ node ∈ nodes, node.declares = false := by
  induction nodes with
  | nil => simp
  | cons node nodes ih => simp [ih]

theorem declares_ifElse {conditions branches : List Node} :
    (ifElse conditions branches).declares = false ↔
      (∀ condition ∈ conditions, condition.declares = false) ∧
        ∀ branch ∈ branches, branch.declares = false := by
  simp only [declares, Bool.or_eq_false_iff, anyDeclares_eq_false]

theorem declares_substitute {scope : Scope} {node : Node} (h : node.declares = false)
    (hscope : ∀ name value, scope.value? name = some value → value.declares = false) :
    (node.substitute scope).declares = false := by
  induction node generalizing scope with
  | var name =>
      rw [substitute_var]
      cases hvalue : scope.value? name with
      | none => rfl
      | some value => exact hscope name value hvalue
  | function parameter body ih =>
      exact ih h fun name value hvalue => hscope name value (Scope.value?_of_bindUnresolved hvalue)
  | apply callee argument ihc iha =>
      simp only [declares, Bool.or_eq_false_iff] at h
      simp only [substitute, declares, Bool.or_eq_false_iff]
      exact ⟨ihc h.1 hscope, iha h.2 hscope⟩
  | binary op left right ihl ihr =>
      simp only [declares, Bool.or_eq_false_iff] at h
      simp only [substitute, declares, Bool.or_eq_false_iff]
      exact ⟨ihl h.1 hscope, ihr h.2 hscope⟩
  | negation operand ih => exact ih h hscope
  | ifElse conditions branches ihc ihb =>
      rw [declares_ifElse] at h
      simp only [substitute_ifElse, declares_ifElse, List.forall_mem_map]
      exact ⟨fun node hmem => ihc node hmem (h.1 node hmem) hscope,
        fun node hmem => ihb node hmem (h.2 node hmem) hscope⟩
  | _ => exact h

theorem hereditary_undeclaring : Hereditary fun node => node.declares = false where
  undeclared h := by cases h
  literal {node} h := by
    cases node with
    | integer | float | boolean => rfl
    | _ => cases h
  var _ := rfl
  negation := Iff.rfl
  binary := Bool.or_eq_false_iff
  function h := ⟨h, fun hother => hother⟩
  apply := Bool.or_eq_false_iff
  ifElse := declares_ifElse.mp
  substitute := declares_substitute

theorem declares_of_formed {admits : String → Prop} {node : Node} (h : node.Formed admits) :
    node.declares = false := by
  induction h with
  | @inert node hinert =>
      cases node with
      | integer | float | boolean | noValue | typeName | typeDefinition | construction => rfl
      | _ => cases hinert
  | var => rfl
  | negation _ ih => exact ih
  | binary _ _ ihl ihr => exact Bool.or_eq_false_iff.mpr ⟨ihl, ihr⟩
  | function _ _ ih => exact ih
  | apply _ _ ihc iha => exact Bool.or_eq_false_iff.mpr ⟨ihc, iha⟩
  | ifElse _ _ _ ihc ihb => exact declares_ifElse.mpr ⟨ihc, ihb⟩

end Node

namespace Session

variable {session session' : Session} {depth : Nat} {node : Node}

/-- In every session that can be reached, all declarations are values. Evaluation gives complete
values, if no declaration is evaluated and every name in scope has a value, and what is read as
a unit gives a value or the declaration of one. -/
theorem reachable_results_complete (h : session.Reachable) :
    (∀ name value, session.get? name = some value → value.isValue = true) ∧
      (∀ depth scope node outcome session', node.declares = false →
        (∀ name value, Scope.get? scope name = some value →
          value.isValue = true ∧ value.declares = false) →
        session.evaluate depth scope node = some (.ok outcome, session') →
        outcome.complete = true ∧ outcome.node.isValue = true) ∧
      ∀ depth source node session', session.interpret depth source = some (.ok node, session') →
        node.isValue = true ∨
          ∃ name body, node = .declaration name body ∧ body.isValue = true := by
  have hvalues := h.holds (Node.hereditary_formed _) Node.readable_isExpression
  refine ⟨fun name value hvalue => (hvalues name value hvalue).1, ?_, ?_⟩
  · intro depth scope node outcome session' hnode hscope hrun
    obtain ⟨hgives, -⟩ := Eval.gives_of_evaluate hrun
    have hregular := isRegular_evaluate Node.hereditary_undeclaring depth hnode
      (fun name value hvalue => hscope name value (Scope.get?_of_value? hvalue))
      (fun name value hvalue => ⟨(hvalues name value hvalue).1,
        Node.declares_of_formed (hvalues name value hvalue).2⟩) hgives
    have hresolved : node.mentionsUnresolved scope = false := by
      refine Node.mentionsUnresolved_eq_false.mpr fun name _ => ?_
      rw [← Bool.not_eq_true]
      intro hunresolved
      rw [Scope.isUnresolved] at hunresolved
      split at hunresolved
      · next hget => cases (hscope name _ hget).1
      · cases hunresolved
    have hcomplete := hregular.complete rfl hresolved
    exact ⟨hcomplete, hregular.isValue rfl hcomplete⟩
  · intro depth source node session' hrun
    cases hvalues.interpret (Node.hereditary_formed _) Node.readable_isExpression hrun with
    | value hvalue => exact .inl hvalue
    | declared _ hvalue => exact .inr ⟨_, _, rfl, hvalue⟩

/-- A function whose body waits for both parameters, applied to one argument. -/
theorem reachable_results_complete_curried :
    let session : Session := { table := [("add", .function "x" (.function "y"
      (.binary .add (.var "x") (.var "y"))))] }
    let call : Node := .apply (.var "add") (.integer 1)
    let outcome : Evaluated := ⟨.function "y" (.binary .add (.integer 1) (.var "y")), true⟩
    session.Reachable ∧ call.declares = false ∧
      session.evaluate 6 [] call = some (.ok outcome, session) ∧
      (∀ name value, session.get? name = some value → value.isValue = true) ∧
      outcome.complete = true ∧ outcome.node.isValue = true := by
  intro session call outcome
  have hread : readSingle "add x y = x + y" = .ok (.declaration "add" (.function "x" (.function "y"
      (.binary .add (.var "x") (.var "y"))))) :=
    readSingle_eq_ok rfl (by decide +kernel)
  have hinterpret : Session.interpret 6 {} "add x y = x + y" =
      some (.ok (.declaration "add" (.function "x" (.function "y"
        (.binary .add (.var "x") (.var "y"))))), session) := by
    rw [Session.interpret, hread]
    rfl
  have hsession : session.Reachable := .interpret (.fresh defaultRoot) hinterpret
  have hrun : session.evaluate 6 [] call = some (.ok outcome, session) := rfl
  obtain ⟨hvalues, hcomplete, -⟩ := reachable_results_complete hsession
  exact ⟨hsession, rfl, hrun, hvalues,
    hcomplete 6 [] call outcome session rfl (fun _ _ h => by cases h) hrun⟩

end Session

end Viewlet
