import Viewlet.Evaluation.Operation
import Viewlet.Proofs.Evaluation.Scoping

namespace Viewlet

namespace Node

mutual

/-- Replaces a name, except where a function binds it again. -/
def replace : Node → (name : String) → (value : Node) → Node
  | .var other, name, value => if other = name then value else .var other
  | .function parameter body, name, value =>
      if parameter = name then .function parameter body
      else .function parameter (replace body name value)
  | .apply callee argument, name, value =>
      .apply (replace callee name value) (replace argument name value)
  | .binary op left right, name, value =>
      .binary op (replace left name value) (replace right name value)
  | .negation operand, name, value => .negation (replace operand name value)
  | .ifElse conditions branches, name, value =>
      .ifElse (replaceAll conditions name value) (replaceAll branches name value)
  | node, _, _ => node

/-- Replaces a name in expressions. -/
def replaceAll : List Node → (name : String) → (value : Node) → List Node
  | [], _, _ => []
  | node :: nodes, name, value => replace node name value :: replaceAll nodes name value

end

theorem replaceAll_eq_map (nodes : List Node) (name : String) (value : Node) :
    replaceAll nodes name value = nodes.map fun node => node.replace name value := by
  induction nodes with
  | nil => rfl
  | cons node nodes ih => rw [replaceAll, ih, List.map_cons]

theorem replace_eq_substitute {name : String} {value : Node} {scope : Scope}
    (h : ∀ other, scope.value? other = if other = name then some value else none) (node : Node) :
    node.replace name value = node.substitute scope := by
  induction node generalizing scope with
  | var other =>
      rw [substitute_var, h, replace]
      split <;> rfl
  | function parameter body ih =>
      rw [replace, substitute]
      split
      · next heq =>
          rw [substitute_eq_self fun x _ => ?_]
          rw [Scope.value?_bindUnresolved, h, heq]
          split <;> rfl
      · next hne =>
          rw [ih fun other => ?_]
          rw [Scope.value?_bindUnresolved, h]
          by_cases hother : other = parameter
          · rw [if_pos hother, if_neg (hother ▸ hne)]
          · rw [if_neg hother]
  | apply callee argument ihc iha => rw [replace, substitute, ihc h, iha h]
  | binary op left right ihl ihr => rw [replace, substitute, ihl h, ihr h]
  | negation operand ih => rw [replace, substitute, ih h]
  | ifElse conditions branches ihc ihb =>
      rw [replace, replaceAll_eq_map, replaceAll_eq_map, substitute_ifElse]
      congr 1
      · exact List.map_congr_left fun node hmem => ihc node hmem h
      · exact List.map_congr_left fun node hmem => ihb node hmem h
  | _ => rfl

end Node

/-- `Evaluates node value`: the node has the value. -/
inductive Evaluates : Node → Node → Prop where
  | literal {node} : node.isLiteral = true → Evaluates node node
  | function {parameter body} : Evaluates (.function parameter body) (.function parameter body)
  | negation {operand value} : Evaluates operand (.boolean value) →
      Evaluates (.negation operand) (.boolean !value)
  | binary {op left right first second value} : Evaluates left first → Evaluates right second →
      op.operate first second = .ok value → Evaluates (.binary op left right) value
  | apply {callee argument parameter body value result} :
      Evaluates callee (.function parameter body) → Evaluates argument value →
      Evaluates (body.replace parameter value) result → Evaluates (.apply callee argument) result
  | selected {condition branch conditions branches value} :
      Evaluates condition (.boolean true) → Evaluates branch value →
      Evaluates (.ifElse (condition :: conditions) (branch :: branches)) value
  | skipped {condition branch conditions branches value} :
      Evaluates condition (.boolean false) → Evaluates (.ifElse conditions branches) value →
      Evaluates (.ifElse (condition :: conditions) (branch :: branches)) value
  | otherwise {branch branches value} : Evaluates branch value →
      Evaluates (.ifElse [] (branch :: branches)) value

/-- A node has at most one value. -/
theorem Evaluates.unique {node value value' : Node} (h : Evaluates node value)
    (h' : Evaluates node value') : value = value' := by
  induction h generalizing value' with
  | literal hliteral =>
      cases h' with
      | literal => rfl
      | _ => cases hliteral
  | function =>
      cases h' with
      | literal => rfl
      | function => rfl
  | negation _ ih =>
      cases h' with
      | literal hliteral => cases hliteral
      | negation h' => rw [Node.boolean.inj (ih h')]
  | binary _ _ hvalue ihl ihr =>
      cases h' with
      | literal hliteral => cases hliteral
      | binary hl hr hvalue' =>
          rw [ihl hl, ihr hr, hvalue'] at hvalue
          exact (Except.ok.inj hvalue).symm
  | apply _ _ _ ihc iha ihb =>
      cases h' with
      | literal hliteral => cases hliteral
      | apply hc ha hb =>
          obtain ⟨rfl, rfl⟩ := Node.function.inj (ihc hc)
          obtain rfl := iha ha
          exact ihb hb
  | selected _ _ ihc ihb =>
      cases h' with
      | literal hliteral => cases hliteral
      | selected _ hb => exact ihb hb
      | skipped hc _ => cases ihc hc
  | skipped _ _ ihc ihr =>
      cases h' with
      | literal hliteral => cases hliteral
      | selected hc _ => cases ihc hc
      | skipped _ hr => exact ihr hr
  | otherwise _ ih =>
      cases h' with
      | literal hliteral => cases hliteral
      | otherwise h' => exact ih h'

end Viewlet
