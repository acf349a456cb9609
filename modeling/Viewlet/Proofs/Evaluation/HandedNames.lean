import Viewlet.Proofs.Evaluation.Scoping

namespace Viewlet

namespace Node

/-- Whether the node is a name. -/
def isVariable : Node → Bool
  | .var _ => true
  | _ => false

mutual

/-- The names in an expression that are handed on and not only called, and that no function
binds. -/
def handedNames : Node → List String
  | .var name => [name]
  | .function parameter body => (handedNames body).filter (· != parameter)
  | .apply callee argument =>
      (if callee.isVariable then [] else handedNames callee) ++ handedNames argument
  | .binary _ left right => handedNames left ++ handedNames right
  | .negation operand => handedNames operand
  | .ifElse conditions branches => handedNamesAll conditions ++ handedNamesAll branches
  | _ => []

/-- The names in expressions that are handed on and not only called. -/
def handedNamesAll : List Node → List String
  | [] => []
  | node :: nodes => handedNames node ++ handedNamesAll nodes

end

/-- The names that are kept where an expression is called and not handed on: those that the
functions inside of it use. -/
def innerNames : Node → List String
  | .function parameter body => body.keptNames.filter (· != parameter)
  | node => node.keptNames

section Membership

attribute [local simp] handedNames handedNamesAll

variable {node : Node} {nodes : List Node} {x : String}

theorem exists_eq_var (h : node.isVariable = true) : ∃ name, node = .var name := by
  cases node with
  | var name => exact ⟨name, rfl⟩
  | _ => cases h

theorem mem_handedNamesAll :
    x ∈ handedNamesAll nodes ↔ ∃ node ∈ nodes, x ∈ node.handedNames := by
  induction nodes with
  | nil => simp
  | cons node nodes ih => simp [ih]

theorem mem_handedNames_var {name : String} : x ∈ (var name).handedNames ↔ x = name := by
  simp

theorem mem_handedNames_function {parameter : String} {body : Node} :
    x ∈ (function parameter body).handedNames ↔ x ∈ body.handedNames ∧ x ≠ parameter := by
  simp

theorem mem_handedNames_apply {callee argument : Node} :
    x ∈ (apply callee argument).handedNames ↔
      (callee.isVariable = false ∧ x ∈ callee.handedNames) ∨ x ∈ argument.handedNames := by
  cases h : callee.isVariable <;> simp [h]

theorem mem_handedNames_binary {op : BinOp} {left right : Node} :
    x ∈ (binary op left right).handedNames ↔ x ∈ left.handedNames ∨ x ∈ right.handedNames := by
  simp

theorem mem_handedNames_negation {operand : Node} :
    x ∈ (negation operand).handedNames ↔ x ∈ operand.handedNames := by
  simp

theorem mem_handedNames_ifElse {conditions branches : List Node} :
    x ∈ (ifElse conditions branches).handedNames ↔
      (∃ condition ∈ conditions, x ∈ condition.handedNames) ∨
        ∃ branch ∈ branches, x ∈ branch.handedNames := by
  simp [mem_handedNamesAll]

theorem handedNames_of_isInert (h : node.isInert = true) : node.handedNames = [] := by
  cases node <;> simp_all [isInert]

theorem mem_freeNames_of_mem_handedNames (h : x ∈ node.handedNames) :
    x ∈ node.freeNames [] := by
  induction node with
  | var name => exact mem_freeNames_var.mpr (mem_handedNames_var.mp h)
  | function parameter body ih =>
      exact mem_freeNames_function.mpr ((mem_handedNames_function.mp h).imp_left ih)
  | apply callee argument ihc iha =>
      exact mem_freeNames_apply.mpr ((mem_handedNames_apply.mp h).imp (fun h => ihc h.2) iha)
  | binary op left right ihl ihr =>
      exact mem_freeNames_binary.mpr ((mem_handedNames_binary.mp h).imp ihl ihr)
  | negation operand ih => exact mem_freeNames_negation.mpr (ih (mem_handedNames_negation.mp h))
  | ifElse conditions branches ihc ihb =>
      rcases mem_handedNames_ifElse.mp h with ⟨node, hmem, hx⟩ | ⟨node, hmem, hx⟩
      · exact mem_freeNames_ifElse.mpr (.inl ⟨node, hmem, ihc node hmem hx⟩)
      · exact mem_freeNames_ifElse.mpr (.inr ⟨node, hmem, ihb node hmem hx⟩)
  | _ => simp at h

theorem mem_handedNames_of_substitute {named : String → Prop} {scope : Scope}
    (hscope : ∀ name value, scope.value? name = some value → ∀ y ∈ value.handedNames, named y)
    (hx : x ∈ (node.substitute scope).handedNames) :
    named x ∨ (x ∈ node.handedNames ∧ scope.value? x = none) := by
  induction node generalizing scope with
  | var name =>
      rw [substitute_var] at hx
      cases hvalue : scope.value? name with
      | none =>
          rw [hvalue] at hx
          rw [mem_handedNames_var.mp hx]
          exact .inr ⟨mem_handedNames_var.mpr rfl, hvalue⟩
      | some value =>
          rw [hvalue] at hx
          exact .inl (hscope name value hvalue x hx)
  | function parameter body ih =>
      obtain ⟨hx, hne⟩ := mem_handedNames_function.mp hx
      have hbody := ih (fun name value hvalue =>
        hscope name value (Scope.value?_of_bindUnresolved hvalue)) hx
      refine hbody.imp_right ?_
      rintro ⟨hx, hnone⟩
      rw [Scope.value?_bindUnresolved, if_neg hne] at hnone
      exact ⟨mem_handedNames_function.mpr ⟨hx, hne⟩, hnone⟩
  | apply callee argument ihc iha =>
      rcases mem_handedNames_apply.mp hx with ⟨hvar, hx⟩ | hx
      · cases hcallee : callee.isVariable with
        | false =>
            exact (ihc hscope hx).imp_right
              (And.imp_left fun hx => mem_handedNames_apply.mpr (.inl ⟨hcallee, hx⟩))
        | true =>
            -- A name that is called counts only if it has a value, which is then put in.
            obtain ⟨name, rfl⟩ := exists_eq_var hcallee
            rw [substitute_var] at hvar hx
            cases hvalue : scope.value? name with
            | none =>
                rw [hvalue] at hvar
                cases hvar
            | some value =>
                rw [hvalue] at hx
                exact .inl (hscope name value hvalue x hx)
      · exact (iha hscope hx).imp_right
          (And.imp_left fun hx => mem_handedNames_apply.mpr (.inr hx))
  | binary op left right ihl ihr =>
      rcases mem_handedNames_binary.mp hx with hx | hx
      · exact (ihl hscope hx).imp_right
          (And.imp_left fun hx => mem_handedNames_binary.mpr (.inl hx))
      · exact (ihr hscope hx).imp_right
          (And.imp_left fun hx => mem_handedNames_binary.mpr (.inr hx))
  | negation operand ih =>
      exact (ih hscope (mem_handedNames_negation.mp hx)).imp_right
        (And.imp_left mem_handedNames_negation.mpr)
  | ifElse conditions branches ihc ihb =>
      rw [substitute_ifElse, mem_handedNames_ifElse] at hx
      simp only [List.mem_map] at hx
      rcases hx with ⟨_, ⟨node, hmem, rfl⟩, hx⟩ | ⟨_, ⟨node, hmem, rfl⟩, hx⟩
      · exact (ihc node hmem hscope hx).imp_right
          (And.imp_left fun hx => mem_handedNames_ifElse.mpr (.inl ⟨node, hmem, hx⟩))
      · exact (ihb node hmem hscope hx).imp_right
          (And.imp_left fun hx => mem_handedNames_ifElse.mpr (.inr ⟨node, hmem, hx⟩))
  | _ => cases hx

theorem mem_innerNames_function {parameter : String} {body : Node} :
    x ∈ (function parameter body).innerNames ↔ x ∈ body.keptNames ∧ x ≠ parameter := by
  simp [innerNames]

theorem mem_keptNames_of_mem_innerNames (h : x ∈ node.innerNames) : x ∈ node.keptNames := by
  cases node with
  | function parameter body =>
      obtain ⟨hx, hne⟩ := mem_innerNames_function.mp h
      exact mem_freeNames_function.mpr ⟨mem_freeNames_of_mem_keptNames hx, hne⟩
  | _ => exact h

end Membership

end Node

end Viewlet
