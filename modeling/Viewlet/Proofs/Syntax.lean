import Viewlet.Node

namespace Viewlet

@[induction_eliminator]
theorem Node.induction {motive : Node → Prop}
    (integer : ∀ value, motive (.integer value))
    (float : ∀ value, motive (.float value))
    (boolean : ∀ value, motive (.boolean value))
    (noValue : motive .noValue)
    (binary : ∀ op left right, motive left → motive right → motive (.binary op left right))
    (negation : ∀ operand, motive operand → motive (.negation operand))
    (ifElse : ∀ conditions branches, (∀ condition ∈ conditions, motive condition) →
      (∀ branch ∈ branches, motive branch) → motive (.ifElse conditions branches))
    (var : ∀ name, motive (.var name))
    (function : ∀ parameter body, motive body → motive (.function parameter body))
    (apply : ∀ callee argument, motive callee → motive argument →
      motive (.apply callee argument))
    (declaration : ∀ name body, motive body → motive (.declaration name body))
    (typeName : ∀ name, motive (.typeName name))
    (typeDefinition : ∀ name parameters constructors,
      motive (.typeDefinition name parameters constructors))
    (construction : ∀ constructor arguments, (∀ argument ∈ arguments, motive argument) →
      motive (.construction constructor arguments)) :
    ∀ node, motive node :=
  @Node.rec motive (fun _ => True) (fun nodes => ∀ node ∈ nodes, motive node) (fun _ => True)
    integer float boolean noValue binary negation ifElse var function apply declaration typeName
    (fun name parameters constructors _ => typeDefinition name parameters constructors)
    construction (fun _ _ _ => trivial) (fun node hmem => absurd hmem List.not_mem_nil)
    (fun head tail hhead htail node hmem => by
      rcases List.mem_cons.mp hmem with rfl | hmem
      · exact hhead
      · exact htail node hmem)
    trivial (fun _ _ _ _ => trivial)

namespace Node

mutual

/-- Whether the node has neither floating point literals nor type definitions in it, so that no
other node is the same. -/
def isExact : Node → Bool
  | .float _ | .typeDefinition .. => false
  | .binary _ left right => left.isExact && right.isExact
  | .negation operand => operand.isExact
  | .ifElse conditions branches => allExact conditions && allExact branches
  | .function _ body => body.isExact
  | .apply callee argument => callee.isExact && argument.isExact
  | .declaration _ body => body.isExact
  | .construction _ arguments => allExact arguments
  | _ => true

/-- Whether nodes have neither floating point literals nor type definitions in them. -/
def allExact : List Node → Bool
  | [] => true
  | node :: nodes => node.isExact && allExact nodes

end

theorem eq_of_sameAll {nodes nodes' : List Node}
    (heq : ∀ node ∈ nodes, ∀ {node'}, node.isExact = true → node.same node' = true → node = node')
    (hexact : allExact nodes = true) (h : sameAll nodes nodes' = true) : nodes = nodes' := by
  induction nodes generalizing nodes' with
  | nil =>
      cases nodes' with
      | nil => rfl
      | cons => cases h
  | cons node nodes ih =>
      cases nodes' with
      | nil => cases h
      | cons node' nodes' =>
          obtain ⟨hexact, hexacts⟩ := Bool.and_eq_true_iff.mp hexact
          obtain ⟨h, hs⟩ := Bool.and_eq_true_iff.mp h
          rw [heq node List.mem_cons_self hexact h,
            ih (fun node hmem => heq node (List.mem_cons_of_mem _ hmem)) hexacts hs]

theorem eq_of_same {node node' : Node} (hexact : node.isExact = true)
    (h : node.same node' = true) : node = node' := by
  induction node generalizing node' with
  | integer | boolean | noValue | var | typeName => cases node' <;> simp_all [same]
  | float | typeDefinition => cases hexact
  | binary op left right ihl ihr =>
      cases node' with
      | binary op' left' right' =>
          obtain ⟨hexact, hexact'⟩ := Bool.and_eq_true_iff.mp hexact
          obtain ⟨hop, hr⟩ := Bool.and_eq_true_iff.mp h
          obtain ⟨hop, hl⟩ := Bool.and_eq_true_iff.mp hop
          rw [eq_of_beq hop, ihl hexact hl, ihr hexact' hr]
      | _ => cases h
  | negation operand ih =>
      cases node' with
      | negation operand' => rw [ih hexact h]
      | _ => cases h
  | ifElse conditions branches ihc ihb =>
      cases node' with
      | ifElse conditions' branches' =>
          obtain ⟨hexact, hexact'⟩ := Bool.and_eq_true_iff.mp hexact
          obtain ⟨hc, hb⟩ := Bool.and_eq_true_iff.mp h
          rw [eq_of_sameAll ihc hexact hc, eq_of_sameAll ihb hexact' hb]
      | _ => cases h
  | function parameter body ih =>
      cases node' with
      | function parameter' body' =>
          obtain ⟨hparameter, hbody⟩ := Bool.and_eq_true_iff.mp h
          rw [eq_of_beq hparameter, ih hexact hbody]
      | _ => cases h
  | apply callee argument ihc iha =>
      cases node' with
      | apply callee' argument' =>
          obtain ⟨hexact, hexact'⟩ := Bool.and_eq_true_iff.mp hexact
          obtain ⟨hc, ha⟩ := Bool.and_eq_true_iff.mp h
          rw [ihc hexact hc, iha hexact' ha]
      | _ => cases h
  | declaration name body ih =>
      cases node' with
      | declaration name' body' =>
          obtain ⟨hname, hbody⟩ := Bool.and_eq_true_iff.mp h
          rw [eq_of_beq hname, ih hexact hbody]
      | _ => cases h
  | construction constructor arguments ih =>
      cases node' with
      | construction constructor' arguments' =>
          obtain ⟨hconstructor, ha⟩ := Bool.and_eq_true_iff.mp h
          rw [eq_of_beq hconstructor, eq_of_sameAll ih hexact ha]
      | _ => cases h

end Node

end Viewlet
