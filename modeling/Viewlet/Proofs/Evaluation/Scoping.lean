import Viewlet.Evaluation.Scope
import Viewlet.Proofs.Syntax

namespace Viewlet

namespace Scope

/-- The value of a name that is bound and resolved. -/
def value? (scope : Scope) (name : String) : Option Node :=
  match scope.get? name with
  | some .noValue => none
  | found => found

variable {scope : Scope} {name other : String} {value : Node}

@[simp] theorem get?_nil (name : String) : get? [] name = none := rfl

theorem get?_bind : (scope.bind name value).get? other =
    if other = name then some value else scope.get? other := by
  by_cases h : other = name
  · simp [get?, bind, h]
  · have hbeq : (other == name) = false := by simpa using h
    simp [get?, bind, List.lookup_cons, hbeq, h]

theorem get?_of_value? (h : scope.value? name = some value) : scope.get? name = some value := by
  rw [value?] at h
  split at h
  · cases h
  · exact h

theorem value?_of_get? (h : scope.get? name = some value) (hvalue : value ≠ .noValue) :
    scope.value? name = some value := by
  rw [value?, h]
  split
  · next heq => exact absurd (Option.some.inj heq) hvalue
  · rfl

theorem value?_eq_none : scope.value? name = none ↔
    scope.get? name = none ∨ scope.isUnresolved name = true := by
  rw [value?, isUnresolved]
  cases scope.get? name with
  | none => simp
  | some value => cases value <;> simp

theorem value?_bind (hvalue : value ≠ .noValue) : (scope.bind name value).value? other =
    if other = name then some value else scope.value? other := by
  by_cases h : other = name
  · rw [if_pos h]
    exact value?_of_get? (by rw [get?_bind, if_pos h]) hvalue
  · rw [if_neg h, value?, get?_bind, if_neg h]
    rfl

@[simp] theorem value?_bindUnresolved : (scope.bindUnresolved name).value? other =
    if other = name then none else scope.value? other := by
  rw [bindUnresolved, value?, get?_bind]
  by_cases h : other = name
  · simp [h]
  · rw [if_neg h, if_neg h]
    rfl

theorem value?_single (hvalue : value ≠ .noValue) : (bind [] name value).value? other =
    if other = name then some value else none :=
  value?_bind hvalue

theorem eq_of_value?_single {found : Node} (h : (bind [] name value).value? other = some found) :
    other = name ∧ found = value := by
  have hget := get?_of_value? h
  rw [get?_bind] at hget
  split at hget
  · next heq => exact ⟨heq, (Option.some.inj hget).symm⟩
  · cases hget

theorem value?_of_bindUnresolved (h : (scope.bindUnresolved name).value? other = some value) :
    scope.value? other = some value := by
  rw [value?_bindUnresolved] at h
  split at h
  · cases h
  · exact h

end Scope

namespace Node

/-- Whether the node contains no names and is no function, so that nothing is replaced
in it. -/
def isInert : Node → Bool
  | .integer _ | .float _ | .boolean _ | .noValue | .typeName _ | .typeDefinition ..
  | .construction .. => true
  | _ => false

/-- Whether the node is a literal or a function. -/
def isValue : Node → Bool
  | .integer _ | .float _ | .boolean _ | .function .. => true
  | _ => false

theorem ne_noValue_of_isValue {node : Node} (h : node.isValue = true) : node ≠ .noValue := by
  rintro rfl
  cases h

/-- An expression without declarations, whose chains of conditions have one branch more than
conditions and whose parameters are admitted. It may contain nodes that have no value. -/
inductive Formed (admits : String → Prop) : Node → Prop where
  | inert {node} : node.isInert = true → Formed admits node
  | var (name) : Formed admits (.var name)
  | negation {operand} : Formed admits operand → Formed admits (.negation operand)
  | binary {op left right} : Formed admits left → Formed admits right →
      Formed admits (.binary op left right)
  | function {parameter body} : admits parameter → Formed admits body →
      Formed admits (.function parameter body)
  | apply {callee argument} : Formed admits callee → Formed admits argument →
      Formed admits (.apply callee argument)
  | ifElse {conditions branches} : branches.length = conditions.length + 1 →
      (∀ condition ∈ conditions, Formed admits condition) →
      (∀ branch ∈ branches, Formed admits branch) →
      Formed admits (.ifElse conditions branches)

/-- An expression without declarations, whose chains of conditions have one branch more than
conditions. -/
abbrev IsExpression (node : Node) : Prop :=
  node.Formed fun _ => True

section FreeNames

attribute [local simp] freeNames freeNamesAll

variable {bound : List String} {node : Node} {nodes : List Node} {x : String}

theorem freeNames_of_isInert (h : node.isInert = true) : node.freeNames bound = [] := by
  cases node <;> simp_all [isInert]

theorem mem_freeNamesAll :
    x ∈ freeNamesAll bound nodes ↔ ∃ node ∈ nodes, x ∈ node.freeNames bound := by
  induction nodes with
  | nil => simp
  | cons node nodes ih => simp [ih]

theorem mem_freeNames (bound : List String) :
    x ∈ node.freeNames bound ↔ x ∈ node.freeNames [] ∧ x ∉ bound := by
  induction node generalizing bound with
  | var name =>
      by_cases h : name ∈ bound
      · simp only [freeNames, List.contains_iff_mem.mpr h, if_true, List.not_mem_nil, false_iff,
          not_and, Decidable.not_not]
        intro hx
        have hx : x = name := by simpa using hx
        exact hx ▸ h
      · have hcontains : bound.contains name = false := by simpa using h
        simp only [freeNames, hcontains]
        constructor
        · intro hx
          have hx : x = name := by simpa using hx
          exact ⟨by simpa using hx, hx ▸ h⟩
        · exact And.left
  | function parameter body ih =>
      rw [freeNames, freeNames, ih, ih [parameter]]
      simp only [List.mem_cons, List.not_mem_nil, or_false, not_or, and_assoc]
  | apply callee argument ihc iha =>
      simp only [freeNames, List.mem_append, ihc bound, iha bound, or_and_right]
  | binary op left right ihl ihr =>
      simp only [freeNames, List.mem_append, ihl bound, ihr bound, or_and_right]
  | negation operand ih =>
      rw [freeNames, freeNames, ih]
  | ifElse conditions branches ihc ihb =>
      simp only [freeNames, List.mem_append, mem_freeNamesAll]
      constructor
      · rintro (⟨node, hmem, hx⟩ | ⟨node, hmem, hx⟩)
        · obtain ⟨hx, hbound⟩ := (ihc node hmem bound).mp hx
          exact ⟨.inl ⟨node, hmem, hx⟩, hbound⟩
        · obtain ⟨hx, hbound⟩ := (ihb node hmem bound).mp hx
          exact ⟨.inr ⟨node, hmem, hx⟩, hbound⟩
      · rintro ⟨⟨node, hmem, hx⟩ | ⟨node, hmem, hx⟩, hbound⟩
        · exact .inl ⟨node, hmem, (ihc node hmem bound).mpr ⟨hx, hbound⟩⟩
        · exact .inr ⟨node, hmem, (ihb node hmem bound).mpr ⟨hx, hbound⟩⟩
  | _ => simp

theorem mem_freeNames_var {name : String} : x ∈ freeNames [] (.var name) ↔ x = name := by
  simp

theorem mem_freeNames_function {parameter : String} {body : Node} :
    x ∈ freeNames [] (.function parameter body) ↔ x ∈ freeNames [] body ∧ x ≠ parameter := by
  rw [freeNames, mem_freeNames]
  simp

theorem mem_freeNames_apply {callee argument : Node} :
    x ∈ freeNames [] (.apply callee argument) ↔
      x ∈ freeNames [] callee ∨ x ∈ freeNames [] argument := by
  simp

theorem mem_freeNames_binary {op : BinOp} {left right : Node} :
    x ∈ freeNames [] (.binary op left right) ↔
      x ∈ freeNames [] left ∨ x ∈ freeNames [] right := by
  simp

theorem mem_freeNames_negation {operand : Node} :
    x ∈ freeNames [] (.negation operand) ↔ x ∈ freeNames [] operand := by
  simp

theorem mem_freeNames_ifElse {conditions branches : List Node} :
    x ∈ freeNames [] (.ifElse conditions branches) ↔
      (∃ condition ∈ conditions, x ∈ freeNames [] condition) ∨
        ∃ branch ∈ branches, x ∈ freeNames [] branch := by
  simp [mem_freeNamesAll]

theorem mem_freeNames_ifElse_cons {condition branch : Node} {conditions branches : List Node}
    (hx : x ∈ freeNames [] (.ifElse conditions branches)) :
    x ∈ freeNames [] (.ifElse (condition :: conditions) (branch :: branches)) := by
  rcases mem_freeNames_ifElse.mp hx with ⟨node, hmem, hx⟩ | ⟨node, hmem, hx⟩
  · exact mem_freeNames_ifElse.mpr (.inl ⟨node, List.mem_cons_of_mem _ hmem, hx⟩)
  · exact mem_freeNames_ifElse.mpr (.inr ⟨node, List.mem_cons_of_mem _ hmem, hx⟩)

/-- No name is free. -/
abbrev IsClosed (node : Node) : Prop :=
  node.freeNames [] = []

theorem IsClosed.of_subset {whole : Node} (h : whole.IsClosed)
    (hsubset : ∀ x ∈ node.freeNames [], x ∈ whole.freeNames []) : node.IsClosed :=
  List.eq_nil_iff_forall_not_mem.mpr fun x hx => List.not_mem_nil (h ▸ hsubset x hx)

end FreeNames

section Substitute

attribute [local simp] freeNames substitute substituteAll

variable {scope σ τ : Scope} {node : Node} {nodes : List Node} {x : String}

theorem substitute_of_isInert (h : node.isInert = true) : node.substitute scope = node := by
  cases node <;> simp_all [isInert]

theorem substitute_var (name : String) :
    (var name).substitute scope = (scope.value? name).getD (.var name) := by
  rw [substitute, Scope.value?]
  cases scope.get? name with
  | none => rfl
  | some value => cases value <;> rfl

theorem substituteAll_eq_map : substituteAll scope nodes = nodes.map (substitute scope) := by
  induction nodes with
  | nil => rfl
  | cons node nodes ih => rw [substituteAll, ih, List.map_cons]

theorem substitute_ifElse (conditions branches : List Node) :
    (ifElse conditions branches).substitute scope =
      .ifElse (conditions.map (substitute scope)) (branches.map (substitute scope)) := by
  rw [substitute, substituteAll_eq_map, substituteAll_eq_map]

theorem substitute_eq_self (h : ∀ x ∈ node.freeNames [], scope.value? x = none) :
    node.substitute scope = node := by
  induction node generalizing scope with
  | var name => rw [substitute_var, h name (mem_freeNames_var.mpr rfl), Option.getD_none]
  | function parameter body ih =>
      rw [substitute, ih fun x hx => ?_]
      rw [Scope.value?_bindUnresolved]
      split
      · rfl
      · next hne => exact h x (mem_freeNames_function.mpr ⟨hx, hne⟩)
  | apply callee argument ihc iha =>
      rw [substitute, ihc fun x hx => h x (mem_freeNames_apply.mpr (.inl hx)),
        iha fun x hx => h x (mem_freeNames_apply.mpr (.inr hx))]
  | binary op left right ihl ihr =>
      rw [substitute, ihl fun x hx => h x (mem_freeNames_binary.mpr (.inl hx)),
        ihr fun x hx => h x (mem_freeNames_binary.mpr (.inr hx))]
  | negation operand ih =>
      rw [substitute, ih fun x hx => h x (mem_freeNames_negation.mpr hx)]
  | ifElse conditions branches ihc ihb =>
      rw [substitute_ifElse, List.map_congr_left (g := id) fun node hmem => ?_, List.map_id,
        List.map_congr_left (g := id) fun node hmem => ?_, List.map_id]
      · exact ihb node hmem fun x hx => h x (mem_freeNames_ifElse.mpr (.inr ⟨node, hmem, hx⟩))
      · exact ihc node hmem fun x hx => h x (mem_freeNames_ifElse.mpr (.inl ⟨node, hmem, hx⟩))
  | _ => rfl

theorem substitute_of_closed (h : node.IsClosed) : node.substitute scope = node :=
  substitute_eq_self fun x hx => absurd hx (by simp [h])

theorem mem_freeNames_of_substitute {named : String → Prop}
    (hscope : ∀ name value, scope.value? name = some value → ∀ y ∈ value.freeNames [], named y)
    (hx : x ∈ (node.substitute scope).freeNames []) :
    named x ∨ (x ∈ node.freeNames [] ∧ scope.value? x = none) := by
  induction node generalizing scope with
  | var name =>
      rw [substitute_var] at hx
      cases hvalue : scope.value? name with
      | none =>
          rw [hvalue] at hx
          rw [mem_freeNames_var.mp hx]
          exact .inr ⟨mem_freeNames_var.mpr rfl, hvalue⟩
      | some value =>
          rw [hvalue] at hx
          exact .inl (hscope name value hvalue x hx)
  | function parameter body ih =>
      obtain ⟨hx, hne⟩ := mem_freeNames_function.mp hx
      have hbody := ih (fun name value hvalue =>
        hscope name value (Scope.value?_of_bindUnresolved hvalue)) hx
      refine hbody.imp_right ?_
      rintro ⟨hx, hnone⟩
      rw [Scope.value?_bindUnresolved, if_neg hne] at hnone
      exact ⟨mem_freeNames_function.mpr ⟨hx, hne⟩, hnone⟩
  | apply callee argument ihc iha =>
      rcases mem_freeNames_apply.mp hx with hx | hx
      · exact (ihc hscope hx).imp_right (And.imp_left fun hx => mem_freeNames_apply.mpr (.inl hx))
      · exact (iha hscope hx).imp_right (And.imp_left fun hx => mem_freeNames_apply.mpr (.inr hx))
  | binary op left right ihl ihr =>
      rcases mem_freeNames_binary.mp hx with hx | hx
      · exact (ihl hscope hx).imp_right (And.imp_left fun hx => mem_freeNames_binary.mpr (.inl hx))
      · exact (ihr hscope hx).imp_right (And.imp_left fun hx => mem_freeNames_binary.mpr (.inr hx))
  | negation operand ih =>
      exact (ih hscope (mem_freeNames_negation.mp hx)).imp_right
        (And.imp_left mem_freeNames_negation.mpr)
  | ifElse conditions branches ihc ihb =>
      rw [substitute_ifElse, mem_freeNames_ifElse] at hx
      simp only [List.mem_map] at hx
      rcases hx with ⟨_, ⟨node, hmem, rfl⟩, hx⟩ | ⟨_, ⟨node, hmem, rfl⟩, hx⟩
      · exact (ihc node hmem hscope hx).imp_right
          (And.imp_left fun hx => mem_freeNames_ifElse.mpr (.inl ⟨node, hmem, hx⟩))
      · exact (ihb node hmem hscope hx).imp_right
          (And.imp_left fun hx => mem_freeNames_ifElse.mpr (.inr ⟨node, hmem, hx⟩))
  | _ => cases hx

theorem mem_freeNames_substitute
    (hclosed : ∀ name value, scope.value? name = some value → value.IsClosed) :
    x ∈ (node.substitute scope).freeNames [] ↔
      x ∈ node.freeNames [] ∧ scope.value? x = none := by
  induction node generalizing scope with
  | var name =>
      rw [substitute_var, mem_freeNames_var]
      cases hvalue : scope.value? name with
      | none =>
          rw [Option.getD_none, mem_freeNames_var]
          constructor
          · rintro rfl
            exact ⟨rfl, hvalue⟩
          · exact And.left
      | some value =>
          rw [Option.getD_some, hclosed name value hvalue]
          constructor
          · intro hx
            cases hx
          · rintro ⟨rfl, hnone⟩
            simp [hvalue] at hnone
  | function parameter body ih =>
      rw [substitute, mem_freeNames_function, mem_freeNames_function,
        ih fun name value hvalue => hclosed name value (Scope.value?_of_bindUnresolved hvalue),
        Scope.value?_bindUnresolved]
      constructor
      · rintro ⟨⟨hx, hvalue⟩, hne⟩
        exact ⟨⟨hx, hne⟩, by simpa [hne] using hvalue⟩
      · rintro ⟨⟨hx, hne⟩, hvalue⟩
        exact ⟨⟨hx, by simpa [hne] using hvalue⟩, hne⟩
  | apply callee argument ihc iha =>
      rw [substitute, mem_freeNames_apply, mem_freeNames_apply, ihc hclosed, iha hclosed,
        or_and_right]
  | binary op left right ihl ihr =>
      rw [substitute, mem_freeNames_binary, mem_freeNames_binary, ihl hclosed, ihr hclosed,
        or_and_right]
  | negation operand ih =>
      rw [substitute, mem_freeNames_negation, mem_freeNames_negation, ih hclosed]
  | ifElse conditions branches ihc ihb =>
      simp only [substitute_ifElse, mem_freeNames_ifElse, List.mem_map]
      constructor
      · rintro (⟨_, ⟨node, hmem, rfl⟩, hx⟩ | ⟨_, ⟨node, hmem, rfl⟩, hx⟩)
        · obtain ⟨hx, hvalue⟩ := (ihc node hmem hclosed).mp hx
          exact ⟨.inl ⟨node, hmem, hx⟩, hvalue⟩
        · obtain ⟨hx, hvalue⟩ := (ihb node hmem hclosed).mp hx
          exact ⟨.inr ⟨node, hmem, hx⟩, hvalue⟩
      · rintro ⟨⟨node, hmem, hx⟩ | ⟨node, hmem, hx⟩, hvalue⟩
        · exact .inl ⟨_, ⟨node, hmem, rfl⟩, (ihc node hmem hclosed).mpr ⟨hx, hvalue⟩⟩
        · exact .inr ⟨_, ⟨node, hmem, rfl⟩, (ihb node hmem hclosed).mpr ⟨hx, hvalue⟩⟩
  | _ => simp

theorem isClosed_substitute_single {parameter : String} {body value : Node}
    (hfunction : (function parameter body).IsClosed) (hvalue : value.IsClosed)
    (hne : value ≠ .noValue) : (body.substitute (Scope.bind [] parameter value)).IsClosed := by
  refine List.eq_nil_iff_forall_not_mem.mpr fun x hx => ?_
  obtain ⟨hx, hnone⟩ := (mem_freeNames_substitute fun name found hfound =>
    (Scope.eq_of_value?_single hfound).2 ▸ hvalue).mp hx
  rw [Scope.value?_single hne] at hnone
  split at hnone
  · cases hnone
  · next hx' =>
      have hfree := mem_freeNames_function.mpr ⟨hx, hx'⟩
      rw [hfunction] at hfree
      cases hfree

/-- Two substitutions one after the other, the first of which puts in closed nodes. -/
theorem substitute_substitute
    (hclosed : ∀ name value, σ.value? name = some value → value.IsClosed)
    (h : ∀ name, scope.value? name = (σ.value? name).or (τ.value? name)) :
    (node.substitute σ).substitute τ = node.substitute scope := by
  induction node generalizing scope σ τ with
  | var name =>
      rw [substitute_var, substitute_var, h name]
      cases hvalue : σ.value? name with
      | none =>
          rw [Option.getD_none, substitute_var]
          rfl
      | some value =>
          rw [Option.getD_some, substitute_of_closed (hclosed name value hvalue)]
          rfl
  | function parameter body ih =>
      rw [substitute, substitute, substitute, ih (fun name value hvalue => ?_) fun name => ?_]
      · exact hclosed name value (Scope.value?_of_bindUnresolved hvalue)
      · simp only [Scope.value?_bindUnresolved, h name]
        split <;> rfl
  | apply callee argument ihc iha =>
      rw [substitute, substitute, substitute, ihc hclosed h, iha hclosed h]
  | binary op left right ihl ihr =>
      rw [substitute, substitute, substitute, ihl hclosed h, ihr hclosed h]
  | negation operand ih => rw [substitute, substitute, substitute, ih hclosed h]
  | ifElse conditions branches ihc ihb =>
      simp only [substitute_ifElse, List.map_map]
      congr 1
      · exact List.map_congr_left fun node hmem => ihc node hmem hclosed h
      · exact List.map_congr_left fun node hmem => ihb node hmem hclosed h
  | _ => simp

theorem Formed.substitute {admits : String → Prop} (h : node.Formed admits)
    (hscope : ∀ name value, scope.value? name = some value → value.Formed admits) :
    (node.substitute scope).Formed admits := by
  induction h generalizing scope with
  | inert h =>
      rw [substitute_of_isInert h]
      exact .inert h
  | var name =>
      rw [substitute_var]
      cases hvalue : scope.value? name with
      | none => exact .var name
      | some value => exact hscope name value hvalue
  | negation _ ih => exact .negation (ih hscope)
  | binary _ _ ihl ihr => exact .binary (ihl hscope) (ihr hscope)
  | function hadmits _ ih =>
      exact .function hadmits
        (ih fun name value hvalue => hscope name value (Scope.value?_of_bindUnresolved hvalue))
  | apply _ _ ihc iha => exact .apply (ihc hscope) (iha hscope)
  | ifElse hlength _ _ ihc ihb =>
      rw [substitute_ifElse]
      refine .ifElse (by simpa using hlength) (fun node hnode => ?_) fun node hnode => ?_
      · obtain ⟨condition, hmem, rfl⟩ := List.mem_map.mp hnode
        exact ihc condition hmem hscope
      · obtain ⟨branch, hmem, rfl⟩ := List.mem_map.mp hnode
        exact ihb branch hmem hscope

end Substitute

section Gather

mutual

/-- Collects names from the functions of an expression, by a rule that is given the parameter,
the body, and the names from the body. -/
def gather (rule : String → Node → List String → List String) : Node → List String
  | .function parameter body => rule parameter body (gather rule body)
  | .apply callee argument => gather rule callee ++ gather rule argument
  | .binary _ left right => gather rule left ++ gather rule right
  | .negation operand => gather rule operand
  | .ifElse conditions branches => gatherAll rule conditions ++ gatherAll rule branches
  | _ => []

/-- Collects names from the functions of expressions. -/
def gatherAll (rule : String → Node → List String → List String) : List Node → List String
  | [] => []
  | node :: nodes => gather rule node ++ gatherAll rule nodes

end

/-- The parameters of the functions in an expression. -/
def boundNames (node : Node) : List String :=
  node.gather fun parameter _ inner => parameter :: inner

/-- The names that the functions in an expression use and that no function binds. -/
def keptNames (node : Node) : List String :=
  node.gather fun parameter body _ => (function parameter body).freeNames []

variable {rule : String → Node → List String → List String} {x : String} {node : Node}
  {nodes : List Node}

theorem mem_gatherAll_iff : x ∈ gatherAll rule nodes ↔ ∃ node ∈ nodes, x ∈ node.gather rule := by
  induction nodes with
  | nil => simp [gatherAll]
  | cons node nodes ih => simp [gatherAll, ih]

theorem mem_gatherAll (hmem : node ∈ nodes) (hx : x ∈ node.gather rule) :
    x ∈ gatherAll rule nodes :=
  mem_gatherAll_iff.mpr ⟨node, hmem, hx⟩

theorem mem_keptNames_ifElse {conditions branches : List Node} :
    x ∈ (ifElse conditions branches).keptNames ↔
      (∃ condition ∈ conditions, x ∈ condition.keptNames) ∨
        ∃ branch ∈ branches, x ∈ branch.keptNames := by
  simp only [keptNames, gather, List.mem_append, mem_gatherAll_iff]

theorem mem_freeNames_of_mem_keptNames (h : x ∈ node.keptNames) : x ∈ node.freeNames [] := by
  induction node with
  | function => exact h
  | apply callee argument ihc iha =>
      exact mem_freeNames_apply.mpr ((List.mem_append.mp h).imp ihc iha)
  | binary op left right ihl ihr =>
      exact mem_freeNames_binary.mpr ((List.mem_append.mp h).imp ihl ihr)
  | negation operand ih => exact mem_freeNames_negation.mpr (ih h)
  | ifElse conditions branches ihc ihb =>
      rcases mem_keptNames_ifElse.mp h with ⟨node, hmem, hx⟩ | ⟨node, hmem, hx⟩
      · exact mem_freeNames_ifElse.mpr (.inl ⟨node, hmem, ihc node hmem hx⟩)
      · exact mem_freeNames_ifElse.mpr (.inr ⟨node, hmem, ihb node hmem hx⟩)
  | _ => cases h

theorem mem_keptNames_of_substitute {named : String → Prop} {scope : Scope}
    (hscope : ∀ name value, scope.value? name = some value → ∀ y ∈ value.freeNames [], named y)
    (hx : x ∈ (node.substitute scope).keptNames) :
    named x ∨ (x ∈ node.keptNames ∧ scope.value? x = none) := by
  induction node with
  | var name =>
      rw [substitute_var] at hx
      cases hvalue : scope.value? name with
      | none =>
          rw [hvalue] at hx
          cases hx
      | some value =>
          rw [hvalue] at hx
          exact .inl (hscope name value hvalue x (mem_freeNames_of_mem_keptNames hx))
  | function parameter body => exact mem_freeNames_of_substitute hscope hx
  | apply callee argument ihc iha =>
      rcases List.mem_append.mp hx with hx | hx
      · exact (ihc hx).imp_right (And.imp_left (List.mem_append_left _))
      · exact (iha hx).imp_right (And.imp_left (List.mem_append_right _))
  | binary op left right ihl ihr =>
      rcases List.mem_append.mp hx with hx | hx
      · exact (ihl hx).imp_right (And.imp_left (List.mem_append_left _))
      · exact (ihr hx).imp_right (And.imp_left (List.mem_append_right _))
  | negation operand ih => exact ih hx
  | ifElse conditions branches ihc ihb =>
      rw [substitute_ifElse, mem_keptNames_ifElse] at hx
      simp only [List.mem_map] at hx
      rcases hx with ⟨_, ⟨node, hmem, rfl⟩, hx⟩ | ⟨_, ⟨node, hmem, rfl⟩, hx⟩
      · exact (ihc node hmem hx).imp_right
          (And.imp_left fun hx => mem_keptNames_ifElse.mpr (.inl ⟨node, hmem, hx⟩))
      · exact (ihb node hmem hx).imp_right
          (And.imp_left fun hx => mem_keptNames_ifElse.mpr (.inr ⟨node, hmem, hx⟩))
  | _ => cases hx

theorem mem_keptNames_of_isValue (h : node.isValue = true) (hx : x ∈ node.freeNames []) :
    x ∈ node.keptNames := by
  cases node with
  | function => exact hx
  | integer | float | boolean => cases hx
  | _ => cases h

end Gather

end Node

end Viewlet
