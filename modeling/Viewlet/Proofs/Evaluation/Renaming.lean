import Viewlet.Proofs.Evaluation.HandedNames
import Viewlet.Proofs.Evaluation.Regularity
import Viewlet.Proofs.Association

/-!
Renaming. A map of names is applied to all variables and parameters of a node. It need not be
injective: what counts is that below a parameter no other free name gets the name of the
parameter. Substitution commutes with such a map, and so does evaluation, if the map leaves
alone all names by which functions refer to declarations.
-/

namespace Viewlet

namespace Node

mutual

/-- Renames the variables and the parameters of a node. -/
def rename (ρ : String → String) : Node → Node
  | .var name => .var (ρ name)
  | .function parameter body => .function (ρ parameter) (rename ρ body)
  | .apply callee argument => .apply (rename ρ callee) (rename ρ argument)
  | .binary op left right => .binary op (rename ρ left) (rename ρ right)
  | .negation operand => .negation (rename ρ operand)
  | .ifElse conditions branches => .ifElse (renameAll ρ conditions) (renameAll ρ branches)
  | .declaration name body => .declaration name (rename ρ body)
  | .construction constructor arguments => .construction constructor (renameAll ρ arguments)
  | node => node

/-- Renames the variables and the parameters of nodes. -/
def renameAll (ρ : String → String) : List Node → List Node
  | [] => []
  | node :: nodes => rename ρ node :: renameAll ρ nodes

end

mutual

/-- The names of the variables, parameters and declarations in a node. -/
def names : Node → List String
  | .var name => [name]
  | .function parameter body => parameter :: names body
  | .apply callee argument => names callee ++ names argument
  | .binary _ left right => names left ++ names right
  | .negation operand => names operand
  | .ifElse conditions branches => namesAll conditions ++ namesAll branches
  | .declaration name body => name :: names body
  | .construction _ arguments => namesAll arguments
  | _ => []

/-- The names of the variables, parameters and declarations in nodes. -/
def namesAll : List Node → List String
  | [] => []
  | node :: nodes => names node ++ namesAll nodes

end

attribute [local simp] rename renameAll names namesAll

variable {ρ : String → String} {node : Node} {nodes : List Node}

theorem renameAll_eq_map : renameAll ρ nodes = nodes.map (rename ρ) := by
  induction nodes with
  | nil => rfl
  | cons node nodes ih => rw [renameAll, ih, List.map_cons]

theorem rename_ifElse (conditions branches : List Node) :
    (ifElse conditions branches).rename ρ =
      .ifElse (conditions.map (rename ρ)) (branches.map (rename ρ)) := by
  rw [rename, renameAll_eq_map, renameAll_eq_map]

theorem mem_namesAll {x : String} : x ∈ namesAll nodes ↔ ∃ node ∈ nodes, x ∈ node.names := by
  induction nodes with
  | nil => simp
  | cons node nodes ih => simp [ih]

theorem mem_names_of_mem_freeNames {x : String} (hx : x ∈ node.freeNames []) : x ∈ node.names := by
  induction node with
  | var name => exact List.mem_singleton.mpr (mem_freeNames_var.mp hx)
  | function parameter body ih =>
      exact List.mem_cons_of_mem _ (ih (mem_freeNames_function.mp hx).1)
  | apply callee argument ihc iha =>
      exact List.mem_append.mpr ((mem_freeNames_apply.mp hx).imp ihc iha)
  | binary op left right ihl ihr =>
      exact List.mem_append.mpr ((mem_freeNames_binary.mp hx).imp ihl ihr)
  | negation operand ih => exact ih (mem_freeNames_negation.mp hx)
  | ifElse conditions branches ihc ihb =>
      rw [names, List.mem_append, mem_namesAll, mem_namesAll]
      rcases mem_freeNames_ifElse.mp hx with ⟨node, hmem, hx⟩ | ⟨node, hmem, hx⟩
      · exact .inl ⟨node, hmem, ihc node hmem hx⟩
      · exact .inr ⟨node, hmem, ihb node hmem hx⟩
  | _ => cases hx

theorem rename_eq_self (h : ∀ x ∈ node.names, ρ x = x) : node.rename ρ = node := by
  have hall : ∀ {nodes : List Node}, (∀ x ∈ namesAll nodes, ρ x = x) →
      (∀ node ∈ nodes, (∀ x ∈ node.names, ρ x = x) → node.rename ρ = node) →
      renameAll ρ nodes = nodes := by
    intro nodes hnodes ih
    rw [renameAll_eq_map]
    exact (List.map_congr_left fun node hmem => ih node hmem fun x hx =>
      hnodes x (mem_namesAll.mpr ⟨node, hmem, hx⟩)).trans (List.map_id nodes)
  induction node with
  | var name => rw [rename, h name List.mem_cons_self]
  | function parameter body ih =>
      obtain ⟨hparameter, hbody⟩ := List.forall_mem_cons.mp h
      rw [rename, hparameter, ih hbody]
  | apply callee argument ihc iha =>
      obtain ⟨hc, ha⟩ := List.forall_mem_append.mp h
      rw [rename, ihc hc, iha ha]
  | binary op left right ihl ihr =>
      obtain ⟨hl, hr⟩ := List.forall_mem_append.mp h
      rw [rename, ihl hl, ihr hr]
  | negation operand ih => rw [rename, ih h]
  | ifElse conditions branches ihc ihb =>
      obtain ⟨hc, hb⟩ := List.forall_mem_append.mp h
      rw [rename, hall hc ihc, hall hb ihb]
  | declaration name body ih => rw [rename, ih (List.forall_mem_cons.mp h).2]
  | construction constructor arguments ih => rw [rename, hall h ih]
  | _ => rfl

/-- An expression in which no parameter gets the name of another name that is free below it. -/
inductive Respects (ρ : String → String) : Node → Prop where
  | inert {node : Node} : node.isInert = true → Respects ρ node
  | var (name) : Respects ρ (.var name)
  | negation {operand} : Respects ρ operand → Respects ρ (.negation operand)
  | binary {op left right} : Respects ρ left → Respects ρ right →
      Respects ρ (.binary op left right)
  | function {parameter body} : Respects ρ body →
      (∀ x ∈ body.freeNames [], ρ x = ρ parameter → x = parameter) →
      Respects ρ (.function parameter body)
  | apply {callee argument} : Respects ρ callee → Respects ρ argument →
      Respects ρ (.apply callee argument)
  | ifElse {conditions branches} : branches.length = conditions.length + 1 →
      (∀ condition ∈ conditions, Respects ρ condition) →
      (∀ branch ∈ branches, Respects ρ branch) → Respects ρ (.ifElse conditions branches)

theorem Respects.isExpression (h : node.Respects ρ) : node.IsExpression := by
  induction h with
  | inert hinert => exact .inert hinert
  | var name => exact .var name
  | negation _ ih => exact .negation ih
  | binary _ _ ihl ihr => exact .binary ihl ihr
  | function _ _ ih => exact .function trivial ih
  | apply _ _ ihc iha => exact .apply ihc iha
  | ifElse hlength _ _ ihc ihb => exact .ifElse hlength ihc ihb

theorem respects_id {admits : String → Prop} (h : node.Formed admits) : node.Respects id := by
  induction h with
  | inert hinert => exact .inert hinert
  | var name => exact .var name
  | negation _ ih => exact .negation ih
  | binary _ _ ihl ihr => exact .binary ihl ihr
  | function _ _ ih => exact .function ih fun _ _ heq => heq
  | apply _ _ ihc iha => exact .apply ihc iha
  | ifElse hlength _ _ ihc ihb => exact .ifElse hlength ihc ihb

theorem isInert_rename (h : node.isInert = true) : (node.rename ρ).isInert = true := by
  cases node with
  | integer | float | boolean | noValue | typeName | typeDefinition | construction => rfl
  | _ => cases h

theorem mem_freeNames_rename (h : node.Respects ρ) {y : String} :
    y ∈ (node.rename ρ).freeNames [] ↔ ∃ x ∈ node.freeNames [], ρ x = y := by
  induction h with
  | inert hinert =>
      rw [freeNames_of_isInert hinert, freeNames_of_isInert (isInert_rename hinert)]
      simp
  | var name =>
      rw [rename, mem_freeNames_var]
      constructor
      · rintro rfl
        exact ⟨name, mem_freeNames_var.mpr rfl, rfl⟩
      · rintro ⟨x, hx, rfl⟩
        rw [mem_freeNames_var.mp hx]
  | negation _ ih => simpa only [rename, mem_freeNames_negation] using ih
  | binary _ _ ihl ihr =>
      simp only [rename, mem_freeNames_binary, ihl, ihr, or_and_right, exists_or]
  | @function parameter body _ hapart ih =>
      simp only [rename, mem_freeNames_function, ih]
      constructor
      · rintro ⟨⟨x, hx, rfl⟩, hne⟩
        exact ⟨x, ⟨hx, fun heq => hne (congrArg ρ heq)⟩, rfl⟩
      · rintro ⟨x, ⟨hx, hne⟩, rfl⟩
        exact ⟨⟨x, hx, rfl⟩, fun heq => hne (hapart x hx heq)⟩
  | apply _ _ ihc iha =>
      simp only [rename, mem_freeNames_apply, ihc, iha, or_and_right, exists_or]
  | ifElse _ _ _ ihc ihb =>
      simp only [rename_ifElse, mem_freeNames_ifElse, List.mem_map]
      constructor
      · rintro (⟨_, ⟨node, hmem, rfl⟩, hy⟩ | ⟨_, ⟨node, hmem, rfl⟩, hy⟩)
        · obtain ⟨x, hx, rfl⟩ := (ihc node hmem).mp hy
          exact ⟨x, .inl ⟨node, hmem, hx⟩, rfl⟩
        · obtain ⟨x, hx, rfl⟩ := (ihb node hmem).mp hy
          exact ⟨x, .inr ⟨node, hmem, hx⟩, rfl⟩
      · rintro ⟨x, ⟨node, hmem, hx⟩ | ⟨node, hmem, hx⟩, rfl⟩
        · exact .inl ⟨_, ⟨node, hmem, rfl⟩, (ihc node hmem).mpr ⟨x, hx, rfl⟩⟩
        · exact .inr ⟨_, ⟨node, hmem, rfl⟩, (ihb node hmem).mpr ⟨x, hx, rfl⟩⟩

theorem mem_keptNames_rename (h : node.Respects ρ) {y : String} :
    y ∈ (node.rename ρ).keptNames ↔ ∃ x ∈ node.keptNames, ρ x = y := by
  induction h with
  | @inert node hinert => cases node <;> simp_all [isInert, keptNames, gather]
  | var name => simp [keptNames, gather]
  | negation _ ih => exact ih
  | binary _ _ ihl ihr =>
      refine List.mem_append.trans ((or_congr ihl ihr).trans ?_)
      simp only [← exists_or, ← or_and_right, ← List.mem_append]
      rfl
  | function hbody hapart => exact mem_freeNames_rename (.function hbody hapart)
  | apply _ _ ihc iha =>
      refine List.mem_append.trans ((or_congr ihc iha).trans ?_)
      simp only [← exists_or, ← or_and_right, ← List.mem_append]
      rfl
  | ifElse _ _ _ ihc ihb =>
      simp only [rename_ifElse, mem_keptNames_ifElse, List.mem_map]
      constructor
      · rintro (⟨_, ⟨node, hmem, rfl⟩, hy⟩ | ⟨_, ⟨node, hmem, rfl⟩, hy⟩)
        · obtain ⟨x, hx, rfl⟩ := (ihc node hmem).mp hy
          exact ⟨x, .inl ⟨node, hmem, hx⟩, rfl⟩
        · obtain ⟨x, hx, rfl⟩ := (ihb node hmem).mp hy
          exact ⟨x, .inr ⟨node, hmem, hx⟩, rfl⟩
      · rintro ⟨x, ⟨node, hmem, hx⟩ | ⟨node, hmem, hx⟩, rfl⟩
        · exact .inl ⟨_, ⟨node, hmem, rfl⟩, (ihc node hmem).mpr ⟨x, hx, rfl⟩⟩
        · exact .inr ⟨_, ⟨node, hmem, rfl⟩, (ihb node hmem).mpr ⟨x, hx, rfl⟩⟩

theorem isVariable_rename (node : Node) : (node.rename ρ).isVariable = node.isVariable := by
  cases node <;> rfl

theorem mem_handedNames_rename (h : node.Respects ρ) {y : String} :
    y ∈ (node.rename ρ).handedNames ↔ ∃ x ∈ node.handedNames, ρ x = y := by
  induction h with
  | inert hinert =>
      rw [handedNames_of_isInert hinert, handedNames_of_isInert (isInert_rename hinert)]
      simp
  | var name =>
      rw [rename, mem_handedNames_var]
      constructor
      · rintro rfl
        exact ⟨name, mem_handedNames_var.mpr rfl, rfl⟩
      · rintro ⟨x, hx, rfl⟩
        rw [mem_handedNames_var.mp hx]
  | negation _ ih => simpa only [rename, mem_handedNames_negation] using ih
  | binary _ _ ihl ihr =>
      simp only [rename, mem_handedNames_binary, ihl, ihr, or_and_right, exists_or]
  | @function parameter body _ hapart ih =>
      simp only [rename, mem_handedNames_function, ih]
      constructor
      · rintro ⟨⟨x, hx, rfl⟩, hne⟩
        exact ⟨x, ⟨hx, fun heq => hne (congrArg ρ heq)⟩, rfl⟩
      · rintro ⟨x, ⟨hx, hne⟩, rfl⟩
        exact ⟨⟨x, hx, rfl⟩,
          fun heq => hne (hapart x (mem_freeNames_of_mem_handedNames hx) heq)⟩
  | apply _ _ ihc iha =>
      simp only [rename, mem_handedNames_apply, isVariable_rename, ihc, iha, or_and_right,
        exists_or, and_assoc, exists_and_left]
  | ifElse _ _ _ ihc ihb =>
      simp only [rename_ifElse, mem_handedNames_ifElse, List.mem_map]
      constructor
      · rintro (⟨_, ⟨node, hmem, rfl⟩, hy⟩ | ⟨_, ⟨node, hmem, rfl⟩, hy⟩)
        · obtain ⟨x, hx, rfl⟩ := (ihc node hmem).mp hy
          exact ⟨x, .inl ⟨node, hmem, hx⟩, rfl⟩
        · obtain ⟨x, hx, rfl⟩ := (ihb node hmem).mp hy
          exact ⟨x, .inr ⟨node, hmem, hx⟩, rfl⟩
      · rintro ⟨x, ⟨node, hmem, hx⟩ | ⟨node, hmem, hx⟩, rfl⟩
        · exact .inl ⟨_, ⟨node, hmem, rfl⟩, (ihc node hmem).mpr ⟨x, hx, rfl⟩⟩
        · exact .inr ⟨_, ⟨node, hmem, rfl⟩, (ihb node hmem).mpr ⟨x, hx, rfl⟩⟩

theorem mem_innerNames_rename (h : node.Respects ρ) {y : String} :
    y ∈ (node.rename ρ).innerNames ↔ ∃ x ∈ node.innerNames, ρ x = y := by
  cases h with
  | @function parameter body hbody hapart =>
      simp only [rename, mem_innerNames_function, mem_keptNames_rename hbody]
      constructor
      · rintro ⟨⟨x, hx, rfl⟩, hne⟩
        exact ⟨x, ⟨hx, fun heq => hne (congrArg ρ heq)⟩, rfl⟩
      · rintro ⟨x, ⟨hx, hne⟩, rfl⟩
        exact ⟨⟨x, hx, rfl⟩, fun heq => hne (hapart x (mem_freeNames_of_mem_keptNames hx) heq)⟩
  | @inert node hinert => cases node <;> simp_all [isInert, innerNames, keptNames, gather]
  | var name => exact mem_keptNames_rename (.var name)
  | negation h => exact mem_keptNames_rename (.negation h)
  | binary hl hr => exact mem_keptNames_rename (.binary hl hr)
  | apply hc ha => exact mem_keptNames_rename (.apply hc ha)
  | ifElse hlength hc hb => exact mem_keptNames_rename (.ifElse hlength hc hb)

end Node

section Scopes

variable {ρ : String → String} {scope : Scope} {node : Node} {name x : String}

/-- Renames what is bound in a scope, and the nodes it is bound to. -/
def Scope.rename (ρ : String → String) (scope : Scope) : Scope :=
  scope.map fun entry => (ρ entry.1, entry.2.rename ρ)

/-- The names that are free in a node are bound alike before and after renaming. -/
def Scope.Tracks (ρ : String → String) (scope : Scope) (node : Node) : Prop :=
  ∀ x ∈ node.freeNames [], (scope.rename ρ).get? (ρ x) = (scope.get? x).map (Node.rename ρ)

theorem Scope.Tracks.of_part {part : Node} (h : scope.Tracks ρ node)
    (hpart : ∀ x ∈ part.freeNames [], x ∈ node.freeNames []) : scope.Tracks ρ part :=
  fun x hx => h x (hpart x hx)

theorem Scope.rename_bind (value : Node) :
    (scope.bind name value).rename ρ = (scope.rename ρ).bind (ρ name) (value.rename ρ) :=
  rfl

theorem Scope.rename_bindUnresolved :
    (scope.bindUnresolved name).rename ρ = (scope.rename ρ).bindUnresolved (ρ name) :=
  rfl

theorem Scope.Tracks.bindUnresolved {parameter : String} {body : Node}
    (h : scope.Tracks ρ (.function parameter body))
    (hapart : ∀ x ∈ body.freeNames [], ρ x = ρ parameter → x = parameter) :
    (scope.bindUnresolved parameter).Tracks ρ body := by
  intro x hx
  rw [Scope.rename_bindUnresolved, Scope.bindUnresolved, Scope.bindUnresolved, Scope.get?_bind,
    Scope.get?_bind]
  by_cases hne : x = parameter
  · rw [if_pos hne, if_pos (congrArg ρ hne)]
    rfl
  · rw [if_neg hne, if_neg fun heq => hne (hapart x hx heq)]
    exact h x (Node.mem_freeNames_function.mpr ⟨hx, hne⟩)

theorem Scope.Tracks.value? (h : scope.Tracks ρ node) (hx : x ∈ node.freeNames []) :
    (scope.rename ρ).value? (ρ x) = (scope.value? x).map (Node.rename ρ) := by
  rw [Scope.value?, Scope.value?, h x hx]
  cases scope.get? x with
  | none => rfl
  | some value => cases value <;> rfl

theorem Scope.Tracks.isUnresolved (h : scope.Tracks ρ node) (hx : x ∈ node.freeNames []) :
    (scope.rename ρ).isUnresolved (ρ x) = scope.isUnresolved x := by
  rw [Scope.isUnresolved, Scope.isUnresolved, h x hx]
  cases scope.get? x with
  | none => rfl
  | some value => cases value <;> rfl

theorem Scope.Tracks.mentionsUnresolved (h : scope.Tracks ρ node) (hnode : node.Respects ρ) :
    (node.rename ρ).mentionsUnresolved (scope.rename ρ) = node.mentionsUnresolved scope := by
  rw [Bool.eq_iff_iff, Node.mentionsUnresolved, Node.mentionsUnresolved, List.any_eq_true,
    List.any_eq_true]
  constructor
  · rintro ⟨y, hy, hunresolved⟩
    obtain ⟨x, hx, rfl⟩ := (Node.mem_freeNames_rename hnode).mp hy
    exact ⟨x, hx, by rwa [h.isUnresolved hx] at hunresolved⟩
  · rintro ⟨x, hx, hunresolved⟩
    exact ⟨ρ x, (Node.mem_freeNames_rename hnode).mpr ⟨x, hx, rfl⟩, by rwa [h.isUnresolved hx]⟩

theorem Node.rename_substitute (hnode : node.Respects ρ) (h : scope.Tracks ρ node) :
    (node.rename ρ).substitute (scope.rename ρ) = (node.substitute scope).rename ρ := by
  induction hnode generalizing scope with
  | inert hinert =>
      rw [substitute_of_isInert hinert, substitute_of_isInert (isInert_rename hinert)]
  | var name =>
      rw [rename, substitute_var, substitute_var, h.value? (mem_freeNames_var.mpr rfl)]
      cases scope.value? name <;> rfl
  | negation _ ih =>
      rw [rename, substitute, substitute, rename,
        ih (h.of_part fun x hx => mem_freeNames_negation.mpr hx)]
  | binary _ _ ihl ihr =>
      rw [rename, substitute, substitute, rename,
        ihl (h.of_part fun x hx => mem_freeNames_binary.mpr (.inl hx)),
        ihr (h.of_part fun x hx => mem_freeNames_binary.mpr (.inr hx))]
  | function _ hapart ih =>
      rw [rename, substitute, substitute, rename, ← Scope.rename_bindUnresolved,
        ih (h.bindUnresolved hapart)]
  | apply _ _ ihc iha =>
      rw [rename, substitute, substitute, rename,
        ihc (h.of_part fun x hx => mem_freeNames_apply.mpr (.inl hx)),
        iha (h.of_part fun x hx => mem_freeNames_apply.mpr (.inr hx))]
  | ifElse _ _ _ ihc ihb =>
      simp only [rename_ifElse, substitute_ifElse, List.map_map]
      congr 1
      · exact List.map_congr_left fun node hmem => ihc node hmem
          (h.of_part fun x hx => mem_freeNames_ifElse.mpr (.inl ⟨node, hmem, hx⟩))
      · exact List.map_congr_left fun node hmem => ihb node hmem
          (h.of_part fun x hx => mem_freeNames_ifElse.mpr (.inr ⟨node, hmem, hx⟩))

end Scopes

end Viewlet
