import Viewlet.Proofs.Evaluation.Transport

/-!
Mentions that evaluation keeps. An application waits as long as its operands mention an unresolved
name. A chain of conditions in an operand can lose such a mention when it is decided, and then the
application is left although nothing is there to wait for. An expression is steady if this cannot
happen: a chain in an operand that mentions a parameter waits for that parameter, or for one that
is bound further inside. What comes of a steady expression is steady.
-/

namespace Viewlet

/-- The names up to the given one. -/
def upTo (names : List String) (name : String) : List String :=
  names.take (names.idxOf name + 1)

theorem upTo_append_of_mem {names names' : List String} {name : String} (h : name ∈ names) :
    upTo (names ++ names') name = upTo names name := by
  rw [upTo, upTo, List.idxOf_append, if_pos h,
    List.take_append_of_le_length (List.idxOf_lt_length_of_mem h)]

theorem mem_of_mem_upTo {names : List String} {name x : String} (h : x ∈ upTo names name) :
    x ∈ names :=
  List.mem_of_mem_take h

namespace Node

mutual

/-- Whether the node stays incomplete as long as the names are unresolved. -/
def awaits (names : List String) : Node → Bool
  | .var name => names.contains name
  | .negation operand => awaits names operand
  | .binary _ left right => awaits names left || awaits names right
  | .apply callee argument => (callee.freeNames [] ++ argument.freeNames []).any names.contains
  | .ifElse conditions branches => firstAwaits names conditions || firstAwaits names branches
  | _ => false

def firstAwaits (names : List String) : List Node → Bool
  | [] => false
  | node :: _ => awaits names node

end

/-- Whether no mention of the outer names can get lost. The inner names are those bound between
these and the node, and both begin with the innermost. -/
def retains (outer : List String) : (inner : List String) → Node → Bool
  | inner, .negation operand => retains outer inner operand
  | inner, .binary _ left right => retains outer inner left && retains outer inner right
  | inner, .function parameter body => retains outer (parameter :: inner) body
  | inner, .apply callee argument => retains outer inner callee && retains outer inner argument
  | inner, .ifElse conditions branches =>
      (freeNames inner (.ifElse conditions branches)).all fun name =>
        !outer.contains name || awaits (inner ++ upTo outer name) (.ifElse conditions branches)
  | _, _ => true

mutual

/-- Whether no operand of an application can lose the mention of a parameter. -/
def steady : (bound : List String) → Node → Bool
  | bound, .negation operand => steady bound operand
  | bound, .binary _ left right => steady bound left && steady bound right
  | bound, .function parameter body => steady (parameter :: bound) body
  | bound, .apply callee argument =>
      (retains bound [] callee && steady bound callee) &&
        (retains bound [] argument && steady bound argument)
  | bound, .ifElse conditions branches => allSteady bound conditions && allSteady bound branches
  | _, _ => true

def allSteady : (bound : List String) → List Node → Bool
  | _, [] => true
  | bound, node :: nodes => steady bound node && allSteady bound nodes

end

variable {names outer outer' inner bound bound' : List String} {scope : Scope} {node : Node}
  {nodes conditions branches : List Node} {op : BinOp}

section Parts

variable {left right callee argument : Node}

attribute [local simp] awaits firstAwaits retains steady allSteady

theorem awaits_var {name : String} : (var name).awaits names = true ↔ name ∈ names := by
  simp

theorem awaits_binary : (binary op left right).awaits names = true ↔
    left.awaits names = true ∨ right.awaits names = true := by
  simp

theorem awaits_apply : (apply callee argument).awaits names = true ↔
    ∃ x ∈ (apply callee argument).freeNames [], x ∈ names := by
  simp only [awaits, freeNames, List.any_eq_true, List.contains_iff_mem]

theorem awaits_ifElse : (ifElse conditions branches).awaits names = true ↔
    firstAwaits names conditions = true ∨ firstAwaits names branches = true := by
  simp

theorem retains_binary : (binary op left right).retains outer inner = true ↔
    left.retains outer inner = true ∧ right.retains outer inner = true := by
  simp

theorem retains_apply : (apply callee argument).retains outer inner = true ↔
    callee.retains outer inner = true ∧ argument.retains outer inner = true := by
  simp

theorem retains_ifElse : (ifElse conditions branches).retains outer inner = true ↔
    ∀ x ∈ (ifElse conditions branches).freeNames inner, x ∈ outer →
      (ifElse conditions branches).awaits (inner ++ upTo outer x) = true := by
  simp only [retains, List.all_eq_true, Bool.or_eq_true, Bool.not_eq_true', ← Bool.not_eq_true,
    List.contains_iff_mem, imp_iff_not_or]

theorem allSteady_iff :
    allSteady bound nodes = true ↔ ∀ node ∈ nodes, node.steady bound = true := by
  induction nodes with
  | nil => simp
  | cons node nodes ih => simp [ih]

theorem steady_binary : (binary op left right).steady bound = true ↔
    left.steady bound = true ∧ right.steady bound = true := by
  simp

theorem steady_apply : (apply callee argument).steady bound = true ↔
    (callee.retains bound [] = true ∧ callee.steady bound = true) ∧
      argument.retains bound [] = true ∧ argument.steady bound = true := by
  simp

theorem steady_ifElse : (ifElse conditions branches).steady bound = true ↔
    (∀ condition ∈ conditions, condition.steady bound = true) ∧
      ∀ branch ∈ branches, branch.steady bound = true := by
  simp [allSteady_iff]

end Parts

section Bound

theorem retains_of_append (h : node.retains (outer ++ outer') inner = true) :
    node.retains outer inner = true := by
  induction node generalizing inner with
  | negation operand ih => exact ih h
  | binary op left right ihl ihr =>
      exact retains_binary.mpr ((retains_binary.mp h).imp ihl ihr)
  | function parameter body ih => exact ih h
  | apply callee argument ihc iha => exact retains_apply.mpr ((retains_apply.mp h).imp ihc iha)
  | ifElse conditions branches =>
      refine retains_ifElse.mpr fun x hx hmem => ?_
      rw [← upTo_append_of_mem hmem]
      exact retains_ifElse.mp h x hx (List.mem_append_left _ hmem)
  | _ => rfl

theorem retains_append (h : node.retains outer inner = true)
    (hmentions : ∀ x ∈ node.freeNames inner, x ∈ outer' → x ∈ outer) :
    node.retains (outer ++ outer') inner = true := by
  induction node generalizing inner with
  | negation operand ih => exact ih h hmentions
  | binary op left right ihl ihr =>
      obtain ⟨hleft, hright⟩ := retains_binary.mp h
      exact retains_binary.mpr ⟨ihl hleft fun x hx => hmentions x (List.mem_append_left _ hx),
        ihr hright fun x hx => hmentions x (List.mem_append_right _ hx)⟩
  | function parameter body ih => exact ih h hmentions
  | apply callee argument ihc iha =>
      obtain ⟨hcallee, hargument⟩ := retains_apply.mp h
      exact retains_apply.mpr ⟨ihc hcallee fun x hx => hmentions x (List.mem_append_left _ hx),
        iha hargument fun x hx => hmentions x (List.mem_append_right _ hx)⟩
  | ifElse conditions branches =>
      refine retains_ifElse.mpr fun x hx hmem => ?_
      have hmem := (List.mem_append.mp hmem).elim id (hmentions x hx)
      rw [upTo_append_of_mem hmem]
      exact retains_ifElse.mp h x hx hmem
  | _ => rfl

theorem retains_nil : node.retains [] inner = true := by
  induction node generalizing inner with
  | negation operand ih => exact ih
  | binary op left right ihl ihr => exact retains_binary.mpr ⟨ihl, ihr⟩
  | function parameter body ih => exact ih
  | apply callee argument ihc iha => exact retains_apply.mpr ⟨ihc, iha⟩
  | ifElse conditions branches =>
      refine retains_ifElse.mpr fun x hx hmem => ?_
      cases hmem
  | _ => rfl

theorem retains_of_notMem (h : ∀ x ∈ node.freeNames inner, x ∉ outer) :
    node.retains outer inner = true :=
  retains_append retains_nil fun x hx hmem => absurd hmem (h x hx)

theorem steady_of_append (h : node.steady (bound ++ bound') = true) :
    node.steady bound = true := by
  induction node generalizing bound with
  | negation operand ih => exact ih h
  | binary op left right ihl ihr => exact steady_binary.mpr ((steady_binary.mp h).imp ihl ihr)
  | function parameter body ih => exact ih h
  | apply callee argument ihc iha =>
      exact steady_apply.mpr ((steady_apply.mp h).imp (And.imp retains_of_append ihc)
        (And.imp retains_of_append iha))
  | ifElse conditions branches ihc ihb =>
      obtain ⟨hconditions, hbranches⟩ := steady_ifElse.mp h
      exact steady_ifElse.mpr ⟨fun node hmem => ihc node hmem (hconditions node hmem),
        fun node hmem => ihb node hmem (hbranches node hmem)⟩
  | _ => rfl

theorem steady_append (h : node.steady bound = true)
    (hmentions : ∀ x ∈ node.freeNames [], x ∈ bound' → x ∈ bound) :
    node.steady (bound ++ bound') = true := by
  induction node generalizing bound with
  | negation operand ih => exact ih h hmentions
  | binary op left right ihl ihr =>
      obtain ⟨hleft, hright⟩ := steady_binary.mp h
      exact steady_binary.mpr
        ⟨ihl hleft fun x hx => hmentions x (mem_freeNames_binary.mpr (.inl hx)),
          ihr hright fun x hx => hmentions x (mem_freeNames_binary.mpr (.inr hx))⟩
  | function parameter body ih =>
      refine ih h fun x hx hmem => ?_
      by_cases hne : x = parameter
      · exact List.mem_cons.mpr (.inl hne)
      · exact List.mem_cons_of_mem _ (hmentions x (mem_freeNames_function.mpr ⟨hx, hne⟩) hmem)
  | apply callee argument ihc iha =>
      obtain ⟨⟨hretains, hsteady⟩, hretains', hsteady'⟩ := steady_apply.mp h
      have hcallee := fun x hx => hmentions x (mem_freeNames_apply.mpr (.inl hx))
      have hargument := fun x hx => hmentions x (mem_freeNames_apply.mpr (.inr hx))
      exact steady_apply.mpr ⟨⟨retains_append hretains hcallee, ihc hsteady hcallee⟩,
        retains_append hretains' hargument, iha hsteady' hargument⟩
  | ifElse conditions branches ihc ihb =>
      obtain ⟨hconditions, hbranches⟩ := steady_ifElse.mp h
      exact steady_ifElse.mpr ⟨fun node hmem => ihc node hmem (hconditions node hmem) fun x hx =>
          hmentions x (mem_freeNames_ifElse.mpr (.inl ⟨node, hmem, hx⟩)),
        fun node hmem => ihb node hmem (hbranches node hmem) fun x hx =>
          hmentions x (mem_freeNames_ifElse.mpr (.inr ⟨node, hmem, hx⟩))⟩
  | _ => rfl

theorem steady_of_notMem (h : node.steady [] = true) (hbound : ∀ x ∈ node.freeNames [], x ∉ bound) :
    node.steady bound = true :=
  steady_append h fun x hx hmem => absurd hmem (hbound x hx)

end Bound

section Substitute

theorem awaits_substitute (hnames : ∀ x ∈ names, scope.value? x = none)
    (h : node.awaits names = true) : (node.substitute scope).awaits names = true := by
  induction node with
  | var name => rwa [substitute_var, hnames name (awaits_var.mp h)]
  | negation operand ih => exact ih h
  | binary op left right ihl ihr => exact awaits_binary.mpr ((awaits_binary.mp h).imp ihl ihr)
  | apply callee argument =>
      obtain ⟨x, hx, hmem⟩ := awaits_apply.mp h
      exact awaits_apply.mpr ⟨x, mem_freeNames_substitute_of_mem hx (hnames x hmem), hmem⟩
  | ifElse conditions branches ihc ihb =>
      have hfirst : ∀ {nodes : List Node}, (∀ node ∈ nodes, node.awaits names = true →
          (node.substitute scope).awaits names = true) → firstAwaits names nodes = true →
          firstAwaits names (nodes.map (substitute scope)) = true := by
        intro nodes ih h
        cases nodes with
        | nil => cases h
        | cons node nodes => exact ih node List.mem_cons_self h
      rw [substitute_ifElse]
      exact awaits_ifElse.mpr ((awaits_ifElse.mp h).imp (hfirst ihc) (hfirst ihb))
  | _ => cases h

variable (hvalues : ∀ name value, scope.value? name = some value →
  ∀ x ∈ value.freeNames [], x ∈ names)
include hvalues

theorem retains_substitute (houter : ∀ x ∈ outer, x ∉ names ∧ scope.value? x = none)
    (hinner : ∀ x ∈ inner, scope.value? x = none) (h : node.retains outer inner = true) :
    (node.substitute scope).retains outer inner = true := by
  induction node generalizing scope inner with
  | var name =>
      rw [substitute_var]
      cases hvalue : scope.value? name with
      | none => rfl
      | some value =>
          refine retains_of_notMem fun x hx hmem => (houter x hmem).1 ?_
          exact hvalues name value hvalue x ((mem_freeNames inner).mp hx).1
  | negation operand ih => exact ih hvalues houter hinner h
  | binary op left right ihl ihr =>
      exact retains_binary.mpr ((retains_binary.mp h).imp (ihl hvalues houter hinner)
        (ihr hvalues houter hinner))
  | function parameter body ih =>
      have hnone : ∀ {x}, scope.value? x = none →
          (scope.bindUnresolved parameter).value? x = none := by
        intro x hx
        rw [Scope.value?_bindUnresolved, hx, ite_self]
      refine ih (fun name value hvalue =>
        hvalues name value (Scope.value?_of_bindUnresolved hvalue))
        (fun x hx => (houter x hx).imp_right hnone) (List.forall_mem_cons.mpr ⟨?_, ?_⟩) h
      · rw [Scope.value?_bindUnresolved, if_pos rfl]
      · exact fun x hx => hnone (hinner x hx)
  | apply callee argument ihc iha =>
      exact retains_apply.mpr ((retains_apply.mp h).imp (ihc hvalues houter hinner)
        (iha hvalues houter hinner))
  | ifElse conditions branches =>
      rw [substitute_ifElse, retains_ifElse, ← substitute_ifElse]
      intro x hx hmem
      obtain ⟨hx, hbound⟩ := (mem_freeNames inner).mp hx
      rcases mem_freeNames_of_substitute hvalues hx with hnamed | ⟨hx, -⟩
      · exact absurd hnamed (houter x hmem).1
      · refine awaits_substitute (fun y hy => ?_)
          (retains_ifElse.mp h x ((mem_freeNames inner).mpr ⟨hx, hbound⟩) hmem)
        rcases List.mem_append.mp hy with hy | hy
        · exact hinner y hy
        · exact (houter y (mem_of_mem_upTo hy)).2
  | _ => rfl

theorem steady_substitute (hformed : node.Formed (· ∉ names))
    (hsteady : ∀ name value, scope.value? name = some value → value.steady [] = true)
    (hbound : ∀ x ∈ bound, x ∉ names ∧ scope.value? x = none) (h : node.steady bound = true) :
    (node.substitute scope).steady bound = true := by
  induction hformed generalizing scope bound with
  | inert hinert => rwa [substitute_of_isInert hinert]
  | var name =>
      rw [substitute_var]
      cases hvalue : scope.value? name with
      | none => rfl
      | some value =>
          exact steady_of_notMem (hsteady name value hvalue) fun x hx hmem =>
            (hbound x hmem).1 (hvalues name value hvalue x hx)
  | negation _ ih => exact ih hvalues hsteady hbound h
  | binary _ _ ihl ihr =>
      exact steady_binary.mpr ((steady_binary.mp h).imp (ihl hvalues hsteady hbound)
        (ihr hvalues hsteady hbound))
  | @function parameter _ hparameter _ ih =>
      refine ih (fun name value hvalue =>
        hvalues name value (Scope.value?_of_bindUnresolved hvalue)) (fun name value hvalue =>
        hsteady name value (Scope.value?_of_bindUnresolved hvalue))
        (List.forall_mem_cons.mpr ⟨⟨hparameter, ?_⟩, fun x hx => (hbound x hx).imp_right ?_⟩) h
      · rw [Scope.value?_bindUnresolved, if_pos rfl]
      · intro hnone
        rw [Scope.value?_bindUnresolved, hnone, ite_self]
  | apply _ _ ihc iha =>
      have hretains : ∀ {node : Node}, node.retains bound [] = true →
          (node.substitute scope).retains bound [] = true :=
        retains_substitute hvalues hbound (List.forall_mem_nil _)
      exact steady_apply.mpr ((steady_apply.mp h).imp
        (And.imp hretains (ihc hvalues hsteady hbound))
        (And.imp hretains (iha hvalues hsteady hbound)))
  | ifElse _ _ _ ihc ihb =>
      obtain ⟨hconditions, hbranches⟩ := steady_ifElse.mp h
      rw [substitute_ifElse, steady_ifElse, List.forall_mem_map, List.forall_mem_map]
      exact ⟨fun node hmem => ihc node hmem hvalues hsteady hbound (hconditions node hmem),
        fun node hmem => ihb node hmem hvalues hsteady hbound (hbranches node hmem)⟩

end Substitute

end Node

end Viewlet
