import Viewlet.Proofs.Evaluation.Renaming

namespace Viewlet

/-- Renaming leaves the name alone, and gives it to no other name. -/
def Anchored (ρ : String → String) (x : String) : Prop :=
  ∀ y, ρ y = x ↔ y = x

theorem Anchored.eq {ρ : String → String} {x : String} (h : Anchored ρ x) : ρ x = x :=
  (h x).mpr rfl

theorem Anchored.eq_of_eq {ρ : String → String} {x y : String} (h : Anchored ρ x)
    (heq : ρ x = ρ y) : x = y :=
  ((h y).mp (heq.symm.trans h.eq)).symm

/-- A node that can be put in below any parameter. It hands on no name that is only called. -/
structure Node.Portable (ρ : String → String) (called : List String) (node : Node) : Prop where
  respects : node.Respects ρ
  anchored : ∀ x ∈ node.freeNames [], Anchored ρ x
  handed : ∀ x ∈ node.handedNames, x ∉ called

/-- A node that is not put in below a parameter. Only the functions inside of it can be. -/
structure Node.Callable (ρ : String → String) (called : List String) (node : Node) : Prop where
  respects : node.Respects ρ
  global : ∀ x ∈ node.freeNames [], ρ x = x
  inner : ∀ x ∈ node.innerNames, Anchored ρ x
  handed : ∀ x ∈ node.handedNames, x ∉ called

section Portable

variable {ρ : String → String} {called : List String} {node : Node}

theorem Node.Portable.of_isLiteral (h : node.isLiteral = true) : node.Portable ρ called where
  respects := .inert (Node.isInert_of_isLiteral h)
  anchored x hx := by
    rw [Node.freeNames_of_isInert (Node.isInert_of_isLiteral h)] at hx
    cases hx
  handed x hx := by
    rw [Node.handedNames_of_isInert (Node.isInert_of_isLiteral h)] at hx
    cases hx

theorem Node.Portable.callable (h : node.Portable ρ called) : node.Callable ρ called where
  respects := h.respects
  global x hx := (h.anchored x hx).eq
  inner x hx := h.anchored x
    (Node.mem_freeNames_of_mem_keptNames (Node.mem_keptNames_of_mem_innerNames hx))
  handed := h.handed

theorem Node.Callable.portable (h : node.Callable ρ called) (hvalue : node.isValue = true)
    (hkept : ∀ x ∈ node.keptNames, Anchored ρ x) : node.Portable ρ called :=
  ⟨h.respects, fun x hx => hkept x (Node.mem_keptNames_of_isValue hvalue hx), h.handed⟩

theorem Node.Callable.of_rename (h : node.Respects ρ) (hglobal : ∀ x ∈ node.freeNames [], ρ x = x)
    (hinner : ∀ x ∈ (node.rename ρ).innerNames, Anchored ρ x)
    (hhanded : ∀ x ∈ (node.rename ρ).handedNames, x ∉ called) : node.Callable ρ called where
  respects := h
  global := hglobal
  inner x hx := hinner x ((Node.mem_innerNames_rename h).mpr ⟨x, hx, hglobal x
    (Node.mem_freeNames_of_mem_keptNames (Node.mem_keptNames_of_mem_innerNames hx))⟩)
  handed x hx := hhanded x ((Node.mem_handedNames_rename h).mpr ⟨x, hx, hglobal x
    (Node.mem_freeNames_of_mem_handedNames hx)⟩)

end Portable

/-- Everything declared can be called, and can be put in below any parameter unless it is only
called. -/
def Table.Portable (ρ : String → String) (called : List String) (table : Table) : Prop :=
  ∀ name value, table.lookup name = some value → value.isValue = true ∧
    value.Callable ρ called ∧ (name ∉ called → value.Portable ρ called)

theorem Table.Portable.isExpression {ρ : String → String} {called : List String} {table : Table}
    (h : table.Portable ρ called) : ValuesHave Node.IsExpression fun name => table.lookup name :=
  fun name value hvalue => (h name value hvalue).imp_right fun h => h.1.respects.isExpression

/-- A node can be renamed together with a scope: names that are not bound in the scope stay. -/
structure Scope.Renames (ρ : String → String) (scope : Scope) (node : Node) : Prop where
  respects : node.Respects ρ
  tracks : scope.Tracks ρ node
  global : ∀ x ∈ node.freeNames [], scope.get? x = none → ρ x = x

/-- A node that can be renamed together with a scope, and then put in below any parameter. Of the
names that are not bound in the scope, those that functions use are anchored, and those that are
handed on are not only called. -/
structure Scope.Fits (ρ : String → String) (called : List String) (scope : Scope) (node : Node) :
    Prop extends Scope.Renames ρ scope node where
  kept : ∀ x ∈ node.keptNames, scope.get? x = none → Anchored ρ x
  handed : ∀ x ∈ node.handedNames, scope.get? x = none → x ∉ called
  values : ValuesHave (Node.Portable ρ called) scope.value?

/-- A node that can be renamed together with a scope, and is not put in below a parameter. -/
structure Scope.Opens (ρ : String → String) (called : List String) (scope : Scope) (node : Node) :
    Prop extends Scope.Renames ρ scope node where
  inner : ∀ x ∈ node.innerNames, scope.get? x = none → Anchored ρ x
  handed : ∀ x ∈ node.handedNames, scope.get? x = none → x ∉ called
  values : ValuesHave (Node.Portable ρ called) scope.value?

namespace Scope

variable {ρ : String → String} {called : List String} {scope : Scope} {node part : Node}

theorem Renames.of_part (h : scope.Renames ρ node) (hrespects : part.Respects ρ)
    (hfree : ∀ x ∈ part.freeNames [], x ∈ node.freeNames []) : scope.Renames ρ part where
  respects := hrespects
  tracks := h.tracks.of_part hfree
  global x hx := h.global x (hfree x hx)

theorem Renames.callee {callee argument : Node} (h : scope.Renames ρ (.apply callee argument)) :
    scope.Renames ρ callee := by
  cases h.respects with
  | inert hinert => cases hinert
  | apply hcallee => exact h.of_part hcallee fun x hx => Node.mem_freeNames_apply.mpr (.inl hx)

theorem Opens.fits (h : scope.Opens ρ called node)
    (hkept : ∀ x ∈ node.keptNames, scope.get? x = none → Anchored ρ x) :
    scope.Fits ρ called node where
  toRenames := h.toRenames
  kept := hkept
  handed := h.handed
  values := h.values

theorem Opens.body {parameter : String} {body : Node}
    (h : scope.Opens ρ called (.function parameter body)) :
    (scope.bindUnresolved parameter).Fits ρ called body := by
  have hget : ∀ x, (scope.bindUnresolved parameter).get? x = none →
      x ≠ parameter ∧ scope.get? x = none := by
    intro x hx
    rw [Scope.bindUnresolved, Scope.get?_bind] at hx
    split at hx
    · cases hx
    · next hne => exact ⟨hne, hx⟩
  cases h.respects with
  | inert hinert => cases hinert
  | function hbody hapart =>
      exact {
        respects := hbody
        tracks := h.tracks.bindUnresolved hapart
        global := fun x hx hnone => h.global x
          (Node.mem_freeNames_function.mpr ⟨hx, (hget x hnone).1⟩) (hget x hnone).2
        kept := fun x hx hnone => h.inner x
          (Node.mem_innerNames_function.mpr ⟨hx, (hget x hnone).1⟩) (hget x hnone).2
        handed := fun x hx hnone => h.handed x
          (Node.mem_handedNames_function.mpr ⟨hx, (hget x hnone).1⟩) (hget x hnone).2
        values := h.values.bindUnresolved parameter }

end Scope

namespace Scope.Fits

variable {ρ : String → String} {called : List String} {scope : Scope} {node part : Node}

theorem opens (h : scope.Fits ρ called node) : scope.Opens ρ called node where
  toRenames := h.toRenames
  inner x hx := h.kept x (Node.mem_keptNames_of_mem_innerNames hx)
  handed := h.handed
  values := h.values

theorem of_part (h : scope.Fits ρ called node) (hrespects : part.Respects ρ)
    (hfree : ∀ x ∈ part.freeNames [], x ∈ node.freeNames [])
    (hkept : ∀ x ∈ part.keptNames, x ∈ node.keptNames)
    (hhanded : ∀ x ∈ part.handedNames, x ∈ node.handedNames) : scope.Fits ρ called part where
  toRenames := h.toRenames.of_part hrespects hfree
  kept x hx := h.kept x (hkept x hx)
  handed x hx := h.handed x (hhanded x hx)
  values := h.values

theorem operand {operand : Node} (h : scope.Fits ρ called (.negation operand)) :
    scope.Fits ρ called operand := by
  cases h.respects with
  | inert hinert => cases hinert
  | negation hoperand =>
      exact h.of_part hoperand (fun x hx => Node.mem_freeNames_negation.mpr hx) (fun x hx => hx)
        fun x hx => Node.mem_handedNames_negation.mpr hx

theorem operands {op : BinOp} {left right : Node}
    (h : scope.Fits ρ called (.binary op left right)) :
    scope.Fits ρ called left ∧ scope.Fits ρ called right := by
  cases h.respects with
  | inert hinert => cases hinert
  | binary hleft hright =>
      exact ⟨h.of_part hleft (fun x hx => Node.mem_freeNames_binary.mpr (.inl hx))
          (fun x hx => List.mem_append_left _ hx)
          fun x hx => Node.mem_handedNames_binary.mpr (.inl hx),
        h.of_part hright (fun x hx => Node.mem_freeNames_binary.mpr (.inr hx))
          (fun x hx => List.mem_append_right _ hx)
          fun x hx => Node.mem_handedNames_binary.mpr (.inr hx)⟩

theorem callee {callee argument : Node} (h : scope.Fits ρ called (.apply callee argument))
    (hvar : callee.isVariable = false) : scope.Fits ρ called callee := by
  cases h.respects with
  | inert hinert => cases hinert
  | apply hcallee =>
      exact h.of_part hcallee (fun x hx => Node.mem_freeNames_apply.mpr (.inl hx))
        (fun x hx => List.mem_append_left _ hx)
        fun x hx => Node.mem_handedNames_apply.mpr (.inl ⟨hvar, hx⟩)

theorem argument {callee argument : Node} (h : scope.Fits ρ called (.apply callee argument)) :
    scope.Fits ρ called argument := by
  cases h.respects with
  | inert hinert => cases hinert
  | apply _ hargument =>
      exact h.of_part hargument (fun x hx => Node.mem_freeNames_apply.mpr (.inr hx))
        (fun x hx => List.mem_append_right _ hx)
        fun x hx => Node.mem_handedNames_apply.mpr (.inr hx)

theorem arms {conditions branches : List Node}
    (h : scope.Fits ρ called (.ifElse conditions branches)) :
    (∀ condition ∈ conditions, scope.Fits ρ called condition) ∧
      ∀ branch ∈ branches, scope.Fits ρ called branch := by
  cases h.respects with
  | inert hinert => cases hinert
  | ifElse _ hconditions hbranches =>
      constructor
      · intro node hmem
        exact h.of_part (hconditions node hmem)
          (fun x hx => Node.mem_freeNames_ifElse.mpr (.inl ⟨node, hmem, hx⟩))
          (fun x hx => Node.mem_keptNames_ifElse.mpr (.inl ⟨node, hmem, hx⟩))
          fun x hx => Node.mem_handedNames_ifElse.mpr (.inl ⟨node, hmem, hx⟩)
      · intro node hmem
        exact h.of_part (hbranches node hmem)
          (fun x hx => Node.mem_freeNames_ifElse.mpr (.inr ⟨node, hmem, hx⟩))
          (fun x hx => Node.mem_keptNames_ifElse.mpr (.inr ⟨node, hmem, hx⟩))
          fun x hx => Node.mem_handedNames_ifElse.mpr (.inr ⟨node, hmem, hx⟩)

theorem single {parameter : String} {body value : Node}
    (hfunction : (Node.function parameter body).Callable ρ called) (hvalue : value.isValue = true)
    (hportable : value.Portable ρ called) :
    (Scope.bind [] parameter value).Fits ρ called body := by
  have hget : ∀ x, (Scope.bind [] parameter value).get? x = none → x ≠ parameter := by
    rintro x hx rfl
    rw [Scope.get?_bind, if_pos rfl] at hx
    cases hx
  cases hfunction.respects with
  | inert hinert => cases hinert
  | function hbody hapart =>
      refine ⟨⟨hbody, fun x hx => ?_, fun x hx hnone => ?_⟩, fun x hx hnone => ?_,
        fun x hx hnone => ?_, valuesHave_single hvalue hportable⟩
      · rw [Scope.rename_bind, Scope.get?_bind, Scope.get?_bind]
        by_cases hne : x = parameter
        · rw [if_pos hne, if_pos (congrArg ρ hne)]
          rfl
        · rw [if_neg hne, if_neg fun heq => hne (hapart x hx heq)]
          rfl
      · exact hfunction.global x (Node.mem_freeNames_function.mpr ⟨hx, hget x hnone⟩)
      · exact hfunction.inner x (Node.mem_innerNames_function.mpr ⟨hx, hget x hnone⟩)
      · exact hfunction.handed x (Node.mem_handedNames_function.mpr ⟨hx, hget x hnone⟩)

theorem regular {E : Scope → Node → Eval Evaluated} {table table' : Table}
    {result : Except EvalError Evaluated} (hnode : scope.Fits ρ called node)
    (hpart : part.IsExpression) (htable : table.Portable ρ called)
    (hE : Eval.IsRegular Node.IsExpression E) (h : (E scope part).Gives table result table') :
    Evaluated.Regular Node.IsExpression scope part table result table' :=
  hE hpart (fun name value hvalue => (hnode.values name value hvalue).imp_right fun hp =>
    hp.respects.isExpression) htable.isExpression h

end Scope.Fits

theorem Node.mem_freeNames_substitute_portable {ρ : String → String} {called : List String}
    {scope : Scope} {node : Node} (hscope : ValuesHave (Node.Portable ρ called) scope.value?)
    {x : String} (hx : x ∈ (node.substitute scope).freeNames []) :
    Anchored ρ x ∨ (x ∈ node.freeNames [] ∧ scope.value? x = none) :=
  Node.mem_freeNames_of_substitute (fun name value hvalue => (hscope name value hvalue).2.anchored)
    hx

theorem Node.Respects.substitute {ρ : String → String} {called : List String} {scope : Scope}
    {node : Node} (h : node.Respects ρ)
    (hscope : ValuesHave (Node.Portable ρ called) scope.value?) :
    (node.substitute scope).Respects ρ := by
  induction h generalizing scope with
  | inert hinert =>
      rw [substitute_of_isInert hinert]
      exact .inert hinert
  | var name =>
      rw [substitute_var]
      cases hvalue : scope.value? name with
      | none => exact .var name
      | some value => exact (hscope name value hvalue).2.respects
  | negation _ ih => exact .negation (ih hscope)
  | binary _ _ ihl ihr => exact .binary (ihl hscope) (ihr hscope)
  | @function parameter body _ hapart ih =>
      refine .function (ih (hscope.bindUnresolved parameter)) fun x hx heq => ?_
      rcases mem_freeNames_substitute_portable (hscope.bindUnresolved parameter) hx with
        hanchored | ⟨hx, -⟩
      · exact hanchored.eq_of_eq heq
      · exact hapart x hx heq
  | apply _ _ ihc iha => exact .apply (ihc hscope) (iha hscope)
  | ifElse hlength _ _ ihc ihb =>
      rw [substitute_ifElse]
      refine .ifElse (by simpa using hlength) ?_ ?_
      · exact List.forall_mem_map.mpr fun node hmem => ihc node hmem hscope
      · exact List.forall_mem_map.mpr fun node hmem => ihb node hmem hscope

/-- What a node in a scope comes to. Its free names and those that its functions use are anchored,
or they are such names of the node and have no value. The names that it hands on are not only
called, or the node hands them on. -/
structure Node.Scoped (ρ : String → String) (called : List String) (scope : Scope)
    (node found : Node) : Prop where
  respects : found.Respects ρ
  free : ∀ x ∈ found.freeNames [],
    Anchored ρ x ∨ (x ∈ node.freeNames [] ∧ scope.value? x = none)
  kept : ∀ x ∈ found.keptNames, Anchored ρ x ∨ (x ∈ node.keptNames ∧ scope.value? x = none)
  handed : ∀ x ∈ found.handedNames,
    x ∉ called ∨ (x ∈ node.handedNames ∧ scope.value? x = none)

namespace Node.Scoped

variable {ρ : String → String} {called : List String} {scope : Scope} {node part found : Node}

theorem of_portable (h : found.Portable ρ called) : Scoped ρ called scope node found where
  respects := h.respects
  free x hx := .inl (h.anchored x hx)
  kept x hx := .inl (h.anchored x (mem_freeNames_of_mem_keptNames hx))
  handed x hx := .inl (h.handed x hx)

theorem of_part (h : Scoped ρ called scope part found)
    (hfree : ∀ x ∈ part.freeNames [], x ∈ node.freeNames [])
    (hkept : ∀ x ∈ part.keptNames, x ∈ node.keptNames)
    (hhanded : ∀ x ∈ part.handedNames, x ∈ node.handedNames) :
    Scoped ρ called scope node found where
  respects := h.respects
  free x hx := (h.free x hx).imp_right (And.imp_left (hfree x))
  kept x hx := (h.kept x hx).imp_right (And.imp_left (hkept x))
  handed x hx := (h.handed x hx).imp_right (And.imp_left (hhanded x))

theorem var {name : String} (h : scope.value? name = none) :
    Scoped ρ called scope (.var name) (.var name) where
  respects := .var name
  free x hx := by
    obtain rfl := mem_freeNames_var.mp hx
    exact .inr ⟨hx, h⟩
  kept x hx := by cases hx
  handed x hx := by
    obtain rfl := mem_handedNames_var.mp hx
    exact .inr ⟨hx, h⟩

theorem substitute (h : scope.Fits ρ called node) :
    Scoped ρ called scope node (node.substitute scope) where
  respects := h.respects.substitute h.values
  free _ hx := mem_freeNames_substitute_portable h.values hx
  kept _ hx := mem_keptNames_of_substitute
    (fun name value hvalue => (h.values name value hvalue).2.anchored) hx
  handed _ hx := mem_handedNames_of_substitute
    (fun name value hvalue => (h.values name value hvalue).2.handed) hx

theorem negation {operand : Node} (h : Scoped ρ called scope operand found) :
    Scoped ρ called scope (.negation operand) (.negation found) where
  respects := .negation h.respects
  free x hx := (h.free x (mem_freeNames_negation.mp hx)).imp_right
    (And.imp_left mem_freeNames_negation.mpr)
  kept := h.kept
  handed x hx := (h.handed x (mem_handedNames_negation.mp hx)).imp_right
    (And.imp_left mem_handedNames_negation.mpr)

theorem binary {op : BinOp} {left right found' : Node} (h : Scoped ρ called scope left found)
    (h' : Scoped ρ called scope right found') :
    Scoped ρ called scope (.binary op left right) (.binary op found found') where
  respects := .binary h.respects h'.respects
  free x hx := (mem_freeNames_binary.mp hx).elim
    (fun hx => (h.free x hx).imp_right
      (And.imp_left fun hx => mem_freeNames_binary.mpr (.inl hx)))
    fun hx => (h'.free x hx).imp_right (And.imp_left fun hx => mem_freeNames_binary.mpr (.inr hx))
  kept x hx := (List.mem_append.mp hx).elim
    (fun hx => (h.kept x hx).imp_right (And.imp_left (List.mem_append_left _)))
    fun hx => (h'.kept x hx).imp_right (And.imp_left (List.mem_append_right _))
  handed x hx := (mem_handedNames_binary.mp hx).elim
    (fun hx => (h.handed x hx).imp_right
      (And.imp_left fun hx => mem_handedNames_binary.mpr (.inl hx)))
    fun hx => (h'.handed x hx).imp_right
      (And.imp_left fun hx => mem_handedNames_binary.mpr (.inr hx))

theorem apply {callee argument found' : Node} (h : Scoped ρ called scope callee found)
    (hvar : callee.isVariable = true → found.isVariable = true ∨ found.Portable ρ called)
    (h' : Scoped ρ called scope argument found') :
    Scoped ρ called scope (.apply callee argument) (.apply found found') where
  respects := .apply h.respects h'.respects
  free x hx := (mem_freeNames_apply.mp hx).elim
    (fun hx => (h.free x hx).imp_right
      (And.imp_left fun hx => mem_freeNames_apply.mpr (.inl hx)))
    fun hx => (h'.free x hx).imp_right (And.imp_left fun hx => mem_freeNames_apply.mpr (.inr hx))
  kept x hx := (List.mem_append.mp hx).elim
    (fun hx => (h.kept x hx).imp_right (And.imp_left (List.mem_append_left _)))
    fun hx => (h'.kept x hx).imp_right (And.imp_left (List.mem_append_right _))
  handed x hx := by
    rcases mem_handedNames_apply.mp hx with ⟨hfound, hx⟩ | hx
    · cases hcallee : callee.isVariable with
      | false =>
          exact (h.handed x hx).imp_right
            (And.imp_left fun hx => mem_handedNames_apply.mpr (.inl ⟨hcallee, hx⟩))
      | true =>
          rcases hvar hcallee with hfound' | hportable
          · rw [hfound'] at hfound
            cases hfound
          · exact .inl (hportable.handed x hx)
    · exact (h'.handed x hx).imp_right
        (And.imp_left fun hx => mem_handedNames_apply.mpr (.inr hx))

theorem function {parameter : String} {body : Node}
    (hnode : (Node.function parameter body).Respects ρ)
    (h : Scoped ρ called (scope.bindUnresolved parameter) body found) :
    Scoped ρ called scope (.function parameter body) (.function parameter found) := by
  have hnone : ∀ {x}, x ≠ parameter → (scope.bindUnresolved parameter).value? x = none →
      scope.value? x = none := by
    intro x hne hx
    rwa [Scope.value?_bindUnresolved, if_neg hne] at hx
  have hfree : ∀ x ∈ (Node.function parameter found).freeNames [],
      Anchored ρ x ∨ (x ∈ (Node.function parameter body).freeNames [] ∧ scope.value? x = none) := by
    intro x hx
    obtain ⟨hx, hne⟩ := mem_freeNames_function.mp hx
    exact (h.free x hx).imp_right
      (And.imp (fun hx => mem_freeNames_function.mpr ⟨hx, hne⟩) (hnone hne))
  refine ⟨.function h.respects fun x hx heq => ?_, hfree, hfree, fun x hx => ?_⟩
  · rcases h.free x hx with hanchored | ⟨hx, -⟩
    · exact hanchored.eq_of_eq heq
    · cases hnode with
      | inert hinert => cases hinert
      | function _ hapart => exact hapart x hx heq
  · obtain ⟨hx, hne⟩ := mem_handedNames_function.mp hx
    exact (h.handed x hx).imp_right
      (And.imp (fun hx => mem_handedNames_function.mpr ⟨hx, hne⟩) (hnone hne))

/-- A value that comes of a node which mentions no unresolved name can be put in anywhere. -/
theorem portable (h : Scoped ρ called scope node found) (hnode : scope.Fits ρ called node)
    (hvalue : found.isValue = true) (hresolved : node.mentionsUnresolved scope = false) :
    found.Portable ρ called := by
  have hunbound : ∀ x ∈ node.freeNames [], scope.value? x = none → scope.get? x = none := by
    intro x hx hnone
    refine (Scope.value?_eq_none.mp hnone).resolve_right fun hunresolved => ?_
    rw [mentionsUnresolved_eq_false.mp hresolved x hx] at hunresolved
    cases hunresolved
  refine ⟨h.respects, fun x hx => ?_, fun x hx => ?_⟩
  · rcases h.kept x (mem_keptNames_of_isValue hvalue hx) with hanchored | ⟨hkept, hnone⟩
    · exact hanchored
    · exact hnode.kept x hkept (hunbound x (mem_freeNames_of_mem_keptNames hkept) hnone)
  · rcases h.handed x hx with hcalled | ⟨hhanded, hnone⟩
    · exact hcalled
    · exact hnode.handed x hhanded
        (hunbound x (mem_freeNames_of_mem_handedNames hhanded) hnone)

end Node.Scoped

/-- The evaluation of a name looks it up, unless there is no depth left for it. -/
def Eval.LooksUp (E : Scope → Node → Eval Evaluated) : Prop :=
  (∀ scope name, E scope (.var name) = variableValue scope name) ∨
    ∀ scope name, E scope (.var name) = exhausted

theorem looksUp_evaluate (depth : Nat) : Eval.LooksUp (evaluate depth) := by
  cases depth with
  | zero => exact .inr fun _ _ => rfl
  | succ depth => exact .inl fun _ _ => rfl

theorem Eval.LooksUp.variableValue_gives {E : Scope → Node → Eval Evaluated} (hE : LooksUp E)
    {scope : Scope} {name : String} {table table' : Table} {result : Except EvalError Evaluated}
    (h : (E scope (.var name)).Gives table result table') :
    (variableValue scope name).Gives table result table' := by
  rcases hE with hE | hE
  · rwa [hE] at h
  · rw [hE] at h
    cases h

/-- All results of the evaluation can be renamed. -/
def Eval.IsScoped (ρ : String → String) (called : List String)
    (E : Scope → Node → Eval Evaluated) : Prop :=
  ∀ {scope node table outcome table'}, Scope.Fits ρ called scope node →
    Table.Portable ρ called table → (E scope node).Gives table (.ok outcome) table' →
    Node.Scoped ρ called scope node outcome.node

namespace Eval.IsScoped

variable {ρ : String → String} {called : List String} {E : Scope → Node → Eval Evaluated}
  {scope : Scope} {node callee argument : Node} {table table' : Table} {outcome : Evaluated}

theorem portable (hE : IsScoped ρ called E) (hregular : IsRegular Node.IsExpression E)
    (hnode : scope.Fits ρ called node) (htable : table.Portable ρ called)
    (h : (E scope node).Gives table (.ok outcome) table') (hcomplete : outcome.complete = true)
    (hresolved : node.mentionsUnresolved scope = false) :
    outcome.node.isValue = true ∧ outcome.node.Portable ρ called := by
  have hvalue := (hnode.regular hnode.respects.isExpression htable hregular h).isValue rfl hcomplete
  exact ⟨hvalue, (hE hnode htable h).portable hnode hvalue hresolved⟩

/-- What is called can be called: a name that is only called stands for a declaration. -/
theorem callable (hE : IsScoped ρ called E) (hregular : IsRegular Node.IsExpression E)
    (hlooksUp : LooksUp E) (hnode : scope.Fits ρ called (.apply callee argument))
    (htable : table.Portable ρ called) (h : (E scope callee).Gives table (.ok outcome) table')
    (hcomplete : outcome.complete = true) (hresolved : callee.mentionsUnresolved scope = false) :
    outcome.node.Callable ρ called := by
  cases hcallee : callee.isVariable with
  | false =>
      exact (hE.portable hregular (hnode.callee hcallee) htable h hcomplete hresolved).2.callable
  | true =>
      obtain ⟨name, rfl⟩ := Node.exists_eq_var hcallee
      obtain ⟨-, hcases⟩ := variableValue_cases (hlooksUp.variableValue_gives h)
      rcases hcases with ⟨-, heq⟩ | ⟨value, hvalue, heq⟩ |
        ⟨-, ⟨-, heq⟩ | ⟨-, heq⟩ | ⟨value, hvalue, -, heq⟩⟩
      · obtain rfl := Except.ok.inj heq
        cases hcomplete
      · obtain rfl := Except.ok.inj heq
        exact (hnode.values name value hvalue).2.callable
      · cases heq
      · obtain rfl := Except.ok.inj heq
        cases hcomplete
      · obtain rfl := Except.ok.inj heq
        exact (htable name value hvalue).2.1

theorem call (hE : IsScoped ρ called E) (hregular : IsRegular Node.IsExpression E)
    (htable : table.Portable ρ called) {parameter : String} {body value : Node}
    (hfunction : (Node.function parameter body).Callable ρ called) (hvalue : value.isValue = true)
    (hportable : value.Portable ρ called)
    (h : (E (Scope.bind [] parameter value) body).Gives table (.ok outcome) table') :
    outcome.node.Portable ρ called := by
  have hfits := Scope.Fits.single hfunction hvalue hportable
  have hresolved : body.mentionsUnresolved (Scope.bind [] parameter value) = false :=
    Node.mentionsUnresolved_single (Node.ne_noValue_of_isValue hvalue)
  have hcomplete := (hfits.regular hfits.respects.isExpression htable hregular h).complete rfl
    hresolved
  exact (hE.portable hregular hfits htable h hcomplete hresolved).2

theorem operand {source found kept : Node} (h : Node.Scoped ρ called scope source found)
    (hoperand : Operand scope table source found kept) :
    Node.Scoped ρ called scope source kept := by
  rcases hoperand with ⟨rfl, -⟩ | ⟨name, rfl, rfl, hunbound⟩
  · exact h
  · exact .var (Scope.value?_eq_none.mpr (.inl hunbound))

/-- A name that is called in an application which is not carried out stays, unless it has a value
in scope. -/
theorem operand_var (hlooksUp : LooksUp E) {name : String} {found kept : Node} {complete : Bool}
    (hvalues : ValuesHave (Node.Portable ρ called) scope.value?)
    (htable : table.Portable ρ called)
    (h : (E scope (.var name)).Gives table (.ok ⟨found, complete⟩) table')
    (hoperand : Operand scope table (.var name) found kept) :
    (kept = .var name ∧ scope.value? name = none) ∨ kept.Portable ρ called := by
  rcases hoperand with ⟨rfl, hfunction⟩ | ⟨_, heq, rfl, hunbound⟩
  · obtain ⟨-, hcases⟩ := variableValue_cases (hlooksUp.variableValue_gives h)
    rcases hcases with ⟨hunresolved, heq⟩ | ⟨value, hvalue, heq⟩ |
      ⟨hunbound, ⟨-, heq⟩ | ⟨-, heq⟩ | ⟨value, hvalue, -, heq⟩⟩
    · cases heq
      exact .inl ⟨rfl, Scope.value?_eq_none.mpr (.inr hunresolved)⟩
    · cases heq
      exact .inr (hvalues name kept hvalue).2
    · cases heq
    · cases heq
      exact .inl ⟨rfl, Scope.value?_eq_none.mpr (.inl hunbound)⟩
    · cases heq
      have hisValue := (htable name kept hvalue).1
      cases kept with
      | integer | float | boolean => exact .inr (.of_isLiteral rfl)
      | function parameter body => exact absurd hvalue (hfunction rfl hunbound)
      | _ => cases hisValue
  · cases heq
    exact .inl ⟨rfl, Scope.value?_eq_none.mpr (.inl hunbound)⟩

theorem application (hE : IsScoped ρ called E) (hregular : IsRegular Node.IsExpression E)
    (hlooksUp : LooksUp E) (hnode : scope.Fits ρ called (.apply callee argument))
    (htable : table.Portable ρ called)
    (h : (Eval.application E scope callee argument).Gives table (.ok outcome) table') :
    Node.Scoped ρ called scope (.apply callee argument) outcome.node := by
  have hcallee := hnode.toRenames.callee.respects.isExpression
  have hargument := hnode.argument
  rcases application_cases h with ⟨error, -, heq⟩ | ⟨first, middle, hrun, hrest⟩
  · cases heq
  · obtain rfl := (hnode.regular hcallee htable hregular hrun).table_eq
    rcases hrest with ⟨error, -, heq⟩ | ⟨second, last, hrun', hcases⟩
    · cases heq
    · obtain rfl := (hargument.regular hargument.respects.isExpression htable hregular
        hrun').table_eq
      rcases hcases with ⟨parameter, body, hcomplete, heq, hcomplete', hresolved, hresolved',
        hbody⟩ | ⟨-, -, -, error, -, heq⟩ | ⟨-, -, kept, kept', heq, hkept, hkept'⟩
      · obtain ⟨hvalue, hportable⟩ :=
          hE.portable hregular hargument htable hrun' hcomplete' hresolved'
        have hfunction := hE.callable hregular hlooksUp hnode htable hrun hcomplete hresolved
        exact .of_portable (hE.call hregular htable (heq ▸ hfunction) hvalue hportable hbody)
      · cases heq
      · obtain rfl := Except.ok.inj heq
        have hsecond := operand (hE hargument htable hrun') hkept'
        cases hvar : callee.isVariable with
        | false =>
            have hfirst := operand (hE (hnode.callee hvar) htable hrun) hkept
            exact .apply hfirst (fun htrue => by rw [hvar] at htrue; cases htrue) hsecond
        | true =>
            obtain ⟨name, rfl⟩ := Node.exists_eq_var hvar
            rcases operand_var hlooksUp hnode.values htable hrun hkept with ⟨rfl, hnone⟩ | hportable
            · exact .apply (.var hnone) (fun _ => .inl rfl) hsecond
            · exact .apply (.of_portable hportable) (fun _ => .inr hportable) hsecond

theorem arms (hE : IsScoped ρ called E) (hregular : IsRegular Node.IsExpression E) {whole : Node}
    (hwhole : scope.Fits ρ called whole) (htable : table.Portable ρ called) {last : Eval Evaluated}
    (hlast : last.Gives table (.ok outcome) table' → Node.Scoped ρ called scope whole outcome.node)
    {pairs : List (Node × Node)}
    (hpairs : ∀ pair ∈ pairs, scope.Fits ρ called pair.1 ∧ scope.Fits ρ called pair.2 ∧
      ∀ {found}, Node.Scoped ρ called scope pair.2 found → Node.Scoped ρ called scope whole found)
    (h : (Eval.arms E scope whole last pairs).Gives table (.ok outcome) table') :
    Node.Scoped ρ called scope whole outcome.node := by
  induction pairs with
  | nil => exact hlast h
  | cons pair pairs ih =>
      obtain ⟨condition, branch⟩ := pair
      obtain ⟨hcondition, hbranch, hpart⟩ := hpairs _ List.mem_cons_self
      rcases arms_cons_cases h with ⟨error, -, heq⟩ | ⟨test, middle, htest, hrest⟩
      · cases heq
      · obtain rfl := (hcondition.regular hcondition.respects.isExpression htable hregular
          htest).table_eq
        rcases hrest with ⟨error, -, heq⟩ | ⟨value, final, hvalue, hcases⟩
        · cases heq
        · obtain rfl := (hbranch.regular hbranch.respects.isExpression htable hregular
            hvalue).table_eq
          rcases hcases with ⟨-, -, heq⟩ | ⟨-, -, hselect⟩
          · obtain rfl := Except.ok.inj heq
            exact .substitute hwhole
          · rcases hselect with ⟨-, -, heq⟩ | ⟨-, hothers⟩ | ⟨-, -, heq⟩
            · obtain rfl := Except.ok.inj heq
              exact hpart (hE hbranch htable hvalue)
            · exact ih (fun pair hmem => hpairs pair (List.mem_cons_of_mem _ hmem)) hothers
            · cases heq

theorem otherwise (hE : IsScoped ρ called E) {whole : Node} (hwhole : scope.Fits ρ called whole)
    (htable : table.Portable ρ called) {branch? : Option Node}
    (hbranch : ∀ branch ∈ branch?, scope.Fits ρ called branch ∧
      ∀ {found}, Node.Scoped ρ called scope branch found → Node.Scoped ρ called scope whole found)
    (h : (Eval.otherwise E scope whole branch?).Gives table (.ok outcome) table') :
    Node.Scoped ρ called scope whole outcome.node := by
  cases branch? with
  | none => cases (gives_throw.mp h).1
  | some branch =>
      obtain ⟨hfits, hpart⟩ := hbranch branch rfl
      rcases otherwise_cases h with ⟨error, -, heq⟩ | ⟨value, hvalue, hcases⟩
      · cases heq
      · rcases hcases with ⟨-, heq⟩ | ⟨-, heq⟩
        · obtain rfl := Except.ok.inj heq
          exact .substitute hwhole
        · obtain rfl := Except.ok.inj heq
          exact hpart (hE hfits htable hvalue)

theorem step (hE : IsScoped ρ called E) (hregular : IsRegular Node.IsExpression E)
    (hlooksUp : LooksUp E) : IsScoped ρ called (Eval.step E) := by
  intro scope node table outcome table' hnode htable h
  cases node with
  | integer | float | boolean =>
      obtain ⟨heq, -⟩ := gives_pure.mp h
      obtain rfl := Except.ok.inj heq
      exact .of_portable (.of_isLiteral rfl)
  | noValue | typeName | typeDefinition | construction => cases (gives_throw.mp h).1
  | declaration =>
      cases hnode.respects with
      | inert hinert => cases hinert
  | var name =>
      obtain ⟨-, hcases⟩ := variableValue_cases h
      rcases hcases with ⟨hunresolved, heq⟩ | ⟨value, hvalue, heq⟩ |
        ⟨hunbound, ⟨-, heq⟩ | ⟨hvalue, -⟩ | ⟨value, hvalue, -, heq⟩⟩
      · obtain rfl := Except.ok.inj heq
        exact .var (Scope.value?_eq_none.mpr (.inr hunresolved))
      · obtain rfl := Except.ok.inj heq
        exact .of_portable (hnode.values name value hvalue).2
      · cases heq
      · cases (htable name _ hvalue).1
      · obtain rfl := Except.ok.inj heq
        have hcalled := hnode.handed name (Node.mem_handedNames_var.mpr rfl) hunbound
        exact .of_portable ((htable name value hvalue).2.2 hcalled)
  | negation operand =>
      rcases negation_cases h with ⟨error, -, heq⟩ | ⟨first, hfirst, hcases⟩
      · cases heq
      · rcases hcases with ⟨-, heq⟩ | ⟨-, ⟨value, -, heq⟩ | ⟨-, heq⟩⟩
        · obtain rfl := Except.ok.inj heq
          exact .negation (hE hnode.operand htable hfirst)
        · obtain rfl := Except.ok.inj heq
          exact .of_portable (.of_isLiteral rfl)
        · cases heq
  | binary op left right =>
      obtain ⟨hleft, hright⟩ := hnode.operands
      rcases binary_cases h with ⟨error, -, heq⟩ | ⟨first, middle, hfirst, hrest⟩
      · cases heq
      · obtain rfl := (hleft.regular hleft.respects.isExpression htable hregular hfirst).table_eq
        rcases hrest with ⟨error, -, heq⟩ | ⟨second, hsecond, hcases⟩
        · cases heq
        · rcases hcases with ⟨-, heq⟩ | ⟨-, -, heq⟩
          · obtain rfl := Except.ok.inj heq
            exact .binary (hE hleft htable hfirst) (hE hright htable hsecond)
          · cases hvalue : op.operate first.node second.node with
            | error error =>
                rw [hvalue] at heq
                cases heq
            | ok value =>
                rw [hvalue] at heq
                obtain rfl := Except.ok.inj heq
                exact .of_portable (.of_isLiteral (BinOp.isLiteral_of_operate hvalue).2.2)
  | function parameter body =>
      rcases function_cases h with ⟨error, -, heq⟩ | ⟨first, hfirst, heq⟩
      · cases heq
      · obtain rfl := Except.ok.inj heq
        exact .function hnode.respects (hE hnode.opens.body htable hfirst)
  | apply callee argument => exact hE.application hregular hlooksUp hnode htable h
  | ifElse conditions branches =>
      obtain ⟨hconditions, hbranches⟩ := hnode.arms
      have hbranch : ∀ branch ∈ branches, scope.Fits ρ called branch ∧
          ∀ {found}, Node.Scoped ρ called scope branch found →
            Node.Scoped ρ called scope (.ifElse conditions branches) found :=
        fun branch hmem => ⟨hbranches branch hmem, fun hfound => hfound.of_part
          (fun x hx => Node.mem_freeNames_ifElse.mpr (.inr ⟨branch, hmem, hx⟩))
          (fun x hx => Node.mem_keptNames_ifElse.mpr (.inr ⟨branch, hmem, hx⟩))
          fun x hx => Node.mem_handedNames_ifElse.mpr (.inr ⟨branch, hmem, hx⟩)⟩
      change (chain E scope (.ifElse conditions branches) conditions branches).Gives table _ _ at h
      rw [chain_eq_arms] at h
      refine hE.arms hregular hnode htable (hE.otherwise hnode htable fun branch hmem =>
        hbranch branch (List.mem_of_getElem? hmem)) (fun pair hmem => ?_) h
      obtain ⟨hfirst, hsecond⟩ := List.of_mem_zip hmem
      exact ⟨hconditions pair.1 hfirst, hbranch pair.2 hsecond⟩

end Eval.IsScoped

theorem isScoped_evaluate (ρ : String → String) (called : List String) (depth : Nat) :
    Eval.IsScoped ρ called (evaluate depth) := by
  induction depth with
  | zero =>
      intro scope node table outcome table' _ _ h
      cases h
  | succ depth ih =>
      exact ih.step (isRegular_evaluate (Node.hereditary_formed _) depth) (looksUp_evaluate depth)

section Callable

variable {ρ : String → String} {called : List String} {scope : Scope} {node found : Node}
  {table table' : Table} {outcome : Evaluated} {depth : Nat}

theorem Node.Callable.of_scoped (h : node.Callable ρ called)
    (hfound : Node.Scoped ρ called scope node found)
    (hinner : ∀ x ∈ found.innerNames, Anchored ρ x ∨ x ∈ node.innerNames) :
    found.Callable ρ called where
  respects := hfound.respects
  global x hx := (hfound.free x hx).elim Anchored.eq fun hx => h.global x hx.1
  inner x hx := (hinner x hx).elim id (h.inner x)
  handed x hx := (hfound.handed x hx).elim id fun hx => h.handed x hx.1

/-- What is not put in below a parameter is evaluated to a node of this kind. -/
theorem Node.Callable.of_evaluate (h : node.Callable ρ called) (hnode : scope.Opens ρ called node)
    (htable : table.Portable ρ called)
    (hrun : (evaluate depth scope node).Gives table (.ok outcome) table') :
    outcome.node.Callable ρ called := by
  cases node with
  | function parameter body =>
      cases depth with
      | zero => cases hrun
      | succ depth =>
          rcases Eval.function_cases hrun with ⟨error, -, heq⟩ | ⟨first, hfirst, heq⟩
          · cases heq
          · obtain rfl := Except.ok.inj heq
            have hfirst := isScoped_evaluate ρ called depth hnode.body htable hfirst
            refine h.of_scoped (.function hnode.respects hfirst) fun x hx => ?_
            obtain ⟨hx, hne⟩ := mem_innerNames_function.mp hx
            exact (hfirst.kept x hx).imp_right fun hx =>
              mem_innerNames_function.mpr ⟨hx.1, hne⟩
  | _ =>
      have hfound := isScoped_evaluate ρ called depth (hnode.fits hnode.inner) htable hrun
      exact h.of_scoped hfound fun x hx =>
        (hfound.kept x (mem_keptNames_of_mem_innerNames hx)).imp_right And.left

end Callable

end Viewlet
