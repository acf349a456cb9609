import Viewlet.Proofs.Sessions.Reachability

namespace Viewlet

namespace Node

/-- The nodes right below a node. -/
def parts : Node → List Node
  | .integer _ | .float _ | .boolean _ | .noValue | .var _ | .typeName _ => []
  | .negation operand => [operand]
  | .binary _ left right => [left, right]
  | .function _ body | .declaration _ body => [body]
  | .apply callee argument => [callee, argument]
  | .ifElse conditions branches => conditions ++ branches
  | .construction _ arguments => arguments
  | .typeDefinition _ _ constructors => constructors.map (·.signature)

/-- The first node stands somewhere in the second. -/
inductive Occurs (part : Node) : Node → Prop where
  | root : Occurs part part
  | inside {node child} : child ∈ node.parts → Occurs part child → Occurs part node

/-- Whether the node is a declaration or a type definition. -/
def isDefinition : Node → Bool
  | .declaration .. | .typeDefinition .. => true
  | _ => false

structure WellFormed (node : Node) : Prop where
  known : ¬Occurs .noValue node
  flat : ∀ child ∈ node.parts, ∀ part, Occurs part child → part.isDefinition = false
  chains : ∀ conditions branches, Occurs (.ifElse conditions branches) node →
    branches.length = conditions.length + 1 ∧ 2 ≤ branches.length

/-- What can stand anywhere in a well-formed node. -/
def isProper : Node → Bool
  | .noValue | .declaration .. | .typeDefinition .. => false
  | .ifElse conditions branches =>
      branches.length == conditions.length + 1 && !conditions.isEmpty
  | _ => true

attribute [local simp] parts isProper

/-- Whatever stands in the node can stand anywhere. -/
def Sound (node : Node) : Prop :=
  ∀ part, Occurs part node → part.isProper = true

theorem sound_iff {node : Node} :
    node.Sound ↔ node.isProper = true ∧ ∀ child ∈ node.parts, child.Sound := by
  constructor
  · intro h
    exact ⟨h node .root, fun child hmem part hpart => h part (.inside hmem hpart)⟩
  · rintro ⟨hroot, hparts⟩ part hpart
    cases hpart with
    | root => exact hroot
    | inside hmem hpart => exact hparts _ hmem part hpart

theorem sound_negation {operand : Node} : (negation operand).Sound ↔ operand.Sound := by
  rw [sound_iff]
  simp

theorem sound_binary {op : BinOp} {left right : Node} :
    (binary op left right).Sound ↔ left.Sound ∧ right.Sound := by
  rw [sound_iff]
  simp

theorem sound_function {parameter : String} {body : Node} :
    (function parameter body).Sound ↔ body.Sound := by
  rw [sound_iff]
  simp

theorem sound_apply {callee argument : Node} :
    (apply callee argument).Sound ↔ callee.Sound ∧ argument.Sound := by
  rw [sound_iff]
  simp

theorem sound_ifElse {conditions branches : List Node} : (ifElse conditions branches).Sound ↔
    (branches.length = conditions.length + 1 ∧ conditions ≠ []) ∧
      (∀ condition ∈ conditions, condition.Sound) ∧ ∀ branch ∈ branches, branch.Sound := by
  rw [sound_iff, parts, List.forall_mem_append]
  simp

theorem sound_of_isLiteral {node : Node} (h : node.isLiteral = true) : node.Sound := by
  cases node with
  | integer | float | boolean => exact sound_iff.mpr ⟨rfl, nofun⟩
  | _ => cases h

theorem sound_var (name : String) : (var name).Sound :=
  sound_iff.mpr ⟨rfl, nofun⟩

theorem Sound.substitute {scope : Scope} {node : Node} (h : node.Sound)
    (hscope : ∀ name value, scope.value? name = some value → value.Sound) :
    (node.substitute scope).Sound := by
  induction node generalizing scope with
  | var name =>
      rw [substitute_var]
      cases hvalue : scope.value? name with
      | none => exact sound_var name
      | some value => exact hscope name value hvalue
  | function parameter body ih =>
      refine sound_function.mpr (ih (sound_function.mp h) fun name value hvalue => ?_)
      exact hscope name value (Scope.value?_of_bindUnresolved hvalue)
  | apply callee argument ihc iha =>
      obtain ⟨hcallee, hargument⟩ := sound_apply.mp h
      exact sound_apply.mpr ⟨ihc hcallee hscope, iha hargument hscope⟩
  | binary op left right ihl ihr =>
      obtain ⟨hleft, hright⟩ := sound_binary.mp h
      exact sound_binary.mpr ⟨ihl hleft hscope, ihr hright hscope⟩
  | negation operand ih => exact sound_negation.mpr (ih (sound_negation.mp h) hscope)
  | ifElse conditions branches ihc ihb =>
      obtain ⟨hlength, hconditions, hbranches⟩ := sound_ifElse.mp h
      rw [substitute_ifElse, sound_ifElse]
      simp only [List.length_map, ne_eq, List.map_eq_nil_iff, List.forall_mem_map]
      exact ⟨hlength, fun node hmem => ihc node hmem (hconditions node hmem) hscope,
        fun node hmem => ihb node hmem (hbranches node hmem) hscope⟩
  | _ => exact h

theorem hereditary_sound : Hereditary Sound where
  undeclared h := by cases (sound_iff.mp h).1
  literal := sound_of_isLiteral
  var := sound_var
  negation := sound_negation
  binary := sound_binary
  function h := ⟨sound_function.mp h, sound_function.mpr⟩
  apply := sound_apply
  ifElse h := (sound_ifElse.mp h).2
  substitute := Sound.substitute

theorem readable_sound : Readable Sound where
  literal := sound_of_isLiteral
  var := sound_var
  construction h := sound_iff.mpr ⟨rfl, h⟩
  negation := sound_negation.mpr
  binary hleft hright := sound_binary.mpr ⟨hleft, hright⟩
  function := sound_function.mpr
  apply hcallee hargument := sound_apply.mpr ⟨hcallee, hargument⟩
  ifElse hne hlength hconditions hbranches :=
    sound_ifElse.mpr ⟨⟨hlength, hne⟩, hconditions, hbranches⟩

theorem WellFormed.of_parts {node : Node} (hroot : (node.isDefinition || node.isProper) = true)
    (hparts : ∀ child ∈ node.parts, child.Sound) : node.WellFormed where
  known h := by
    cases h with
    | root => cases hroot
    | inside hmem hpart => cases hparts _ hmem _ hpart
  flat child hmem part hpart := by
    have hproper := hparts child hmem part hpart
    cases part with
    | declaration | typeDefinition => cases hproper
    | _ => rfl
  chains conditions branches h := by
    have hproper : (ifElse conditions branches).isProper = true := by
      cases h with
      | root => exact hroot
      | inside hmem hpart => exact hparts _ hmem _ hpart
    simp only [isProper, Bool.and_eq_true, beq_iff_eq, Bool.not_eq_true', List.isEmpty_eq_false_iff,
      ← List.length_pos_iff] at hproper
    omega

theorem Sound.wellFormed {node : Node} (h : node.Sound) : node.WellFormed := by
  obtain ⟨hroot, hparts⟩ := sound_iff.mp h
  exact .of_parts (Bool.or_eq_true_iff.mpr (.inr hroot)) hparts

theorem UnitOf.wellFormed {node : Node} (h : node.UnitOf Sound) : node.WellFormed := by
  cases h with
  | expression h => exact h.wellFormed
  | declaration hbody => exact .of_parts rfl (List.forall_mem_singleton.mpr hbody)
  | @typeDefinition defined _ _ hconstructors =>
      refine .of_parts rfl (List.forall_mem_map.mpr fun constructor hmem => ?_)
      obtain ⟨name, fields, rfl⟩ := hconstructors constructor hmem
      have hresult : (typeName defined).Sound := sound_iff.mpr ⟨rfl, nofun⟩
      exact Parse.readable_curried readable_sound fields hresult

end Node

/-- The error shows well-formed nodes only, and does not complain that a chain of conditions has
no value. -/
structure EvalError.Sane (error : EvalError) : Prop where
  nodes : ∀ node ∈ error.nodes, node.WellFormed
  chain : ∀ conditions branches, error ≠ .noValueFor (.ifElse conditions branches)

theorem SessionError.Shows.sane {cause : EvalError}
    (h : (SessionError.evaluation cause).Shows Node.Sound) : cause.Sane where
  nodes node hmem := ((h cause rfl).nodes node hmem).wellFormed
  chain conditions branches heq := by
    have hshows := h cause rfl
    have hshort : branches.length ≤ conditions.length := hshows.chain heq
    subst heq
    have hlength := ((hshows.nodes _ List.mem_cons_self).wellFormed.chains _ _ .root).1
    omega

namespace Session

variable {session session' : Session} {result : Except SessionError Node}

/-- The result is a well-formed node, or an error that is sane if it comes from evaluation. -/
structure ResultSane (result : Except SessionError Node) : Prop where
  node : ∀ node, result = .ok node → node.WellFormed
  error : ∀ error, result = .error (.evaluation error) → error.Sane

theorem Answers.resultSane (h : session.Answers Node.Sound result session') :
    ResultSane result := by
  cases h with
  | failed hshows =>
      refine ⟨nofun, fun error heq => ?_⟩
      cases heq
      exact hshows.sane
  | value _ hvalue =>
      refine ⟨fun node heq => ?_, nofun⟩
      cases heq
      exact hvalue.wellFormed
  | declared _ _ hvalue =>
      refine ⟨fun node heq => ?_, nofun⟩
      cases heq
      exact (Node.UnitOf.declaration hvalue).wellFormed

theorem Settles.resultSane (h : Settles Node.Sound result) : ResultSane result where
  node _ heq := (h.value heq).2.wellFormed
  error _ heq := (h.shows heq).sane

/-- All nodes that are read are well-formed, and so are all that sessions have as declarations or
results, or show in errors. So no error is about a chain of conditions without a last branch. -/
theorem reachable_nodes_wellFormed (h : session.Reachable) :
    (∀ reader node, (Reader.readUnit Parse.item reader).1 = .ok node → node.WellFormed) ∧
      (∀ reader node, (Reader.readUnit Parse.declaration reader).1 = .ok node →
        node.WellFormed) ∧
      (∀ reader, ∀ node ∈ (separate (Reader.readAll Parse.item reader).1).1, node.WellFormed) ∧
      (∀ name value, session.get? name = some value → value.WellFormed) ∧
      ∀ depth source result session', session.interpret depth source = some (result, session') ∨
        session.compile depth source = some (result, session') → ResultSane result := by
  have hholds := h.holds Node.hereditary_sound Node.readable_sound
  have hitem := Parse.item_ensures Node.readable_sound
  refine ⟨?_, ?_, ?_, fun name value hvalue => (hholds name value hvalue).2.wellFormed, ?_⟩
  · intro reader node hread
    exact (Reader.readUnit_ensures hitem (Prod.ext hread rfl)).wellFormed
  · intro reader node hread
    obtain ⟨name, body, rfl, hbody⟩ := Reader.readUnit_ensures
      (Parse.declaration_ensures Node.readable_sound) (Prod.ext hread rfl)
    exact (Node.UnitOf.declaration hbody).wellFormed
  · intro reader node hmem
    exact (Reader.readUpTo_ensures hitem (mem_separate.mp hmem)).wellFormed
  · rintro depth source result session' (hrun | hrun)
    · exact (hholds.interpret Node.hereditary_sound Node.readable_sound hrun).resultSane
    · exact (hholds.compile Node.hereditary_sound Node.readable_sound hrun).2.2.resultSane

/-- A declared chain of conditions that waits for its condition, and what it is applied to. -/
theorem reachable_nodes_wellFormed_waiting :
    let pick : Node := .function "x" (.ifElse [.var "x"] [.integer 1, .integer 2])
    let session : Session := { table := [("pick", pick)] }
    session.Reachable ∧ session.get? "pick" = some pick ∧ pick.WellFormed ∧
      session.interpret 6 "pick 3" =
        some (.error (.evaluation (.conditionNotBool (.integer 3))), session) ∧
      (EvalError.conditionNotBool (.integer 3)).Sane := by
  intro pick session
  have hread : readSingle "pick x = if x then 1 else 2" = .ok (.declaration "pick" pick) :=
    readSingle_eq_ok rfl (by decide +kernel)
  have hinterpret : Session.interpret 6 {} "pick x = if x then 1 else 2" =
      some (.ok (.declaration "pick" pick), session) := by
    rw [Session.interpret, hread]
    rfl
  have hsession : session.Reachable := .interpret (.fresh defaultRoot) hinterpret
  have hcall : readSingle "pick 3" = .ok (.apply (.var "pick") (.integer 3)) :=
    readSingle_eq_ok rfl (by decide +kernel)
  have hrun : session.interpret 6 "pick 3" =
      some (.error (.evaluation (.conditionNotBool (.integer 3))), session) := by
    rw [Session.interpret, hcall]
    rfl
  obtain ⟨-, -, -, hdeclared, hresults⟩ := reachable_nodes_wellFormed hsession
  exact ⟨hsession, rfl, hdeclared "pick" pick rfl, hrun,
    (hresults 6 "pick 3" _ session (.inl hrun)).error _ rfl⟩

end Session

end Viewlet
