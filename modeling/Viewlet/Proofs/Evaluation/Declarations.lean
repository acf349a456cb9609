import Viewlet.Proofs.Evaluation.Preservation

namespace Viewlet

/-- The errors that types do not rule out. -/
def EvalError.isUntyped : EvalError → Bool
  | .divisionByZero | .alreadyDeclared _ | .unresolvedDeclaration .. | .missingRoot _ => true
  | _ => false

/-- The environments give the same types to all names but one. -/
def TypeEnv.AgreesBut (name : String) (env env' : TypeEnv) : Prop :=
  ∀ {x ty}, x ≠ name → (HasType env' (.var x) ty ↔ HasType env (.var x) ty)

theorem TypeEnv.agreesBut_insert (env : TypeEnv) (name : String) (scheme : Scheme) :
    env.AgreesBut name (env.insert name scheme) := by
  intro x ty hx
  simp [hasType_var_insert, hx]

/-- The environment has a scheme for every declaration, and the value in the table has all its
instances. To give it a type takes no more than the schemes of the names that functions keep. -/
structure Declared (names : List String) (env : TypeEnv) (table : Table) : Prop where
  values : HoldsValues (· ∉ names) (fun name => table.lookup name)
  typed : ∀ {x value}, table.lookup x = some value → ∃ scheme, env.get? x = some scheme ∧
    ∀ ty, scheme.HasInstance ty → HasType (env.restrict names.contains) value ty
  declared : ∀ {x scheme}, env.get? x = some scheme → ∃ value, table.lookup x = some value

theorem lookup_declare (table : Table) (name other : String) (value : Node) :
    (table.declare name value).lookup other =
      if other = name then some value else table.lookup other :=
  lookup_replace name other value table

namespace Declared

variable {names : List String} {env env' : TypeEnv} {table table' : Table} {name : String}
  {node body : Node} {ty : Ty} {scheme : Scheme} {result : Except EvalError Evaluated} {depth : Nat}

theorem empty (names : List String) : Declared names .empty [] where
  values _ _ h := by cases h
  typed h := by cases h
  declared h := by cases h

theorem hasType_value (h : Declared names env table) {x : String}
    (hvar : HasType env (.var x) ty) :
    ∃ value, table.lookup x = some value ∧ HasType (env.restrict names.contains) value ty := by
  obtain ⟨scheme, hscheme, hinstance⟩ := hasType_var.mp hvar
  obtain ⟨value, hvalue⟩ := h.declared hscheme
  obtain ⟨scheme', hscheme', htyped⟩ := h.typed hvalue
  obtain rfl := Option.some.inj (hscheme.symm.trans hscheme')
  exact ⟨value, hvalue, htyped _ hinstance⟩

theorem provides (h : Declared names env table) :
    Provides (· ∉ names) (env.restrict names.contains) table where
  values := h.values
  declared hvar := h.hasType_value (hasType_var_restrict.mp hvar).2
  apart hx hvar := by
    obtain ⟨hcontains, -⟩ := hasType_var_restrict.mp hvar
    exact hx (List.contains_iff_mem.mp hcontains)

theorem ne_of_hasType_var (h : Declared names env table) (hnone : table.lookup name = none)
    {x : String} (hvar : HasType env (.var x) ty) : x ≠ name := by
  rintro rfl
  obtain ⟨value, hvalue, -⟩ := h.hasType_value hvar
  rw [hnone] at hvalue
  cases hvalue

theorem weaken (h : Declared names env table) (hnone : table.lookup name = none)
    (henv : env.AgreesBut name env') (hformed : node.Formed (· ∉ names))
    (hnode : HasType (env.restrict names.contains) node ty) :
    HasType (env'.restrict names.contains) node ty := by
  refine .transfer hformed hnode fun x _ ty hvar => ?_
  obtain ⟨hcontains, hvar⟩ := hasType_var_restrict.mp hvar
  exact hasType_var_restrict.mpr
    ⟨hcontains, (henv (h.ne_of_hasType_var hnone hvar)).mpr hvar⟩

theorem insert (h : Declared names env table) (hnone : table.lookup name = none) {value : Node}
    (hvalue : value.isValue = true) (hformed : value.Formed (· ∉ names))
    (htyped : ∀ ty, scheme.HasInstance ty →
      HasType ((env.insert name scheme).restrict names.contains) value ty) :
    Declared names (env.insert name scheme) (table.declare name value) where
  values x found hfound := by
    dsimp only at hfound
    rw [lookup_declare] at hfound
    split at hfound
    · obtain rfl := Option.some.inj hfound
      exact ⟨hvalue, hformed⟩
    · exact h.values x found hfound
  typed {x found} hfound := by
    rw [lookup_declare] at hfound
    rw [TypeEnv.get?_insert]
    split at hfound
    · next hx =>
        obtain rfl := Option.some.inj hfound
        exact ⟨scheme, if_pos hx, htyped⟩
    · next hx =>
        obtain ⟨scheme', hscheme', htyped'⟩ := h.typed hfound
        exact ⟨scheme', by rw [if_neg hx, hscheme'], fun ty hinstance => h.weaken hnone
          (env.agreesBut_insert name scheme) (h.values x found hfound).2 (htyped' ty hinstance)⟩
  declared {x scheme'} hscheme' := by
    rw [TypeEnv.get?_insert] at hscheme'
    rw [lookup_declare]
    split at hscheme'
    · next hx => exact ⟨value, if_pos hx⟩
    · next hx =>
        rw [if_neg hx]
        exact h.declared hscheme'

/-- Outside of functions, with one name that is bound and unresolved, every declared name can be
used. What is evaluated completely has its type under the names that functions keep. -/
def SafeOutside (names : List String) (env : TypeEnv) (table : Table) (name : String)
    (E : Scope → Node → Eval Evaluated) : Prop :=
  ∀ {env' node ty result table'}, node.Formed (· ∉ names) → (∀ x ∈ node.keptNames, x ∈ names) →
    env.AgreesBut name env' → HasType env' node ty →
    (E (Scope.bindUnresolved [] name) node).Gives table result table' →
    Result (fun outcome => Evaluated.complete outcome = true →
      HasType (env'.restrict names.contains) outcome.node ty) result

section Outside

variable {E : Scope → Node → Eval Evaluated}

theorem agrees (h : Declared names env table) (hnone : table.lookup name = none)
    (henv : env.AgreesBut name env') :
    Agrees (env.restrict names.contains) (env'.restrict names.contains)
      (Scope.bindUnresolved [] name) where
  unbound {x ty} hunbound hvar := by
    obtain ⟨hcontains, hvar⟩ := hasType_var_restrict.mp hvar
    have hx : x ≠ name := by
      rintro rfl
      simp [Scope.bindUnresolved, Scope.get?_bind] at hunbound
    exact hasType_var_restrict.mpr ⟨hcontains, (henv hx).mp hvar⟩
  global {x ty} hvar := by
    obtain ⟨hcontains, hvar⟩ := hasType_var_restrict.mp hvar
    have hx := h.ne_of_hasType_var hnone hvar
    exact ⟨by rw [Scope.bindUnresolved, Scope.get?_bind, if_neg hx, Scope.get?_nil],
      hasType_var_restrict.mpr ⟨hcontains, (henv hx).mpr hvar⟩⟩
  resolved hvalue := by cases Scope.value?_of_bindUnresolved hvalue

theorem hasType_of_names (h : Declared names env table) (hnone : table.lookup name = none)
    (hsafe : Eval.IsSafe (· ∉ names) (env.restrict names.contains) table E)
    (htidy : Eval.IsTidy (· ∉ names) E) (henv : env.AgreesBut name env')
    (hformed : node.Formed (· ∉ names)) (hnames : ∀ x ∈ node.freeNames [], x ∈ names)
    (hnode : HasType env' node ty)
    (hrun : (E (Scope.bindUnresolved [] name) node).Gives table result table') :
    Result (fun outcome => HasType (env'.restrict names.contains) outcome.node ty) result := by
  have hnode : HasType (env'.restrict names.contains) node ty :=
    .transfer hformed hnode fun x hx _ hvar =>
      hasType_var_restrict.mpr ⟨List.contains_iff_mem.mpr (hnames x hx), hvar⟩
  have hscope : HoldsValues (· ∉ names) (Scope.bindUnresolved [] name).value? :=
    holdsValues_unresolved name
  have hresult := hsafe hformed hscope (h.agrees hnone henv) hnode hrun
  cases result with
  | error error => exact .of_error hresult
  | ok outcome =>
      have hrun' := htidy hformed hscope h.values hrun
      exact .transfer (hrun'.formed rfl) hresult fun x _ ty hvar => (hasType_var_residual.mp hvar).2

theorem resolved (hE : SafeOutside names env table name E) (henv : env.AgreesBut name env')
    (hformed : node.Formed (· ∉ names)) (hkept : ∀ x ∈ node.keptNames, x ∈ names)
    (hnode : HasType env' node ty)
    (hresolved : node.mentionsUnresolved (Scope.bindUnresolved [] name) = false)
    {outcome : Evaluated} (hcomplete : outcome.complete = true)
    (hrun : (E (Scope.bindUnresolved [] name) node).Gives table (.ok outcome) table') :
    HasType (env.restrict names.contains) outcome.node ty := by
  have hnode : HasType env node ty := by
    refine .transfer hformed hnode fun x hx ty hvar => (henv ?_).mp hvar
    rintro rfl
    have hx := Node.mentionsUnresolved_eq_false.mp hresolved x hx
    simp [Scope.isUnresolved, Scope.bindUnresolved, Scope.get?_bind] at hx
  exact hE hformed hkept (fun _ => Iff.rfl) hnode hrun hcomplete

theorem application (h : Declared names env table) (hnone : table.lookup name = none)
    (hE : SafeOutside names env table name E)
    (hsafe : Eval.IsSafe (· ∉ names) (env.restrict names.contains) table E)
    (htidy : Eval.IsTidy (· ∉ names) E) (henv : env.AgreesBut name env') {callee argument : Node}
    (hformed : callee.Formed (· ∉ names)) (hformed' : argument.Formed (· ∉ names))
    (hkept : ∀ x ∈ callee.keptNames, x ∈ names) (hkept' : ∀ x ∈ argument.keptNames, x ∈ names)
    {argumentTy : Ty} (hcallee : HasType env' callee (.func argumentTy ty))
    (hargument : HasType env' argument argumentTy)
    (hrun : (Eval.application E (Scope.bindUnresolved [] name) callee argument).Gives table result
      table') :
    Result (fun outcome => outcome.complete = true →
      HasType (env'.restrict names.contains) outcome.node ty) result := by
  rcases Eval.application_cases hrun with ⟨error, hfirst, rfl⟩ | ⟨first, middle, hfirst, hrest⟩
  · exact .of_error (hE hformed hkept henv hcallee hfirst)
  · have hfirst' := htidy hformed (holdsValues_unresolved name) h.values hfirst
    obtain rfl := hfirst'.table_eq
    rcases hrest with ⟨error, hsecond, rfl⟩ | ⟨second, last, hsecond, hcases⟩
    · exact .of_error (hE hformed' hkept' henv hargument hsecond)
    · have hsecond' := htidy hformed' (holdsValues_unresolved name) h.values hsecond
      obtain rfl := hsecond'.table_eq
      rcases hcases with
        ⟨parameter, body, hcomplete, heq, hcomplete', hresolved, hresolved', hbody⟩ |
        ⟨-, hcomplete, hother, -⟩ | ⟨-, -, kept, kept', rfl, -, -⟩
      · have hfunction := resolved hE henv hformed hkept hcallee hresolved hcomplete hfirst
        have hvalue := resolved hE henv hformed' hkept' hargument hresolved' hcomplete' hsecond
        have hcall := hsafe.call htidy h.provides (heq ▸ hfirst'.formed rfl) (heq ▸ hfunction)
          (hsecond'.isValue rfl hcomplete') (hsecond'.formed rfl) hvalue hbody
        cases result with
        | error error => exact .of_error hcall
        | ok outcome => exact fun _ => h.weaken hnone henv hcall.1 hcall.2
      · have hfunction : HasType (env'.restrict names.contains) first.node (.func argumentTy ty) :=
          hE hformed hkept henv hcallee hfirst hcomplete
        obtain ⟨parameter, body, hnode⟩ :=
          hfunction.exists_function (hfirst'.isValue rfl hcomplete)
        exact absurd hnode (hother parameter body)
      · exact fun hcomplete => by cases hcomplete

theorem chain (h : Declared names env table) (hE : SafeOutside names env table name E)
    (htidy : Eval.IsTidy (· ∉ names) E) (henv : env.AgreesBut name env') {whole : Node}
    {conditions branches : List Node} (hlength : branches.length = conditions.length + 1)
    (hconditions : ∀ condition ∈ conditions, condition.Formed (· ∉ names) ∧
      (∀ x ∈ condition.keptNames, x ∈ names) ∧ HasType env' condition .bool)
    (hbranches : ∀ branch ∈ branches, branch.Formed (· ∉ names) ∧
      (∀ x ∈ branch.keptNames, x ∈ names) ∧ HasType env' branch ty)
    (hrun : (Eval.chain E (Scope.bindUnresolved [] name) whole conditions branches).Gives table
      result table') :
    Result (fun outcome => outcome.complete = true →
      HasType (env'.restrict names.contains) outcome.node ty) result := by
  induction conditions generalizing branches with
  | nil =>
      obtain ⟨branch, rfl⟩ := List.length_eq_one_iff.mp hlength
      obtain ⟨hformed, hkept, hbranch⟩ := hbranches branch List.mem_cons_self
      rcases Eval.chain_nil_cases hrun with ⟨error, hvalue, rfl⟩ | ⟨value, hvalue, hcases⟩
      · exact .of_error (hE hformed hkept henv hbranch hvalue)
      · rcases hcases with ⟨-, rfl⟩ | ⟨-, rfl⟩
        · exact fun hcomplete => by cases hcomplete
        · exact hE hformed hkept henv hbranch hvalue
  | cons condition conditions ih =>
      obtain ⟨branch, branches, rfl⟩ := List.exists_cons_of_length_eq_add_one hlength
      obtain ⟨hformed, hkept, hcondition⟩ := hconditions condition List.mem_cons_self
      obtain ⟨hformed', hkept', hbranch⟩ := hbranches branch List.mem_cons_self
      rcases Eval.chain_cons_cases hrun with ⟨error, htest, rfl⟩ | ⟨test, middle, htest, hrest⟩
      · exact .of_error (hE hformed hkept henv hcondition htest)
      · have htest' := htidy hformed (holdsValues_unresolved name) h.values htest
        obtain rfl := htest'.table_eq
        rcases hrest with ⟨error, hvalue, rfl⟩ | ⟨value, last, hvalue, hcases⟩
        · exact .of_error (hE hformed' hkept' henv hbranch hvalue)
        · obtain rfl := (htidy hformed' (holdsValues_unresolved name) h.values hvalue).table_eq
          rcases hcases with ⟨-, -, rfl⟩ | ⟨hcomplete, -, hselect⟩
          · exact fun hcomplete => by cases hcomplete
          · rcases hselect with ⟨-, -, rfl⟩ | ⟨-, hothers⟩ | ⟨-, hother, -⟩
            · exact hE hformed' hkept' henv hbranch hvalue
            · exact ih (by simpa using hlength)
                (fun node hmem => hconditions node (List.mem_cons_of_mem _ hmem))
                (fun node hmem => hbranches node (List.mem_cons_of_mem _ hmem)) hothers
            · have hbool : HasType (env'.restrict names.contains) test.node .bool :=
                hE hformed hkept henv hcondition htest hcomplete
              obtain ⟨value, hnode⟩ := hbool.exists_boolean (htest'.isValue rfl hcomplete)
              exact absurd hnode (hother value)

theorem step (h : Declared names env table) (hnone : table.lookup name = none)
    (hE : SafeOutside names env table name E)
    (hsafe : Eval.IsSafe (· ∉ names) (env.restrict names.contains) table E)
    (htidy : Eval.IsTidy (· ∉ names) E) (htidy' : Eval.IsTidy (· ∉ names) (Eval.step E)) :
    SafeOutside names env table name (Eval.step E) := by
  intro env' node ty result table' hformed hkept henv hnode hrun
  have hwhole : node.Formed (· ∉ names) := hformed
  cases hformed with
  | inert hinert =>
      cases hnode with
      | integer hnumeric =>
          obtain ⟨rfl, -⟩ := Eval.gives_pure.mp hrun
          exact fun _ => .integer hnumeric
      | float =>
          obtain ⟨rfl, -⟩ := Eval.gives_pure.mp hrun
          exact fun _ => .float
      | boolean =>
          obtain ⟨rfl, -⟩ := Eval.gives_pure.mp hrun
          exact fun _ => .boolean
      | _ => cases hinert
  | var x =>
      obtain ⟨-, hcases⟩ := Eval.variableValue_cases hrun
      rcases hcases with ⟨-, rfl⟩ | ⟨value, hvalue, -⟩ | ⟨hunbound, hdeclared⟩
      · exact fun hcomplete => by cases hcomplete
      · cases Scope.value?_of_bindUnresolved hvalue
      · have hx : x ≠ name := by
          rintro rfl
          simp [Scope.bindUnresolved, Scope.get?_bind] at hunbound
        obtain ⟨value, hvalue, htyped⟩ := h.hasType_value ((henv hx).mp hnode)
        obtain ⟨hisValue, hformed⟩ := h.values x value hvalue
        rw [hvalue] at hdeclared
        rcases hdeclared with ⟨hnone, -⟩ | ⟨heq, -⟩ | ⟨found, heq, -, rfl⟩
        · cases hnone
        · exact absurd (Option.some.inj heq) (Node.ne_noValue_of_isValue hisValue)
        · obtain rfl := Option.some.inj heq
          exact fun _ => h.weaken hnone henv hformed htyped
  | negation hformed =>
      cases hnode with
      | negation hnode =>
          rcases Eval.negation_cases hrun with ⟨error, hfirst, rfl⟩ | ⟨first, hfirst, hcases⟩
          · exact .of_error (hE hformed hkept henv hnode hfirst)
          · have hfirst' := htidy hformed (holdsValues_unresolved name) h.values hfirst
            rcases hcases with ⟨-, rfl⟩ | ⟨hcomplete, ⟨value, -, rfl⟩ | ⟨hother, -⟩⟩
            · exact fun hcomplete => by cases hcomplete
            · exact fun _ => .boolean
            · have hbool : HasType (env'.restrict names.contains) first.node .bool :=
                hE hformed hkept henv hnode hfirst hcomplete
              obtain ⟨value, hnode⟩ := hbool.exists_boolean (hfirst'.isValue rfl hcomplete)
              exact absurd hnode (hother value)
  | binary hformed hformed' =>
      have hkept₁ := fun x hx => hkept x (List.mem_append_left _ hx)
      have hkept₂ := fun x hx => hkept x (List.mem_append_right _ hx)
      obtain ⟨operandTy, hleft, hright, hrule⟩ := hnode.operands
      rcases Eval.binary_cases hrun with ⟨error, hfirst, rfl⟩ | ⟨first, middle, hfirst, hrest⟩
      · exact .of_error (hE hformed hkept₁ henv hleft hfirst)
      · have hfirst' := htidy hformed (holdsValues_unresolved name) h.values hfirst
        obtain rfl := hfirst'.table_eq
        rcases hrest with ⟨error, hsecond, rfl⟩ | ⟨second, hsecond, hcases⟩
        · exact .of_error (hE hformed' hkept₂ henv hright hsecond)
        · have hsecond' := htidy hformed' (holdsValues_unresolved name) h.values hsecond
          rcases hcases with ⟨-, rfl⟩ | ⟨hcomplete, hcomplete', rfl⟩
          · exact fun hcomplete => by cases hcomplete
          · have hoperation := hrule (hE hformed hkept₁ henv hleft hfirst hcomplete)
              (hE hformed' hkept₂ henv hright hsecond hcomplete')
            have hresult := BinOp.operate_hasType hoperation (hfirst'.isValue rfl hcomplete)
              (hsecond'.isValue rfl hcomplete')
            cases hvalue : BinOp.operate _ first.node second.node with
            | error error =>
                rw [hvalue] at hresult
                exact .of_error hresult
            | ok value =>
                rw [hvalue] at hresult
                exact fun _ => hresult
  | function =>
      have hresult := h.hasType_of_names hnone (hsafe.step htidy h.provides) htidy' henv hwhole
        hkept hnode hrun
      cases result with
      | error error => exact .of_error hresult
      | ok outcome => exact fun _ => hresult
  | apply hformed hformed' =>
      cases hnode with
      | apply hcallee hargument =>
          exact h.application hnone hE hsafe htidy henv hformed hformed'
            (fun x hx => hkept x (List.mem_append_left _ hx))
            (fun x hx => hkept x (List.mem_append_right _ hx)) hcallee hargument hrun
  | ifElse hlength hformed hformed' =>
      cases hnode with
      | ifElse hconditions hbranches =>
          refine h.chain hE htidy henv hlength
            (fun node hmem => ⟨hformed node hmem, fun x hx => ?_, hconditions node hmem⟩)
            (fun node hmem => ⟨hformed' node hmem, fun x hx => ?_, hbranches node hmem⟩) hrun
          · exact hkept x (List.mem_append_left _ (Node.mem_gatherAll hmem hx))
          · exact hkept x (List.mem_append_right _ (Node.mem_gatherAll hmem hx))

/-- Evaluation is safe outside of functions at every depth. -/
theorem safeOutside_evaluate (h : Declared names env table) (hnone : table.lookup name = none)
    (depth : Nat) : SafeOutside names env table name (evaluate depth) := by
  induction depth with
  | zero =>
      intro env' node ty result table' _ _ _ _ hrun
      cases hrun
  | succ depth ih =>
      exact h.step hnone ih (isSafe_evaluate h.provides depth) (isTidy_evaluate _ depth)
        (isTidy_evaluate _ (depth + 1))

end Outside

theorem body_hasType (h : Declared names env table) (hnone : table.lookup name = none)
    (htyped : HasType env (.declaration name body) ty) (hbody : body.Formed (· ∉ names))
    (hkept : ∀ x ∈ body.keptNames, x ∈ names)
    (hrun : (evaluate depth (Scope.bindUnresolved [] name) body).Gives table result table') :
    Result (fun outcome => outcome.complete = true →
      HasType ((env.insert name ⟨[], ty⟩).restrict names.contains) outcome.node ty) result := by
  cases htyped with
  | declaration htyped =>
      exact h.safeOutside_evaluate hnone depth hbody hkept (env.agreesBut_insert name _) htyped hrun

/-- One declaration: it is entered with a value of all its types, or there is an error that
types do not rule out. -/
theorem declare (h : Declared names env table)
    (hscheme : ∀ ty, scheme.HasInstance ty → HasType env (.declaration name body) ty)
    (hbody : body.Formed (· ∉ names)) (hkept : ∀ x ∈ body.keptNames, x ∈ names)
    (hrun : (evaluate depth [] (.declaration name body)).Gives table result table') :
    (∃ outcome, result = .ok outcome ∧ Declared names (env.insert name scheme) table') ∨
      ∃ error, result = .error error ∧ error.isUntyped = true := by
  cases depth with
  | zero => cases hrun
  | succ depth =>
      rcases Eval.declaration_cases hrun with ⟨-, rfl⟩ | ⟨hnone, hcases⟩
      · exact .inr ⟨_, rfl, rfl⟩
      · rcases hcases with ⟨error, hvalue, rfl⟩ | ⟨outcome, middle, hvalue, hcases⟩
        · obtain rfl : error = .divisionByZero := h.body_hasType hnone
            (hscheme scheme.ty scheme.hasInstance_self) hbody hkept hvalue
          exact .inr ⟨_, rfl, rfl⟩
        · have htidy := isTidy_evaluate (· ∉ names) depth hbody (holdsValues_unresolved name)
            h.values hvalue
          obtain rfl := htidy.table_eq
          rcases hcases with ⟨hcomplete, rfl, rfl⟩ | ⟨-, -, rfl⟩
          · refine .inl ⟨_, rfl, h.insert hnone (htidy.isValue rfl hcomplete) (htidy.formed rfl)
              fun ty hinstance => ?_⟩
            -- The name of the declaration has one type in its own body, and all of them outside.
            have hvalue := h.body_hasType hnone (hscheme ty hinstance) hbody hkept hvalue hcomplete
            refine .transfer (htidy.formed rfl) hvalue fun x _ ty' hvar => ?_
            obtain ⟨hcontains, hvar⟩ := hasType_var_restrict.mp hvar
            refine hasType_var_restrict.mpr ⟨hcontains, ?_⟩
            rcases hasType_var_insert.mp hvar with ⟨hx, hmono⟩ | ⟨hx, hvar⟩
            · rw [Scheme.hasInstance_mono.mp hmono]
              exact hasType_var_insert.mpr (.inl ⟨hx, hinstance⟩)
            · exact hasType_var_insert.mpr (.inr ⟨hx, hvar⟩)
          · exact .inr ⟨_, rfl, rfl⟩

end Declared

end Viewlet
