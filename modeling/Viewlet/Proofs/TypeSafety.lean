import Viewlet.Proofs.Evaluation.Declarations
import Viewlet.Proofs.Reading.ReadNodes
import Viewlet.Proofs.Sessions.FreshParameters
import Viewlet.Proofs.Typing.Soundness

namespace Viewlet

/-- The bodies of declarations. -/
def bodies (nodes : List Node) : List Node :=
  nodes.filterMap fun
    | .declaration _ body => some body
    | _ => none

/-- The parameters of the functions in declarations. -/
def parameterNames (nodes : List Node) : List String :=
  (bodies nodes).flatMap Node.boundNames

/-- Declarations that have all instances of their schemes, each with the ones before it. -/
inductive TypedUnits : TypeEnv → List Node → TypeEnv → Prop where
  | nil (env) : TypedUnits env [] env
  | cons {env env' name body scheme nodes} :
      (∀ ty, Scheme.HasInstance scheme ty → HasType env (.declaration name body) ty) →
      TypedUnits (env.insert name scheme) nodes env' →
      TypedUnits env (.declaration name body :: nodes) env'

section Programs

variable {names : List String} {env env' : TypeEnv} {next next' : TyVar} {nodes : List Node}
  {session session' : Session} {depth : Nat}

theorem Infer.typedUnits_of_units (hclosed : ClosedAt env next)
    (hunits : (units env nodes).Yields next env' next')
    (hnodes : ∀ node ∈ nodes, ∃ name body, node = .declaration name body) :
    TypedUnits env nodes env' := by
  induction nodes generalizing env next with
  | nil =>
      rw [units, yields_pure] at hunits
      obtain ⟨rfl, rfl⟩ := hunits
      exact .nil _
  | cons node nodes ih =>
      obtain ⟨env₁, next₁, hunit, hunits⟩ := yields_units_cons.mp hunits
      obtain ⟨⟨name, body, rfl⟩, hothers⟩ := List.forall_mem_cons.mp hnodes
      obtain ⟨hclosed₁, hentered⟩ := closedAt_of_unit hclosed hunit
      rcases hentered with ⟨hentry, -⟩ | ⟨name', scheme, hentry, rfl, hscheme⟩
      · cases hentry
      · obtain rfl : name = name' := Option.some.inj hentry
        exact .cons hscheme (ih hclosed₁ hunits hothers)

theorem TypedUnits.freshen {plain called carried : List String} {mark ρ : String → String}
    (h : TypedUnits env nodes env') (hmark : Marking plain carried mark ρ)
    (hnodes : ApartUnits called carried nodes) (hnames : ∀ x ∈ Node.namesAll nodes, x ∈ plain) :
    TypedUnits env (nodes.map (Node.freshen mark [])) env' := by
  induction h with
  | nil => exact .nil _
  | cons hscheme _ ih =>
      obtain ⟨⟨name, body, heq, hbody, hapart⟩, hnodes⟩ := List.forall_mem_cons.mp hnodes
      obtain ⟨rfl, rfl⟩ := Node.declaration.inj heq
      obtain ⟨hnames, hothers⟩ := List.forall_mem_append.mp hnames
      obtain ⟨-, hnames⟩ := List.forall_mem_cons.mp hnames
      refine .cons (fun ty hinstance => ?_) (ih hnodes hothers)
      cases hscheme ty hinstance with
      | declaration h =>
          refine .declaration (.of_rename (hmark.respects_freshen hbody hapart hnames)
            ((hmark.rename_freshen hbody hapart hnames).symm ▸ h) fun x hx ty hvar => ?_)
          rwa [hmark.fixes x (hmark.mem_plain_of_mem_freeNames hnames hx)] at hvar

theorem Declared.declareAll (h : Declared names env session.table)
    (hunits : TypedUnits env nodes env')
    (hnodes : ∀ name body, .declaration name body ∈ nodes →
      body.Formed (· ∉ names) ∧ ∀ x ∈ body.keptNames, x ∈ names)
    {result : Except SessionError Unit}
    (hrun : session.declareAll depth (nodes.map .ok) = some (result, session')) :
    (result = .ok () ∧ session'.root = session.root ∧ Declared names env' session'.table) ∨
      ∃ error, result = .error (.evaluation error) ∧ error.isUntyped = true := by
  induction hunits generalizing session with
  | nil =>
      cases hrun
      exact .inl ⟨rfl, rfl, h⟩
  | @cons _ _ name body _ _ hscheme _ ih =>
      obtain ⟨hbody, hkept⟩ := hnodes name body List.mem_cons_self
      obtain ⟨⟨outcome, middle⟩, heval, hrest⟩ := Option.bind_eq_some_iff.mp hrun
      obtain ⟨hgives, hroot⟩ := Eval.gives_of_evaluate heval
      rcases h.declare hscheme hbody hkept hgives with ⟨outcome, rfl, hdeclared⟩ |
        ⟨error, rfl, herror⟩
      · rw [← hroot]
        exact ih hdeclared (fun name body hmem =>
          hnodes name body (List.mem_cons_of_mem _ hmem)) hrest
      · cases hrest
        exact .inr ⟨error, rfl, herror⟩

theorem Declared.rootValue (h : Declared names env session.table)
    {result : Except SessionError Node}
    (hrun : session.rootValue depth = some (result, session')) :
    (∃ error, result = .error (.evaluation error) ∧ error.isUntyped = true) ∨
      ∃ value scheme, result = .ok value ∧ env.get? session.root = some scheme ∧
        scheme.ty.Describes value := by
  rw [Session.rootValue] at hrun
  split at hrun
  · cases hrun
    exact .inl ⟨_, rfl, rfl⟩
  · next root hroot =>
      obtain ⟨scheme, hscheme, htyped⟩ := h.typed hroot
      obtain ⟨⟨outcome, middle⟩, heval, hrest⟩ := Option.bind_eq_some_iff.mp hrun
      obtain ⟨hgives, -⟩ := Eval.gives_of_evaluate heval
      have hformed := (h.values _ _ hroot).2
      have hresult := isSafe_evaluate h.provides depth hformed holdsValues_emptyScope (.nil _)
        (htyped _ scheme.hasInstance_self) hgives
      have htidy := isTidy_evaluate (· ∉ names) depth hformed holdsValues_emptyScope h.values hgives
      cases outcome with
      | error error =>
          obtain rfl : error = .divisionByZero := hresult
          cases hrest
          exact .inl ⟨_, rfl, rfl⟩
      | ok outcome =>
          cases hrest
          have hvalue := htidy.isValue rfl (htidy.complete rfl
            (Node.mentionsUnresolved_eq_false.mpr fun _ _ => rfl))
          exact .inr ⟨_, scheme, rfl, hscheme, HasType.describes hresult hvalue⟩

theorem EvalError.isUntyped_rename (ρ : String → String) (error : EvalError) :
    (error.rename ρ).isUntyped = error.isUntyped := by
  cases error <;> rfl

theorem Ty.Describes.rename {ty : Ty} {value : Node} (h : ty.Describes value)
    (ρ : String → String) : ty.Describes (value.rename ρ) := by
  cases value with
  | integer | float | boolean => exact h
  | function =>
      cases ty with
      | func => trivial
      | _ => cases h
  | _ => cases ty <;> cases h

theorem apartUnits_of_parameterNames
    (hnodes : ∀ node ∈ nodes, ∃ name body, node = .declaration name body ∧ body.IsExpression)
    (hapart : ∀ x ∈ parameterNames nodes, x ∉ carriedNames nodes) :
    ApartUnits (calledNames nodes) (carriedNames nodes) nodes := by
  intro node hmem
  obtain ⟨name, body, rfl, hbody⟩ := hnodes node hmem
  refine ⟨name, body, rfl, hbody, fun x hx => hapart x ?_, fun x hx => ?_, fun x =>
    notMem_calledNames hmem⟩
  · exact List.mem_flatMap.mpr ⟨body, List.mem_filterMap.mpr ⟨_, hmem, rfl⟩, hx⟩
  · exact List.mem_flatMap.mpr ⟨_, hmem, hx⟩

/-- A text of declarations that is read and typed without complaint, and whose parameters are
none of the names that functions use for declarations as far as the functions are handed on,
evaluates to a value of the type of its root. Otherwise it fails by a division by zero, a name
that is declared twice, a declaration that depends on itself, or for want of a root. -/
theorem compile_type_safe {source : String} {result : Except SessionError Node}
    (hread : readProgram source = .ok (nodes, []))
    (hnodes : ∀ node ∈ nodes, ∃ name body, node = .declaration name body)
    (hinfer : inferTop nodes = .ok env)
    (hapart : ∀ x ∈ parameterNames nodes, x ∉ carriedNames nodes) (htable : session.table = [])
    (hrun : session.compile depth source = some (result, session')) :
    (∃ error, result = .error (.evaluation error) ∧ error.isUntyped = true) ∨
      ∃ value scheme, result = .ok value ∧ env.get? session.root = some scheme ∧
        scheme.ty.Describes value := by
  obtain ⟨stream, hstream, hresults, hexpressions⟩ := readAll_declaration hread hnodes
  obtain ⟨next, hinferred⟩ := inferTop_eq_ok.mp hinfer
  have htyped := Infer.typedUnits_of_units (Infer.closedAt_empty 0) hinferred hnodes
  have hunits := apartUnits_of_parameterNames hexpressions hapart
  -- The run is that of the declarations with marked parameters, which are apart from all names.
  obtain ⟨mark, ρ, hmark⟩ := exists_marking (Node.namesAll nodes) (carriedNames nodes)
  have hempty : Declared (Node.namesAll nodes) .empty session.table := htable ▸ .empty _
  have hportable : session.table.Portable ρ (calledNames nodes) := htable ▸ Table.portable_nil ρ _
  have hsession : session.rename ρ = session := by
    cases session with
    | mk root table =>
        obtain rfl : table = [] := htable
        rfl
  simp only [Session.compile, hstream, hresults] at hrun
  obtain ⟨⟨outcome, middle⟩, hrenamed, hrest⟩ := Option.bind_eq_some_iff.mp hrun
  rw [← hsession] at hrenamed
  obtain ⟨outcome, middle, rfl, rfl, hdeclare, hmiddle⟩ :=
    hmark.exists_declareAll hunits (fun _ => id) hportable hrenamed
  rcases hempty.declareAll (htyped.freshen hmark hunits fun _ => id)
    (fun _ _ => hmark.formed_units hunits fun _ => id) hdeclare with
    ⟨rfl, hroot, hdeclared⟩ | ⟨error, rfl, herror⟩
  · rw [Except.mapError, Session.rootValue_rename hmiddle] at hrest
    obtain ⟨⟨outcome, final⟩, hvalue, heq⟩ := Option.map_eq_some_iff.mp hrest
    obtain ⟨rfl, -⟩ := Prod.mk.inj heq
    rw [← hroot]
    rcases hdeclared.rootValue hvalue with ⟨error, rfl, herror⟩ |
      ⟨value, scheme, rfl, hscheme, hdescribes⟩
    · exact .inl ⟨_, rfl, (error.isUntyped_rename ρ).trans herror⟩
    · exact .inr ⟨_, scheme, rfl, hscheme, hdescribes.rename ρ⟩
  · cases hrest
    exact .inl ⟨_, rfl, (error.isUntyped_rename ρ).trans herror⟩

theorem yields_wrapped_identity :
    (Infer.unit ⟨[("i", ⟨[1], .func (.var 1) (.var 1)⟩)]⟩
      (.declaration "h" (.function "n" (.apply (.var "i") (.var "n"))))).Yields 2
      ⟨[("h", ⟨[5], .func (.var 5) (.var 5)⟩), ("i", ⟨[1], .func (.var 1) (.var 1)⟩)]⟩ 6 := by
  refine Infer.yields_unit.mpr (.inr ⟨"h", _, .func (.var 5) (.var 5), rfl,
    Infer.yields_declaration.mpr ⟨_, _, .single 2 (.func (.var 5) (.var 5)),
      Infer.yields_function.mpr ⟨_, Infer.yields_apply.mpr ⟨.empty, .func (.var 4) (.var 4), 5,
        .empty, .var 3, 5, (Subst.single 3 (.var 5)).compose (.single 4 (.var 3)), ?_, ?_, ?_,
        rfl, rfl, rfl⟩, rfl⟩, (unify_eq_unifyBy _ _).trans rfl, rfl, rfl⟩, rfl⟩)
  · exact Infer.yields_var.mpr ⟨_, rfl, rfl, rfl, rfl⟩
  · exact Infer.yields_var.mpr ⟨_, rfl, rfl, rfl, rfl⟩
  · exact unify_func ((unify_eq_unifyBy _ _).trans rfl) ((unify_eq_unifyBy _ _).trans rfl)

/-- A parameter can have the name of a declaration that a function uses, as long as the function
is only called. -/
theorem compile_type_safe_shared_name :
    ∃ nodes env,
      readProgram "i x = x\nh n = i n\nz i = h 2\nview = z 5" = .ok (nodes, []) ∧
      inferTop nodes = .ok env ∧ (∀ x ∈ parameterNames nodes, x ∉ carriedNames nodes) ∧
      (Session.compile 12 {} "i x = x\nh n = i n\nz i = h 2\nview = z 5").map Prod.fst =
        some (.ok (.integer 2)) ∧
      ∃ scheme, env.get? "view" = some scheme ∧ scheme.ty.Describes (.integer 2) := by
  have hread : readProgram "i x = x\nh n = i n\nz i = h 2\nview = z 5" =
      .ok ([.declaration "i" (.function "x" (.var "x")),
        .declaration "h" (.function "n" (.apply (.var "i") (.var "n"))),
        .declaration "z" (.function "i" (.apply (.var "h") (.integer 2))),
        .declaration "view" (.apply (.var "z") (.integer 5))], []) :=
    readProgram_eq_ok rfl (by decide +kernel)
  have hinfer : inferTop
      [.declaration "i" (.function "x" (.var "x")),
      .declaration "h" (.function "n" (.apply (.var "i") (.var "n"))),
      .declaration "z" (.function "i" (.apply (.var "h") (.integer 2))),
      .declaration "view" (.apply (.var "z") (.integer 5))] =
      .ok ⟨[("view", ⟨[13], .number 13⟩), ("z", ⟨[7, 9], .func (.var 7) (.number 9)⟩),
        ("h", ⟨[5], .func (.var 5) (.var 5)⟩), ("i", ⟨[1], .func (.var 1) (.var 1)⟩)]⟩ := by
    let known : TypeEnv := ⟨[("h", ⟨[5], .func (.var 5) (.var 5)⟩),
      ("i", ⟨[1], .func (.var 1) (.var 1)⟩)]⟩
    let entered : TypeEnv := known.insert "z" ⟨[7, 9], .func (.var 7) (.number 9)⟩
    have hz : (Infer.unit known (.declaration "z"
        (.function "i" (.apply (.var "h") (.integer 2))))).Yields 6 entered 11 :=
      Infer.yields_unit.mpr (.inr ⟨"z", _, .func (.var 7) (.number 9), rfl,
        Infer.yields_declaration.mpr ⟨_, _, .single 6 (.func (.var 7) (.number 9)),
          Infer.yields_function.mpr ⟨_, Infer.yields_apply.mpr ⟨.empty, .func (.var 8) (.var 8), 9,
            .empty, .number 9, 10, (Subst.single 10 (.number 9)).compose (.single 8 (.number 9)),
            Infer.yields_var.mpr ⟨_, rfl, rfl, rfl, rfl⟩,
            Infer.yields_integer.mpr ⟨rfl, rfl, rfl⟩,
            unify_func ((unify_eq_unifyBy _ _).trans rfl) ((unify_eq_unifyBy _ _).trans rfl),
            rfl, rfl, rfl⟩, rfl⟩, (unify_eq_unifyBy _ _).trans rfl, rfl, rfl⟩, rfl⟩)
    have hview : (Infer.unit entered (.declaration "view"
        (.apply (.var "z") (.integer 5)))).Yields 11
        (entered.insert "view" ⟨[13], .number 13⟩) 16 :=
      Infer.yields_unit.mpr (.inr ⟨"view", _, .number 13, rfl,
        Infer.yields_declaration.mpr ⟨_, .number 13, .single 11 (.number 13),
          Infer.yields_apply.mpr ⟨.empty, .func (.var 12) (.number 13), 14, .empty, .number 14, 15,
            (Subst.single 15 (.number 13)).compose (.single 12 (.number 14)),
            Infer.yields_var.mpr ⟨_, rfl, rfl, rfl, rfl⟩,
            Infer.yields_integer.mpr ⟨rfl, rfl, rfl⟩,
            unify_func ((unify_eq_unifyBy _ _).trans rfl) ((unify_eq_unifyBy _ _).trans rfl),
            rfl, rfl, rfl⟩, (unify_eq_unifyBy _ _).trans rfl, rfl, rfl⟩, rfl⟩)
    exact inferTop_eq_ok.mpr ⟨16, Infer.yields_units_cons.mpr ⟨_, _,
      Infer.yields_unit_identity .empty "i" "x" 0, Infer.yields_units_cons.mpr ⟨_, _,
        yields_wrapped_identity, Infer.yields_units_cons.mpr ⟨_, _, hz,
          Infer.yields_units_cons.mpr ⟨_, _, hview, rfl⟩⟩⟩⟩⟩
  obtain ⟨stream, hstream, hresults, -⟩ := readAll_declaration hread (by simp)
  have hresult : (Session.compile 12 {} "i x = x\nh n = i n\nz i = h 2\nview = z 5").map Prod.fst =
      some (.ok (.integer 2)) := by
    simp only [Session.compile, hstream, hresults]
    rfl
  obtain ⟨⟨result, session⟩, hcompile, rfl⟩ := Option.map_eq_some_iff.mp hresult
  refine ⟨_, _, hread, hinfer, by decide, hresult, ?_⟩
  rcases compile_type_safe hread (by simp) hinfer (by decide) rfl hcompile with
    ⟨error, heq, -⟩ | ⟨value, scheme, heq, hscheme, hdescribes⟩
  · cases heq
  · obtain rfl := Except.ok.inj heq
    exact ⟨scheme, hscheme, hdescribes⟩

/-- A parameter that has the name of a declaration that a function uses: the function is put in
under the parameter, and takes it for the declaration. -/
theorem compile_captured_not_a_function :
    ∃ nodes env,
      readProgram "i x = x\nh n = i n\nz i = h\nview = z 5 2" = .ok (nodes, []) ∧
      (∀ node ∈ nodes, ∃ name body, node = .declaration name body) ∧ inferTop nodes = .ok env ∧
      (Session.compile 12 {} "i x = x\nh n = i n\nz i = h\nview = z 5 2").map Prod.fst =
        some (.error (.evaluation (.notAFunction (.integer 5)))) := by
  have hread : readProgram "i x = x\nh n = i n\nz i = h\nview = z 5 2" =
      .ok ([.declaration "i" (.function "x" (.var "x")),
        .declaration "h" (.function "n" (.apply (.var "i") (.var "n"))),
        .declaration "z" (.function "i" (.var "h")),
        .declaration "view" (.apply (.apply (.var "z") (.integer 5)) (.integer 2))], []) :=
    readProgram_eq_ok rfl (by decide +kernel)
  obtain ⟨stream, hstream, hresults, -⟩ := readAll_declaration hread (by simp)
  let known : TypeEnv := ⟨[("z", ⟨[7, 8], .func (.var 7) (.func (.var 8) (.var 8))⟩),
    ("h", ⟨[5], .func (.var 5) (.var 5)⟩), ("i", ⟨[1], .func (.var 1) (.var 1)⟩)]⟩
  let ty : Ty := .func (.var 11) (.var 11)
  have hz : (Infer.unit ⟨[("h", ⟨[5], .func (.var 5) (.var 5)⟩),
      ("i", ⟨[1], .func (.var 1) (.var 1)⟩)]⟩ (.declaration "z" (.function "i" (.var "h")))).Yields
      6 known 9 :=
    Infer.yields_unit.mpr (.inr ⟨"z", _, .func (.var 7) (.func (.var 8) (.var 8)), rfl,
      Infer.yields_declaration.mpr ⟨_, _, .single 6 (.func (.var 7) (.func (.var 8) (.var 8))),
        Infer.yields_function.mpr ⟨_, Infer.yields_var.mpr ⟨_, rfl, rfl, rfl, rfl⟩, rfl⟩,
        (unify_eq_unifyBy _ _).trans rfl, rfl, rfl⟩, rfl⟩)
  have hcallee : (Infer.node (known.insert "view" ⟨[], .var 9⟩)
      (.apply (.var "z") (.integer 5))).Yields 10 (⟨[(10, .number 12), (13, ty)]⟩, ty) 14 :=
    Infer.yields_apply.mpr ⟨.empty, .func (.var 10) ty, 12, .empty, .number 12, 13,
      (Subst.single 13 ty).compose (.single 10 (.number 12)),
      Infer.yields_var.mpr ⟨_, rfl, rfl, rfl, rfl⟩, Infer.yields_integer.mpr ⟨rfl, rfl, rfl⟩,
      unify_func ((unify_eq_unifyBy _ _).trans rfl) ((unify_eq_unifyBy _ _).trans rfl),
      rfl, rfl, rfl⟩
  have hview : (Infer.unit known (.declaration "view"
      (.apply (.apply (.var "z") (.integer 5)) (.integer 2)))).Yields 9
      (known.insert "view" ⟨[14], .number 14⟩) 16 :=
    Infer.yields_unit.mpr (.inr ⟨"view", _, .number 14, rfl,
      Infer.yields_declaration.mpr ⟨_, .number 14, .single 9 (.number 14),
        Infer.yields_apply.mpr ⟨_, _, _, .empty, .number 14, 15,
          (Subst.single 15 (.number 14)).compose (.single 11 (.number 14)), hcallee,
          Infer.yields_integer.mpr ⟨rfl, rfl, rfl⟩,
          unify_func ((unify_eq_unifyBy _ _).trans rfl) ((unify_eq_unifyBy _ _).trans rfl),
          rfl, rfl, rfl⟩, (unify_eq_unifyBy _ _).trans rfl, rfl, rfl⟩, rfl⟩)
  refine ⟨_, known.insert "view" ⟨[14], .number 14⟩, hread, by simp, ?_, ?_⟩
  · exact inferTop_eq_ok.mpr ⟨16, Infer.yields_units_cons.mpr ⟨_, _,
      Infer.yields_unit_identity .empty "i" "x" 0, Infer.yields_units_cons.mpr ⟨_, _,
        yields_wrapped_identity, Infer.yields_units_cons.mpr ⟨_, _, hz,
          Infer.yields_units_cons.mpr ⟨_, _, hview, rfl⟩⟩⟩⟩⟩
  · simp only [Session.compile, hstream, hresults]
    rfl

end Programs

end Viewlet
